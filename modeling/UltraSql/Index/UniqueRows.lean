import UltraSql.Index.UniqueInv

/-!
# No two rows with one key

**Theorem (`unique_key_seen_once`).** In every run in which the index is not asked for the key of a
superseded entry and nobody with an old snapshot enters a key of which they still see a version, no
snapshot sees two versions with the same key, and a probe that finds no conflict has none.

The first condition fails in practice. After an UPDATE that keeps the key the entry leads to the
superseded version, which a probe takes for dead as soon as the UPDATE has committed.
-/

namespace UltraSql.Index.Unique

open List Function Option
open Timeline (Client Visit)
open Heap

variable {ρ κ : Type} [DecidableEq κ] {key : ρ → Option κ} {s s' : State ρ κ} {act : Act ρ}
  {x y n m : ℕ} {c d : Client} {v w : Tuple ρ}

/-! ## Statements -/

variable {st : Stmt ρ κ}

omit [DecidableEq κ] in
theorem Stmt.pending_of_done (h : st.done = true) : st.pending = [] := by
  simp only [Stmt.done, Bool.and_eq_true, List.isEmpty_iff] at h
  rw [Stmt.pending, h.1.2, h.2]
  rfl

variable {p : ℕ × κ}

omit [DecidableEq κ] in
theorem Stmt.mem_pending_addJob {tid : ℕ} {k : Option κ} {u : Bool} :
    p ∈ (st.addJob tid k u).pending ↔ p ∈ st.pending ∨ p.1 = tid ∧ k = some p.2 := by
  obtain ⟨n, k'⟩ := p
  cases k with
  | none => simp [Stmt.pending, Stmt.addJob]
  | some k =>
    simp only [Stmt.pending, Stmt.addJob, toList_some, map_append, map_cons,
      map_nil, mem_append, mem_singleton, Prod.mk.injEq, some.injEq,
      eq_comm (a := k)]
    tauto

variable {stmt : ℕ → Stmt ρ κ}

omit [DecidableEq κ] in
theorem pending_of_update (hst : ∀ p ∈ st.pending, p ∈ (stmt x).pending)
    (h : p ∈ (update stmt x st y).pending) : p ∈ (stmt y).pending :=
  of_update stmt (P := (p ∈ ·.pending)) h (hst p)

omit [DecidableEq κ] in
theorem update_pending (hst : ∀ p ∈ (stmt x).pending, p ∈ st.pending) (y : ℕ) (p : ℕ × κ)
    (h : p ∈ (stmt y).pending) : p ∈ (update stmt x st y).pending :=
  to_update stmt (P := (p ∈ ·.pending)) h (hst p)

omit [DecidableEq κ] in
theorem current_of_update {r : Replacement κ} (h : (update stmt x st y).current = r)
    (hst : st.current = r → (stmt x).current = r) : (stmt y).current = r :=
  of_update stmt (P := (·.current = r)) h hst

namespace Inv

variable (hi : Inv key s)

include hi

variable {ts : List (Tuple ρ)}

/-- The statements, the index and the transactions stay. -/
theorem frame_tuples (h : TableStep s.txn s.tuples s.txn ts) (hlen : ts.length ≤ s.tuples.length) :
    Inv key { s with tuples := ts } := by
  refine hi.frame h rfl (fun _ _ h => h) (fun n v hn hv => ?_) (fun y n k hmem => ?_)
    fun y tid k n hcur => ?_
  · exact absurd (lt_length hv) (not_lt.2 (hlen.trans hn))
  · exact (hi.pending y n k hmem).kept hi.table h fun d hd => ⟨d, hd, .refl d⟩
  · exact (hi.replaced y tid k n hcur).kept hi.table h

variable {st : Stmt ρ κ}

/-- A statement goes on without a change to the heap or the index. -/
theorem frame_stmt (hpend : ∀ p, p ∈ st.pending ↔ p ∈ (s.stmt x).pending)
    (hcur : ∀ tid k n, st.current = .replacing tid k (some n) → DeadEnd key s.txn s.tuples n) :
    Inv key (s.setStmt x st) := by
  refine hi.frame .keep rfl (update_pending fun p => (hpend p).2) (fun n v hn hv => ?_)
    (fun y n k hmem => ?_) fun y => ?_
  · exact absurd (lt_length hv) (not_lt.2 hn)
  · exact hi.pending y n k (pending_of_update (fun p => (hpend p).1) hmem)
  · exact to_update s.stmt (P := fun st => ∀ tid k n, st.current = .replacing tid k (some n) →
      DeadEnd key s.txn s.tuples n) (hi.replaced y) fun _ => hcur

variable {k : κ} {tid : ℕ}

/-- The entry that is taken out leads to dead versions only. -/
theorem remove {dead : Option ℕ} (hcur : (s.stmt x).current = .replacing tid k dead) :
    Inv key { s with
      index := removeDead s.index k dead
      stmt := update s.stmt x { s.stmt x with current := .adding tid k } } := by
  have hpend : ∀ p, p ∈ ({ s.stmt x with current := .adding tid k } : Stmt ρ κ).pending ↔
      p ∈ (s.stmt x).pending := by
    intro p
    rw [Stmt.pending, Stmt.pending, hcur]
    rfl
  have hset : Inv key (s.setStmt x { s.stmt x with current := .adding tid k }) :=
    hi.frame_stmt hpend fun _ _ _ h => by cases h
  refine ⟨hset.table, hset.pending, hset.replaced, fun n v k' hv hkey hp hd => ?_, hset.apart⟩
  obtain ⟨r, hlook, hl⟩ := hset.complete n v k' hv hkey hp hd
  refine ⟨r, ?_, hl⟩
  have hlook : s.index.lookup k' = some r := hlook
  cases dead with
  | none => exact hlook
  | some i =>
    show (deleteKey s.index k i).lookup k' = some r
    unfold deleteKey
    split_ifs with hki
    · rw [FiniteMap.lookup_erase_eq, if_neg]
      · exact hlook
      · rintro rfl
        obtain rfl := mem_unique hlook hki
        exact hd ((hi.replaced x tid k' r hcur).dead hi.table hl hv)
    · exact hlook

/-- A dead version is apart from a new one that a running transaction has made. -/
theorem apart_of_dead (hun : c.handle.isolation ≠ .readCommitted →
      isVisible v.header c.handle.snapshot s.txn.mgr.status ≠ .visible)
    (hc : s.txn.clients.lookup x = some c) (hp : c.phase = .running)
    (hv : s.tuples[n]? = some v) (hd : Dead s.txn v.header)
    (hins : w.header.ins = ⟨x, x, c.handle.currentCommand⟩) :
    Apart s.txn v.header w.header := by
  have htxn := hi.table.txn
  rcases hd with hu | ⟨hx, d, hd, hcom⟩
  · exact .left hu
  · have hh := hi.table.header n v hv
    obtain ⟨e, he⟩ := htxn.exists_ended hd hcom
    have hend : ∀ e', s.txn.ended x = some e' → e < e' := fun e' he' => by
      rw [htxn.ended_eq_none hc hp] at he'
      cases he'
    -- the snapshot of the transaction is new with its next command, or sees the deletion
    have hover : (c.handle.isolation ≠ .readCommitted → e < c.view) →
        Apart s.txn v.header w.header := fun hview => by
      refine .isOver hx (hins ▸ .seen d e hd hcom he (fun c' hc' hcond => ?_) hend)
      obtain rfl := mem_unique hc hc'
      exact hview (hcond.resolve_right (lt_irrefl _))
    by_cases hiso : c.handle.isolation = .readCommitted
    · exact hover fun h => absurd hiso h
    · have hvis := hun hiso
      rw [← snapshotAt_current (htxn.client x c hc).command,
        hh.isVisible_eq htxn hi.table.solo hc hp] at hvis
      by_cases hseen : sees s.txn x c.handle.currentCommand v.header.ins = true
      · rw [if_pos hseen] at hvis
        split_ifs at hvis with hdel
        all_goals first
          | exact absurd rfl hvis
          | exact hover fun _ => by
              obtain ⟨-, -, e', he', hlt⟩ :=
                (sees_foreign hc hd (htxn.ne_of_ended hc hp he)).1 hdel.2
              obtain rfl := mem_unique he he'
              exact hlt
      · -- its inserter committed after the snapshot
        have hins₀ : Committed s.txn v.header.xmin := by
          cases hh.isOver hx with
          | own ho =>
            rw [show v.header.xmin = v.header.xmax from ho.symm]
            exact ⟨d, hd, hcom⟩
          | seen d₀ e₀ hd₀ hcom₀ => exact ⟨d₀, hd₀, hcom₀⟩
        obtain ⟨d₀, hd₀, hcom₀⟩ := hins₀
        obtain ⟨e₀, he₀⟩ := htxn.exists_ended hd₀ hcom₀
        have hxmin : w.header.xmin = x := congrArg Stamp.xid hins
        refine .unseen d c e e₀ hx hd hcom he he₀ (hxmin ▸ hc) hiso (not_lt.1 fun hlt => hseen ?_)
          (hxmin ▸ hend)
        exact (sees_foreign hc hd₀ (htxn.ne_of_ended hc hp he₀)).2
          ⟨hcom₀, hh.inserted.held.own hi.table.solo htxn hd₀, e₀, he₀, hlt⟩

/-- **A key is entered** when all other versions with it are dead. -/
theorem add (hun : EntersUnseen key s (.add x)) (hc : s.txn.clients.lookup x = some c)
    (hp : c.phase = .running) (hcur : (s.stmt x).current = .adding tid k)
    (hfree : s.index.lookup k = none) :
    Inv key { s with
      index := s.index.insert k tid
      stmt := update s.stmt x { s.stmt x with current := .idle } } := by
  have hpending : (s.stmt x).pending =
      ({ s.stmt x with current := .idle } : Stmt ρ κ).pending ++ [(tid, k)] := by
    rw [Stmt.pending, Stmt.pending, hcur]
    simp [Replacement.pair]
  obtain ⟨w, hw, hxmin, hkey, d, hd, -, hcmin⟩ := (hi.pending x tid k (by simp [hpending])).row
  obtain rfl := mem_unique hc hd
  have hins : w.header.ins = ⟨x, x, c.handle.currentCommand⟩ := by
    rw [TupleHeader.ins, hxmin, hcmin]
  -- the versions that count, the new one apart, were entered before
  have hold : ∀ {n v}, n ≠ tid → ¬ Pending { s with
      index := s.index.insert k tid
      stmt := update s.stmt x { s.stmt x with current := .idle } } n v →
        ¬ Pending s n v := by
    rintro n v hne hnot ⟨κ, hmem⟩
    refine hnot ⟨κ, ?_⟩
    show _ ∈ (update s.stmt x _ v.header.xmin).pending
    by_cases hvx : v.header.xmin = x
    · rw [hvx, hpending, mem_append, mem_singleton] at hmem
      rw [hvx, update_self]
      exact hmem.resolve_right fun h => hne (congrArg Prod.fst h)
    · rwa [update_of_ne hvx]
  have hdead : ∀ {n v}, s.tuples[n]? = some v → key v.row = some k → ¬ Pending s n v →
      Dead s.txn v.header := by
    intro n v hv hk hnp
    by_contra hnd
    obtain ⟨r, hlook, -⟩ := hi.complete n v k hv hk hnp hnd
    rw [hfree] at hlook
    cases hlook
  have hsub : ∀ p ∈ ({ s.stmt x with current := .idle } : Stmt ρ κ).pending,
      p ∈ (s.stmt x).pending := fun p hmem => hpending ▸ mem_append_left _ hmem
  have hapart : ∀ {n v}, n ≠ tid → s.tuples[n]? = some v → key v.row = some k → ¬ Pending s n v →
      Apart s.txn v.header w.header := by
    intro n v hne hv hk hnp
    refine hi.apart_of_dead (fun hiso => ?_) hc hp hv (hdead hv hk hnp) hins
    have hun' := hun
    simp only [EntersUnseen, running_eq_some.2 ⟨hc, hp⟩, hcur] at hun'
    exact hun' hiso n (lt_length hv) hne v hv hk
  refine ⟨hi.table, fun y n k hmem => hi.pending y n k (pending_of_update hsub hmem),
    fun y i k n h => hi.replaced y i k n (current_of_update h nofun),
    fun n v k' hv hk hnp hnd => ?_, fun n m v v' k' hne hv hv' hk hk' hnp hnp' => ?_⟩
  · show ∃ r, (s.index.insert k tid).lookup k' = some r ∧ _
    rw [FiniteMap.lookup_insert_eq]
    by_cases hn : n = tid
    · subst hn
      obtain rfl := mem_unique hw hv
      rw [if_pos (mem_unique hk hkey)]
      exact ⟨n, rfl, .refl⟩
    · by_cases hkk : k' = k
      · subst hkk
        exact absurd (hdead hv hk (hold hn hnp)) hnd
      · rw [if_neg hkk]
        exact hi.complete n v k' hv hk (hold hn hnp) hnd
  · by_cases hn : n = tid
    · subst hn
      obtain rfl := mem_unique hw hv
      obtain rfl := mem_unique hk hkey
      exact .inr (hapart hne.symm hv' hk' (hold hne.symm hnp'))
    · by_cases hm : m = tid
      · subst hm
        obtain rfl := mem_unique hw hv'
        obtain rfl := mem_unique hk' hkey
        exact .inl (hapart hn hv hk (hold hn hnp))
      · exact hi.apart n m v v' k' hne hv hv' hk hk' (hold hn hnp) (hold hm hnp')

variable {t' : Timeline.State}

/-- The transactions take a step, and the statement of one may begin. -/
theorem time {b : Timeline.Act} (hb : b.plain = true) (ht : Timeline.Timely s.txn b = true)
    (hdone : allowed s b = true) (h : Timeline.step s.txn b = some t') :
    Inv key { s with txn := t', stmt := restart s.stmt b } := by
  have hrestart : ∀ y, restart s.stmt b y = s.stmt y ∨
      restart s.stmt b y = {} ∧ (s.stmt y).pending = [] := by
    intro y
    cases b with
    | refresh x =>
      by_cases hyx : y = x
      · subst hyx
        exact .inr ⟨update_self .., Stmt.pending_of_done hdone⟩
      · exact .inl (update_of_ne hyx ..)
    | _ => exact .inl rfl
  have hmem : ∀ {y p}, p ∈ (restart s.stmt b y).pending → p ∈ (s.stmt y).pending := by
    intro y p hp
    rcases hrestart y with heq | ⟨heq, -⟩
    · rwa [heq] at hp
    · rw [heq] at hp
      cases hp
  have hstep : TableStep s.txn s.tuples t' s.tuples := .time hb ht h
  refine hi.frame hstep rfl (fun y p hp => ?_) (fun n v hn hv => ?_) (fun y n k hp => ?_)
    fun y tid k n hcur => ?_
  · show p ∈ (restart s.stmt b y).pending
    rcases hrestart y with heq | ⟨-, hnil⟩
    · rwa [heq]
    · rw [hnil] at hp
      cases hp
  · exact absurd (lt_length hv) (not_lt.2 hn)
  · have hp := hmem hp
    have hopen : ¬ (s.stmt y).done = true := fun hd => by
      rw [Stmt.pending_of_done hd] at hp
      cases hp
    refine (hi.pending y n k hp).kept hi.table hstep fun d hd => ?_
    obtain ⟨d', hd', -⟩ := (hi.table.ages hstep).evolves.moves y d hd
    refine ⟨d', hd', Timeline.steady hi.table.txn hb h ?_ ?_ hd hd'⟩
    · rintro xmax rfl
      exact hopen hdone
    · rintro rfl
      exact hopen hdone
  · refine .kept hi.table ?_ hstep
    have hcur : (restart s.stmt b y).current = .replacing tid k (some n) := hcur
    rcases hrestart y with heq | ⟨heq, -⟩
    · exact hi.replaced y tid k n (heq ▸ hcur)
    · rw [heq] at hcur
      cases hcur

theorem visit {u : ℕ × Visit} (h : s.txn.nextVisit x = some (u, t')) :
    Inv key { s with txn := s.txn.tick t' } := by
  have hstep : TableStep s.txn s.tuples (s.txn.tick t') s.tuples := .visit h
  refine hi.frame hstep rfl (fun _ _ h => h) (fun n v hn hv => ?_) (fun y n k hp => ?_)
    fun y tid k n hcur => (hi.replaced y tid k n hcur).kept hi.table hstep
  · exact absurd (lt_length hv) (not_lt.2 hn)
  · refine (hi.pending y n k hp).kept hi.table hstep fun d hd => ?_
    obtain ⟨d', hd', -⟩ := (hi.table.ages hstep).evolves.moves y d hd
    obtain ⟨c, p, todo, hc, rfl, hv⟩ := Timeline.nextVisit_eq_some h
    refine ⟨d', hd', Timeline.rel_setClient hc hd hd' (.refl d) fun _ => ⟨rfl, fun _ hcom => ?_⟩⟩
    have hopen := hv.status.trans hv.isOpen
    rw [show p = .committed from hcom] at hopen
    cases hopen

section

variable (hc : s.txn.clients.lookup x = some c) (hp : c.phase = .running)
include hc hp

/-- A new version whose key is to be entered or is NULL. -/
theorem frame_write {k : Option κ} {u : Bool} (h : TableStep s.txn s.tuples s.txn ts)
    (hlen : ts.length = s.tuples.length + 1) (hpend : st.pending = (s.stmt x).pending)
    (hcur : st.current = (s.stmt x).current) (hw : ts[s.tuples.length]? = some w)
    (hins : w.header.ins = ⟨x, x, c.handle.currentCommand⟩) (hkey : key w.row = k) :
    Inv key { s with
      tuples := ts, stmt := update s.stmt x (st.addJob s.tuples.length k u) } := by
  refine hi.frame h rfl (update_pending fun p hp => ?_) (fun n v hn hv => ?_)
    (fun y n k' hmem => ?_) fun y tid k n h' => ?_
  · exact Stmt.mem_pending_addJob.2 (.inl (hpend ▸ hp))
  · obtain rfl : n = s.tuples.length := by
      have : n < ts.length := lt_length hv
      omega
    obtain rfl := mem_unique hv hw
    cases k with
    | none => exact .inl hkey
    | some k =>
      refine .inr ⟨k, ?_⟩
      rw [show v.header.xmin = x from congrArg Stamp.xid hins]
      show _ ∈ (update s.stmt x _ x).pending
      rw [update_self]
      exact Stmt.mem_pending_addJob.2 (.inr ⟨rfl, rfl⟩)
  · have hold : (n, k') ∈ (s.stmt y).pending → PendingInv key s.txn ts y n k' := fun hmem =>
      (hi.pending y n k' hmem).kept hi.table h fun d hd => ⟨d, hd, .refl d⟩
    have hmem : (n, k') ∈ (update s.stmt x _ y).pending := hmem
    rcases update_cases s.stmt x (st.addJob s.tuples.length k u) y with heq | ⟨rfl, heq⟩ <;>
      rw [heq] at hmem
    · exact hold hmem
    · rcases Stmt.mem_pending_addJob.1 hmem with hst | ⟨rfl, hk⟩
      · exact hold (hpend ▸ hst)
      · exact ⟨w, hw, congrArg Stamp.xid hins, hkey.trans hk, c, hc, by rw [hp]; nofun,
          congrArg Stamp.command hins⟩
  · exact .kept hi.table (hi.replaced y tid k n (current_of_update h' hcur.symm.trans)) h

/-- **A new version with the key of the old one** hangs on the same entry. -/
theorem update_kept {hot : Bool} {row : ρ} (hv : s.tuples[n]? = some v)
    (hw : writable s.txn c v.header = true) (hkey : key row = key v.row)
    (hpend : st.pending = (s.stmt x).pending) (hcur : st.current = (s.stmt x).current) :
    Inv key { s with
      tuples := updateTuple s.tuples n v hot c.handle.writeXid c.handle.currentCommand row
      stmt := update s.stmt x st } := by
  set ts := updateTuple s.tuples n v hot c.handle.writeXid c.handle.currentCommand row with hts
  have hstep : TableStep s.txn s.tuples s.txn ts := .update hc hp hv hw hot row
  have hlt := lt_length hv
  have hh := hi.table.header n v hv
  obtain ⟨hx, -, hover⟩ := over_of_writable hi.table.txn hi.table.solo hc hp hh.inserted hw
  have hund := not_undone_of_writable hi.table.txn hi.table.solo hc hp hh.inserted hw
  have hnp := hi.not_pending_of_writable hc hp hv hw
  have hwx := writeXid_eq hi.table.solo hc
  -- the new version and the old one
  obtain ⟨new, hnew, hrow, hins⟩ : ∃ new, ts[s.tuples.length]? = some new ∧ new.row = row ∧
      new.header.ins = ⟨x, x, c.handle.currentCommand⟩ := by
    refine ⟨_, getElem?_updateTuple_length, rfl, ?_⟩
    rw [← hwx]
    rfl
  have hlast : ∀ {i w}, ts[i]? = some w → s.tuples.length ≤ i → i = s.tuples.length ∧ new = w := by
    intro i w hw hle
    have hlt := lt_length hw
    rw [hts, updateTuple, length_append, length_set, length_singleton] at hlt
    obtain rfl : i = s.tuples.length := by omega
    exact ⟨rfl, mem_unique hnew hw⟩
  obtain ⟨old, hold, hrow', hdel, hnext⟩ : ∃ old, ts[n]? = some old ∧ old.row = v.row ∧
      old.header.del = ⟨x, x, c.handle.currentCommand⟩ ∧ old.next n = some s.tuples.length := by
    refine ⟨_, getElem?_updateTuple_self hv, rfl, ?_, next_superseded hlt.ne'⟩
    rw [← hwx]
    rfl
  have hpend' : ∀ {m : ℕ} {w w' : Tuple ρ}, Kept s.txn w w' →
      ¬ Pending { s with tuples := ts, stmt := update s.stmt x st } m w' →
        ¬ Pending s m w := by
    rintro m w w' hk hnot ⟨κ, hmem⟩
    refine hnot ⟨κ, update_pending (fun p h => hpend ▸ h) _ _ ?_⟩
    rw [hk.xmin_eq]
    exact hmem
  -- the new version is apart from the old ones with its key
  have hapart : ∀ (m : ℕ) w w' k, s.tuples[m]? = some w → ts[m]? = some w' → Kept s.txn w w' →
      key w'.row = some k → key new.row = some k → ¬ Pending s m w →
      Apart s.txn w'.header new.header ∨ Apart s.txn new.header w'.header := by
    intro m w w' k hm hm' hk hkw hkn hpm
    by_cases hmn : m = n
    · subst hmn
      obtain rfl := mem_unique hold hm'
      refine .inl (.isOver ?_ ?_)
      · rw [show old.header.xmax = x from congrArg Stamp.xid hdel]
        exact (held_writer hi.table.solo hc).ne_zero hi.table.txn
      · rw [hdel, hins]
        exact .own rfl le_rfl
    · have hsame : w' = w := by
        have : ts[m]? = s.tuples[m]? :=
          (getElem?_append_left (by rw [length_set]; exact lt_length hm)).trans
            (getElem?_set_ne (Ne.symm hmn))
        exact mem_unique hm' (this.trans hm)
      subst hsame
      have hkv : key v.row = some k := by rw [← hkey, ← hrow, hkn]
      rcases hi.apart m n w' v k hmn hm hv hkw hkv hpm hnp with ha | ha
      · exact .inl (ha.superseded hund hc hp hi.table.txn hins hover)
      · cases ha with
        | left hu => exact absurd hu hund
        | right hu => exact .inr (.right hu)
        | isOver hx' | unseen _ _ _ _ hx' => exact absurd hx hx'
  refine ⟨hi.table.step hstep, fun y n k hmem => ?_, fun y tid k n h' => ?_,
    fun m w' k hm' hkw hpm hdm => ?_, fun i j u w k hij hu hw' hku hkw hpu hpw => ?_⟩
  · exact (hi.pending y n k (pending_of_update (fun p h => hpend ▸ h) hmem)).kept hi.table hstep
      fun d hd => ⟨d, hd, .refl d⟩
  · exact .kept hi.table (hi.replaced y tid k n (current_of_update h' hcur.symm.trans)) hstep
  · rcases hi.table.old_or_new hstep hm' with ⟨w, hm, hk⟩ | hge
    · exact hi.complete_old hstep hm hk hkw (hpend' hk hpm) hdm
    · obtain ⟨rfl, rfl⟩ := hlast hm' hge
      have hkv : key v.row = some k := by rw [← hkey, ← hrow, hkw]
      have hdead : ¬ Dead s.txn v.header := by
        rintro (hu | ⟨hx', -⟩)
        · exact hund hu
        · exact hx' hx
      obtain ⟨r, hlook, hl⟩ := hi.complete n v k hv hkv hnp hdead
      refine ⟨r, hlook, .tail (hi.table.keyLeads_kept hstep hl hv hund) ?_⟩
      exact ⟨old, new, hold, hnew, hnext, by rw [hrow, hrow', hkey]⟩
  · rcases hi.table.old_or_new hstep hu with ⟨u₀, hu₀, hku₀⟩ | hi'
    · rcases hi.table.old_or_new hstep hw' with ⟨w₀, hw₀, hkw₀⟩ | hj'
      · exact hi.apart_old hstep hij hu₀ hw₀ hku₀ hkw₀ hku hkw (hpend' hku₀ hpu) (hpend' hkw₀ hpw)
      · obtain ⟨rfl, rfl⟩ := hlast hw' hj'
        exact hapart i u₀ u k hu₀ hu hku₀ hku hkw (hpend' hku₀ hpu)
    · obtain ⟨rfl, rfl⟩ := hlast hu hi'
      rcases hi.table.old_or_new hstep hw' with ⟨w₀, hw₀, hkw₀⟩ | hj'
      · exact (hapart j w₀ w k hw₀ hw' hkw₀ hkw hku (hpend' hkw₀ hpw)).symm
      · exact absurd (hlast hw' hj').1.symm hij

omit hc hp in
/-- **Every step keeps the invariant**, under the two conditions. -/
theorem step (ht : Timed s act) (hup : EntryUpToDate key s act) (hun : EntersUnseen key s act)
    (h : Unique.step key s act = some s') : Inv key s' := by
  have hspec := spec_of_step h
  cases hspec with
  | time hb hdone htime => exact hi.time hb ht hdone htime
  | plan hpend hcur =>
    exact hi.frame_stmt (fun p => by rw [hpend]) fun tid k n h =>
      hi.replaced _ tid k n (hcur.symm.trans h)
  | insert hc hp =>
    refine hi.frame_write hc hp (.insert hc hp _) length_append rfl rfl
      getElem?_concat_length ?_ rfl
    rw [← writeXid_eq hi.table.solo hc]
    rfl
  | @update x n c v row rest hot hc hp hv hw =>
    unfold State.update
    by_cases hkey : key v.row = key row
    · rw [if_pos hkey]
      refine hi.update_kept hc hp hv hw hkey.symm ?_ rfl
      simp [Stmt.pending, Stmt.addJob]
    · rw [if_neg hkey]
      refine hi.frame_write hc hp (.update hc hp hv hw hot row) ?_ rfl rfl
        getElem?_updateTuple_length ?_ rfl
      · rw [updateTuple, length_append, length_set, length_singleton]
      · rw [← writeXid_eq hi.table.solo hc]
        rfl
  | @classify x c job rest dead hc hp hcur hjobs hdead =>
    refine hi.frame_stmt (fun p => ?_) fun tid k n h => ?_
    · rw [Stmt.pending, Stmt.pending, hcur, hjobs]
      simp [Replacement.pair, or_comm]
    · cases h
      refine (hi.deadEnd_of_classify (hdead n rfl) ?_).2
      exact (hup (x, job.key) (by simp [State.probes, hjobs])).1
  | remove hcur => exact hi.remove hcur
  | add hc hp hcur hfree => exact hi.add hun hc hp hcur hfree
  | delete hc hp hv hw => exact hi.frame_tuples (.delete hc hp hv hw) length_set.le
  | clear hc hp hv hx => exact hi.frame_tuples (.clear hc hp hv hx) length_set.le
  | visit hv => exact hi.visit hv

/-- Two versions with one key that a reader sees are one. -/
theorem eq_of_visible {k : ℕ} {κ' : κ} (hk : k ≤ c.handle.currentCommand)
    (hv : s.tuples[n]? = some v) (hw : s.tuples[m]? = some w) (hkv : key v.row = some κ')
    (hkw : key w.row = some κ')
    (hvis : isVisible v.header (snapshotAt c k) s.txn.mgr.status = .visible)
    (hvis' : isVisible w.header (snapshotAt c k) s.txn.mgr.status = .visible) : n = m := by
  by_contra hne
  have htxn := hi.table.txn
  have hsolo := hi.table.solo
  have hhv := hi.table.header n v hv
  have hhw := hi.table.header m w hw
  have hsees : ∀ {h : TupleHeader}, HeaderInv s.txn h →
      isVisible h (snapshotAt c k) s.txn.mgr.status = .visible →
      sees s.txn x k h.ins = true ∧ ¬ (h.xmax ≠ 0 ∧ sees s.txn x k h.del = true) := by
    intro h hh hvis
    rw [hh.isVisible_eq htxn hsolo hc hp] at hvis
    split_ifs at hvis with hseen hdel
    exact ⟨hseen, hdel⟩
  obtain ⟨hseen, hdel⟩ := hsees hhv hvis
  obtain ⟨hseen', hdel'⟩ := hsees hhw hvis'
  rcases hi.apart n m v w κ' hne hv hw hkv hkw (hi.not_pending_of_sees hc hk hv hseen)
    (hi.not_pending_of_sees hc hk hw hseen') with ha | ha
  · exact hdel (ha.not_visible htxn hsolo hhv hhw hc hp hk hseen' hseen)
  · exact hdel' (ha.not_visible htxn hsolo hhw hhv hc hp hk hseen hseen')

end

end Inv

/-! ## Every run -/

/-- No snapshot, at any of its commands, sees two versions with the same key. -/
def SeenOnce (key : ρ → Option κ) (s : State ρ κ) : Prop :=
  ∀ x c k, s.txn.clients.lookup x = some c → c.phase = .running → k ≤ c.handle.currentCommand →
    ∀ (n m : ℕ) v w κ', s.tuples[n]? = some v → s.tuples[m]? = some w → key v.row = some κ' →
      key w.row = some κ' → isVisible v.header (snapshotAt c k) s.txn.mgr.status = .visible →
      isVisible w.header (snapshotAt c k) s.txn.mgr.status = .visible → n = m

/-- A probe of the step that finds no conflict leaves no version with the key that is live or will
be, except the version of the asking statement itself and rows of INSERTs that the index does not
lead to yet. -/
def ProbesSound (key : ρ → Option κ) (s : State ρ κ) (a : Act ρ) : Prop :=
  ∀ x κ' c r, (x, κ') ∈ s.probes key a → s.active x = some c →
    classifyUniqueConflict s.index s.tuples c.handle.snapshot s.txn.mgr.status κ' = .ok r →
    r ≠ .live → ∀ (n : ℕ) v, s.tuples[n]? = some v → key v.row = some κ' →
      Dead s.txn v.header ∨ Pending s n v ∧ (v.header.xmin = x ∨ ∀ m, ¬ Link s.tuples m n)

/-- The conditions on the steps. -/
def KeepsUnique (key : ρ → Option κ) (s : State ρ κ) (a : Act ρ) : Prop :=
  Timed s a ∧ EntryUpToDate key s a ∧ EntersUnseen key s a

/-- **Unique keys stay unique.** -/
theorem unique_key_seen_once (h : (machine key).Reach (KeepsUnique key) s) :
    SeenOnce key s ∧ ∀ a, KeepsUnique key s a → ProbesSound key s a := by
  have hi : Inv key s := Machine.Reach.invariant inv_init
    (fun s a s' _ hs hC hstep => hs.step hC.1 hC.2.1 hC.2.2 hstep) h
  refine ⟨fun x c k hc hp hk n m v w κ' hv hw hkv hkw hvis hvis' => ?_,
    fun a hkeep x κ' c r hprobe _ hr hlive n v hv hkey => ?_⟩
  · exact hi.eq_of_visible hc hp hk hv hw hkv hkw hvis hvis'
  · obtain ⟨hsup, hmove⟩ := hkeep.2.1 (x, κ') hprobe
    by_cases hpend : Pending s n v
    · refine .inr ⟨hpend, or_iff_not_imp_left.2 fun hne m hlink => hmove ?_⟩
      obtain ⟨k, hk⟩ := hpend
      obtain ⟨u, hu, hnext⟩ := hlink
      exact ⟨m, lt_length hu, u, hu, n, hnext, v, hv, hkey, hne, (n, k), hk, rfl⟩
    · exact .inl (hi.dead_of_classify hr hlive hsup hv hkey hpend)

/-! ## Runs -/

instance (key : ρ → Option κ) (s : State ρ κ) (k : κ) : Decidable (Superseded key s k) := by
  unfold Superseded
  infer_instance

instance instDecidableMoving (key : ρ → Option κ) (s : State ρ κ) (x : ℕ) (k : κ) :
    Decidable (Moving key s x k) := by
  unfold Moving
  infer_instance

instance : DecidableRel (EntryUpToDate key) := fun s a => by
  unfold EntryUpToDate
  infer_instance

instance instDecidableRelTimed : DecidableRel (Timed (ρ := ρ) (κ := κ)) := fun s a => by
  unfold Timed
  split <;> infer_instance

instance : DecidableRel (EntersUnseen key) := fun s a => by
  unfold EntersUnseen
  split
  · split <;> infer_instance
  · infer_instance

instance instDecidableRelKeepsUnique : DecidableRel (KeepsUnique key) := fun _ _ =>
  inferInstanceAs (Decidable (_ ∧ _))

/-- The rows that a running transaction sees. -/
def State.rows (s : State ρ κ) (x : ℕ) : Option (List ρ) :=
  (running s.txn x).map fun c =>
    (s.tuples.filter fun v =>
      (isVisible v.header c.handle.snapshot s.txn.mgr.status).isSeen).map (·.row)

def opening (x : ℕ) (isolation : IsolationLevel) : List (Act ρ) :=
  (Timeline.opening x isolation).map .txn

def insertRow (x : ℕ) (row : ρ) : List (Act ρ) :=
  [.insert x row, .write x false, .classify x, .remove x, .add x]

/-- The key of a deleted row is used again, and the new row is updated. -/
theorem key_used_again : ∃ s : State (Option ℕ × ℕ) ℕ,
    (machine Prod.fst).Reach (KeepsUnique Prod.fst) s ∧ s.rows 7 = some [(some 1, 12)] ∧
      SeenOnce Prod.fst s ∧ ∀ a, KeepsUnique Prod.fst s a → ProbesSound Prod.fst s a := by
  obtain ⟨s, hs, hrows⟩ := Machine.exists_reach_of_runIf
    (M := machine (Prod.fst : Option ℕ × ℕ → Option ℕ)) (C := KeepsUnique Prod.fst)
    (p := fun s => s.rows 7 = some [(some 1, 12)])
    (opening 3 .readCommitted ++ insertRow 3 (some 1, 10) ++ [.txn (.commit 3)] ++
      opening 4 .readCommitted ++ [.delete 4 0, .txn (.commit 4)] ++
      opening 5 .repeatableRead ++ insertRow 5 (some 1, 11) ++ [.txn (.commit 5)] ++
      opening 6 .readCommitted ++
      [.update 6 1 (some 1, 12), .write 6 true, .txn (.commit 6)] ++ opening 7 .repeatableRead)
    (by decide)
  exact ⟨s, hs, hrows, unique_key_seen_once hs⟩

/-- **Two rows with one key.** A row is updated without a change of its key, and then another one is
inserted with the same key. -/
theorem two_rows_with_one_key : ∃ s : State (Option ℕ × ℕ) ℕ,
    (machine Prod.fst).Reach Timed s ∧ s.rows 6 = some [(some 1, 11), (some 1, 20)] :=
  Machine.exists_reach_of_runIf
    (opening 3 .readCommitted ++ insertRow 3 (some 1, 10) ++ [.txn (.commit 3)] ++
      opening 4 .readCommitted ++
      [.update 4 0 (some 1, 11), .write 4 true, .txn (.commit 4)] ++ opening 5 .readCommitted ++
      insertRow 5 (some 1, 20) ++ [.txn (.commit 5)] ++ opening 6 .readCommitted)
    (by decide)

/-- **An old snapshot sees two rows.** The entries are up to date. A transaction keeps seeing a row
that others have deleted, inserted again and deleted again, and inserts one with the same key. -/
theorem old_snapshot_sees_two_rows : ∃ s : State (Option ℕ × ℕ) ℕ,
    (machine Prod.fst).Reach (fun s a => Timed s a ∧ EntryUpToDate Prod.fst s a) s ∧
      s.rows 4 = some [(some 1, 10), (some 1, 30)] :=
  Machine.exists_reach_of_runIf
    (opening 3 .readCommitted ++ insertRow 3 (some 1, 10) ++ [.txn (.commit 3)] ++
      opening 4 .repeatableRead ++ opening 5 .readCommitted ++ [.delete 5 0, .txn (.commit 5)] ++
      opening 6 .readCommitted ++ insertRow 6 (some 1, 20) ++
      [.txn (.refresh 6 7), .delete 6 1, .txn (.commit 6)] ++ insertRow 4 (some 1, 30) ++
      [.txn (.refresh 4 7)])
    (by decide)

end UltraSql.Index.Unique
