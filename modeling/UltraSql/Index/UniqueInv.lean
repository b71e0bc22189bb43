import UltraSql.Index.Unique
import UltraSql.Index.Versions

/-!
# What keeps a unique index unique

A version is dead once its inserter has rolled back or its deleter has committed. Every version with
a key that is not dead hangs on the entry of the key, by links that keep the key, unless its
statement is still to enter it. Whoever enters a key has found the index without one, so all other
versions with the key are dead, and no reader sees one of them together with the new version.

This rests on two conditions. The index is not asked for a key whose entry leads to a version that
has been superseded under the same key, and a transaction that keeps its first snapshot does not
enter a key of which it still sees a version.

**Theorem (`Inv.step`).** Every step that meets the conditions keeps the invariant.
-/

namespace UltraSql.Index

open Option
open Timeline (Client Solo)
open Heap

variable {ρ : Type} {t t' : Timeline.State} {ts ts' : List (Tuple ρ)} {a b : Stamp}
  {x y z k n m : ℕ} {c d : Client} {h : TupleHeader} {v v' w w' : Tuple ρ}

/-! ## Links that keep the key -/

section Key

variable {κ : Type} {key : ρ → Option κ}

/-- The version `n` is linked to the version `m`, which has the same key. -/
def KeyLink (key : ρ → Option κ) (ts : List (Tuple ρ)) (n m : ℕ) : Prop :=
  ∃ v w, ts[n]? = some v ∧ ts[m]? = some w ∧ v.next n = some m ∧ key w.row = key v.row

/-- The way from `n` to `m`, along such links. -/
def KeyLeads (key : ρ → Option κ) (ts : List (Tuple ρ)) : ℕ → ℕ → Prop :=
  Relation.ReflTransGen (KeyLink key ts)

/-- The version is dead, and so are those that hang on it by links that keep the key. -/
def DeadEnd (key : ρ → Option κ) (t : Timeline.State) (ts : List (Tuple ρ)) (n : ℕ) : Prop :=
  ∃ v, ts[n]? = some v ∧ (Undone t v.header.xmin ∨
    v.header.xmax ≠ 0 ∧ Committed t v.header.xmax ∧ ∀ m, ¬ KeyLink key ts n m)

section

variable (hi : TableInv t ts)
include hi

/-- A version after one of a transaction that rolls back is its own. -/
theorem TableInv.undone_of_link (hl : Link ts n m) (hv : ts[n]? = some v) (hw : ts[m]? = some w)
    (hu : Undone t v.header.xmin) : Undone t w.header.xmin := by
  obtain ⟨-, v₁, w₁, hv₁, hw₁, hx, hins⟩ := hi.link n m hl
  obtain rfl := mem_unique hv hv₁
  obtain rfl := mem_unique hw hw₁
  obtain ⟨d, hd, hf⟩ := hu
  have hown : v.header.xmax = v.header.xmin := by
    exact ((hi.header n v hv).isOver hx).owner_eq hd hf.ne_committed
  rw [show w.header.xmin = v.header.xmin from (congrArg Stamp.xid hins).trans hown]
  exact ⟨d, hd, hf⟩

/-- **A link stays** unless the transaction that made it rolls back. -/
theorem TableInv.keyLink_kept (h : TableStep t ts t' ts') (hl : KeyLink key ts n m)
    (hw : ts[m]? = some w) (hu : ¬ Undone t w.header.xmin) : KeyLink key ts' n m := by
  obtain ⟨v, w₁, hv, hw₁, hnext, hkey⟩ := hl
  obtain rfl := mem_unique hw hw₁
  obtain ⟨-, v₁, w₁, hv₁, hw₁, hx, hins⟩ := hi.link n m ⟨v, hv, hnext⟩
  obtain rfl := mem_unique hv hv₁
  obtain rfl := mem_unique hw hw₁
  obtain ⟨v', hv', hkv⟩ := hi.kept h hv
  obtain ⟨w', hw', hkw⟩ := hi.kept h hw
  refine ⟨v', w', hv', hw', ?_, by rw [hkw.row, hkv.row, hkey]⟩
  rcases hkv.stamp hx with heq | ⟨-, d, todo, hd, hp⟩
  · rw [Tuple.next, heq]
    exact hnext
  · refine absurd ⟨d, ?_, .inr ⟨todo, hp⟩⟩ hu
    rw [show w.header.xmin = v.header.xmax from congrArg Stamp.xid hins]
    exact hd

theorem TableInv.keyLeads_kept (h : TableStep t ts t' ts') (hl : KeyLeads key ts n m)
    (hw : ts[m]? = some w) (hu : ¬ Undone t w.header.xmin) : KeyLeads key ts' n m := by
  induction hl generalizing w with
  | refl => exact .refl
  | tail hl hlink ih =>
    obtain ⟨v, w₁, hv, -, hnext, -⟩ := id hlink
    exact .tail (ih hv fun hv' => hu (hi.undone_of_link ⟨v, hv, hnext⟩ hv hw hv'))
      (hi.keyLink_kept h hlink hw hu)

theorem DeadEnd.dead (hn : DeadEnd key t ts n) (hl : KeyLeads key ts n m) (hw : ts[m]? = some w) :
    Dead t w.header := by
  obtain ⟨v, hv, hu | ⟨hx, hcom, hend⟩⟩ := hn
  · left
    induction hl generalizing w with
    | refl => rwa [mem_unique hw hv]
    | tail hl hlink ih =>
      obtain ⟨u, -, hu', -, hnext, -⟩ := id hlink
      exact hi.undone_of_link ⟨u, hu', hnext⟩ hu' hw (ih hu')
  · rcases hl.cases_head with rfl | ⟨i, hlink, -⟩
    · rw [mem_unique hw hv]
      exact .inr ⟨hx, hcom⟩
    · exact absurd hlink (hend i)

theorem DeadEnd.kept (hn : DeadEnd key t ts n) (h : TableStep t ts t' ts') :
    DeadEnd key t' ts' n := by
  obtain ⟨v, hv, hd⟩ := hn
  obtain ⟨v', hv', hk⟩ := hi.kept h hv
  refine ⟨v', hv', ?_⟩
  rcases hd with hu | ⟨hx, hcom, hend⟩
  · exact .inl (hk.xmin_eq ▸ hu.mono (hi.ages h))
  · have heq := hk.header_eq hx hcom
    rw [heq]
    refine .inr ⟨hx, hcom.mono (hi.ages h), fun m hlink => ?_⟩
    obtain ⟨v₁, w', hv₁, hw', hnext, hkey⟩ := hlink
    obtain rfl := mem_unique hv' hv₁
    -- the link was there before, and so was the version to which it leads
    have hnext' : v.next n = some m := by rwa [Tuple.next, heq] at hnext
    obtain ⟨-, -, w, -, hw, -⟩ := hi.link n m ⟨v, hv, hnext'⟩
    obtain ⟨w₁, hw₁, hkw⟩ := hi.kept h hw
    obtain rfl := mem_unique hw' hw₁
    exact hend m ⟨v, w, hv, hw, hnext', by rw [← hkw.row, hkey, hk.row]⟩

end

end Key

/-! ## Versions that no reader sees together -/

/-- Whoever sees the version `w` sees that `v` is gone, or does not see `v`. -/
inductive Apart (t : Timeline.State) (v w : TupleHeader) : Prop
  | left (h : Undone t v.xmin)
  | right (h : Undone t w.xmin)
  | isOver (hx : v.xmax ≠ 0) (h : Over t w.ins v.del)
  /-- `v` came and went after the snapshot of the transaction that made `w` -/
  | unseen (d c : Client) (e e₀ : ℕ) (hx : v.xmax ≠ 0) (hd : t.clients.lookup v.xmax = some d)
    (hcom : d.phase = .committed) (he : t.ended v.xmax = some e) (he₀ : t.ended v.xmin = some e₀)
    (hc : t.clients.lookup w.xmin = some c) (hiso : c.handle.isolation ≠ .readCommitted)
    (hview : c.view ≤ e₀) (hend : ∀ e', t.ended w.xmin = some e' → e < e')

theorem Apart.kept (ha : Apart t v.header w.header) (hi : Timeline.Inv t) (hg : Ages t t')
    (hw : Inserted t w.header w.header.ins) (hkv : Kept t v v') (hkw : Kept t w w') :
    Apart t' v'.header w'.header := by
  cases ha with
  | left hu => exact .left (hkv.xmin_eq ▸ hu.mono hg)
  | right hu => exact .right (hkw.xmin_eq ▸ hu.mono hg)
  | isOver hx hover =>
    rcases hkv.stamp hx with heq | ⟨-, d, todo, hd, hp⟩
    · rw [← hkw.ins] at hover hw
      refine .isOver (heq ▸ hx) ?_
      rw [heq]
      exact hover.mono (hkw.ins ▸ hw.held) hi hg
    · -- the deleter rolls back, so it made `w` as well
      cases hover with
      | own ho =>
        have hu : Undone t w.header.xmin :=
          ⟨d, (show w.header.xmin = v.header.xmax from ho) ▸ hd, .inr ⟨todo, hp⟩⟩
        exact .right (hkw.xmin_eq ▸ hu.mono hg)
      | seen d' e hd' hcom =>
        obtain rfl := mem_unique hd hd'
        rw [hp] at hcom
        cases hcom
  | unseen d c e e₀ hx hd hcom he he₀ hc hiso hview hend =>
    have heq := hkv.header_eq hx ⟨d, hd, hcom⟩
    obtain ⟨d', hd', hm⟩ := hg.evolves.moves _ d hd
    obtain ⟨c', hc', -⟩ := hg.evolves.moves _ c hc
    obtain ⟨hiso', -, hfix⟩ := hg.refreshed _ c c' hc hc'
    refine .unseen d' c' e e₀ (heq ▸ hx) (heq ▸ hd') (hm.committed hcom).1
      (heq ▸ hg.evolves.ended _ e he) (heq ▸ hg.evolves.ended _ e₀ he₀) (hkw.xmin_eq ▸ hc')
      (hiso' ▸ hiso) (hfix hiso ▸ hview) fun e' he' => ?_
    rw [hkw.xmin_eq] at he'
    rcases hg.ended _ e' he' with hold | rfl
    · exact hend e' hold
    · exact hi.ended_lt hd he

variable {hv hw : TupleHeader}

/-- **No reader sees both.** -/
theorem Apart.not_visible (ha : Apart t hv hw) (hi : Timeline.Inv t) (hs : Solo t)
    (hiv : HeaderInv t hv) (hiw : HeaderInv t hw) (hc : t.clients.lookup x = some c)
    (hp : c.phase = .running) (hk : k ≤ c.handle.currentCommand) (hw' : sees t x k hw.ins = true)
    (hv' : sees t x k hv.ins = true) : hv.xmax ≠ 0 ∧ sees t x k hv.del = true := by
  have hundone : ∀ {h : TupleHeader}, Undone t h.xmin → sees t x k h.ins = true → False := by
    rintro h ⟨d, hd, hf⟩ hseen
    rw [Gone.sees_eq_false hi hc hp ⟨d, hd, .inr hf⟩] at hseen
    cases hseen
  cases ha with
  | left hu => exact (hundone hu hv').elim
  | right hu => exact (hundone hu hw').elim
  | isOver hx hover =>
    exact ⟨hx, hover.sees hi hs hiw.inserted.held (hiv.held hx) hc hp hk hw'⟩
  | unseen d cw e e₀ hx hd hcom he he₀ hcw hiso hview hend =>
    by_cases hx' : hw.xmin = x
    · -- the reader made `w`, and `v` came after its snapshot
      subst hx'
      obtain rfl := mem_unique hc hcw
      obtain ⟨dv, hdv, -⟩ := id hiv.inserted.held
      obtain ⟨-, -, e₁, he₁, hlt⟩ := (sees_foreign hc hdv (hi.ne_of_ended hc hp he₀)).1 hv'
      obtain rfl := mem_unique he₀ he₁
      omega
    · obtain ⟨-, -, e', he', hlt⟩ := (sees_foreign hc hcw hx').1 hw'
      exact ⟨hx, (sees_foreign hc hd (hi.ne_of_ended hc hp he)).2
        ⟨hcom, (hiv.held hx).own hs hi hd, e, he, (hend e' he').trans hlt⟩⟩

/-- The new version of an UPDATE is apart from what the old one was apart from. -/
theorem Apart.superseded {h' : TupleHeader} (ha : Apart t hv hw) (hu : ¬ Undone t hw.xmin)
    (hc : t.clients.lookup x = some c) (hp : c.phase = .running) (hi : Timeline.Inv t)
    (hins : h'.ins = ⟨x, x, c.handle.currentCommand⟩)
    (hover : Over t ⟨x, x, c.handle.currentCommand⟩ hw.ins) : Apart t hv h' := by
  cases ha with
  | left hl => exact .left hl
  | right hr => exact absurd hr hu
  | isOver hx ho => exact .isOver hx (hins ▸ hover.trans ho)
  | unseen d cw e e₀ hx hd hcom he he₀ hcw hiso hview hend =>
    have hxmin : h'.xmin = x := congrArg Stamp.xid hins
    cases hover with
    | own ho =>
      obtain rfl : x = hw.xmin := ho
      exact .unseen d cw e e₀ hx hd hcom he he₀ (hxmin ▸ hcw) hiso hview (hxmin ▸ hend)
    | seen dw ew hdw hpw hew hvieww hendw =>
      have hlt : e < ew := hend ew hew
      refine .isOver hx (hins ▸ .seen d e hd hcom he (fun c' hc' hcond => ?_) fun e' he' => ?_)
      · exact hlt.trans (hvieww c' hc' hcond)
      · rw [hi.ended_eq_none hc hp] at he'
        cases he'

/-! ## The index -/

namespace Unique

variable {κ : Type} [DecidableEq κ] {key : ρ → Option κ} {s s' : State ρ κ} {act : Act ρ}

/-- The entry of the key leads to a version that has been superseded, for good, under the same
key. -/
def Superseded (key : ρ → Option κ) (s : State ρ κ) (k : κ) : Prop :=
  ∃ n ∈ s.index.lookup k, ∃ v ∈ s.tuples[n]?,
    (s.txn.mgr.status v.header.xmax).isCommitted = true ∧
      ∃ m ∈ v.next n, ∃ w ∈ s.tuples[m]?, key w.row = key v.row

/-- Another transaction than `x` has updated a row to the key and is still to enter it. -/
def Moving (key : ρ → Option κ) (s : State ρ κ) (x : ℕ) (k : κ) : Prop :=
  ∃ m < s.tuples.length, ∃ u ∈ s.tuples[m]?, ∃ n ∈ u.next m, ∃ v ∈ s.tuples[n]?,
    key v.row = some k ∧ v.header.xmin ≠ x ∧ ∃ p ∈ (s.stmt v.header.xmin).pending, p.1 = n

/-- The index is asked for a key only while its entry is not superseded and no row is moving to the
key. -/
def EntryUpToDate (key : ρ → Option κ) (s : State ρ κ) (a : Act ρ) : Prop :=
  ∀ p ∈ s.probes key a, ¬ Superseded key s p.2 ∧ ¬ Moving key s p.1 p.2

/-- A transaction that keeps its first snapshot does not see another version with the key that it
enters. -/
def EntersUnseen (key : ρ → Option κ) (s : State ρ κ) (a : Act ρ) : Prop :=
  match a with
  | .add x =>
    match running s.txn x, (s.stmt x).current with
    | some c, .adding tid k => c.handle.isolation ≠ .readCommitted →
      ∀ n < s.tuples.length, n ≠ tid → ∀ v ∈ s.tuples[n]?, key v.row = some k →
        isVisible v.header c.handle.snapshot s.txn.mgr.status ≠ .visible
    | _, _ => True
  | _ => True

/-- The statement of the version is still to enter its key. -/
def Pending (s : State ρ κ) (n : ℕ) (v : Tuple ρ) : Prop :=
  ∃ k, (n, k) ∈ (s.stmt v.header.xmin).pending

/-- What holds of a version that is not entered yet. -/
structure PendingInv (key : ρ → Option κ) (t : Timeline.State) (ts : List (Tuple ρ)) (y n : ℕ)
    (k : κ) : Prop where
  row : ∃ v, ts[n]? = some v ∧ v.header.xmin = y ∧ key v.row = some k ∧
    ∃ d, t.clients.lookup y = some d ∧ d.phase ≠ .committed ∧
      v.header.cmin = d.handle.currentCommand

/-- What the index is to the table. -/
structure Inv (key : ρ → Option κ) (s : State ρ κ) : Prop where
  table : TableInv s.txn s.tuples
  pending : ∀ y n k, (n, k) ∈ (s.stmt y).pending → PendingInv key s.txn s.tuples y n k
  replaced : ∀ y tid k n, (s.stmt y).current = .replacing tid k (some n) →
    DeadEnd key s.txn s.tuples n
  complete : ∀ (n : ℕ) v k, s.tuples[n]? = some v → key v.row = some k → ¬ Pending s n v →
    ¬ Dead s.txn v.header → ∃ r, s.index.lookup k = some r ∧ KeyLeads key s.tuples r n
  apart : ∀ (n m : ℕ) v w k, n ≠ m → s.tuples[n]? = some v → s.tuples[m]? = some w →
    key v.row = some k → key w.row = some k → ¬ Pending s n v → ¬ Pending s m w →
    Apart s.txn v.header w.header ∨ Apart s.txn w.header v.header

omit [DecidableEq κ] in
theorem not_mem_pending_init (x : ℕ) (p : ℕ × κ) : p ∉ (({} : State ρ κ).stmt x).pending :=
  List.not_mem_nil

theorem inv_init : Inv key ({} : State ρ κ) where
  table := tableInv_init
  pending y n k h := absurd h (not_mem_pending_init y _)
  replaced y tid k n h := by cases h
  complete n v k hv := by cases hv
  apart n m v w k _ hv := by cases hv

/-! ### Pending versions -/

omit [DecidableEq κ] in
theorem PendingInv.kept {k : κ} (hq : PendingInv key t ts y n k) (hi : TableInv t ts)
    (h : TableStep t ts t' ts')
    (hst : ∀ d, t.clients.lookup y = some d → ∃ d', t'.clients.lookup y = some d' ∧
      Timeline.Steady d d') : PendingInv key t' ts' y n k := by
  obtain ⟨v, hv, hxmin, hkey, d, hd, hp, hcmin⟩ := hq.row
  obtain ⟨v', hv', hk⟩ := hi.kept h hv
  obtain ⟨d', hd', hsd⟩ := hst d hd
  refine ⟨v', hv', hk.xmin_eq.trans hxmin, hk.row ▸ hkey, d', hd', hsd.open_ hp, ?_⟩
  rw [hsd.command, ← hcmin]
  exact congrArg Stamp.command hk.ins

namespace Inv

variable (hi : Inv key s)

include hi

/-- A version that a writer may act on is entered. -/
theorem not_pending_of_writable (hc : s.txn.clients.lookup x = some c) (hp : c.phase = .running)
    (hv : s.tuples[n]? = some v) (hw : writable s.txn c v.header = true) : ¬ Pending s n v := by
  rintro ⟨k, hmem⟩
  obtain ⟨v', hv', -, -, d, hd, hpd, hcmin⟩ := (hi.pending _ n k hmem).row
  obtain rfl := mem_unique hv hv'
  obtain ⟨-, hlt, hover⟩ := over_of_writable hi.table.txn hi.table.solo hc hp
    (hi.table.header n v hv).inserted hw
  have hx : x = v.header.xmin := hover.owner_eq hd hpd
  subst hx
  obtain rfl := mem_unique hc hd
  exact absurd (hlt rfl) (by rw [hcmin]; exact lt_irrefl _)

/-- No reader sees a version that is not entered. -/
theorem not_pending_of_sees (hc : s.txn.clients.lookup x = some c)
    (hk : k ≤ c.handle.currentCommand) (hv : s.tuples[n]? = some v)
    (hseen : sees s.txn x k v.header.ins = true) : ¬ Pending s n v := by
  rintro ⟨κ, hmem⟩
  obtain ⟨v', hv', -, -, d, hd, hpd, hcmin⟩ := (hi.pending _ n κ hmem).row
  obtain rfl := mem_unique hv hv'
  by_cases hx : v.header.ins.owner = x
  · subst hx
    obtain rfl := mem_unique hc hd
    have hlt : v.header.cmin < k := ((sees_own hc rfl).1 hseen).2
    omega
  · exact hpd ((sees_foreign hc hd hx).1 hseen).1

/-! ### What a probe finds -/

/-- A version that holds its key for nobody is dead. -/
theorem dead_of_not_pendingLive (hv : s.tuples[n]? = some v)
    (hlive : tupleIsPendingLive s.txn.mgr.status v.header = false) :
    Undone s.txn v.header.xmin ∨ v.header.xmax ≠ 0 ∧ Committed s.txn v.header.xmax ∧
      (s.txn.mgr.status v.header.xmax).isCommitted = true := by
  have hh := hi.table.header n v hv
  have hxmin : v.header.xmin ≠ 0 := hh.inserted.held.ne_zero hi.table.txn
  unfold tupleIsPendingLive at hlive
  simp only [Xid.isInvalid_iff, hxmin, if_false] at hlive
  by_cases hab : (s.txn.mgr.status v.header.xmin).isAborted = true
  · exact .inl (undone_of_status hi.table.txn hi.table.solo hh.inserted.held hab)
  · rw [if_neg hab] at hlive
    by_cases hx : v.header.xmax = 0
    · rw [if_pos hx] at hlive
      cases hlive
    · rw [if_neg hx, Bool.not_eq_false'] at hlive
      exact .inr ⟨hx, committed_of_status hi.table.txn hi.table.solo (hh.held hx) hlive, hlive⟩

variable {k : κ} {snapshot : Snapshot}

/-- An entry that a probe takes for dead leads to nothing but dead versions. -/
theorem deadEnd_of_classify
    (h : classifyUniqueConflict s.index s.tuples snapshot s.txn.mgr.status k = .ok (.dead n))
    (hsup : ¬ Superseded key s k) : s.index.lookup k = some n ∧ DeadEnd key s.txn s.tuples n := by
  rcases classifyUniqueConflict_eq_ok h nofun with ⟨h, -⟩ | ⟨tid, v, heq, hlook, hv, hlive⟩
  · cases h
  · cases heq
    refine ⟨hlook, v, hv, ?_⟩
    rcases hi.dead_of_not_pendingLive hv hlive with hu | ⟨hx, hcom, hst⟩
    · exact .inl hu
    · refine .inr ⟨hx, hcom, fun m hlink => hsup ?_⟩
      obtain ⟨v₁, w, hv₁, hw, hnext, hkey⟩ := hlink
      obtain rfl := mem_unique hv hv₁
      exact ⟨n, hlook, v, hv, hst, m, hnext, w, hw, hkey⟩

/-- **A probe that finds no conflict has none.** -/
theorem dead_of_classify {r : UniqueConflict}
    (h : classifyUniqueConflict s.index s.tuples snapshot s.txn.mgr.status k = .ok r)
    (hr : r ≠ .live) (hsup : ¬ Superseded key s k) (hv : s.tuples[n]? = some v)
    (hkey : key v.row = some k) (hpend : ¬ Pending s n v) : Dead s.txn v.header := by
  by_contra hdead
  obtain ⟨root, hlook, hl⟩ := hi.complete n v k hv hkey hpend hdead
  rcases classifyUniqueConflict_eq_ok h hr with ⟨-, hnone⟩ | ⟨tid, u, rfl, hlook', -⟩
  · rw [hlook] at hnone
    cases hnone
  · obtain rfl := mem_unique hlook hlook'
    exact hdead ((hi.deadEnd_of_classify h hsup).2.dead hi.table hl hv)

/-! ### Every step keeps the invariant -/

/-- An old version hangs on the entry that it had. -/
theorem complete_old (h : TableStep s.txn s.tuples s'.txn s'.tuples) (hv : s.tuples[n]? = some v)
    (hkv : Kept s.txn v v') (hkey : key v'.row = some k) (hpend : ¬ Pending s n v)
    (hdead : ¬ Dead s'.txn v'.header) :
    ∃ r, s.index.lookup k = some r ∧ KeyLeads key s'.tuples r n := by
  have hdead' : ¬ Dead s.txn v.header := fun hd => hdead (hd.kept hkv (hi.table.ages h))
  obtain ⟨r, hlook, hl⟩ := hi.complete n v k hv (hkv.row ▸ hkey) hpend hdead'
  exact ⟨r, hlook, hi.table.keyLeads_kept h hl hv fun hu => hdead' (.inl hu)⟩

theorem apart_old (h : TableStep s.txn s.tuples s'.txn s'.tuples) (hne : n ≠ m)
    (hv : s.tuples[n]? = some v) (hw : s.tuples[m]? = some w) (hkv : Kept s.txn v v')
    (hkw : Kept s.txn w w') (hkey : key v'.row = some k) (hkey' : key w'.row = some k)
    (hpend : ¬ Pending s n v) (hpend' : ¬ Pending s m w) :
    Apart s'.txn v'.header w'.header ∨ Apart s'.txn w'.header v'.header := by
  have hg := hi.table.ages h
  refine (hi.apart n m v w k hne hv hw (hkv.row ▸ hkey) (hkw.row ▸ hkey') hpend hpend').imp
    (fun ha => ?_) fun ha => ?_
  · exact ha.kept hi.table.txn hg (hi.table.header m w hw).inserted hkv hkw
  · exact ha.kept hi.table.txn hg (hi.table.header n v hv).inserted hkw hkv

/-- The index stays, no version is entered, and a new version has no key or is to be entered. -/
theorem frame (h : TableStep s.txn s.tuples s'.txn s'.tuples) (hidx : s'.index = s.index)
    (hpend : ∀ y p, p ∈ (s.stmt y).pending → p ∈ (s'.stmt y).pending)
    (hnew : ∀ (n : ℕ) v, s.tuples.length ≤ n → s'.tuples[n]? = some v →
      key v.row = none ∨ Pending s' n v)
    (hpending : ∀ y n k, (n, k) ∈ (s'.stmt y).pending → PendingInv key s'.txn s'.tuples y n k)
    (hreplaced : ∀ y tid k n, (s'.stmt y).current = .replacing tid k (some n) →
      DeadEnd key s'.txn s'.tuples n) : Inv key s' := by
  have hold : ∀ (n : ℕ) v' k, s'.tuples[n]? = some v' → key v'.row = some k → ¬ Pending s' n v' →
      ∃ v, s.tuples[n]? = some v ∧ Kept s.txn v v' ∧ ¬ Pending s n v := by
    intro n v' k hv' hkey hp
    rcases hi.table.old_or_new h hv' with ⟨v, hv, hk⟩ | hlen
    · refine ⟨v, hv, hk, fun ⟨κ, hmem⟩ => hp ⟨κ, ?_⟩⟩
      rw [hk.xmin_eq]
      exact hpend _ _ hmem
    · rcases hnew n v' hlen hv' with hnone | hp'
      · rw [hnone] at hkey
        cases hkey
      · exact absurd hp' hp
  refine ⟨hi.table.step h, hpending, hreplaced, fun n v' k hv' hkey hp hd => ?_,
    fun n m v' w' k hne hv' hw' hkey hkey' hp hp' => ?_⟩
  · obtain ⟨v, hv, hk, hpo⟩ := hold n v' k hv' hkey hp
    rw [hidx]
    exact hi.complete_old h hv hk hkey hpo hd
  · obtain ⟨v, hv, hkv, hpv⟩ := hold n v' k hv' hkey hp
    obtain ⟨w, hw, hkw, hpw⟩ := hold m w' k hw' hkey' hp'
    exact hi.apart_old h hne hv hw hkv hkw hkey hkey' hpv hpw

end Inv

end Unique

end UltraSql.Index
