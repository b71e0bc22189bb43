import UltraSql.Constraint.ForeignKey

/-!
# When a foreign key holds under concurrency

Whatever set of the open transactions commits and the others roll back, every child row that is then
there has its parent. This is the invariant (`Referential`); once all transactions have ended there
is nothing left to choose, and it says that the key holds.

A statement keeps it if what it has checked is the whole truth. `Undisturbed` says so of the moment
of the write: nobody has stamped the parent that a new child row has found, and every child row of a
parent key that goes away is one that the statement sees, or one that does not count any more.

**Theorem (`children_have_parents`).** In every run whose writes are `Undisturbed`, and whose
snapshots are taken at a clear moment, the key holds once all transactions have ended.

**Run (`orphan_after_commit`).** A child is inserted and its parent deleted at the same time, and
both commit.
-/

namespace UltraSql.ForeignKey

open List Function
open Timeline (Client Visit Solo)
open Heap
open Index
open Option (mem_unique map_eq_some_iff all_some)

variable {ρ κ : Type} {fk : Constraint ρ κ} {t t' : Timeline.State} {ts ts' : List (Tuple ρ)}
  {s s' : State ρ} {W : Set ℕ} {h : TupleHeader} {v w : Tuple ρ} {x y z n m : ℕ} {c d : Client}

/-! ## Outcomes -/

/-- The transaction may still commit. -/
def Open (t : Timeline.State) (z : ℕ) : Prop :=
  ∃ d, t.clients.lookup z = some d ∧ d.phase ≠ .committed ∧ ¬ Failed d

/-- The transaction has committed, or it is one of those that will. -/
def Commits (t : Timeline.State) (W : Set ℕ) (z : ℕ) : Prop := Committed t z ∨ z ∈ W

/-- The version is there if just the transactions in `W` commit. -/
def Remains (t : Timeline.State) (W : Set ℕ) (h : TupleHeader) : Prop :=
  Commits t W h.xmin ∧ ¬ (h.xmax ≠ 0 ∧ Commits t W h.xmax)

/-- **Every child has its parent**, whichever of the open transactions commit. -/
def Referential (fk : Constraint ρ κ) (t : Timeline.State) (ts : List (Tuple ρ)) : Prop :=
  ∀ W : Set ℕ, (∀ z ∈ W, Open t z) → ∀ (n : ℕ) v k, ts[n]? = some v → Remains t W v.header →
    fk.columns v.row = some k →
    ∃ (m : ℕ) (p : Tuple ρ), ts[m]? = some p ∧ Remains t W p.header ∧
      fk.targetColumns p.row = some k

/-- A transaction that has failed does not commit. -/
theorem not_commits (hW : ∀ z ∈ W, Open t z) (hu : Undone t z) : ¬ Commits t W z := by
  rintro (hcom | hz)
  · exact hu.not_committed hcom
  · obtain ⟨d, hd, hf⟩ := hu
    obtain ⟨d', hd', -, hnot⟩ := hW z hz
    obtain rfl := mem_unique hd hd'
    exact hnot hf

theorem commits_running (hc : t.clients.lookup x = some c) (hp : c.phase = .running) :
    Commits t W x ↔ x ∈ W := by
  exact ⟨fun h => h.resolve_left (not_committed_of_running hc hp), .inr⟩

/-- **Time passes**, and the outcomes that are left were possible before. -/
theorem Referential.mono (hr : Referential fk t ts) (hi : TableInv t ts) (hg : Ages t t') :
    Referential fk t' ts := by
  intro W' hW' n v k hv hrem hk
  have hiff : ∀ {z d}, t.clients.lookup z = some d →
      (Commits t {z | Open t z ∧ Commits t' W' z} z ↔ Commits t' W' z) := by
    intro z d hd
    obtain ⟨d', hd', hm⟩ := hg.evolves.moves z d hd
    constructor
    · rintro (hcom | ⟨-, h⟩)
      · exact .inl (hcom.mono hg)
      · exact h
    · intro h
      by_cases hcom : d.phase = .committed
      · exact .inl ⟨d, hd, hcom⟩
      · refine .inr ⟨⟨d, hd, hcom, fun hf => ?_⟩, h⟩
        exact not_commits hW' ⟨d', hd', hm.failed hf⟩ h
  have hrem' : ∀ {m : ℕ} {p : Tuple ρ}, ts[m]? = some p →
      (Remains t {z | Open t z ∧ Commits t' W' z} p.header ↔ Remains t' W' p.header) := by
    intro m p hp
    have hh := hi.header m p hp
    obtain ⟨d, hd, -⟩ := hh.inserted.held
    refine and_congr (hiff hd) (not_congr (and_congr_right fun hx => ?_))
    obtain ⟨d', hd', -⟩ := hh.held hx
    exact hiff hd'
  obtain ⟨m, p, hp, hremp, hkey⟩ := hr _ (fun z hz => hz.1) n v k hv ((hrem' hv).2 hrem) hk
  exact ⟨m, p, hp, (hrem' hp).1 hremp, hkey⟩

/-- A stamp that is taken out did not count. -/
theorem Referential.clear (hr : Referential fk t ts) (hv : ts[n]? = some v)
    (hu : Undone t v.header.xmax) : Referential fk t (clearTuple ts n v) := by
  intro W hW i u k hu' hrem hk
  have hback : ∀ {i : ℕ} {u : Tuple ρ}, (clearTuple ts n v)[i]? = some u →
      ∃ u₀, ts[i]? = some u₀ ∧ u₀.row = u.row ∧ (Remains t W u₀.header ↔ Remains t W u.header) := by
    intro i u hu'
    rcases getElem?_set_cases hu' with ⟨rfl, rfl⟩ | ⟨-, hu'⟩
    · exact ⟨v, hv, rfl, and_congr_right fun _ => ⟨fun _ h => h.1 rfl,
        fun _ h => not_commits hW hu h.2⟩⟩
    · exact ⟨u, hu', rfl, .rfl⟩
  obtain ⟨u₀, hu₀, hrow, hiff⟩ := hback hu'
  obtain ⟨m, p, hp, hremp, hkey⟩ := hr W hW i u₀ k hu₀ (hiff.2 hrem) (hrow ▸ hk)
  have hlen : m < (clearTuple ts n v).length := by
    rw [clearTuple, length_set]
    exact lt_length hp
  obtain ⟨p₀, hp₀, hrow', hiff'⟩ := hback (getElem?_eq_getElem hlen)
  obtain rfl := mem_unique hp hp₀
  exact ⟨m, _, getElem?_eq_getElem hlen, hiff'.1 hremp, hrow' ▸ hkey⟩

/-! ## Writes -/

/-- The tuples after an edit by the transaction `x`. -/
structure Wrote (ts ts' : List (Tuple ρ)) (x : ℕ) (e : Edit ρ) : Prop where
  other : ∀ (i : ℕ) u, ts[i]? = some u → e.old ≠ some i → ts'[i]? = some u
  old : ∀ n, e.old = some n → ∃ v v', ts[n]? = some v ∧ ts'[n]? = some v' ∧ v'.row = v.row ∧
    v'.header.xmin = v.header.xmin ∧ v.header.xmax = 0 ∧ v'.header.xmax = x
  new : ∀ row, e.new = some row → ∃ (i : ℕ) (v' : Tuple ρ), ts'[i]? = some v' ∧ v'.row = row ∧
    v'.header.xmin = x ∧ v'.header.xmax = 0
  cases : ∀ (i : ℕ) u', ts'[i]? = some u' → ts[i]? = some u' ∧ e.old ≠ some i ∨ e.old = some i ∨
    e.new = some u'.row ∧ u'.header.xmin = x ∧ u'.header.xmax = 0

section Write

variable {e : Edit ρ} {hot : Bool}

theorem wrote_of_apply (hs : Solo s.txn) (hc : s.txn.clients.lookup x = some c)
    (hts : s.apply c hot e = some ts')
    (hold : ∀ n v, e.old = some n → s.tuples[n]? = some v → v.header.xmax = 0) :
    Wrote s.tuples ts' x e := by
  have hx := writeXid_eq hs hc
  cases e with
  | insert row =>
    cases hts
    refine ⟨fun i u hu _ => (getElem?_append_left (lt_length hu)).trans hu,
      fun n hn => (by cases hn), fun row' hrow => ?_, fun i u' hu' => ?_⟩
    · cases hrow
      exact ⟨s.tuples.length, _, getElem?_concat_length, rfl, hx, rfl⟩
    · rcases getElem?_append_singleton hu' with hu' | ⟨rfl, rfl⟩
      · exact .inl ⟨hu', nofun⟩
      · exact .inr (.inr ⟨rfl, hx, rfl⟩)
  | update n row =>
    obtain ⟨v, hv, rfl⟩ := map_eq_some_iff.1 hts
    refine ⟨fun i u hu hne => ?_, fun n' hn => ?_, fun row' hrow => ?_, fun i u' hu' => ?_⟩
    · rw [updateTuple, getElem?_append_left (by rw [length_set]; exact lt_length hu),
        getElem?_set_ne fun h => hne (congrArg some h)]
      exact hu
    · cases hn
      exact ⟨v, _, hv, getElem?_updateTuple_self hv, rfl, rfl, hold n v rfl hv, hx⟩
    · cases hrow
      exact ⟨s.tuples.length, _, getElem?_updateTuple_length, rfl, hx, rfl⟩
    · rcases getElem?_append_singleton hu' with hu' | ⟨rfl, rfl⟩
      · rcases getElem?_set_cases hu' with ⟨rfl, rfl⟩ | ⟨hne, hu'⟩
        · exact .inr (.inl rfl)
        · exact .inl ⟨hu', fun h => hne (Option.some.inj h).symm⟩
      · exact .inr (.inr ⟨rfl, hx, rfl⟩)
  | delete n =>
    obtain ⟨v, hv, rfl⟩ := map_eq_some_iff.1 hts
    refine ⟨fun i u hu hne => ?_, fun n' hn => ?_, fun row' hrow => (by cases hrow),
      fun i u' hu' => ?_⟩
    · rw [deleteTuple, getElem?_set_ne fun h => hne (congrArg some h)]
      exact hu
    · cases hn
      exact ⟨v, _, hv, getElem?_set_self (lt_length hv), rfl, rfl, hold n v rfl hv, hx⟩
    · rcases getElem?_set_cases hu' with ⟨rfl, rfl⟩ | ⟨hne, hu'⟩
      · exact .inr (.inl rfl)
      · exact .inl ⟨hu', fun h => hne (Option.some.inj h).symm⟩

/-- A new child row has a parent that nobody takes away. -/
def ParentStays (fk : Constraint ρ κ) (t : Timeline.State) (ts : List (Tuple ρ)) (x : ℕ)
    (e : Edit ρ) : Prop :=
  ∀ row k, e.new = some row → fk.columns row = some k →
    ∃ (m : ℕ) (p : Tuple ρ), ts[m]? = some p ∧ fk.targetColumns p.row = some k ∧
      (Committed t p.header.xmin ∨ p.header.xmin = x) ∧ p.header.xmax = 0 ∧
      (e.old = some m → fk.targetColumns row = some k)

/-- A parent key that goes away has no child that counts. -/
def ChildrenGone (fk : Constraint ρ κ) (t : Timeline.State) (ts : List (Tuple ρ)) (x : ℕ)
    (e : Edit ρ) : Prop :=
  ∀ n v k, e.old = some n → ts[n]? = some v → fk.targetColumns v.row = some k →
    e.new.bind fk.targetColumns ≠ some k → ∀ (i : ℕ) u, ts[i]? = some u →
      fk.columns u.row = some k → Undone t u.header.xmin ∨
        u.header.xmax ≠ 0 ∧ (u.header.xmax = x ∨ Committed t u.header.xmax)

/-- **A write keeps the key.** -/
theorem Referential.write (hr : Referential fk t ts) (hw : Wrote ts ts' x e)
    (hc : t.clients.lookup x = some c) (hp : c.phase = .running) (h0 : x ≠ 0)
    (hparent : ParentStays fk t ts x e) (hchild : ChildrenGone fk t ts x e) :
    Referential fk t ts' := by
  intro W hW i u k hu hrem hk
  have hcommits : Commits t W x ↔ x ∈ W := commits_running hc hp
  by_cases hx : x ∈ W
  · have hx' := hcommits.2 hx
    rcases hw.cases i u hu with ⟨hu', hne⟩ | hold | ⟨hnew, hins, hzero'⟩
    · obtain ⟨m, p, hmp, hremp, hkey⟩ := hr W hW i u k hu' hrem hk
      by_cases hm : e.old = some m
      · by_cases hstay : e.new.bind fk.targetColumns = some k
        · -- the key moves to the new version
          obtain ⟨row, hrow, htarget⟩ := Option.bind_eq_some_iff.1 hstay
          obtain ⟨j, v', hv', rfl, hins, hzero'⟩ := hw.new row hrow
          exact ⟨j, v', hv', ⟨hins ▸ hx', fun h => h.1 hzero'⟩, htarget⟩
        · -- nobody refers to it
          rcases hchild m p k hm hmp hkey hstay i u hu' hk with hund | ⟨hne0, hdel⟩
          · exact absurd hrem.1 (not_commits hW hund)
          · refine absurd ⟨hne0, ?_⟩ hrem.2
            rcases hdel with hdel | hdel
            · exact hdel ▸ hx'
            · exact .inl hdel
      · exact ⟨m, p, hw.other m p hmp hm, hremp, hkey⟩
    · obtain ⟨v, v', hv, hv', -, -, -, hdel⟩ := hw.old i hold
      obtain rfl := mem_unique hu hv'
      exact absurd ⟨hdel ▸ h0, hdel ▸ hx'⟩ hrem.2
    · obtain ⟨m, p, hmp, hkey, hpins, hp0, hsame⟩ := hparent u.row k hnew hk
      by_cases hm : e.old = some m
      · exact ⟨i, u, hu, hrem, hsame hm⟩
      · refine ⟨m, p, hw.other m p hmp hm, ⟨?_, fun h => h.1 hp0⟩, hkey⟩
        rcases hpins with hpins | hpins
        · exact .inl hpins
        · exact hpins ▸ hx'
  · have hx' : ¬ Commits t W x := fun h => hx (hcommits.1 h)
    -- the write does not count, and the child had its parent before
    obtain ⟨v, hv, hremv, hkv⟩ : ∃ v, ts[i]? = some v ∧ Remains t W v.header ∧
        fk.columns v.row = some k := by
      rcases hw.cases i u hu with ⟨hu', -⟩ | hold | ⟨-, hins, -⟩
      · exact ⟨u, hu', hrem, hk⟩
      · obtain ⟨v, v', hv, hv', hrow, hins, hzero, -⟩ := hw.old i hold
        obtain rfl := mem_unique hu hv'
        exact ⟨v, hv, ⟨hins ▸ hrem.1, fun h => h.1 hzero⟩, hrow ▸ hk⟩
      · exact absurd (hins ▸ hrem.1) hx'
    obtain ⟨m, p, hmp, hremp, hkey⟩ := hr W hW i v k hv hremv hkv
    by_cases hm : e.old = some m
    · obtain ⟨v, v', hv, hv', hrow, hins, -, hdel⟩ := hw.old m hm
      obtain rfl := mem_unique hmp hv
      exact ⟨m, v', hv', ⟨hins ▸ hremp.1, fun h => hx' (hdel ▸ h.2)⟩, hrow ▸ hkey⟩
    · exact ⟨m, p, hw.other m p hmp hm, hremp, hkey⟩

end Write

/-! ## The invariant -/

variable [DecidableEq κ]

/-- What a statement in progress has: its client, the lock of its row and the result of its
checks. -/
structure JobInv (fk : Constraint ρ κ) (s : State ρ) (x : ℕ) (e : Edit ρ) (c : Client) : Prop where
  client : s.txn.clients.lookup x = some c
  running : c.phase = .running
  locked : ∀ n, e.old = some n → s.locks n = some x ∧
    ∃ v, s.tuples[n]? = some v ∧ writable s.txn c v.header = true
  passed : s.job x = .checked e →
    passes fk s.tuples c.handle.snapshot s.txn.mgr.status e = true

structure Inv (fk : Constraint ρ κ) (s : State ρ) : Prop where
  table : TableInv s.txn s.tuples
  keys : Referential fk s.txn s.tuples
  job : ∀ x e, s.job x = .planned e ∨ s.job x = .checked e → ∃ c, JobInv fk s x e c

theorem inv_init : Inv fk ({} : State ρ) := by
  refine ⟨tableInv_init, fun _ _ n v k hv => ?_, fun x e h => ?_⟩
  · cases hv
  · rcases h with h | h <;> cases h

/-- **The result of the checks stays**, as long as the row to be changed does. -/
theorem passes_step {e : Edit ρ} (hi : TableInv t ts) (h : TableStep t ts t' ts')
    (hc : t.clients.lookup x = some c) (hc' : t'.clients.lookup x = some c)
    (hp : c.phase = .running) (hold : ∀ n, e.old = some n → ∃ v v', ts[n]? = some v ∧
      ts'[n]? = some v' ∧ v'.row = v.row) :
    passes fk ts' c.handle.snapshot t'.mgr.status e =
      passes fk ts c.handle.snapshot t.mgr.status e := by
  have hscan : ∀ P : ρ → Bool,
      (scanVisible ts' c.handle.snapshot t'.mgr.status).any (fun v => P v.row) =
        (scanVisible ts c.handle.snapshot t.mgr.status).any (fun v => P v.row) := by
    intro P
    rw [Bool.eq_iff_iff, any_eq_true, any_eq_true]
    constructor
    · rintro ⟨v', hv', hP⟩
      obtain ⟨hmem, hseen⟩ := mem_filter.1 hv'
      obtain ⟨n, hn⟩ := mem_iff_getElem?.1 hmem
      obtain ⟨v, hv, hrow, hseen'⟩ := (hi.isSeen_step h hc hc' hp hn).1 hseen
      exact ⟨v, mem_filter.2 ⟨mem_of_getElem? hv, hseen'⟩, hrow ▸ hP⟩
    · rintro ⟨v, hv, hP⟩
      obtain ⟨hmem, hseen⟩ := mem_filter.1 hv
      obtain ⟨n, hn⟩ := mem_iff_getElem?.1 hmem
      obtain ⟨v', hv', hk⟩ := hi.kept h hn
      exact ⟨v', mem_filter.2 ⟨mem_of_getElem? hv',
        (hi.isSeen_step h hc hc' hp hv').2 ⟨v, hn, hk.row.symm, hseen⟩⟩, hk.row ▸ hP⟩
  have hparent : ∀ row, checkForeignKey fk ts' c.handle.snapshot t'.mgr.status row =
      checkForeignKey fk ts c.handle.snapshot t.mgr.status row := by
    intro row
    unfold checkForeignKey relationHasKey
    cases fk.columns row with
    | none => rfl
    | some k => exact hscan fun r => fk.targetColumns r = some k
  have hchild : ∀ row, checkReferencedByDelete fk ts' c.handle.snapshot t'.mgr.status row =
      checkReferencedByDelete fk ts c.handle.snapshot t.mgr.status row := by
    intro row
    have hempty : ∀ (l : List (Tuple ρ)) (p : Tuple ρ → Bool),
        (l.filter p).isEmpty = !l.any p := fun l p => by
      rw [Bool.eq_iff_iff]
      simp
    unfold checkReferencedByDelete matchingChildRows
    cases fk.targetColumns row with
    | none => rfl
    | some k =>
      dsimp only
      rw [hempty, hempty]
      exact congrArg _ (hscan fun r => fk.columns r = some k)
  cases e with
  | insert row => exact hparent row
  | update n row =>
    obtain ⟨v, v', hv, hv', hrow⟩ := hold n rfl
    simp only [passes, hv, hv', all_some, hrow, hparent, checkReferencedByUpdate, hchild]
  | delete n =>
    obtain ⟨v, v', hv, hv', hrow⟩ := hold n rfl
    simp only [passes, hv, hv', all_some, hrow, hchild]

/-! ## The condition -/

section Condition

variable (fk) (s : State ρ) (x : ℕ) (c : Client) (e : Edit ρ)

/-- Nobody has stamped a parent of the new row that the statement sees, and the statement itself
does not replace it. -/
def ParentsUnstamped : Prop :=
  ∀ row ∈ e.new, ∀ k ∈ fk.columns row, ∀ m : Fin s.tuples.length,
    fk.targetColumns s.tuples[m].row = some k →
    (isVisible s.tuples[m].header c.handle.snapshot s.txn.mgr.status).isSeen = true →
    s.tuples[m].header.xmax = 0 ∧ (e.old = some m.val → fk.targetColumns row = some k)

/-- The statement sees the children of a key that goes away, apart from those that are of an aborted
transaction or deleted, by itself or by a committed one. -/
def ChildrenSeen : Prop :=
  ∀ n ∈ e.old, ∀ v ∈ s.tuples[n]?, ∀ k ∈ fk.targetColumns v.row,
    e.new.bind fk.targetColumns ≠ some k → ∀ u ∈ s.tuples, fk.columns u.row = some k →
    (isVisible u.header c.handle.snapshot s.txn.mgr.status).isSeen = true ∨
      s.txn.mgr.status u.header.xmin = .aborted ∨ u.header.xmax ≠ 0 ∧
        (u.header.xmax = x ∨ s.txn.mgr.status u.header.xmax = .committed)

instance : Decidable (ParentsUnstamped fk s c e) := by
  unfold ParentsUnstamped
  infer_instance

instance : Decidable (ChildrenSeen fk s x c e) := by
  unfold ChildrenSeen
  infer_instance

end Condition

/-- **What the checks have found is the whole truth** at the moment of the write. -/
def Undisturbed (fk : Constraint ρ κ) (s : State ρ) : Act ρ → Prop
  | .write x _ =>
    match running s.txn x, s.job x with
    | some c, .checked e => ParentsUnstamped fk s c e ∧ ChildrenSeen fk s x c e
    | _, _ => True
  | _ => True

instance : DecidableRel (Undisturbed fk) := fun s a => by
  unfold Undisturbed
  split
  · split <;> infer_instance
  · infer_instance

/-- Snapshots are taken at a clear moment. -/
def Timed (s : State ρ) : Act ρ → Prop
  | .txn b => Timeline.Timely s.txn b = true
  | _ => True

instance instDecidableRelTimed : DecidableRel (Timed (ρ := ρ)) := fun s a => by
  unfold Timed
  split <;> infer_instance

/-- The conditions on the steps. -/
def KeepsKey (fk : Constraint ρ κ) (s : State ρ) (a : Act ρ) : Prop :=
  Timed s a ∧ Undisturbed fk s a

instance instDecidableRelKeepsKey : DecidableRel (KeepsKey fk) := fun _ _ =>
  inferInstanceAs (Decidable (_ ∧ _))

/-- What a statement sees is committed or its own. -/
theorem committed_or_own (hi : TableInv t ts) (hc : t.clients.lookup x = some c)
    (hp : c.phase = .running) (hv : ts[n]? = some v)
    (hseen : (isVisible v.header c.handle.snapshot t.mgr.status).isSeen = true) :
    Committed t v.header.xmin ∨ v.header.xmin = x := by
  obtain ⟨d, hd, -⟩ := (hi.header n v hv).inserted.held
  by_cases hx : v.header.xmin = x
  · exact .inr hx
  · have hins := ((hi.isSeen_iff hc hp hv).1 hseen).1
    obtain ⟨hcom, -⟩ := (sees_foreign hc hd hx).1 hins
    exact .inl ⟨d, hd, hcom⟩

/-- The check for a parent, and nobody in between. -/
theorem parentStays (hi : TableInv s.txn s.tuples) (hc : s.txn.clients.lookup x = some c)
    (hp : c.phase = .running) {e : Edit ρ}
    (hpass : passes fk s.tuples c.handle.snapshot s.txn.mgr.status e = true)
    (hcond : ParentsUnstamped fk s c e) : ParentStays fk s.txn s.tuples x e := by
  intro row k hrow hk
  have hcheck : checkForeignKey fk s.tuples c.handle.snapshot s.txn.mgr.status row = true := by
    cases e with cases hrow
    | insert row' => exact hpass
    | update n row' => exact ((Bool.and_eq_true _ _).mp hpass).1
  rw [checkForeignKey, hk] at hcheck
  obtain ⟨p, hmem, hkey⟩ := any_eq_true.1 hcheck
  obtain ⟨hmem, hseen⟩ := mem_filter.1 hmem
  obtain ⟨m, hm⟩ := mem_iff_getElem?.1 hmem
  obtain ⟨hlt, rfl⟩ := List.getElem?_eq_some_iff.1 hm
  have hkey := of_decide_eq_true hkey
  obtain ⟨hzero, hsame⟩ := hcond row hrow k hk ⟨m, hlt⟩ hkey hseen
  exact ⟨m, _, hm, hkey, committed_or_own hi hc hp hm hseen, hzero, hsame⟩

/-- The check for children, and nobody in between. -/
theorem childrenGone (hi : TableInv s.txn s.tuples) {e : Edit ρ}
    (hpass : passes fk s.tuples c.handle.snapshot s.txn.mgr.status e = true)
    (hcond : ChildrenSeen fk s x c e) : ChildrenGone fk s.txn s.tuples x e := by
  intro n v k hn hv hk hstay i u hu hku
  have hcheck : checkReferencedByDelete fk s.tuples c.handle.snapshot s.txn.mgr.status v.row =
      true := by
    cases e with cases hn
    | update n' row =>
      have hupd := ((Bool.and_eq_true _ _).mp hpass).2
      rw [hv, all_some, checkReferencedByUpdate, if_neg] at hupd
      · exact hupd
      · rw [hk]
        exact Ne.symm hstay
    | delete n' => simpa [passes, hv] using hpass
  rw [checkReferencedByDelete, hk, List.isEmpty_iff] at hcheck
  have hh := hi.header i u hu
  rcases hcond n hn v hv k hk hstay u (mem_of_getElem? hu) hku with hseen | hst | ⟨hx, hdel⟩
  · have hmem : u ∈ matchingChildRows fk s.tuples c.handle.snapshot s.txn.mgr.status k :=
      mem_filter.2 ⟨mem_filter.2 ⟨mem_of_getElem? hu, hseen⟩, decide_eq_true hku⟩
    rw [hcheck] at hmem
    cases hmem
  · have hab := congrArg XidStatus.isAborted hst
    exact .inl (undone_of_status hi.txn hi.solo hh.inserted.held hab)
  · exact .inr ⟨hx, hdel.imp_right fun hst =>
      committed_of_status hi.txn hi.solo (hh.held hx) (congrArg XidStatus.isCommitted hst)⟩

/-! ## Every step keeps the invariant -/

section Steps

variable {e : Edit ρ}

theorem JobInv.frame (hj : JobInv fk s x e c) (hi : TableInv s.txn s.tuples)
    (h : TableStep s.txn s.tuples s'.txn s'.tuples) (hc' : s'.txn.clients.lookup x = some c)
    (hlocks : ∀ n, e.old = some n → s'.locks n = s.locks n)
    (hsame : ∀ n v, e.old = some n → s.tuples[n]? = some v → s'.tuples[n]? = some v)
    (hjob : s'.job x = s.job x) : JobInv fk s' x e c := by
  refine ⟨hc', hj.running, fun n hn => ?_, fun hcheck => ?_⟩
  · obtain ⟨hlock, v, hv, hw⟩ := hj.locked n hn
    have hi' := hi.step h
    exact ⟨(hlocks n hn).trans hlock, v, hsame n v hn hv, writable_mono hi.txn hi.solo hi'.txn
      hi'.solo (hi.ages h) hj.client hc' (hi.header n v hv) hw⟩
  · rw [passes_step hi h hj.client hc' hj.running fun n hn => ?_]
    · exact hj.passed (hjob ▸ hcheck)
    · obtain ⟨-, v, hv, -⟩ := hj.locked n hn
      exact ⟨v, v, hv, hsame n v hn hv, rfl⟩

/-- Two statements change different rows. -/
theorem JobInv.old_ne {e' : Edit ρ} (hj : JobInv fk s x e c) (hj' : JobInv fk s y e' d)
    (hxy : y ≠ x) (hn : e.old = some n) : e'.old ≠ some n := by
  intro hn'
  have hlock := (hj.locked n hn).1.symm.trans (hj'.locked n hn').1
  exact hxy (Option.some.inj hlock).symm

namespace Inv

variable (hi : Inv fk s)

include hi

theorem time {b : Timeline.Act} (hb : b.plain = true) (hjob : allowed s.job b = true)
    (ht : Timeline.Timely s.txn b = true) (h : Timeline.step s.txn b = some t') :
    Inv fk { s with txn := t', job := restart s.job b } := by
  have hstep : TableStep s.txn s.tuples t' s.tuples := .time hb ht h
  refine ⟨hi.table.step hstep, hi.keys.mono hi.table (hi.table.ages hstep), fun x e hx => ?_⟩
  have hrb : b ≠ .rollback x := by
    rintro rfl
    simp [restart] at hx
  have hsame : restart s.job b x = s.job x := by
    cases b with
    | rollback y =>
      exact update_of_ne (fun hxy => hrb (congrArg Timeline.Act.rollback hxy.symm)) _ _
    | _ => rfl
  have hx' : s.job x = .planned e ∨ s.job x = .checked e := hsame ▸ hx
  have hidle : s.job x ≠ .idle := by
    rcases hx' with h | h <;> rw [h] <;> nofun
  have hnot : (∀ xmax, b ≠ .refresh x xmax) ∧ b ≠ .commit x := by
    constructor <;> intros <;>
    · rintro rfl
      rw [allowed] at hjob
      split at hjob
      · rename_i h
        exact hidle h
      · cases hjob
  obtain ⟨c, hj⟩ := hi.job x e hx'
  refine ⟨c, hj.frame hi.table hstep ?_ (fun _ _ => rfl) (fun _ _ _ h => h) hsame⟩
  exact Timeline.lookup_other hi.table.txn hb h hnot.1 hnot.2 hrb hj.client hj.running

/-- The statement of `x` goes on, and the rows stay as they are. -/
theorem setJob {j : Job ρ} (hx : ∀ e, j = .planned e ∨ j = .checked e →
      ∃ c, JobInv fk (s.setJob x j) x e c) : Inv fk (s.setJob x j) := by
  refine ⟨hi.table, hi.keys, fun y e hy => ?_⟩
  by_cases hyx : y = x
  · subst hyx
    exact hx e ((update_self (f := s.job) y j).symm ▸ hy)
  · have hsame : (s.setJob x j).job y = s.job y := update_of_ne hyx _ _
    obtain ⟨c, hj⟩ := hi.job y e (hsame ▸ hy)
    exact ⟨c, hj.frame hi.table .keep hj.client (fun _ _ => rfl) (fun _ _ _ h => h) hsame⟩

/-- The transaction `x` has locked the tuple `n`. -/
theorem lock (hfree : s.lockFree x n = true)
    (hx : ∀ e m, s.job x = .planned e ∨ s.job x = .checked e → e.old = some m → m ≠ n) :
    Inv fk { s with locks := update s.locks n (some x) } := by
  refine ⟨hi.table, hi.keys, fun y e hy => ?_⟩
  obtain ⟨c, hj⟩ := hi.job y e hy
  refine ⟨c, hj.frame hi.table .keep hj.client (fun m hm => ?_) (fun _ _ _ h => h) rfl⟩
  refine update_of_ne ?_ _ _
  rintro rfl
  by_cases hyx : y = x
  · subst hyx
    exact hx e m hy hm rfl
  · -- the holder of the lock has not ended
    rw [State.lockFree, (hj.locked m hm).1] at hfree
    simp [hyx, State.isOver, hj.client, hj.running] at hfree

theorem write {hot : Bool} (hc : s.txn.clients.lookup x = some c) (hp : c.phase = .running)
    (hjob : s.job x = .checked e) (hts : s.apply c hot e = some ts')
    (hparent : ParentsUnstamped fk s c e) (hchild : ChildrenSeen fk s x c e) :
    Inv fk { s.setJob x .idle with tuples := ts' } := by
  obtain ⟨c', hj⟩ := hi.job x e (.inr hjob)
  obtain rfl := mem_unique hc hj.client
  have hold : ∀ n v, e.old = some n → s.tuples[n]? = some v → writable s.txn c v.header = true := by
    intro n v hn hv
    obtain ⟨-, v', hv', hw⟩ := hj.locked n hn
    obtain rfl := mem_unique hv hv'
    exact hw
  have hstep : TableStep s.txn s.tuples s.txn ts' := by
    cases e with
    | insert row =>
      cases hts
      exact .insert hc hp row
    | update n row =>
      obtain ⟨v, hv, rfl⟩ := map_eq_some_iff.1 hts
      exact .update hc hp hv (hold n v rfl hv) hot row
    | delete n =>
      obtain ⟨v, hv, rfl⟩ := map_eq_some_iff.1 hts
      exact .delete hc hp hv (hold n v rfl hv)
  have hw : Wrote s.tuples ts' x e := wrote_of_apply hi.table.solo hc hts fun n v hn hv =>
    ((writable_iff hi.table.txn hi.table.solo hc (hi.table.header n v hv)).1 (hold n v hn hv)).1
  have h0 : x ≠ 0 := hi.table.txn.ne_zero hc
  refine ⟨hi.table.step hstep, hi.keys.write hw hc hp h0
    (parentStays hi.table hc hp (hj.passed hjob) hparent)
    (childrenGone hi.table (hj.passed hjob) hchild), fun y e' hy => ?_⟩
  by_cases hyx : y = x
  · subst hyx
    simp [State.setJob] at hy
  · have hsame : (s.setJob x .idle).job y = s.job y := update_of_ne hyx _ _
    obtain ⟨d, hjd⟩ := hi.job y e' (hsame ▸ hy)
    refine ⟨d, hjd.frame hi.table hstep hjd.client (fun _ _ => rfl) (fun n v hn hv => ?_) hsame⟩
    exact hw.other n v hv (hjd.old_ne hj (Ne.symm hyx) hn)

theorem clear {todo : List (ℕ × Visit)} (hc : s.txn.clients.lookup x = some c)
    (hp : c.phase = .aborting ((z, .stamps) :: todo)) (hv : s.tuples[n]? = some v)
    (hx : v.header.xmax = z) : Inv fk { s with tuples := clearTuple s.tuples n v } := by
  have hstep : TableStep s.txn s.tuples s.txn (clearTuple s.tuples n v) := .clear hc hp hv hx
  have hzx : z = x := hi.table.visit_xid hc hp
  have h0 := hi.table.txn.ne_zero hc
  refine ⟨hi.table.step hstep, hi.keys.clear hv ⟨c, ?_, .inr ⟨_, hp⟩⟩, fun y e hy => ?_⟩
  · rw [hx, hzx]
    exact hc
  · obtain ⟨d, hj⟩ := hi.job y e hy
    refine ⟨d, hj.frame hi.table hstep hj.client (fun _ _ => rfl) (fun m w hm hw => ?_) rfl⟩
    refine (getElem?_set_ne ?_).trans hw
    rintro rfl
    obtain ⟨-, w', hw', hwr⟩ := hj.locked n hm
    obtain rfl := mem_unique hv hw'
    have hzero := ((writable_iff hi.table.txn hi.table.solo hj.client
      (hi.table.header n v hv)).1 hwr).1
    omega

theorem visit {u : ℕ × Visit} (h : s.txn.nextVisit x = some (u, t')) :
    Inv fk { s with txn := s.txn.tick t' } := by
  have hstep : TableStep s.txn s.tuples (s.txn.tick t') s.tuples := .visit h
  refine ⟨hi.table.step hstep, hi.keys.mono hi.table (hi.table.ages hstep), fun y e hy => ?_⟩
  obtain ⟨d, hj⟩ := hi.job y e hy
  have hc := Timeline.lookup_of_visit h hj.client hj.running
  exact ⟨d, hj.frame hi.table hstep hc (fun _ _ => rfl) (fun _ _ _ h => h) rfl⟩

theorem step {a : Act ρ} (ht : Timed s a) (hcond : Undisturbed fk s a)
    (h : ForeignKey.step fk s a = some s') : Inv fk s' := by
  cases spec_of_step h with
  | time hb hjob htime => exact hi.time hb hjob ht htime
  | insert hc hp =>
    refine hi.setJob fun e he => ?_
    rcases he with he | he <;> cases he
    exact ⟨_, hc, hp, fun n hn => (by cases hn), fun h => (by simp [State.setJob] at h)⟩
  | @lock x n c v row hc hp hv hfree hjob hw =>
    have hlock := hi.lock hfree fun e m he => by
      rcases he with he | he <;> rw [hjob] at he <;> cases he
    refine hlock.setJob fun e he => ?_
    rcases he with he | he <;> cases he
    refine ⟨c, hc, hp, fun m hm => ?_, fun h => by simp [State.setJob] at h⟩
    obtain rfl : n = m := by cases row <;> exact Option.some.inj hm
    exact ⟨update_self .., v, hv, hw⟩
  | skip hfree hjob =>
    refine hi.lock hfree fun e m he => ?_
    rcases he with he | he <;> rw [hjob] at he <;> cases he
  | @check x c e hc hp hjob hpass =>
    refine hi.setJob fun e' he => ?_
    rcases he with he | he <;> cases he
    obtain ⟨c', hj⟩ := hi.job x e (.inl hjob)
    obtain rfl := mem_unique hc hj.client
    exact ⟨c, hc, hp, hj.locked, fun _ => hpass⟩
  | fail => exact hi.setJob fun e he => by rcases he with he | he <;> cases he
  | @write x c e hot ts hc hp hjob hts =>
    rw [Undisturbed, running_eq_some.2 ⟨hc, hp⟩, hjob] at hcond
    exact hi.write hc hp hjob hts hcond.1 hcond.2
  | clear hc hp hv hx => exact hi.clear hc hp hv hx
  | visit hnext => exact hi.visit hnext

end Inv

end Steps

/-! ## The key holds -/

/-- The version is that of a committed row. -/
def Live (s : State ρ) (v : Tuple ρ) : Prop :=
  s.txn.mgr.status v.header.xmin = .committed ∧
    (v.header.xmax = 0 ∨ s.txn.mgr.status v.header.xmax ≠ .committed)

instance (s : State ρ) (v : Tuple ρ) : Decidable (Live s v) :=
  inferInstanceAs (Decidable (_ ∧ _))

theorem live_iff (hi : TableInv s.txn s.tuples) (hv : s.tuples[n]? = some v) :
    Live s v ↔ Remains s.txn ∅ v.header := by
  have hcom : ∀ {a : Stamp}, Held s.txn a →
      (s.txn.mgr.status a.xid = .committed ↔ Commits s.txn ∅ a.owner) := by
    intro a ha
    refine ⟨fun h => .inl (committed_of_status hi.txn hi.solo ha (by rw [h]; rfl)), ?_⟩
    rintro (⟨d, hd, hp⟩ | h)
    · rw [hi.txn.status_own hd (ha.own hi.solo hi.txn hd), hp]
      rfl
    · cases h
  have hh := hi.header n v hv
  refine and_congr (hcom hh.inserted.held) ?_
  by_cases hx : v.header.xmax = 0
  · simp [hx]
  · have hiff := hcom (hh.held hx)
    exact ⟨fun h hc => h.resolve_left hx (hiff.2 hc.2), fun h => .inr fun hst =>
      h ⟨hx, hiff.1 hst⟩⟩

/-- **Every committed child has a committed parent.** -/
theorem children_have_parents (h : (machine fk).Reach (KeepsKey fk) s) (hv : v ∈ s.tuples)
    (hlive : Live s v) {k : κ} (hk : fk.columns v.row = some k) :
    ∃ p ∈ s.tuples, Live s p ∧ fk.targetColumns p.row = some k := by
  have hi : Inv fk s := h.invariant inv_init fun _ _ _ _ hs hC hstep => hs.step hC.1 hC.2 hstep
  obtain ⟨n, hn⟩ := mem_iff_getElem?.1 hv
  obtain ⟨m, p, hp, hrem, hkey⟩ := hi.keys ∅ (fun z hz => by cases hz) n v k hn
    ((live_iff hi.table hn).1 hlive) hk
  exact ⟨p, mem_of_getElem? hp, (live_iff hi.table hp).2 hrem, hkey⟩

/-! ## Runs -/

/-- Rows of two tables: the key of a child row and that of a parent row. -/
def pairKey : Constraint (Option ℕ × Option ℕ) ℕ := ⟨Prod.fst, Prod.snd⟩

def opening (x : ℕ) (isolation : IsolationLevel) : List (Act (Option ℕ × Option ℕ)) :=
  (Timeline.opening x isolation).map .txn

/-- A statement that stores a row. -/
def insertRow (x xmax : ℕ) (row : Option ℕ × Option ℕ) : List (Act (Option ℕ × Option ℕ)) :=
  [.txn (.refresh x xmax), .insert x row, .check x, .write x false]

/-- A child and its parent, one transaction after the other. -/
theorem child_of_committed_parent : ∃ s v,
    (machine pairKey).Reach (KeepsKey pairKey) s ∧ v ∈ s.tuples ∧ Live s v ∧
      pairKey.columns v.row = some 7 ∧
      ∃ p ∈ s.tuples, Live s p ∧ pairKey.targetColumns p.row = some 7 := by
  obtain ⟨s, hs, v, hv, hlive, hk⟩ := Machine.exists_reach_of_runIf (M := machine pairKey)
    (C := KeepsKey pairKey)
    (p := fun s => ∃ v ∈ s.tuples, Live s v ∧ pairKey.columns v.row = some 7)
    (opening 3 .readCommitted ++ insertRow 3 4 (none, some 7) ++ [.txn (.commit 3)] ++
      opening 4 .serializable ++ insertRow 4 5 (some 7, none) ++ [.txn (.commit 4)]) (by decide)
  exact ⟨s, v, hs, hv, hlive, hk, children_have_parents hs hv hlive hk⟩

/-- **An orphan.** The transaction 4 inserts a child and 5 deletes its parent. Each looks before the
other one writes, and both commit. -/
theorem orphan_after_commit : ∃ s, (machine pairKey).Reach Timed s ∧
    (∀ y ∈ [3, 4, 5], s.isOver y = true) ∧
    (∃ v ∈ s.tuples, Live s v ∧ pairKey.columns v.row = some 7) ∧
    ¬ ∃ p ∈ s.tuples, Live s p ∧ pairKey.targetColumns p.row = some 7 :=
  Machine.exists_reach_of_runIf (M := machine pairKey)
    (opening 3 .readCommitted ++ insertRow 3 4 (none, some 7) ++ [.txn (.commit 3)] ++
      opening 4 .readCommitted ++ opening 5 .readCommitted ++
      [.txn (.refresh 4 6), .insert 4 (some 7, none), .check 4,
        .txn (.refresh 5 6), .lock 5 0 none, .check 5, .write 4 false, .write 5 false,
        .txn (.commit 4), .txn (.commit 5)]) (by decide)

end UltraSql.ForeignKey
