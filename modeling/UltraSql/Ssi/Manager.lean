import UltraSql.Mvcc.Visibility
import UltraSql.Lib.FiniteMap

/-!
# The conflict graph of serializable transactions

`SsiManager` keeps, for each serializable transaction, the predicate locks that its reads took and
the read-write antidependencies into and out of it. A write records an antidependency from every
holder of a lock that covers it. A commit marks the transaction and then fails if it is the pivot
of a dangerous structure `T1 → T2 → T3` whose other two transactions are still in the graph.

The lemmas say what each operation does to the entries; `Recorded` is the effect of a write.
-/

namespace UltraSql

structure PageId where
  relation : ℕ
  block : ℕ
  deriving DecidableEq, Repr

def TupleId.page (t : TupleId) : PageId := ⟨t.relation, t.block⟩

/-- What a predicate lock covers. The bounds of a column range are inclusive, and `none` is
unbounded. -/
inductive PredicateLockTag
  | tuple (t : TupleId)
  | page (p : PageId)
  | columnRange (relation column : ℕ) (low high : Option ℤ)
  | relation (r : ℕ)
  deriving DecidableEq, Repr

def rangeIsEmpty : Option ℤ → Option ℤ → Bool
  | some low, some high => decide (high < low)
  | _, _ => false

def rangesOverlap (leftLow leftHigh rightLow rightHigh : Option ℤ) : Bool :=
  if rangeIsEmpty leftLow leftHigh || rangeIsEmpty rightLow rightHigh then false
  else if rangeIsEmpty rightLow leftHigh then false
  else if rangeIsEmpty leftLow rightHigh then false
  else true

/-- Whether a lock that is held covers the resource that a writer names. -/
def predicateLockCovers : PredicateLockTag → PredicateLockTag → Bool
  | .relation h, .relation r => h == r
  | .relation h, .page p => h == p.relation
  | .relation h, .tuple t => h == t.relation
  | .relation h, .columnRange r _ low high => h == r && !rangeIsEmpty low high
  | .page h, .page p => h == p
  | .page h, .relation r => h.relation == r
  | .page h, .tuple t => h == t.page
  | .tuple h, .relation r => h.relation == r
  | .tuple h, .page p => h.page == p
  | .tuple h, .tuple t => h == t
  | .columnRange h _ low high, .relation r => h == r && !rangeIsEmpty low high
  | .columnRange h hc hl hh, .columnRange r rc rl rh =>
    h == r && hc == rc && rangesOverlap hl hh rl rh
  | .page _, .columnRange .. | .tuple _, .columnRange .. | .columnRange .., .page _ |
    .columnRange .., .tuple _ => false

structure SsiState where
  inConflictIn : List ℕ := []
  inConflictOut : List ℕ := []
  predicateLocks : List PredicateLockTag := []
  committed : Bool := false
  commitHorizon : Option ℕ := none

/-- A committed entry that `collect_garbage` drops. -/
def SsiState.retired (e : SsiState) (horizon : ℕ) : Bool :=
  e.committed && e.commitHorizon.any fun h => decide (h ≤ horizon)

/-- A serialization failure: the pivot, its two neighbours, and which of the three are committed. -/
structure SsiError where
  victim : ℕ
  t1 : ℕ
  t3 : ℕ
  committed : Bool × Bool × Bool
  deriving DecidableEq, Repr

structure SsiManager where
  rwConflicts : FiniteMap ℕ SsiState := ∅

namespace SsiManager

variable (m : SsiManager)

def lookup (x : ℕ) : Option SsiState := m.rwConflicts.lookup x

def registerXid (x : ℕ) : SsiManager :=
  match m.lookup x with
  | some _ => m
  | none => ⟨m.rwConflicts.insert x {}⟩

def modify (x : ℕ) (f : SsiState → SsiState) : SsiManager := ⟨m.rwConflicts.modify x f⟩

def addPredicateLock (x : ℕ) (tag : PredicateLockTag) : SsiManager :=
  m.modify x fun e => { e with predicateLocks := e.predicateLocks ++ [tag] }

def recordRwConflict (m : SsiManager) (reader writer : ℕ) : SsiManager :=
  (m.modify reader fun e => { e with inConflictOut := e.inConflictOut.insert writer }).modify writer
    fun e => { e with inConflictIn := e.inConflictIn.insert reader }

/-- The transactions with a lock that covers the tag. -/
def findPredicateLockHolders (tag : PredicateLockTag) : List ℕ :=
  m.rwConflicts.keysWhere fun e => e.predicateLocks.any fun held => predicateLockCovers held tag

/-- The manager after a write to `tag`, and the readers in conflict with it. -/
def recordWriteConflicts (writer : ℕ) (tag : PredicateLockTag) : SsiManager × List ℕ :=
  match m.lookup writer with
  | none => (m, [])
  | some _ =>
    let readers := ((m.findPredicateLockHolders tag).filter (· ≠ writer)).insertionSort (· ≤ ·)
    (readers.foldl (fun m reader => m.recordRwConflict reader writer) m, readers)

/-- The pair of neighbours makes the pivot dangerous. -/
def dangerous (x : ℕ) (pivotCommitted : Bool) (t1 t3 : ℕ) : Option SsiError :=
  if t1 = x ∨ t3 = x then none
  else
    match m.lookup t1, m.lookup t3 with
    | some e₁, some e₃ =>
      if e₁.committed || pivotCommitted || e₃.committed then
        some ⟨x, t1, t3, e₁.committed, pivotCommitted, e₃.committed⟩
      else none
    | _, _ => none

def checkForDangerousStructure (x : ℕ) : Except SsiError Unit :=
  match m.lookup x with
  | none => .ok ()
  | some pivot =>
    match pivot.inConflictIn.findSome? fun t1 =>
        pivot.inConflictOut.findSome? fun t3 => m.dangerous x pivot.committed t1 t3 with
    | some e => .error e
    | none => .ok ()

/-- Mark the transaction committed, then check it. -/
def commit (x commitHorizon : ℕ) : SsiManager × Except SsiError Unit :=
  let m := m.modify x fun e => { e with committed := true, commitHorizon := some commitHorizon }
  (m, m.checkForDangerousStructure x)

def collectGarbage (horizon : ℕ) : SsiManager :=
  ⟨m.rwConflicts.eraseAll (m.rwConflicts.keysWhere fun e => e.retired horizon)⟩

def abort (x : ℕ) : SsiManager := ⟨m.rwConflicts.erase x⟩

/-! ## Entries after an operation -/

variable {m} {m' m'' : SsiManager} {x y z w : ℕ} {e e' : SsiState} {rs rs' : List ℕ}
  {tag : PredicateLockTag}

theorem lookup_registerXid (m : SsiManager) (x y : ℕ) :
    (m.registerXid x).lookup y = if y = x then some ((m.lookup x).getD {}) else m.lookup y := by
  unfold registerXid
  cases h : m.lookup x with
  | none => exact FiniteMap.lookup_insert_eq _ _ _ _
  | some e =>
    split_ifs with hy
    · subst hy
      exact h
    · rfl

theorem lookup_modify (m : SsiManager) (x y : ℕ) (f : SsiState → SsiState) :
    (m.modify x f).lookup y = if y = x then (m.lookup y).map f else m.lookup y :=
  FiniteMap.lookup_modify _ _ _ _

theorem lookup_addPredicateLock (m : SsiManager) (x : ℕ) (tag : PredicateLockTag) (y : ℕ) :
    (m.addPredicateLock x tag).lookup y =
      if y = x then (m.lookup y).map fun e => { e with predicateLocks := e.predicateLocks ++ [tag] }
      else m.lookup y :=
  lookup_modify m x y _

theorem lookup_collectGarbage (m : SsiManager) (horizon y : ℕ) :
    (m.collectGarbage horizon).lookup y = (m.lookup y).filter fun e => !e.retired horizon := by
  unfold collectGarbage
  rw [lookup, FiniteMap.lookup_eraseAll]
  show _ = (m.rwConflicts.lookup y).filter _
  cases h : m.rwConflicts.lookup y with
  | none => simp
  | some e =>
    have hmem : y ∈ m.rwConflicts.keysWhere (fun e => e.retired horizon) ↔
        e.retired horizon = true := by
      rw [FiniteMap.mem_keysWhere, h]
      simp
    by_cases hr : e.retired horizon = true
    · rw [if_pos (hmem.2 hr)]
      exact (if_neg (by simp [hr])).symm
    · rw [if_neg (mt hmem.1 hr)]
      exact (if_pos (by simp [hr])).symm

theorem lookup_abort (m : SsiManager) (x y : ℕ) :
    (m.abort x).lookup y = if y = x then none else m.lookup y :=
  FiniteMap.lookup_erase_eq _ _ _

/-- The manager `m'` is `m` with the antidependencies of `rs` on the writer `w` recorded. -/
structure Recorded (w : ℕ) (rs : List ℕ) (m m' : SsiManager) : Prop where
  present : ∀ y e, m.lookup y = some e → ∃ e', m'.lookup y = some e'
  entry : ∀ y e', m'.lookup y = some e' → ∃ e, m.lookup y = some e ∧
    e'.predicateLocks = e.predicateLocks ∧ e'.committed = e.committed ∧
    e'.commitHorizon = e.commitHorizon ∧
    (∀ z, z ∈ e'.inConflictOut ↔ z ∈ e.inConflictOut ∨ z = w ∧ y ∈ rs) ∧
    ∀ z, z ∈ e'.inConflictIn ↔ z ∈ e.inConflictIn ∨ y = w ∧ z ∈ rs

theorem Recorded.refl (w : ℕ) (m : SsiManager) : Recorded w [] m m :=
  ⟨fun _ e h => ⟨e, h⟩, fun _ e h => ⟨e, h, rfl, rfl, rfl, by simp, by simp⟩⟩

theorem Recorded.trans (h : Recorded w rs m m') (h' : Recorded w rs' m' m'') :
    Recorded w (rs ++ rs') m m'' := by
  refine ⟨fun y e he => ?_, fun y e'' he'' => ?_⟩
  · obtain ⟨e', he'⟩ := h.present y e he
    exact h'.present y e' he'
  · obtain ⟨e', he', hp', hc', hh', ho', hi'⟩ := h'.entry y e'' he''
    obtain ⟨e, he, hp, hc, hh, ho, hi⟩ := h.entry y e' he'
    refine ⟨e, he, hp'.trans hp, hc'.trans hc, hh'.trans hh, fun z => ?_, fun z => ?_⟩
    · rw [ho', ho, List.mem_append]
      tauto
    · rw [hi', hi, List.mem_append]
      tauto

theorem recorded_recordRwConflict (m : SsiManager) (r w : ℕ) :
    Recorded w [r] m (m.recordRwConflict r w) := by
  have hlook : ∀ y, (m.recordRwConflict r w).lookup y = (m.lookup y).map fun e =>
      { e with
        inConflictOut := if y = r then e.inConflictOut.insert w else e.inConflictOut
        inConflictIn := if y = w then e.inConflictIn.insert r else e.inConflictIn } := by
    intro y
    rw [recordRwConflict, lookup_modify, lookup_modify]
    cases m.lookup y <;> split_ifs <;> rfl
  refine ⟨fun y e he => ?_, fun y e' he' => ?_⟩
  · rw [hlook, he]
    exact ⟨_, rfl⟩
  · rw [hlook] at he'
    obtain ⟨e, he, rfl⟩ := Option.map_eq_some_iff.1 he'
    refine ⟨e, he, rfl, rfl, rfl, fun z => ?_, fun z => ?_⟩
    · by_cases hr : y = r <;> simp [hr, List.mem_insert_iff, or_comm]
    · by_cases hw : y = w <;> simp [hw, List.mem_insert_iff, or_comm]

theorem recorded_foldl (w : ℕ) (rs : List ℕ) (m : SsiManager) :
    Recorded w rs m (rs.foldl (fun m r => m.recordRwConflict r w) m) := by
  induction rs generalizing m with
  | nil => exact .refl w m
  | cons r rs ih => exact (recorded_recordRwConflict m r w).trans (ih _)

/-- The transaction has a lock that covers the tag. -/
def Holds (m : SsiManager) (y : ℕ) (tag : PredicateLockTag) : Prop :=
  ∃ e, m.lookup y = some e ∧ ∃ held ∈ e.predicateLocks, predicateLockCovers held tag = true

theorem recordWriteConflicts_spec (hw : m.lookup w = some e) (tag : PredicateLockTag) :
    Recorded w (m.recordWriteConflicts w tag).2 m (m.recordWriteConflicts w tag).1 ∧
      ∀ y, y ∈ (m.recordWriteConflicts w tag).2 ↔ y ≠ w ∧ m.Holds y tag := by
  unfold recordWriteConflicts
  rw [hw]
  refine ⟨recorded_foldl w _ m, fun y => ?_⟩
  dsimp only
  rw [(List.perm_insertionSort _ _).mem_iff, List.mem_filter, findPredicateLockHolders,
    FiniteMap.mem_keysWhere]
  simp only [decide_not, Bool.not_eq_true', decide_eq_false_iff_not, List.any_eq_true]
  exact and_comm

/-- A committed pivot that passes the check has lost all its in-neighbours or all its
out-neighbours. -/
theorem check_ok (h : m.checkForDangerousStructure x = .ok ()) (hx : m.lookup x = some e)
    (hc : e.committed = true) {t1 t3 : ℕ} (h1 : t1 ∈ e.inConflictIn) (h3 : t3 ∈ e.inConflictOut)
    (hne1 : t1 ≠ x) (hne3 : t3 ≠ x) : m.lookup t1 = none ∨ m.lookup t3 = none := by
  unfold checkForDangerousStructure at h
  rw [hx] at h
  dsimp only at h
  split at h
  · cases h
  · rename_i hnone
    have hpair := List.findSome?_eq_none_iff.1 (List.findSome?_eq_none_iff.1 hnone t1 h1) t3 h3
    unfold dangerous at hpair
    rw [if_neg (by tauto)] at hpair
    cases h1' : m.lookup t1 with
    | none => exact .inl rfl
    | some e₁ =>
      cases h3' : m.lookup t3 with
      | none => exact .inr rfl
      | some e₃ => simp [h1', h3', hc] at hpair

/-- The entries after the check of a transaction: its own is marked. -/
theorem lookup_commit (m : SsiManager) (x k y : ℕ) : (m.commit x k).1.lookup y =
    if y = x then (m.lookup y).map fun e => { e with committed := true, commitHorizon := some k }
    else m.lookup y :=
  lookup_modify m x y _

/-- The transaction is not a pivot both of whose neighbours are still in the graph. -/
def Passes (m : SsiManager) (x : ℕ) : Prop :=
  ∀ a c e, m.lookup x = some e → a ∈ e.inConflictIn → c ∈ e.inConflictOut → a ≠ x → c ≠ x →
    m.lookup a = none ∨ m.lookup c = none

theorem passes_of_commit {k : ℕ} (h : (m.commit x k).2 = .ok ()) : m.Passes x := by
  intro a c e he ha hc hax hcx
  have hx : (m.commit x k).1.lookup x =
      some { e with committed := true, commitHorizon := some k } := by
    rw [lookup_commit, if_pos rfl, he]
    rfl
  have := check_ok h hx rfl ha hc hax hcx
  rwa [lookup_modify, lookup_modify, if_neg hax, if_neg hcx] at this

end SsiManager

end UltraSql
