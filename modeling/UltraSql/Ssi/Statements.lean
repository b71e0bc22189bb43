import UltraSql.Ssi.Manager

/-!
# The tags of statements

Before it runs, a statement takes predicate locks for what it reads and records write conflicts
under tags for what it writes. Both are computed from its plan. The comparison of a column with a
literal is a range of the column, a conjunction or disjunction has the ranges of its sides, and a
scan without such a predicate has the relation. A write has these ranges and all of the columns
that have none.

`Row.reads` are the locks under which a row is read, and `Row.covers` says that tags meet each of
them (`Row.covers_iff`). Tags of a disjunction over two columns need not: a row may be in the range
of one column and out of that of the other. MERGE has no tags, and an INSERT only those of its
values, also where it updates a row that is there.
-/

namespace UltraSql.Ssi

open Option

/-! ## Predicates -/

/-- The types whose values are `i64` keys, by the unit of the key. -/
inductive UnitClass
  | int | timestamp | date | time
  deriving DecidableEq, Repr

inductive BinaryOp
  | eq | lt | ltEq | gt | gtEq | and | or | other
  deriving DecidableEq, Repr

/-- An expression. Columns and literals have the unit of their type and literals their key, if there
is one. -/
inductive ScalarExpr
  | column (index : ℕ) (unit : Option UnitClass)
  | literal (key : Option (UnitClass × ℤ))
  | binary (op : BinaryOp) (left right : ScalarExpr)
  | other
  deriving DecidableEq, Repr

/-- The inclusive bounds of a key. -/
abbrev KeyRange := Option ℤ × Option ℤ

/-- The range of `column op key`. A strict bound that overflows leaves no key. -/
def keyRange (key : ℤ) : BinaryOp → Option KeyRange
  | .eq => some (some key, some key)
  | .lt => some (if key = -2 ^ 63 then (some 1, some 0) else (none, some (key - 1)))
  | .ltEq => some (none, some key)
  | .gt => some (if key = 2 ^ 63 - 1 then (some 1, some 0) else (some (key + 1), none))
  | .gtEq => some (some key, none)
  | .and | .or | .other => none

def BinaryOp.flipped : BinaryOp → Option BinaryOp
  | .eq => some .eq
  | .lt => some .gt
  | .ltEq => some .gtEq
  | .gt => some .lt
  | .gtEq => some .ltEq
  | .and | .or | .other => none

def matchSimpleComparison : ScalarExpr → Option (ℕ × KeyRange)
  | .binary op (.column c (some u)) (.literal (some (u', key))) =>
    if u = u' then (keyRange key op).map (c, ·) else none
  | .binary op (.literal (some (u', key))) (.column c (some u)) =>
    if u = u' then (op.flipped.bind (keyRange key)).map (c, ·) else none
  | _ => none

/-- The bounds of both ranges. -/
def KeyRange.meet (a b : KeyRange) : KeyRange := (merge max a.1 b.1, merge min a.2 b.2)

/-- A comparison, or the conjunction of two on the same column. -/
def matchIndexablePredicate (e : ScalarExpr) : Option (ℕ × KeyRange) :=
  (matchSimpleComparison e).or <|
    match e with
    | .binary .and left right =>
      (matchSimpleComparison left).bind fun l => (matchSimpleComparison right).bind fun r =>
        if l.1 = r.1 then some (l.1, l.2.meet r.2) else none
    | _ => none

/-! ## Tables and plans -/

/-- A table, with the unit of each column that has one. -/
structure TableEntry where
  oid : ℕ
  columns : List (Option UnitClass)

namespace TableEntry

variable (entry : TableEntry)

def columnRangeTag (c : ℕ) (range : KeyRange) : Option PredicateLockTag :=
  if entry.columns[c]?.join.isSome ∧ c < 2 ^ 16 then
    some (.columnRange entry.oid c range.1 range.2)
  else none

/-- `column_range_tags_for_predicate_expr` -/
def predicateTags (e : ScalarExpr) : Option (List PredicateLockTag) :=
  match matchIndexablePredicate e with
  | some (c, range) => (entry.columnRangeTag c range).map fun tag =>
    if rangeIsEmpty range.1 range.2 then [] else [tag]
  | none =>
    match e with
    | .binary .and left right =>
      match predicateTags left, predicateTags right with
      | some [], _ | _, some [] => some []
      | some a, some b => some (a ++ b)
      | some a, none | none, some a => some a
      | none, none => none
    | .binary .or left right =>
      (predicateTags left).bind fun a => (predicateTags right).map (a ++ ·)
    | _ => none

/-- `table_column_range_write_tags_except_any` -/
def writeTagsExcept (excluded : List ℕ) : List PredicateLockTag :=
  (List.range entry.columns.length).filterMap fun c =>
    if c ∈ excluded then none else entry.columnRangeTag c (none, none)

def finishWriteTags (tags : List PredicateLockTag) : List PredicateLockTag :=
  if tags.isEmpty then [.relation entry.oid] else tags.eraseDups

/-- `table_column_range_write_tags` -/
def writeTags : List PredicateLockTag := entry.finishWriteTags (entry.writeTagsExcept [])

end TableEntry

/-- A plan, as far as tags depend on it. -/
inductive LogicalPlan
  | scan (table : ℕ)
  | filter (input : LogicalPlan) (predicate : ScalarExpr)
  /-- `Project`, `Limit`, `Sort` and `LockRows` -/
  | pass (input : LogicalPlan)
  /-- the other nodes with one input -/
  | fold (input : LogicalPlan)
  /-- a node with two inputs, or with one and a plan in an expression -/
  | both (left right : LogicalPlan)
  | values (rows : List (List ScalarExpr))
  | insert (table : ℕ) (columns : List ℕ) (source : LogicalPlan)
  | update (table : ℕ) (assignments : List ℕ) (input : LogicalPlan)
  | delete (table : ℕ) (input : LogicalPlan)
  | merge (table : ℕ) (source : LogicalPlan)
  | other

variable (catalog : ℕ → Option TableEntry)

def columnRangeTagsForFilter (predicate : ScalarExpr) :
    LogicalPlan → Option (List PredicateLockTag)
  | .scan table => (catalog table).bind fun entry =>
    (entry.predicateTags predicate).map List.eraseDups
  | _ => none

/-- `collect_serializable_read_locks` -/
def collectReadLocks : LogicalPlan → List PredicateLockTag
  | .scan table => ((catalog table).map fun entry => .relation entry.oid).toList
  | .filter input predicate =>
    (columnRangeTagsForFilter catalog predicate input).getD (collectReadLocks input)
  | .pass input | .fold input | .insert _ _ input | .update _ _ input | .delete _ input |
    .merge _ input => collectReadLocks input
  | .both left right => collectReadLocks left ++ collectReadLocks right
  | .values _ | .other => []

def columnRangeTagColumn : PredicateLockTag → Option ℕ
  | .columnRange _ c _ _ => some c
  | _ => none

/-- The relation of a tag, which `tag_matches_entry` compares. -/
def tagRelation : PredicateLockTag → ℕ
  | .relation r | .columnRange r _ _ _ => r
  | .page p => p.relation
  | .tuple t => t.relation

def inputWriteConflictTags (entry : TableEntry) : LogicalPlan → Option (List PredicateLockTag)
  | .filter input predicate => (columnRangeTagsForFilter catalog predicate input).bind fun tags =>
    if tags.any (tagRelation · ≠ entry.oid) then none
    else if tags.isEmpty then some []
    else some (tags ++ entry.writeTagsExcept (tags.filterMap columnRangeTagColumn))
  | .pass input => inputWriteConflictTags entry input
  | _ => none

/-- The range of a value that INSERT puts into a column: the key of a literal of the same unit. -/
def insertedRange (entry : TableEntry) (c : ℕ) : ScalarExpr → KeyRange
  | .literal (some (u, key)) =>
    if entry.columns[c]?.join = some u then (some key, some key) else (none, none)
  | _ => (none, none)

def insertWriteConflictTags (entry : TableEntry) (columns : List ℕ) :
    LogicalPlan → List PredicateLockTag
  | .values rows =>
    let n := entry.columns.length
    if columns.isEmpty ∧ rows.any (·.length ≠ n) ∨ ¬columns.isEmpty ∧ columns.length ≠ n then
      entry.writeTags
    else
      let tags := rows.flatMap fun row => row.zipIdx.filterMap fun (e, j) =>
        let c := columns[j]?.getD j
        entry.columnRangeTag c (insertedRange entry c e)
      -- `SERIALIZABLE_POINT_LOCK_LIMIT`
      if 1024 < tags.length then entry.writeTags else entry.finishWriteTags tags
  | _ => entry.writeTags

def updateWriteConflictTags (entry : TableEntry) (assignments : List ℕ) (input : LogicalPlan) :
    List PredicateLockTag :=
  match inputWriteConflictTags catalog entry input with
  | none => entry.writeTags
  | some [] => []
  | some tags => entry.finishWriteTags
    (tags ++ assignments.filterMap fun c => entry.columnRangeTag c (none, none))

def deleteWriteConflictTags (entry : TableEntry) (input : LogicalPlan) : List PredicateLockTag :=
  updateWriteConflictTags catalog entry [] input

def serializableWriteConflictTags : LogicalPlan → List PredicateLockTag
  | .insert table columns source =>
    (catalog table).elim [] fun entry => insertWriteConflictTags entry columns source
  | .update table assignments input =>
    (catalog table).elim [] fun entry => updateWriteConflictTags catalog entry assignments input
  | .delete table input =>
    (catalog table).elim [] fun entry => deleteWriteConflictTags catalog entry input
  | _ => []

/-! ## Rows -/

/-- A row of a table, with the keys of its columns that have one. -/
structure Row where
  relation : ℕ
  columns : List (Option ℤ)
  deriving DecidableEq, Repr

def inRange (range : KeyRange) (v : ℤ) : Bool :=
  range.1.all (fun l => decide (l ≤ v)) && range.2.all fun h => decide (v ≤ h)

namespace Row

variable (row : Row)

def key (c : ℕ) : Option ℤ := row.columns[c]?.join

/-- A scan of the relation, or of a range that has the row's key. -/
def reads : PredicateLockTag → Bool
  | .relation r => r == row.relation
  | .columnRange r c low high => r == row.relation && (row.key c).any (inRange (low, high))
  | .tuple _ | .page _ => false

/-- A lock on the relation and locks on each key of the row meet one of the tags. -/
def covers (tags : List PredicateLockTag) : Bool :=
  tags.any (predicateLockCovers (.relation row.relation)) &&
    (List.range row.columns.length).all fun c => (row.key c).all fun v =>
      tags.any (predicateLockCovers (.columnRange row.relation c (some v) (some v)))

end Row

variable {row : Row} {tags : List PredicateLockTag} {held tag : PredicateLockTag}
  {r c : ℕ} {v : ℤ} {a b : KeyRange}

theorem rangeIsEmpty_of_inRange (h : inRange a v = true) : rangeIsEmpty a.1 a.2 = false := by
  obtain ⟨low, high⟩ := a
  cases low <;> cases high <;> simp only [inRange, rangeIsEmpty, all_some, all_none,
    Bool.and_eq_true, decide_eq_true_eq, decide_eq_false_iff_not, not_lt] at h ⊢
  omega

theorem rangesOverlap_of_inRange (ha : inRange a v = true) (hb : inRange b v = true) :
    rangesOverlap a.1 a.2 b.1 b.2 = true := by
  -- both bounds of either range are on the right side of `v`
  have hcross : ∀ {a b : KeyRange}, inRange a v = true → inRange b v = true →
      rangeIsEmpty a.1 b.2 = false := by
    intro a b ha hb
    refine rangeIsEmpty_of_inRange (a := (a.1, b.2)) (v := v) ?_
    simp only [inRange, Bool.and_eq_true] at ha hb ⊢
    exact ⟨ha.1, hb.2⟩
  unfold rangesOverlap
  rw [rangeIsEmpty_of_inRange ha, rangeIsEmpty_of_inRange hb, hcross hb ha, hcross ha hb]
  rfl

theorem inRange_of_overlap_point (h : rangesOverlap (some v) (some v) a.1 a.2 = true) :
    inRange a v = true := by
  obtain ⟨low, high⟩ := a
  cases low <;> cases high <;> simp [rangesOverlap, rangeIsEmpty, inRange] at h ⊢ <;> omega

/-- What meets the lock on a key of the row meets every lock under which this key is read. -/
theorem covers_of_point (hr : row.reads (.columnRange r c a.1 a.2) = true) (hv : row.key c = some v)
    (h : predicateLockCovers (.columnRange row.relation c (some v) (some v)) tag = true) :
    predicateLockCovers (.columnRange r c a.1 a.2) tag = true := by
  simp only [Row.reads, hv, any_some, Bool.and_eq_true, beq_iff_eq] at hr
  obtain ⟨rfl, hin⟩ := hr
  cases tag with
  | relation =>
    simp only [predicateLockCovers, Bool.and_eq_true, beq_iff_eq] at h ⊢
    simp [h.1, rangeIsEmpty_of_inRange hin]
  | columnRange _ _ low high =>
    simp only [predicateLockCovers, Bool.and_eq_true, beq_iff_eq] at h ⊢
    exact ⟨h.1, rangesOverlap_of_inRange hin (inRange_of_overlap_point (a := (low, high)) h.2)⟩
  | _ => cases h

/-- **Tags cover a row** exactly if every lock under which the row is read meets one of them. -/
theorem Row.covers_iff : row.covers tags = true ↔
    ∀ held, row.reads held = true → ∃ tag ∈ tags, predicateLockCovers held tag = true := by
  simp only [Row.covers, Bool.and_eq_true, List.any_eq_true, List.all_eq_true, List.mem_range,
    Option.all_eq_true]
  constructor
  · rintro ⟨hrel, hcol⟩ held hr
    cases held with
    | relation r => exact (beq_iff_eq.1 hr : r = row.relation) ▸ hrel
    | columnRange r c low high =>
      obtain ⟨v, hv, -⟩ := (any_eq_true _ _).1 (Bool.and_eq_true_iff.1 hr).2
      have hlt : c < row.columns.length := by
        by_contra hge
        simp [Row.key, List.getElem?_eq_none (not_lt.1 hge)] at hv
      obtain ⟨tag, htag, hcov⟩ := hcol c hlt v hv
      exact ⟨tag, htag, covers_of_point (a := (low, high)) hr hv hcov⟩
    | _ => cases hr
  · intro h
    refine ⟨h _ (beq_self_eq_true _), fun c _ v hv => h _ ?_⟩
    simp [Row.reads, hv, inRange]

end UltraSql.Ssi
