import UltraSql.View.AggregatePlan

/-!
# The rows of an aggregating index

An aggregating index has one row for each group of the table, with the sums and counts of the group.
A query whose GROUP BY and aggregates are those of the index is answered from these rows: they are
filtered by the conditions on the group columns and go through the output expressions.
-/

namespace UltraSql.Aggregating

variable {F : Type} {schema : List DataType}

/-! ## The index -/

inductive ServerError
  /-- `aggregating index count overflow` -/
  | countOverflow
  /-- `aggregating index sum overflow` -/
  | sumOverflow
  /-- `aggregating index sum missing argument column` -/
  | missingArgument
  /-- `aggregating index row missing column {col}` -/
  | missingColumn (col : ℕ)
  /-- `aggregating index row missing group column {col}` -/
  | missingGroupColumn (col : ℕ)
  /-- `aggregating index sum expected numeric input` -/
  | notNumeric
  /-- `aggregating index runtime supports sum and count(*) in this wave` -/
  | unsupportedAggregate
  /-- `aggregating index summary predicate supports integer, text equality, and bool equality` -/
  | unsupportedComparison
  /-- `aggregating index predicate passed support check but did not evaluate` -/
  | predicateNotEvaluated
  /-- `aggregating index projection` -/
  | projection (e : ExecError)
  deriving DecidableEq, Repr

/-- `LogicalAggregatingIndexExpr` -/
structure IndexExpr (F : Type) where
  func : AggregateFunc F
  argColumn : Option ℕ
  dataType : DataType

/-- What `bind_aggregating_index_call` makes of a call. -/
inductive IndexExpr.Bound (schema : List DataType) : IndexExpr F → Prop
  | countStar : Bound schema ⟨.countStar, none, .int64⟩
  | sum {col : ℕ} {t : DataType} (hcol : schema[col]? = some t) (hnum : t.isNumeric = true) :
    Bound schema ⟨.sum, some col, if t.isFloat then .float64 else .int64⟩

/-- `LogicalAggregatingIndex`, as CREATE AGGREGATING INDEX binds it. -/
structure AggregatingIndex (F : Type) (schema : List DataType) where
  groupColumns : List ℕ
  aggregates : List (IndexExpr F)
  grouped : groupColumns ≠ []
  inRange : ∀ col ∈ groupColumns, col < schema.length
  bound : ∀ a ∈ aggregates, a.Bound schema

/-! ## Building the rows -/

structure AggregateState (F : Type) where
  func : AggregateFunc F
  intSum : Int64
  floatSum : F
  floatOutput : Bool
  count : Int64
  sawValue : Bool

namespace AggregateState

variable [Floating F] (s : AggregateState F)

def new (a : IndexExpr F) : AggregateState F where
  func := a.func
  intSum := 0
  floatSum := 0
  floatOutput := a.dataType.isFloat
  count := 0
  sawValue := false

def addFloat (f : F) : AggregateState F := { s with floatSum := s.floatSum + f, sawValue := true }

def addInt (n : Int64) : Except ServerError (AggregateState F) :=
  if s.floatOutput then .ok (s.addFloat (Floating.ofInt n.toInt))
  else
    match checkedAdd s.intSum n with
    | some total => .ok { s with intSum := total, sawValue := true }
    | none => .error .sumOverflow

def add (a : IndexExpr F) (row : Row F) : Except ServerError (AggregateState F) :=
  match s.func with
  | .countStar =>
    match checkedAdd s.count 1 with
    | some n => .ok { s with count := n }
    | none => .error .countOverflow
  | .sum =>
    match a.argColumn with
    | none => .error .missingArgument
    | some col =>
      match row[col]? with
      | none => .error (.missingColumn col)
      | some .null => .ok s
      | some (.int16 n) => s.addInt n.toInt64
      | some (.int32 n) => s.addInt n.toInt64
      | some (.int64 n) => s.addInt n
      | some (.float32 f) | some (.float64 f) => .ok (s.addFloat f)
      | some _ => .error .notNumeric
  | .other _ => .error .unsupportedAggregate

def finish : Value F :=
  match s.func with
  | .countStar => .int64 s.count
  | .sum =>
    if !s.sawValue then .null else if s.floatOutput then .float64 s.floatSum else .int64 s.intSum
  | .other _ => .null

end AggregateState

/-- A row goes into the states of its group. -/
def addAll [Floating F] (row : Row F) :
    List (AggregateState F) → List (IndexExpr F) → Except ServerError (List (AggregateState F))
  | s :: states, a :: aggregates => do
    let s ← s.add a row
    let states ← addAll row states aggregates
    return s :: states
  | states, _ => .ok states

/-- The values of the group columns. -/
def groupKey (groupColumns : List ℕ) (row : Row F) : Except ServerError (Row F) :=
  groupColumns.mapM fun col =>
    match row[col]? with
    | some v => .ok v
    | none => .error (.missingGroupColumn col)

section Index

variable [Floating F] (displayOrder : Row F → Row F → Bool) (index : AggregatingIndex F schema)

/-- `build_aggregating_index_rows`, of the rows that a scan returns. -/
def buildAggregatingIndexRows (rows : List (Row F)) : Except ServerError (List (Row F)) := do
  let groups ← groupFold (rowEq Value.eq) (index.aggregates.map .new) (groupKey index.groupColumns)
    (fun states row => addAll row states index.aggregates) rows
  return (groups.map fun g => g.1 ++ g.2.map AggregateState.finish).insertionSort
    fun a b => displayOrder a b

end Index

/-! ## Answering a query -/

/-- `aggregate_arg_column` -/
def aggregateArgColumn (agg : LogicalAggregateExpr F) : Option ℕ :=
  match agg.arg with
  | some (.column index) => some index
  | _ => none

/-- `query.func == stored.func` -/
def sameFunc : AggregateFunc F → AggregateFunc F → Bool
  | .countStar, .countStar | .sum, .sum => true
  | _, _ => false

/-- `aggregating_spec_matches` -/
def aggregatingSpecMatches (index : AggregatingIndex F schema) (groupBy : List (ScalarExpr F))
    (aggregates : List (LogicalAggregateExpr F)) : Bool :=
  groupBy.length = index.groupColumns.length && aggregates.length = index.aggregates.length &&
    (groupBy.zip index.groupColumns).all (fun
      | (.column i, col) => i = col
      | _ => false) &&
    (aggregates.zip index.aggregates).all fun (query, stored) =>
      !query.distinct && sameFunc query.func stored.func &&
        aggregateArgColumn query = stored.argColumn

/-- `comparison_uses_group_column` -/
def comparisonUsesGroupColumn (groupColumns : List ℕ) : ScalarExpr F → ScalarExpr F → Bool
  | .column index, .literal _ => groupColumns.contains index
  | _, _ => false

/-- `predicate_uses_only_group_columns` -/
def predicateUsesOnlyGroupColumns (groupColumns : List ℕ) : ScalarExpr F → Bool
  | .and left right =>
    predicateUsesOnlyGroupColumns groupColumns left &&
      predicateUsesOnlyGroupColumns groupColumns right
  | .binary _ left right =>
    comparisonUsesGroupColumn groupColumns left right ||
      comparisonUsesGroupColumn groupColumns right left
  | _ => false

/-- `value_as_i128` -/
def valueAsInt : Value F → Option ℤ
  | .int16 n => some n.toInt
  | .int32 n => some n.toInt
  | .int64 n => some n.toInt
  | _ => none

/-- `compare_values` of the index, for values that are not both integers. -/
def compareOtherValues (op : BinaryOp) (left right : Value F) : Except ServerError Bool :=
  match op, left, right with
  | .eq, .text l, .text r => .ok (l = r)
  | .eq, .char l, .char r => .ok (bpcharSemanticText l = bpcharSemanticText r)
  | .eq, .char l, .text r => .ok (bpcharSemanticText l = r)
  | .eq, .text l, .char r => .ok (l = bpcharSemanticText r)
  | .eq, .bool l, .bool r => .ok (l = r)
  | _, _, _ => .error .unsupportedComparison

/-- `compare_values` of the index. -/
def compareSummaryValues (op : BinaryOp) (left right : Value F) : Except ServerError Bool :=
  match valueAsInt left, valueAsInt right with
  | some l, some r => .ok (op.test (compareInts l r))
  | _, _ => compareOtherValues op left right

/-- `flip_op` -/
def flipOp : BinaryOp → BinaryOp
  | .lt => .gt
  | .ltEq => .gtEq
  | .gt => .lt
  | .gtEq => .ltEq
  | .eq => .eq

/-- `compare_summary_value` -/
def compareSummaryValue (op : BinaryOp) (groupColumns : List ℕ) (groupValues : Row F) :
    ScalarExpr F → ScalarExpr F → Option (Except ServerError Bool)
  | .column index, .literal value =>
    (groupColumns.idxOf? index).bind fun i =>
      groupValues[i]?.map fun v => compareSummaryValues op v value
  | _, _ => none

/-- `summary_row_matches_predicate` -/
def summaryRowMatchesPredicate (groupColumns : List ℕ) (groupValues : Row F) :
    ScalarExpr F → Except ServerError (Option Bool)
  | .and left right => do
    match ← summaryRowMatchesPredicate groupColumns groupValues left with
    | none => return none
    | some l =>
      match ← summaryRowMatchesPredicate groupColumns groupValues right with
      | none => return none
      | some r => return some (l && r)
  | .binary op left right =>
    match (compareSummaryValue op groupColumns groupValues left right).or
        (compareSummaryValue (flipOp op) groupColumns groupValues right left) with
    | some b => b.map some
    | none => .ok none
  | _ => .ok none

/-- Whether a row of the index is part of the answer. -/
def keepSummaryRow (groupColumns : List ℕ) (predicate : ScalarExpr F) (row : Row F) :
    Except ServerError Bool := do
  match ← summaryRowMatchesPredicate groupColumns (row.take groupColumns.length) predicate with
  | some keep => return keep
  | none => throw .predicateNotEvaluated

section Answer

variable (others : Value F → Value F → Except ExecError Ordering)
  (index : AggregatingIndex F schema) (q : Query F)

/-- The query goes to the index. -/
def answers : Bool :=
  aggregatingSpecMatches index q.groupBy q.aggregates &&
    q.predicate.all (predicateUsesOnlyGroupColumns index.groupColumns)

/-- `current_summary_rows` and `try_lower_aggregating_index_project`, with the rows of the index. -/
def answerFrom (rows : List (Row F)) : Except ServerError (List (Row F)) := do
  let rows ←
    match q.predicate with
    | some predicate => filterRows (keepSummaryRow index.groupColumns predicate) rows
    | none => .ok rows
  rows.mapM fun row => (q.project others row).mapError .projection

end Answer

end UltraSql.Aggregating
