import UltraSql.Lib.GroupFold

/-!
# Project over Aggregate over Scan

The plan of a query with GROUP BY, as the executor runs it: it filters the rows of the scan, puts
them into groups, folds the aggregates of each group and evaluates the output expressions on the
group keys and the aggregates.

Floating-point numbers are of any type with an addition and a comparison, and so are the values of
the types that the aggregates do not know. Of a comparison of two values the module has those of
integers, strings and booleans, and the rest as a parameter.
-/

namespace UltraSql.Aggregating

/-! ## Values -/

inductive DataType
  | bool | int16 | int32 | int64 | float32 | float64 | decimal | text | char
  | other (type : ℕ)
  deriving DecidableEq, Repr

namespace DataType

/-- `is_numeric` -/
def isNumeric : DataType → Bool
  | int16 | int32 | int64 | float32 | float64 | decimal => true
  | _ => false

def isFloat : DataType → Bool
  | float32 | float64 => true
  | _ => false

end DataType

inductive ExecError
  | missingColumn
  | typeMismatch
  | numericFieldOverflow
  deriving DecidableEq, Repr

/-- `f64`, and the contents of the values of other types. That two numbers have the same bits is
`=`. -/
class Floating (F : Type) extends Zero F, Add F where
  /-- `==` -/
  eq : F → F → Bool
  ofInt : ℤ → F
  /-- `==` of two values of another type -/
  eqOther (type : ℕ) : F → F → Bool
  /-- and that of group keys, which goes by the bits of vectors -/
  keyEqOther (type : ℕ) : F → F → Bool
  addOther (type : ℕ) : F → F → Except ExecError F

/-- A value of a column. An `f32` is held as the `f64` that it widens to. -/
inductive Value (F : Type)
  | null
  | bool (b : Bool)
  | int16 (n : Int16)
  | int32 (n : Int32)
  | int64 (n : Int64)
  | float32 (f : F)
  | float64 (f : F)
  | decimal (value scale : ℤ)
  | text (s : String)
  | char (s : String)
  | other (type : ℕ) (v : F)
  deriving DecidableEq

abbrev Row (F : Type) := List (Value F)

/-- `bpchar_semantic_text` -/
def bpcharSemanticText (s : String) : String :=
  String.ofList (s.toList.reverse.dropWhile (· = ' ')).reverse

/-- `i64::checked_add` -/
def checkedAdd (a b : Int64) : Option Int64 :=
  if -2 ^ 63 ≤ a.toInt + b.toInt ∧ a.toInt + b.toInt < 2 ^ 63 then some (a + b) else none

/-- The result of an `i128` operation, if it fits. -/
def checkedInt128 (n : ℤ) : Option ℤ := if -2 ^ 127 ≤ n ∧ n < 2 ^ 127 then some n else none

namespace Value

variable {F : Type}

def dataType : Value F → Option DataType
  | null => none
  | bool _ => some .bool
  | int16 _ => some .int16
  | int32 _ => some .int32
  | int64 _ => some .int64
  | float32 _ => some .float32
  | float64 _ => some .float64
  | decimal .. => some .decimal
  | text _ => some .text
  | char _ => some .char
  | other type _ => some (.other type)

/-- `PartialEq` of `Value` -/
def eq [Floating F] : Value F → Value F → Bool
  | null, null => true
  | bool l, bool r => l = r
  | int16 l, int16 r => l = r
  | int32 l, int32 r => l = r
  | int64 l, int64 r => l = r
  | float32 l, float32 r => Floating.eq l r
  | float64 l, float64 r => Floating.eq l r
  | decimal l ls, decimal r rs => l = r ∧ ls = rs
  | text l, text r => l = r
  | char l, char r => bpcharSemanticText l = bpcharSemanticText r
  | other t l, other u r => t = u && Floating.eqOther t l r
  | _, _ => false

/-- `decimal_values_equal` -/
def decimalValuesEqual (l ls r rs : ℤ) : Bool := l * 10 ^ (rs - ls).toNat = r * 10 ^ (ls - rs).toNat

/-- `PartialEq` of `KeyValue` -/
def keyEq [Floating F] [DecidableEq F] : Value F → Value F → Bool
  | float32 l, float32 r => l = r
  | float64 l, float64 r => l = r
  | decimal l ls, decimal r rs => decimalValuesEqual l ls r rs
  | other t l, other u r => t = u && Floating.keyEqOther t l r
  | l, r => l.eq r

end Value

/-- `PartialEq` of vectors -/
def rowEq {F : Type} (eq : Value F → Value F → Bool) (k k' : Row F) : Bool :=
  k.length = k'.length && (k.zip k').all fun p => eq p.1 p.2

/-- The row has the columns of the schema. -/
def Conforms {F : Type} (schema : List DataType) (row : Row F) : Prop :=
  List.Forall₂ (fun t v => ∀ t' ∈ Value.dataType v, t' = t) schema row

/-- A row of a table, as the row codec decodes it. -/
abbrev TypedRow (F : Type) (schema : List DataType) := { row : Row F // Conforms schema row }

/-! ## Expressions -/

inductive BinaryOp
  | eq | lt | ltEq | gt | gtEq
  deriving DecidableEq, Repr

/-- What a comparison makes of an order. -/
def BinaryOp.test : BinaryOp → Ordering → Bool
  | eq, o => o = .eq
  | lt, o => o = .lt
  | ltEq, o => o ≠ .gt
  | gt, o => o = .gt
  | gtEq, o => o ≠ .lt

inductive ScalarExpr (F : Type)
  | column (index : ℕ)
  | literal (value : Value F)
  | and (left right : ScalarExpr F)
  | binary (op : BinaryOp) (left right : ScalarExpr F)
  /-- any other expression, by what it evaluates to -/
  | other (run : Row F → Except ExecError (Value F))

/-- `cmp` of integers. -/
def compareInts (l r : ℤ) : Ordering := if l < r then .lt else if l = r then .eq else .gt

/-- `cmp` of strings, by code points. -/
def compareChars : List Char → List Char → Ordering
  | [], [] => .eq
  | [], _ :: _ => .lt
  | _ :: _, [] => .gt
  | c :: l, d :: r => (compareInts c.toNat d.toNat).then (compareChars l r)

def compareStrings (l r : String) : Ordering := compareChars l.toList r.toList

section Eval

variable {F : Type} (others : Value F → Value F → Except ExecError Ordering)

/-- `compare_values` of the executor. -/
def compareValues : Value F → Value F → Except ExecError Ordering
  | .int16 l, .int16 r => .ok (compareInts l.toInt r.toInt)
  | .int32 l, .int32 r => .ok (compareInts l.toInt r.toInt)
  | .int64 l, .int64 r => .ok (compareInts l.toInt r.toInt)
  | .text l, .text r => .ok (compareStrings l r)
  | .char l, .char r => .ok (compareStrings (bpcharSemanticText l) (bpcharSemanticText r))
  | .char l, .text r => .ok (compareStrings (bpcharSemanticText l) r)
  | .text l, .char r => .ok (compareStrings l (bpcharSemanticText r))
  | .bool l, .bool r => .ok (compareInts l.toNat r.toNat)
  | l, r => others l r

/-- `apply_binary`, of a comparison. -/
def applyBinary (op : BinaryOp) : Value F → Value F → Except ExecError (Value F)
  | .null, _ | _, .null => .ok .null
  | l, r => (compareValues others l r).map fun o => .bool (op.test o)

/-- What `eval_and` makes of two values. -/
def kleeneAnd : Value F → Value F → Except ExecError (Value F)
  | .bool false, _ | _, .bool false => .ok (.bool false)
  | .bool true, .bool true => .ok (.bool true)
  | .null, .bool true | .null, .null | .bool true, .null => .ok .null
  | _, _ => .error .typeMismatch

def ScalarExpr.eval (row : Row F) : ScalarExpr F → Except ExecError (Value F)
  | column index =>
    match row[index]? with
    | some v => .ok v
    | none => .error .missingColumn
  | literal value => .ok value
  | and left right =>
    match left.eval row with
    | .ok (.bool false) => .ok (.bool false)
    | .ok l => (right.eval row).bind (kleeneAnd l)
    | .error e => .error e
  | binary op left right =>
    (left.eval row).bind fun l => (right.eval row).bind (applyBinary others op l)
  | other run => run row

/-- Whether the `Filter` operator keeps a row. -/
def keepRow (predicate : ScalarExpr F) (row : Row F) : Except ExecError Bool :=
  match predicate.eval others row with
  | .ok (.bool b) => .ok b
  | .ok .null => .ok false
  | .ok _ => .error .typeMismatch
  | .error e => .error e

end Eval

/-- The rows that a fallible condition keeps, unless it fails on one. -/
def filterRows {ε α : Type} (keep : α → Except ε Bool) : List α → Except ε (List α)
  | [] => .ok []
  | row :: rows =>
    (keep row).bind fun b => (filterRows keep rows).map fun rest => if b then row :: rest else rest

theorem filterRows_eq {ε α : Type} {keep : α → Except ε Bool} {f : α → Bool} {rows : List α}
    (h : ∀ row ∈ rows, keep row = .ok (f row)) : filterRows keep rows = .ok (rows.filter f) := by
  induction rows with
  | nil => rfl
  | cons row rows ih =>
    rw [filterRows, h row List.mem_cons_self, ih fun r hr => h r (List.mem_cons_of_mem _ hr),
      List.filter_cons]
    rfl

/-! ## Aggregates -/

/-- An aggregate function. `other` is one that no index has, by its result on the values of a
group. -/
inductive AggregateFunc (F : Type)
  | countStar
  | sum
  | other (run : List (Option (Value F)) → Except ExecError (Value F))

structure LogicalAggregateExpr (F : Type) where
  func : AggregateFunc F
  arg : Option (ScalarExpr F)
  distinct : Bool := false
  /-- `COUNT(*)` has no argument. -/
  star : func = .countStar → arg = none := by intro h; first | rfl | cases h

inductive AggState (F : Type)
  | countStar (n : Int64)
  | sum (acc : Option (Value F))
  | other (run : List (Option (Value F)) → Except ExecError (Value F))
    (values : List (Option (Value F)))
  | distinct (inner : AggState F) (seen : List (Value F))

section Aggregate

variable {F : Type}

/-- `init_state_for` -/
def initStateFor (agg : LogicalAggregateExpr F) : AggState F :=
  let base : AggState F :=
    match agg.func with
    | .countStar => .countStar 0
    | .sum => .sum none
    | .other run => .other run []
  if agg.distinct then .distinct base [] else base

/-- `widen_sum_seed` -/
def widenSumSeed : Value F → Value F
  | .int16 n => .int64 n.toInt64
  | .int32 n => .int64 n.toInt64
  | .float32 f => .float64 f
  | v => v

/-- `rescale_decimal_value` -/
def rescaleDecimalValue (value current target : ℤ) : Except ExecError ℤ :=
  if target - current < 0 then .error .typeMismatch
  else
    match (checkedInt128 (10 ^ (target - current).toNat)).bind (checkedInt128 <| value * ·) with
    | some n => .ok n
    | none => .error .numericFieldOverflow

/-- `add_decimal_values` -/
def addDecimalValues (l ls r rs : ℤ) : Except ExecError (Value F) := do
  let left ← rescaleDecimalValue l ls (max ls rs)
  let right ← rescaleDecimalValue r rs (max ls rs)
  match checkedInt128 (left + right) with
  | some n => return .decimal n (max ls rs)
  | none => .error .numericFieldOverflow

/-- `checked_sum_i64` -/
def checkedSumInt64 (acc delta : Int64) : Except ExecError (Value F) :=
  match checkedAdd acc delta with
  | some n => .ok (.int64 n)
  | none => .error .numericFieldOverflow

/-- `add_values` -/
def addValues [Floating F] : Value F → Value F → Except ExecError (Value F)
  | .decimal l ls, .decimal r rs => addDecimalValues l ls r rs
  | .int16 l, .int16 r => .ok (.int64 (l.toInt64 + r.toInt64))
  | .int32 l, .int32 r => .ok (.int64 (l.toInt64 + r.toInt64))
  | .int64 l, .int64 r => checkedSumInt64 l r
  | .int64 l, .int16 r | .int16 r, .int64 l => checkedSumInt64 l r.toInt64
  | .int64 l, .int32 r | .int32 r, .int64 l => checkedSumInt64 l r.toInt64
  | .float32 l, .float32 r | .float64 l, .float64 r => .ok (.float64 (l + r))
  | .float64 l, .float32 r | .float32 r, .float64 l => .ok (.float64 (l + r))
  | .other t l, .other u r =>
    if t = u then (Floating.addOther t l r).map (.other t) else .error .typeMismatch
  | _, _ => .error .typeMismatch

/-- `accumulate_value` -/
def accumulateValue [Floating F] [DecidableEq F] :
    AggState F → Option (Value F) → Except ExecError (AggState F)
  | .countStar n, _ =>
    match checkedAdd n 1 with
    | some n => .ok (.countStar n)
    | none => .error .numericFieldOverflow
  | .sum acc, some v =>
    if v = .null then .ok (.sum acc)
    else
      match acc with
      | none => .ok (.sum (some (widenSumSeed v)))
      | some existing => (addValues existing v).map fun total => .sum (some total)
  | .sum acc, none => .ok (.sum acc)
  | .other run values, v => .ok (.other run (values ++ [v]))
  | .distinct inner seen, some v =>
    if v = .null ∨ seen.any (·.keyEq v) then .ok (.distinct inner seen)
    else (accumulateValue inner (some v)).map fun inner => .distinct inner (v :: seen)
  | .distinct inner seen, none => .ok (.distinct inner seen)

def finalise : AggState F → Except ExecError (Value F)
  | .countStar n => .ok (.int64 n)
  | .sum acc => .ok (acc.getD .null)
  | .other run values => run values
  | .distinct inner _ => finalise inner

variable [Floating F] [DecidableEq F] (others : Value F → Value F → Except ExecError Ordering)

/-- `accumulate` -/
def accumulate (state : AggState F) (agg : LogicalAggregateExpr F) (row : Row F) :
    Except ExecError (AggState F) :=
  match agg.arg with
  | some e => (e.eval others row).bind fun v => accumulateValue state (some v)
  | none => accumulateValue state none

/-- A row goes into the states of its group. -/
def accumulateAll (row : Row F) :
    List (AggState F) → List (LogicalAggregateExpr F) → Except ExecError (List (AggState F))
  | state :: states, agg :: aggs => do
    let state ← accumulate others state agg row
    let states ← accumulateAll row states aggs
    return state :: states
  | states, _ => .ok states

/-- `HashAggregate::build`, of an operator with the given child rows. -/
def hashAggregate (groupBy : List (ScalarExpr F)) (aggs : List (LogicalAggregateExpr F))
    (rows : List (Row F)) : Except ExecError (List (Row F)) := do
  if rows = [] ∧ groupBy.isEmpty then
    -- no row and no GROUP BY: one row of initial states
    let row ← aggs.mapM fun agg => finalise (initStateFor agg)
    return [row]
  let groups ← groupFold (rowEq Value.keyEq) (aggs.map initStateFor)
    (fun row => groupBy.mapM (·.eval others row))
    (fun states row => accumulateAll others row states aggs) rows
  groups.mapM fun g => do
    let values ← g.2.mapM finalise
    return g.1 ++ values

end Aggregate

/-! ## The plan -/

structure Query (F : Type) where
  exprs : List (ScalarExpr F)
  groupBy : List (ScalarExpr F)
  aggregates : List (LogicalAggregateExpr F)
  predicate : Option (ScalarExpr F) := none

section Plan

variable {F : Type} [Floating F] [DecidableEq F]
  (others : Value F → Value F → Except ExecError Ordering)

def Query.project (q : Query F) (row : Row F) : Except ExecError (Row F) :=
  q.exprs.mapM (·.eval others row)

/-- Project over Aggregate over the (filtered) rows of a scan. -/
def Query.run (q : Query F) (rows : List (Row F)) : Except ExecError (List (Row F)) := do
  let rows ←
    match q.predicate with
    | some predicate => filterRows (keepRow others predicate) rows
    | none => .ok rows
  let groups ← hashAggregate others q.groupBy q.aggregates rows
  groups.mapM (q.project others)

end Plan

end UltraSql.Aggregating
