import UltraSql.Lib.I64
import UltraSql.Partition.Chunks
import UltraSql.View.AggregatePlan

/-!
# Pruning the chunks of a scan

A scan of a time-partitioned table reads its chunks one after the other. Where the predicate of the
`Filter` above it is a conjunction of comparisons of the partition column with timestamps, the
chunks outside of the range of these are left out.

The range has the keys of all rows on which the predicate holds (`eval_of_applyExpr`), and a chunk
with such a key overlaps it (`overlapsChunk_iff_of_allows`), unless both the key and the lower bound
are the end of the chunk. The end of a chunk saturates, and so the key `i64::MAX` may be. The
predicate numbers the columns of the scan's output, and the partition column is given by its number
in the table.

**Theorem (`pruned_scan_loses_no_row`).** If the column that the predicate bounds is the partition
column, pruning loses a row exactly if its key and the lower bound are `i64::MAX` and the predicate
keeps it. If it is another column, pruning loses a row exactly if its chunk is outside of the range
although the predicate keeps the row.
-/

namespace UltraSql.Pruning

open Aggregating (BinaryOp ExecError compareInts filterRows)
open UltraSql.Partition (bucketStart byChunk)

/-! ## Expressions -/

inductive DataType
  | timestamp | timestampTz | other

/-- A value; `other` is one of another type. -/
inductive Value (ν : Type)
  | null
  | bool (b : Bool)
  | timestamp (us : I64)
  | timestampTz (us : I64)
  | other (v : ν)

variable {ν : Type} {m n : ℕ}

/-- The microseconds of a timestamp of either kind. -/
def Value.timestampUs : Value ν → Option ℤ
  | timestamp us | timestampTz us => some us.1
  | _ => none

theorem timestampUs_bounds {v : Value ν} {us : ℤ} (h : v.timestampUs = some us) :
    -2 ^ 63 ≤ us ∧ us < 2 ^ 63 := by
  cases v with
  | timestamp us' => cases h; exact us'.2
  | timestampTz us' => cases h; exact us'.2
  | _ => cases h

/-- An expression over the `m` columns of a scan. -/
inductive ScalarExpr (ν : Type) (m : ℕ)
  | column (index : Fin m)
  | literal (value : Value ν) (dataType : DataType)
  | and (left right : ScalarExpr ν m)
  | binary (op : BinaryOp) (left right : ScalarExpr ν m)
  /-- any other expression, by what it evaluates to -/
  | other (run : (Fin m → Value ν) → Except ExecError (Value ν))

section Eval

-- the comparisons of values that are not two timestamps
variable (others : BinaryOp → Value ν → Value ν → Except ExecError (Value ν))

/-- `apply_binary`, of a comparison. -/
def applyBinary (op : BinaryOp) : Value ν → Value ν → Except ExecError (Value ν)
  | .null, _ | _, .null => .ok .null
  | l, r =>
    match l.timestampUs, r.timestampUs with
    | some a, some b => .ok (.bool (op.test (compareInts a b)))
    | _, _ => others op l r

/-- What `eval_and` makes of two values. -/
def kleeneAnd : Value ν → Value ν → Except ExecError (Value ν)
  | .bool false, _ | _, .bool false => .ok (.bool false)
  | .bool true, .bool true => .ok (.bool true)
  | .null, .bool true | .null, .null | .bool true, .null => .ok .null
  | _, _ => .error .typeMismatch

def ScalarExpr.eval (row : Fin m → Value ν) : ScalarExpr ν m → Except ExecError (Value ν)
  | column index => .ok (row index)
  | literal value _ => .ok value
  | and left right =>
    match left.eval row with
    | .ok (.bool false) => .ok (.bool false)
    | .ok l => (right.eval row).bind (kleeneAnd l)
    | .error e => .error e
  | binary op left right =>
    (left.eval row).bind fun l => (right.eval row).bind (applyBinary others op l)
  | other run => run row

/-- Whether the `Filter` operator keeps a row. -/
def keepRow (predicate : ScalarExpr ν m) (row : Fin m → Value ν) : Except ExecError Bool :=
  match predicate.eval others row with
  | .ok (.bool b) => .ok b
  | .ok .null => .ok false
  | .ok _ => .error .typeMismatch
  | .error e => .error e

end Eval

/-! ## The range of a predicate -/

structure TimeRangePredicate where
  lower : Option ℤ := none
  /-- the bound, and whether it is inclusive -/
  upper : Option (ℤ × Bool) := none

namespace TimeRangePredicate

variable (r : TimeRangePredicate)

def raiseLower (value : ℤ) : TimeRangePredicate :=
  { r with lower := some (r.lower.elim value (max · value)) }

def cutUpper (value : ℤ) (inclusive : Bool) : TimeRangePredicate :=
  { r with upper := some <|
      match r.upper with
      | some (old, i) => if old < value then (old, i) else (value, inclusive)
      | none => (value, inclusive) }

/-- `apply_bound` -/
def applyBound (value : ℤ) : BinaryOp → TimeRangePredicate
  | .eq => (r.raiseLower value).cutUpper value true
  | .gt | .gtEq => r.raiseLower value
  | .lt => r.cutUpper value false
  | .ltEq => r.cutUpper value true

/-- `overlaps_chunk` -/
def overlapsChunk (start stop : ℤ) : Bool :=
  (!r.lower.any fun lower => stop ≤ lower) &&
    r.upper.all fun u => if u.2 then start ≤ u.1 else start < u.1

end TimeRangePredicate

/-- `reverse_op` -/
def reverseOp : BinaryOp → BinaryOp
  | .gt => .lt
  | .gtEq => .ltEq
  | .lt => .gt
  | .ltEq => .gtEq
  | .eq => .eq

/-- `literal_timestamp_us` -/
def literalTimestampUs : ScalarExpr ν m → Option ℤ
  | .literal value .timestamp | .literal value .timestampTz => value.timestampUs
  | _ => none

section Range

variable (partitionColumnIndex : ℕ)

/-- `column_literal_cmp`, of one of the five comparisons -/
def columnLiteralCmp (op : BinaryOp) (left right : ScalarExpr ν m) : Option (BinaryOp × ℤ) :=
  match left with
  | .column index =>
    if index.1 ≠ partitionColumnIndex then none else (literalTimestampUs right).map (op, ·)
  | _ => none

/-- `apply_comparison` -/
def applyComparison (op : BinaryOp) (left right : ScalarExpr ν m) (r : TimeRangePredicate) :
    Bool × TimeRangePredicate :=
  match columnLiteralCmp partitionColumnIndex op left right with
  | some (cmp, value) => (true, r.applyBound value cmp)
  | none =>
    match columnLiteralCmp partitionColumnIndex (reverseOp op) right left with
    | some (cmp, value) => (true, r.applyBound value cmp)
    | none => (false, r)

/-- `apply_expr`. Both sides of a conjunction are applied, also after a failure. -/
def applyExpr : ScalarExpr ν m → TimeRangePredicate → Bool × TimeRangePredicate
  | .and left right, r =>
    let a := applyExpr left r
    let b := applyExpr right a.2
    (a.1 && b.1, b.2)
  | .binary op left right, r => applyComparison partitionColumnIndex op left right r
  | _, r => (false, r)

/-- `from_expr` -/
def fromExpr (e : ScalarExpr ν m) : Option TimeRangePredicate :=
  if (applyExpr partitionColumnIndex e {}).1 then some (applyExpr partitionColumnIndex e {}).2
  else none

end Range

/-! ## Chunks and scans -/

structure Chunk (ν : Type) (n : ℕ) where
  startUs : ℤ
  endUs : ℤ
  rows : List (Fin n → Value ν)

/-- A row with a timestamp in the partition column: INSERT refuses any other. -/
abbrev KeyedRow (ν : Type) (p : Fin n) :=
  { row : Fin n → Value ν // (row p).timestampUs.isSome }

/-- `partition_key_us` -/
def partitionKeyUs {p : Fin n} (row : KeyedRow ν p) : ℤ := (row.1 p).timestampUs.get row.2

/-- The chunks of a table after INSERTs of these rows. -/
def insertChunks (interval : ℤ) {p : Fin n} (rows : List (KeyedRow ν p)) : List (Chunk ν n) :=
  (byChunk interval (rows.map fun row => (partitionKeyUs row, row.1))).map fun c =>
    let start := bucketStart interval c.1
    ⟨start, min (2 ^ 63 - 1) (start + interval), c.2⟩

/-- `lower_time_partition_scan`. No projection is the projection to all columns. -/
def lowerTimePartitionScan (chunks : List (Chunk ν n)) (projection : Fin m → Fin n)
    (predicate : Option TimeRangePredicate) : List (Fin m → Value ν) :=
  ((chunks.filter fun c => predicate.all (·.overlapsChunk c.startUs c.endUs)).flatMap
    (·.rows)).map (· ∘ projection)

/-- `try_lower_time_partition_filter_scan`, and what the plan returns -/
def timePartitionFilterScan (others : BinaryOp → Value ν → Value ν → Except ExecError (Value ν))
    (chunks : List (Chunk ν n)) (p : Fin n) (projection : Fin m → Fin n)
    (predicate : ScalarExpr ν m) : Except ExecError (List (Fin m → Value ν)) :=
  filterRows (keepRow others predicate)
    (lowerTimePartitionScan chunks projection (fromExpr p.1 predicate))

/-! ## The range has the keys of the rows that are kept -/

/-- The key is in the range. An upper bound that is not inclusive may have become so. -/
structure TimeRangePredicate.Allows (r : TimeRangePredicate) (key : ℤ) : Prop where
  lower : ∀ l ∈ r.lower, l ≤ key
  upper : ∀ u ∈ r.upper, if u.2 then key ≤ u.1 else key < u.1

namespace TimeRangePredicate.Allows

variable {r : TimeRangePredicate} {key value : ℤ}

theorem raiseLower (h : r.Allows key) (hv : value ≤ key) : (r.raiseLower value).Allows key := by
  refine { h with lower := fun l hl => ?_ }
  cases hl
  cases hlow : r.lower with
  | none => exact hv
  | some old => exact max_le (h.lower old hlow) hv

theorem cutUpper {inclusive : Bool} (h : r.Allows key)
    (hv : if inclusive then key ≤ value else key < value) :
    (r.cutUpper value inclusive).Allows key := by
  refine { h with upper := fun u hu => ?_ }
  cases hu
  cases hup : r.upper with
  | none => exact hv
  | some old =>
    by_cases hlt : old.1 < value
    · simpa only [if_pos hlt] using h.upper old hup
    · simpa only [if_neg hlt] using hv

theorem applyBound {op : BinaryOp} (h : r.Allows key) (ht : op.test (compareInts key value)) :
    (r.applyBound value op).Allows key := by
  have horder : op.test (compareInts key value) ↔ match op with
      | .eq => key = value
      | .lt => key < value
      | .ltEq => key ≤ value
      | .gt => value < key
      | .gtEq => value ≤ key := by
    unfold compareInts
    cases op <;> split_ifs <;> simp [BinaryOp.test] <;> omega
  rw [horder] at ht
  cases op with
  | eq => exact (h.raiseLower ht.ge).cutUpper ht.le
  | lt => exact h.cutUpper ht
  | ltEq => exact h.cutUpper ht
  | gt => exact h.raiseLower ht.le
  | gtEq => exact h.raiseLower ht

end TimeRangePredicate.Allows

/-- A chunk with a key of the range overlaps it, unless key and lower bound are the end. -/
theorem overlapsChunk_iff_of_allows {r : TimeRangePredicate} {key start stop : ℤ}
    (h : r.Allows key) (hstart : start ≤ key) (hstop : key ≤ stop) :
    r.overlapsChunk start stop ↔ ¬(key = stop ∧ r.lower = some stop) := by
  simp only [TimeRangePredicate.overlapsChunk, Bool.and_eq_true, Bool.not_eq_true',
    Option.any_eq_false, Option.all_eq_true, decide_eq_false_iff_not, not_le]
  constructor
  · rintro ⟨hl, -⟩ ⟨-, hend⟩
    exact lt_irrefl _ (hl stop hend)
  · intro hend
    refine ⟨fun l hl => ?_, fun u hu => ?_⟩
    · have := h.lower l hl
      grind
    · have := h.upper u hu
      split_ifs at this ⊢ <;> simp <;> omega

variable (others : BinaryOp → Value ν → Value ν → Except ExecError (Value ν))

/-- A comparison of two timestamps, either of which may be the literal. -/
theorem applyBinary_timestamps {op : BinaryOp} {l r : Value ν} {a b : ℤ}
    (hl : l.timestampUs = some a) (hr : r.timestampUs = some b) :
    applyBinary others op l r = .ok (.bool (op.test (compareInts a b))) := by
  cases l <;> cases hl <;> cases r <;> cases hr <;> rfl

theorem test_reverseOp (op : BinaryOp) (a b : ℤ) :
    (reverseOp op).test (compareInts a b) = op.test (compareInts b a) := by
  unfold compareInts
  cases op <;> simp only [reverseOp] <;> split_ifs <;> first | rfl | omega

section Sound

variable {p : ℕ} {row : Fin m → Value ν} {key : ℤ}
  (hkey : ∀ j : Fin m, j.1 = p → (row j).timestampUs = some key)
include hkey

/-- What `column_literal_cmp` has found in two expressions. -/
theorem eval_of_columnLiteralCmp {op cmp : BinaryOp} {left right : ScalarExpr ν m} {value : ℤ}
    (h : columnLiteralCmp p op left right = some (cmp, value)) :
    cmp = op ∧ ∃ l r, left.eval others row = .ok l ∧ right.eval others row = .ok r ∧
      l.timestampUs = some key ∧ r.timestampUs = some value := by
  cases left <;> try cases h
  rename_i index
  simp only [columnLiteralCmp] at h
  split_ifs at h with hp
  obtain ⟨us, hlit, h⟩ := Option.map_eq_some_iff.1 h
  cases h
  refine ⟨rfl, ?_⟩
  cases right <;> try cases hlit
  rename_i v t
  cases t <;> first | exact ⟨_, _, rfl, rfl, hkey index (not_not.1 hp), hlit⟩ | cases hlit

/-- A predicate with a range is true or false, and the range has the key of a row of which it is
true. -/
theorem eval_of_applyExpr {e : ScalarExpr ν m} : ∀ {r : TimeRangePredicate},
    (applyExpr p e r).1 → ∃ b, e.eval others row = .ok (.bool b) ∧
      (b → r.Allows key → (applyExpr p e r).2.Allows key) := by
  induction e with
  | column => nofun
  | literal => nofun
  | other => nofun
  | and left right ihl ihr =>
    intro r h
    obtain ⟨ha, hb⟩ := Bool.and_eq_true_iff.1 h
    obtain ⟨a, hl, hla⟩ := ihl ha
    obtain ⟨b, hr, hrb⟩ := ihr hb
    refine ⟨a && b, ?_, fun hab hr => ?_⟩
    · rw [ScalarExpr.eval, hl, hr]
      cases a <;> cases b <;> rfl
    · obtain ⟨ha, hb⟩ := Bool.and_eq_true_iff.1 hab
      exact hrb hb (hla ha hr)
  | binary op left right =>
    intro r h
    change (applyComparison p op left right r).1 at h
    rw [applyExpr]
    rw [applyComparison] at h ⊢
    -- the literal is on the right, or else on the left
    cases hcmp : columnLiteralCmp p op left right with
    | some c =>
      obtain ⟨rfl, l, r', hl, hr, hlk, hrv⟩ := eval_of_columnLiteralCmp others hkey hcmp
      refine ⟨_, ?_, fun ht hr => hr.applyBound ht⟩
      rw [ScalarExpr.eval, hl, hr]
      exact applyBinary_timestamps others hlk hrv
    | none =>
      rw [hcmp] at h
      cases hrev : columnLiteralCmp p (reverseOp op) right left with
      | none => rw [hrev] at h; cases h
      | some c =>
        obtain ⟨hc, l, r', hl, hr, hlk, hrv⟩ := eval_of_columnLiteralCmp others hkey hrev
        refine ⟨_, ?_, fun ht hr => hr.applyBound ht⟩
        rw [ScalarExpr.eval, hl, hr, hc, test_reverseOp]
        exact applyBinary_timestamps others hrv hlk

end Sound

/-! ## Chunks that are left out -/

theorem filterRows_append_congr {ε α : Type} {keep : α → Except ε Bool} {l₁ l₂ : List α}
    (h : filterRows keep l₁ = filterRows keep l₂) (l : List α) :
    filterRows keep (l ++ l₁) = filterRows keep (l ++ l₂) := by
  induction l with
  | nil => exact h
  | cons row l ih => rw [List.cons_append, List.cons_append, filterRows, filterRows, ih]

theorem filterRows_append_of_false {ε α : Type} {keep : α → Except ε Bool} {l l' : List α}
    (h : ∀ row ∈ l, keep row = .ok false) : filterRows keep (l ++ l') = filterRows keep l' := by
  induction l with
  | nil => rfl
  | cons row l ih =>
    rw [List.cons_append, filterRows, h row List.mem_cons_self,
      ih fun r hr => h r (List.mem_cons_of_mem _ hr)]
    cases filterRows keep l' <;> rfl

theorem filterRows_ok {ε α : Type} {keep : α → Except ε Bool} {l out : List α}
    (h : filterRows keep l = .ok out) : (∀ row ∈ l, ∃ b, keep row = .ok b) ∧
      out.length = l.countP fun row => (keep row).toOption = some true := by
  induction l generalizing out with
  | nil => cases h; exact ⟨nofun, rfl⟩
  | cons row l ih =>
    rw [filterRows] at h
    cases hrow : keep row with
    | error e => rw [hrow] at h; cases h
    | ok b =>
      rw [hrow] at h
      cases hrest : filterRows keep l with
      | error e => rw [hrest] at h; cases h
      | ok rest =>
        rw [hrest] at h
        obtain ⟨hok, hlen⟩ := ih hrest
        cases h
        refine ⟨List.forall_mem_cons.2 ⟨⟨b, hrow⟩, hok⟩, ?_⟩
        cases b <;> simp [hrow, hlen, Except.toOption]

/-- Parts of which no element is kept may be left out. -/
theorem filterRows_flatMap_filter {ε α β : Type} {keep : α → Except ε Bool} {f : β → List α}
    {q : β → Bool} {l : List β}
    (h : ∀ c ∈ l, q c = false → ∀ row ∈ f c, keep row = .ok false) :
    filterRows keep ((l.filter q).flatMap f) = filterRows keep (l.flatMap f) := by
  induction l with
  | nil => rfl
  | cons c l ih =>
    have ih := ih fun d hd => h d (List.mem_cons_of_mem _ hd)
    cases hq : q c with
    | true =>
      rw [List.filter_cons_of_pos hq, List.flatMap_cons, List.flatMap_cons]
      exact filterRows_append_congr ih _
    | false =>
      rw [List.filter_cons_of_neg (by simp [hq]), List.flatMap_cons, ih]
      exact (filterRows_append_of_false (h c List.mem_cons_self hq)).symm

/-- If the result is the same, no element of a part that is left out was kept. -/
theorem keep_of_filterRows_flatMap_filter {ε α β : Type} {keep : α → Except ε Bool}
    {f : β → List α} {q : β → Bool} {l : List β} {out : List α}
    (hall : filterRows keep (l.flatMap f) = .ok out)
    (heq : filterRows keep ((l.filter q).flatMap f) = .ok out) :
    ∀ c ∈ l, q c = false → ∀ row ∈ f c, keep row = .ok false := by
  intro c hc hq row hrow
  obtain ⟨hok, hlen⟩ := filterRows_ok hall
  obtain ⟨b, hb⟩ := hok row (List.mem_flatMap.2 ⟨c, hc, hrow⟩)
  cases b with
  | false => exact hb
  | true =>
    have hperm : ((l.filter q).flatMap f ++ (l.filter (!q ·)).flatMap f).Perm (l.flatMap f) := by
      rw [← List.flatMap_append]
      exact (List.filter_append_perm q l).flatMap_right f
    have hcount := hperm.countP_eq (fun row => (keep row).toOption = some true)
    rw [List.countP_append, ← hlen, (filterRows_ok heq).2] at hcount
    have hpos : 0 < ((l.filter (!q ·)).flatMap f).countP
        (fun row => (keep row).toOption = some true) :=
      List.countP_pos_iff.2 ⟨row, List.mem_flatMap.2
        ⟨c, List.mem_filter.2 ⟨hc, by simp [hq]⟩, hrow⟩, by rw [hb]; rfl⟩
    omega

/-- The bounds of the chunk of a key. -/
def chunkStart (interval key : ℤ) : ℤ := bucketStart interval (bucketStart interval key)

def chunkEnd (interval key : ℤ) : ℤ := min (2 ^ 63 - 1) (chunkStart interval key + interval)

/-- The chunk of a key starts at the key or before it, and ends after the key unless this is the
greatest. -/
theorem chunkStart_le {interval key : ℤ} (hint : 0 < interval) (hmin : -2 ^ 63 ≤ key)
    (hmax : key < 2 ^ 63) : chunkStart interval key ≤ key ∧ key ≤ chunkEnd interval key ∧
      (key = chunkEnd interval key ↔ key = 2 ^ 63 - 1) := by
  have hle : key / interval * interval ≤ key := Int.ediv_mul_le key hint.ne'
  have hlt : key < key / interval * interval + interval := by
    have := Int.lt_ediv_add_one_mul_self key hint
    rwa [Int.add_mul, Int.one_mul] at this
  rw [chunkEnd, chunkStart]
  generalize hb : bucketStart interval key = b
  simp only [bucketStart] at hb ⊢
  have hbb : b / interval * interval ≤ b := Int.ediv_mul_le b hint.ne'
  -- the second rounding does not go below the first
  have hmono : key / interval * interval ≤ b / interval * interval :=
    Int.mul_le_mul_of_nonneg_right (Int.le_ediv_of_mul_le hint (by omega)) hint.le
  omega

section Main

variable {interval : ℤ} {p : Fin n} {rows : List (KeyedRow ν p)} {projection : Fin m → Fin n}
  {predicate : ScalarExpr ν m} {range : TimeRangePredicate} {row : KeyedRow ν p}

/-- The rows of the chunks are those of the table, each between the bounds of its key. -/
theorem mem_insertChunks {c : Chunk ν n} {r : Fin n → Value ν} :
    (c ∈ insertChunks interval rows ∧ r ∈ c.rows) → ∃ row ∈ rows, r = row.1 ∧
      c.startUs = chunkStart interval (partitionKeyUs row) ∧
      c.endUs = chunkEnd interval (partitionKeyUs row) := by
  rintro ⟨hc, hr⟩
  obtain ⟨b, hb, rfl⟩ := List.mem_map.1 hc
  obtain ⟨start, -, rfl⟩ := List.mem_map.1 hb
  obtain ⟨k, hk, rfl⟩ := List.mem_map.1 hr
  obtain ⟨hk, hstart⟩ := List.mem_filter.1 hk
  obtain ⟨row, hmem, rfl⟩ := List.mem_map.1 hk
  cases of_decide_eq_true hstart
  exact ⟨row, hmem, rfl, rfl, rfl⟩

theorem exists_mem_insertChunks (hrow : row ∈ rows) :
    ∃ c ∈ insertChunks interval rows, row.1 ∈ c.rows ∧
      c.startUs = chunkStart interval (partitionKeyUs row) ∧
      c.endUs = chunkEnd interval (partitionKeyUs row) := by
  have hstart : bucketStart interval (partitionKeyUs row) ∈ (((rows.map fun row =>
      (partitionKeyUs row, row.1)).map fun r => bucketStart interval r.1).insertionSort
        (· ≤ ·)).dedup := by
    rw [List.mem_dedup, List.mem_insertionSort, List.map_map]
    exact List.mem_map.2 ⟨row, hrow, rfl⟩
  refine ⟨_, List.mem_map.2 ⟨_, List.mem_map.2 ⟨_, hstart, rfl⟩, rfl⟩, ?_, rfl, rfl⟩
  exact List.mem_map.2 ⟨(partitionKeyUs row, row.1),
    List.mem_filter.2 ⟨List.mem_map.2 ⟨row, hrow, rfl⟩, by simp⟩, rfl⟩

/-- Each row that the predicate does not drop is in a chunk that is read. If the column that has the
number of the partition column is the partition column, it is unless its key and the lower bound are
the last instant. -/
def Finds (interval : ℤ) (rows : List (KeyedRow ν p)) (projection : Fin m → Fin n)
    (predicate : ScalarExpr ν m) : Prop :=
  ∀ range ∈ fromExpr p.1 predicate, ∀ row ∈ rows,
    keepRow others predicate (row.1 ∘ projection) ≠ .ok false →
      if ∀ j : Fin m, j.1 = p.1 → projection j = p then
        ¬(partitionKeyUs row = 2 ^ 63 - 1 ∧ range.lower = some (2 ^ 63 - 1))
      else range.overlapsChunk (chunkStart interval (partitionKeyUs row))
        (chunkEnd interval (partitionKeyUs row))

/-- Where the predicate bounds the partition column, only the last instant is lost. -/
theorem overlapsChunk_iff (hint : 0 < interval) (hrange : fromExpr p.1 predicate = some range)
    (hproj : ∀ j : Fin m, j.1 = p.1 → projection j = p)
    (hkeep : keepRow others predicate (row.1 ∘ projection) ≠ .ok false) :
    range.overlapsChunk (chunkStart interval (partitionKeyUs row))
        (chunkEnd interval (partitionKeyUs row)) ↔
      ¬(partitionKeyUs row = 2 ^ 63 - 1 ∧ range.lower = some (2 ^ 63 - 1)) := by
  have hkey : (row.1 p).timestampUs = some (partitionKeyUs row) := (Option.some_get _).symm
  obtain ⟨hlow, hhigh⟩ := timestampUs_bounds hkey
  obtain ⟨hstart, hstop, hlast⟩ := chunkStart_le hint hlow hhigh
  have hcol (j : Fin m) (hj : j.1 = p.1) :
      ((row.1 ∘ projection) j).timestampUs = some (partitionKeyUs row) := by
    rw [Function.comp_apply, hproj j hj, hkey]
  rw [fromExpr] at hrange
  split_ifs at hrange with h
  cases hrange
  obtain ⟨b, heval, hallows⟩ := eval_of_applyExpr others hcol h
  cases b with
  | false => exact absurd (by rw [keepRow, heval]) hkeep
  | true =>
    rw [overlapsChunk_iff_of_allows (hallows rfl ⟨nofun, nofun⟩) hstart hstop, hlast]
    refine not_congr (and_congr_right fun hmax => ?_)
    rw [← hlast.2 hmax, hmax]

theorem finds_iff (hint : 0 < interval) : Finds others interval rows projection predicate ↔
    ∀ range ∈ fromExpr p.1 predicate, ∀ c ∈ insertChunks interval rows,
      range.overlapsChunk c.startUs c.endUs = false → ∀ r ∈ c.rows,
        keepRow others predicate (r ∘ projection) = .ok false := by
  constructor
  · intro h range hrange c hc hout r hr
    obtain ⟨row, hrow, rfl, hstart, hend⟩ := mem_insertChunks ⟨hc, hr⟩
    by_contra hkeep
    have hfinds := h range hrange row hrow hkeep
    rw [hstart, hend] at hout
    split_ifs at hfinds with hproj
    · exact absurd ((overlapsChunk_iff others hint hrange hproj hkeep).2 hfinds) (by simp [hout])
    · exact absurd hfinds (by simp [hout])
  · intro h range hrange row hrow hkeep
    obtain ⟨c, hc, hr, hstart, hend⟩ := exists_mem_insertChunks hrow
    have hover : range.overlapsChunk (chunkStart interval (partitionKeyUs row))
        (chunkEnd interval (partitionKeyUs row)) := by
      by_contra hout
      refine hkeep (h range hrange c hc ?_ row.1 hr)
      rw [hstart, hend]
      exact Bool.eq_false_iff.2 hout
    split_ifs with hproj
    · exact (overlapsChunk_iff others hint hrange hproj hkeep).1 hover
    · exact hover

/-- **When pruning loses no row.** The plan with pruning has the result, rows or error, that the
`Filter` has over all chunks, if each row that the predicate does not drop is found. Where the
`Filter` over all chunks returns rows, it has it only then. -/
theorem pruned_scan_loses_no_row (hint : 0 < interval) (predicate : ScalarExpr ν m) :
    (Finds others interval rows projection predicate →
      timePartitionFilterScan others (insertChunks interval rows) p projection predicate =
        filterRows (keepRow others predicate)
          (lowerTimePartitionScan (insertChunks interval rows) projection none)) ∧
    ∀ out, filterRows (keepRow others predicate)
        (lowerTimePartitionScan (insertChunks interval rows) projection none) = .ok out →
      timePartitionFilterScan others (insertChunks interval rows) p projection predicate =
        .ok out → Finds others interval rows projection predicate := by
  rw [timePartitionFilterScan, finds_iff others hint]
  cases hrange : fromExpr p.1 predicate with
  | none => exact ⟨fun _ => rfl, fun _ _ _ range hr => nomatch hr⟩
  | some range =>
    simp only [lowerTimePartitionScan, List.map_flatMap, Option.all_none, Option.all_some,
      List.filter_true, Option.mem_some_iff, forall_eq']
    constructor
    · intro h
      refine filterRows_flatMap_filter fun c hc hout r hr => ?_
      obtain ⟨row, hmem, rfl⟩ := List.mem_map.1 hr
      exact h c hc hout row hmem
    · intro out hall hpruned c hc hout r hr
      exact keep_of_filterRows_flatMap_filter hall hpruned c hc hout _ (List.mem_map.2 ⟨r, hr, rfl⟩)

end Main

/-- An event: when it has happened, the partition column, and when it was recorded. -/
def event (at' recorded : I64) : KeyedRow Empty (0 : Fin 2) :=
  ⟨fun j => .timestamp (if j = 0 then at' else recorded), rfl⟩

def since (us : I64) : ScalarExpr Empty 2 :=
  .binary .gtEq (.column 0) (.literal (.timestamp us) .timestamp)

def noOthers (_ : BinaryOp) (_ _ : Value Empty) : Except ExecError (Value Empty) :=
  .error .typeMismatch

/-- Of two events in chunks of 3600 µs the second is found, in the only chunk that is read. -/
theorem second_chunk_is_found :
    timePartitionFilterScan noOthers
        (insertChunks 3600 [event ⟨0, by decide⟩ ⟨9000, by decide⟩,
          event ⟨3600, by decide⟩ ⟨9000, by decide⟩]) 0 id (since ⟨3600, by decide⟩) =
      .ok [(event ⟨3600, by decide⟩ ⟨9000, by decide⟩).1] := by
  refine ((pruned_scan_loses_no_row noOthers (by decide) _).1
    fun range _ row hrow _ => ?_).trans rfl
  rw [if_pos (by decide)]
  have hkey : partitionKeyUs row ≠ 2 ^ 63 - 1 := by
    revert row
    decide
  exact fun hlast => hkey hlast.1

/-- The event of the last instant is not found from that instant on. And an event that was recorded
later is not found by the time of its record, if this is the first column of the output. -/
theorem last_instant_and_late_record_lost :
    let last := event I64.maxValue ⟨0, by decide⟩
    let late := event ⟨0, by decide⟩ ⟨7200, by decide⟩
    let sinceRecord := since ⟨7200, by decide⟩
    (timePartitionFilterScan noOthers (insertChunks 3600 [last]) 0 id (since I64.maxValue) =
        .ok [] ∧
      filterRows (keepRow noOthers (since I64.maxValue))
        (lowerTimePartitionScan (insertChunks 3600 [last]) id none) = .ok [last.1]) ∧
    timePartitionFilterScan noOthers (insertChunks 3600 [late]) 0 Fin.rev sinceRecord = .ok [] ∧
      filterRows (keepRow noOthers sinceRecord)
        (lowerTimePartitionScan (insertChunks 3600 [late]) Fin.rev none) =
          .ok [late.1 ∘ Fin.rev] :=
  ⟨⟨rfl, rfl⟩, rfl, rfl⟩

end UltraSql.Pruning
