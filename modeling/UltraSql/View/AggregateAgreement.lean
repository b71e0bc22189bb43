import UltraSql.View.AggregatingIndex

/-!
# Answers from an aggregating index

The index groups the rows by the equality of `Value` and folds them with its own states, and the
executor groups them by the equality of `KeyValue` and folds them with `AggState`. The index checks
the conditions of the query after the grouping and the executor before it.

**Theorem (`answer_agrees`).** The rows of the index give what the plan of the query gives, and fail
where it fails, unless a group column holds floating-point or decimal numbers, a summed column
holds decimal numbers or a negative zero, a condition compares what `compareSummaryValues` does not,
or the aggregates of a group that the plan leaves out fail.
-/

namespace UltraSql.Aggregating

open List

variable {F : Type} {schema : List DataType}

/-! ## What can be answered -/

/-- The values of the group columns, in a row that has them. -/
def keyOf (groupColumns : List ℕ) (row : Row F) : Row F :=
  groupColumns.map fun col => row[col]?.getD .null

/-- `compareSummaryValues` compares the two values as the executor does. -/
def comparable (op : BinaryOp) : Value F → Value F → Bool
  | .int16 _, .int16 _ | .int32 _, .int32 _ | .int64 _, .int64 _ => true
  | .text _, .text _ | .char _, .char _ | .char _, .text _ | .text _, .char _
  | .bool _, .bool _ => op = .eq
  | _, _ => false

/-- All comparisons of the predicate are such. -/
def comparableOn (row : Row F) : ScalarExpr F → Bool
  | .and left right => comparableOn row left && comparableOn row right
  | .binary op (.column i) (.literal v) | .binary op (.literal v) (.column i) =>
    row[i]?.any (comparable op · v)
  | _ => true

/-- The types whose two notions of equality are the same. -/
def DataType.IsPlain (F : Type) [Floating F] : DataType → Prop
  | float32 | float64 | decimal => False
  | other type => ∀ l r : F, Floating.eqOther type l r = Floating.keyEqOther type l r
  | _ => True

section Supported

variable [Floating F] [DecidableEq F] (others : Value F → Value F → Except ExecError Ordering)

/-- What keeps the index from being noticed by a query on these rows. -/
structure Supported (index : AggregatingIndex F schema) (q : Query F) (rows : List (Row F)) :
    Prop where
  keys : ∀ col ∈ index.groupColumns, ∀ t ∈ schema[col]?, t.IsPlain F
  decimals : ∀ a ∈ index.aggregates, ∀ col ∈ a.argColumn, schema[col]? ≠ some .decimal
  zeros : ∀ a ∈ index.aggregates, ∀ col ∈ a.argColumn, ∀ row ∈ rows, ∀ f : F,
    row[col]? = some (.float32 f) ∨ row[col]? = some (.float64 f) → 0 + f = f
  comparisons : ∀ p ∈ q.predicate, ∀ row ∈ rows, comparableOn row p = true
  unfiltered : q.predicate ≠ none →
    ∃ groups, hashAggregate others q.groupBy q.aggregates rows = .ok groups

end Supported

/-! ## Group keys -/

section Keys

variable {index : AggregatingIndex F schema} {row : Row F} {cols : List ℕ}

theorem Conforms.getElem?_eq_some (h : Conforms schema row) {col : ℕ} {t : DataType}
    (ht : schema[col]? = some t) : ∃ v, row[col]? = some v ∧ ∀ t' ∈ v.dataType, t' = t := by
  have hlt : col < schema.length := (List.getElem?_eq_some_iff.1 ht).1
  have hlt' : col < row.length := by rwa [← List.Forall₂.length_eq h]
  refine ⟨row[col], getElem?_eq_getElem hlt', ?_⟩
  have := List.Forall₂.get h hlt hlt'
  rw [getElem?_eq_getElem hlt] at ht
  cases ht
  simpa using this

theorem groupKey_eq (hrow : Conforms schema row) (hcols : ∀ col ∈ cols, col < schema.length) :
    groupKey cols row = .ok (keyOf cols row) := by
  refine mapM_eq_ok_map fun col hcol => ?_
  obtain ⟨v, hv, -⟩ := hrow.getElem?_eq_some (getElem?_eq_getElem (hcols col hcol))
  rw [hv]
  rfl

theorem eval_columns_eq (others : Value F → Value F → Except ExecError Ordering)
    (hrow : Conforms schema row) (hcols : ∀ col ∈ cols, col < schema.length) :
    (cols.map ScalarExpr.column).mapM (·.eval others row) = .ok (keyOf cols row) := by
  rw [mapM_map]
  refine mapM_eq_ok_map fun col hcol => ?_
  obtain ⟨v, hv, -⟩ := hrow.getElem?_eq_some (getElem?_eq_getElem (hcols col hcol))
  simp only [ScalarExpr.eval, Function.comp_apply, hv]
  rfl

theorem eq_keyEq [Floating F] [DecidableEq F] {v w : Value F}
    (hv : ∀ t ∈ v.dataType, t.IsPlain F) : v.eq w = v.keyEq w := by
  cases v with
  | other t l =>
    cases w with
    | other u r => exact congrArg (decide (t = u) && ·) (hv _ rfl l r)
    | _ => rfl
  | float32 | float64 | decimal => exact (hv _ rfl).elim
  | _ => cases w <;> rfl

end Keys

/-! ## Aggregates -/

section Aggregates

variable {others : Value F → Value F → Except ExecError Ordering} {a : IndexExpr F}
  {agg : LogicalAggregateExpr F} {row : Row F} {s : AggregateState F}
  {t : AggState F} {aggs : List (LogicalAggregateExpr F)} {as : List (IndexExpr F)}
  {ss : List (AggregateState F)} {ts : List (AggState F)}

/-- The aggregate of the query is that of the index. -/
structure Matches (agg : LogicalAggregateExpr F) (a : IndexExpr F) : Prop where
  distinct : agg.distinct = false
  func : sameFunc agg.func a.func = true
  arg : aggregateArgColumn agg = a.argColumn

theorem forall₂_of_zip {α β : Type} {R : α → β → Prop} {p : α × β → Bool} {l : List α}
    {l' : List β} (hlen : l.length = l'.length) (h : (l.zip l').all p = true)
    (hp : ∀ a b, p (a, b) = true → R a b) : List.Forall₂ R l l' := by
  rw [forall₂_iff_zip]
  refine ⟨hlen, fun {a b} hab => hp a b ?_⟩
  exact all_eq_true.1 h _ hab

/-- What `aggregatingSpecMatches` checks. -/
theorem matches_of_spec {index : AggregatingIndex F schema} {groupBy : List (ScalarExpr F)}
    (h : aggregatingSpecMatches index groupBy aggs = true) :
    groupBy = index.groupColumns.map .column ∧ List.Forall₂ Matches aggs index.aggregates := by
  unfold aggregatingSpecMatches at h
  simp only [Bool.and_eq_true, decide_eq_true_eq] at h
  obtain ⟨⟨⟨hlen, hlen'⟩, hcols⟩, haggs⟩ := h
  constructor
  · have hforall : List.Forall₂ (fun e col => e = ScalarExpr.column col) groupBy
        index.groupColumns := by
      refine forall₂_of_zip hlen hcols fun e col he => ?_
      cases e with
      | column i => exact congrArg _ (of_decide_eq_true he)
      | _ => cases he
    generalize index.groupColumns = cols at hforall
    clear * - hforall
    induction hforall with
    | nil => rfl
    | cons h _ ih => rw [map_cons, h, ih]
  · refine forall₂_of_zip hlen' haggs fun agg a he => ?_
    simp only [Bool.and_eq_true, Bool.not_eq_true', decide_eq_true_eq] at he
    exact ⟨he.1.1, he.1.2, he.2⟩

variable [Floating F]

/-- The state of the index and that of the executor. -/
inductive Tracks (a : IndexExpr F) (s : AggregateState F) : AggState F → Prop
  | countStar (hf : a.func = .countStar) (hs : s.func = .countStar) :
    Tracks a s (.countStar s.count)
  | empty (hf : a.func = .sum) (hs : s.func = .sum) (ho : s.floatOutput = a.dataType.isFloat)
    (hsaw : s.sawValue = false) (hint : s.intSum = 0) (hfloat : s.floatSum = 0) :
    Tracks a s (.sum none)
  | int (hf : a.func = .sum) (hs : s.func = .sum) (ho : a.dataType.isFloat = false)
    (ho' : s.floatOutput = false) (hsaw : s.sawValue = true) :
    Tracks a s (.sum (some (.int64 s.intSum)))
  | float (hf : a.func = .sum) (hs : s.func = .sum) (ho : a.dataType.isFloat = true)
    (ho' : s.floatOutput = true) (hsaw : s.sawValue = true) :
    Tracks a s (.sum (some (.float64 s.floatSum)))

theorem Tracks.finish (h : Tracks a s t) : finalise t = .ok s.finish := by
  cases h with
  | countStar _ hs => simp [finalise, AggregateState.finish, hs]
  | empty _ hs _ hsaw => simp [finalise, AggregateState.finish, hs, hsaw]
  | int _ hs _ ho hsaw | float _ hs _ ho hsaw =>
    simp [finalise, AggregateState.finish, hs, ho, hsaw]

theorem tracks_init (hb : a.Bound schema) (hm : Matches agg a) :
    Tracks a (.new a) (initStateFor agg) := by
  have hfunc := hm.func
  unfold initStateFor
  rw [hm.distinct]
  cases hb with
  | countStar =>
    cases hagg : agg.func with
    | countStar => exact .countStar rfl rfl
    | _ => rw [hagg] at hfunc; cases hfunc
  | sum =>
    cases hagg : agg.func with
    | sum => exact .empty rfl rfl rfl rfl rfl rfl
    | _ => rw [hagg] at hfunc; cases hfunc

theorem checkedAdd_zero (n : Int64) : checkedAdd 0 n = some n := by
  have h₁ := n.le_toInt
  have h₂ := n.toInt_lt
  have h₀ : (0 : Int64).toInt = 0 := rfl
  unfold checkedAdd
  rw [h₀, Int.zero_add, if_pos ⟨h₁, h₂⟩, Int64.zero_add]

variable {v : Value F}

theorem agree_addInt [DecidableEq F] {n : Int64} (hf : a.func = .sum)
    (ho : a.dataType.isFloat = false) (hv : v ≠ .null) (hseed : widenSumSeed v = .int64 n)
    (hadd : ∀ m, addValues (.int64 m) v = (checkedSumInt64 m n : Except ExecError (Value F)))
    (h : Tracks a s t) : Agree (Tracks a) (s.addInt n) (accumulateValue t (some v)) := by
  unfold AggregateState.addInt
  cases h with
  | countStar hf' => cases hf.symm.trans hf'
  | empty _ hs ho' _ hint =>
    rw [ho] at ho'
    simp only [accumulateValue, if_neg hv, hseed, ho', hint, checkedAdd_zero]
    exact .ok (.int hf hs ho rfl rfl)
  | int _ hs _ ho' =>
    simp only [accumulateValue, if_neg hv, ho', hadd, checkedSumInt64]
    cases checkedAdd s.intSum n with
    | some total => exact .ok (.int hf hs ho rfl rfl)
    | none => exact .error
  | float _ _ ho' => cases ho.symm.trans ho'

theorem agree_addFloat [DecidableEq F] {f : F} (hf : a.func = .sum)
    (ho : a.dataType.isFloat = true) (hv : v ≠ .null) (hseed : widenSumSeed v = .float64 f)
    (hadd : ∀ g : F, addValues (.float64 g) v = .ok (.float64 (g + f))) (hzero : 0 + f = f)
    (h : Tracks a s t) :
    Agree (Tracks a) (.ok (s.addFloat f) : Except ServerError _) (accumulateValue t (some v)) := by
  cases h with
  | countStar hf' => cases hf.symm.trans hf'
  | empty _ hs ho' _ _ hfloat =>
    simp only [accumulateValue, if_neg hv, hseed]
    have hsum : s.floatSum + f = f := by rw [hfloat, hzero]
    have htracks : Tracks a (s.addFloat f) (.sum (some (.float64 (s.floatSum + f)))) :=
      .float hf hs ho (ho'.trans ho) rfl
    rw [hsum] at htracks
    exact .ok htracks
  | int _ _ ho' => cases ho.symm.trans ho'
  | float _ hs _ ho' =>
    simp only [accumulateValue, if_neg hv, hadd]
    exact .ok (.float hf hs ho ho' rfl)

variable (others) in
/-- **A row goes into a state of the index as into one of the executor.** -/
theorem agree_add [DecidableEq F] (hb : a.Bound schema) (hm : Matches agg a)
    (hrow : Conforms schema row) (hdec : ∀ col ∈ a.argColumn, schema[col]? ≠ some .decimal)
    (hzero : ∀ col ∈ a.argColumn, ∀ f : F,
      row[col]? = some (.float32 f) ∨ row[col]? = some (.float64 f) → 0 + f = f)
    (h : Tracks a s t) : Agree (Tracks a) (s.add a row) (accumulate others t agg row) := by
  unfold accumulate AggregateState.add
  cases hb with
  | countStar =>
    have harg : agg.arg = none := by
      refine agg.star ?_
      have hfunc := hm.func
      cases hagg : agg.func with
      | countStar => rfl
      | _ => rw [hagg] at hfunc; cases hfunc
    rw [harg]
    cases h with
    | countStar hf hs =>
      simp only [hs, accumulateValue]
      cases checkedAdd s.count 1 with
      | some n => exact .ok (.countStar hf rfl)
      | none => exact .error
    | empty hf | int hf | float hf => cases hf
  | @sum col ty hcol hnum =>
    have harg : agg.arg = some (.column col) := by
      have := hm.arg
      unfold aggregateArgColumn at this
      split at this
      · rename_i i hi
        rw [hi, Option.some.inj this]
      · cases this
    obtain ⟨v, hv, htype⟩ := hrow.getElem?_eq_some hcol
    have hdec : ty ≠ .decimal := fun ht => hdec col rfl (ht ▸ hcol)
    have hs : s.func = .sum := by
      cases h with
      | countStar hf => cases hf
      | empty _ hs | int _ hs | float _ hs => exact hs
    simp only [harg, hs, hv, ScalarExpr.eval, Except.bind]
    cases v with
    | null =>
      cases h with
      | countStar hf => cases hf
      | empty hf hs ho hsaw hint hfloat => exact .ok (.empty hf hs ho hsaw hint hfloat)
      | int hf hs ho ho' hsaw => exact .ok (.int hf hs ho ho' hsaw)
      | float hf hs ho ho' hsaw => exact .ok (.float hf hs ho ho' hsaw)
    | int16 n | int32 n | int64 n =>
      cases htype _ rfl
      exact agree_addInt rfl rfl (by simp) rfl (fun _ => rfl) h
    | float32 f =>
      cases htype _ rfl
      exact agree_addFloat rfl rfl (by simp) rfl (fun _ => rfl) (hzero col rfl f (.inl hv)) h
    | float64 f =>
      cases htype _ rfl
      exact agree_addFloat rfl rfl (by simp) rfl (fun _ => rfl) (hzero col rfl f (.inr hv)) h
    | decimal => exact absurd (htype _ rfl).symm hdec
    | bool | text | char | other =>
      cases htype _ rfl
      cases hnum

/-- The states of a group. -/
inductive TracksAll : List (IndexExpr F) → List (AggregateState F) → List (AggState F) → Prop
  | nil : TracksAll [] [] []
  | cons {a : IndexExpr F} {as : List (IndexExpr F)} {s : AggregateState F}
    {ss : List (AggregateState F)} {t : AggState F} {ts : List (AggState F)} (h : Tracks a s t)
    (hrest : TracksAll as ss ts) : TracksAll (a :: as) (s :: ss) (t :: ts)

theorem tracksAll_init (hb : ∀ a ∈ as, a.Bound schema) (hm : List.Forall₂ Matches aggs as) :
    TracksAll as (as.map .new) (aggs.map initStateFor) := by
  induction hm with
  | nil => exact .nil
  | cons h _ ih =>
    exact .cons (tracks_init (hb _ mem_cons_self) h)
      (ih fun a ha => hb a (mem_cons_of_mem _ ha))

theorem TracksAll.finish (h : TracksAll as ss ts) :
    ts.mapM finalise = .ok (ss.map AggregateState.finish) := by
  induction h with
  | nil => rfl
  | cons h _ ih =>
    rw [mapM_cons, h.finish, ih]
    rfl

theorem agree_addAll [DecidableEq F] (hb : ∀ a ∈ as, a.Bound schema)
    (hm : List.Forall₂ Matches aggs as) (hrow : Conforms schema row)
    (hdec : ∀ a ∈ as, ∀ col ∈ a.argColumn, schema[col]? ≠ some .decimal)
    (hzero : ∀ a ∈ as, ∀ col ∈ a.argColumn, ∀ f : F,
      row[col]? = some (.float32 f) ∨ row[col]? = some (.float64 f) → 0 + f = f)
    (h : TracksAll as ss ts) :
    Agree (TracksAll as) (addAll row ss as) (accumulateAll others row ts aggs) := by
  induction h generalizing aggs with
  | nil =>
    cases hm
    exact .ok .nil
  | cons h _ ih =>
    cases hm with
    | cons hagg hm =>
      have hstep := agree_add others (hb _ mem_cons_self) hagg hrow
        (hdec _ mem_cons_self) (hzero _ mem_cons_self) h
      have hrest := ih (fun a ha => hb a (mem_cons_of_mem _ ha)) hm
        (fun a ha => hdec a (mem_cons_of_mem _ ha))
        fun a ha => hzero a (mem_cons_of_mem _ ha)
      exact hstep.bind fun s t hst => hrest.bind fun ss ts hall => .ok (.cons hst hall)

end Aggregates

/-! ## Conditions -/

section Conditions

theorem compareInts_eq_iff {l r : ℤ} : compareInts l r = .eq ↔ l = r := by
  unfold compareInts
  split_ifs with h h'
  · exact ⟨nofun, fun h' => absurd h (h' ▸ lt_irrefl l)⟩
  · exact ⟨fun _ => h', fun _ => rfl⟩
  · exact ⟨nofun, fun h => absurd h h'⟩

theorem compareInts_swap (l r : ℤ) : compareInts r l = (compareInts l r).swap := by
  unfold compareInts
  rcases lt_trichotomy l r with h | rfl | h
  · rw [if_pos h, if_neg h.not_gt, if_neg h.ne']
    rfl
  · simp
  · rw [if_pos h, if_neg h.not_gt, if_neg h.ne']
    rfl

theorem compareChars_eq_iff {l r : List Char} : compareChars l r = .eq ↔ l = r := by
  induction l generalizing r with
  | nil => cases r <;> simp [compareChars]
  | cons c l ih =>
    cases r with
    | nil => simp [compareChars]
    | cons d r =>
      rw [compareChars, Ordering.then_eq_eq, ih, compareInts_eq_iff, cons.injEq]
      exact and_congr_left fun _ => ⟨fun h => Char.toNat_inj.1 (Int.ofNat.inj h), fun h => h ▸ rfl⟩

theorem compareChars_swap (l r : List Char) : compareChars r l = (compareChars l r).swap := by
  induction l generalizing r with
  | nil => cases r <;> rfl
  | cons c l ih =>
    cases r with
    | nil => rfl
    | cons d r => rw [compareChars, compareChars, compareInts_swap, ih, Ordering.swap_then]

theorem compareStrings_eq_iff {l r : String} : compareStrings l r = .eq ↔ l = r :=
  compareChars_eq_iff.trans String.toList_inj

theorem test_flipOp (op : BinaryOp) (o : Ordering) : (flipOp op).test o.swap = op.test o := by
  cases op <;> cases o <;> rfl

variable {others : Value F → Value F → Except ExecError Ordering} {op : BinaryOp} {v w : Value F}

/-- What a comparison of the index goes by. -/
structure Compared (others : Value F → Value F → Except ExecError Ordering) (op : BinaryOp)
    (v w : Value F) (o : Ordering) : Prop where
  left : v ≠ .null
  right : w ≠ .null
  executor : compareValues others v w = .ok o
  swapped : compareValues others w v = .ok o.swap
  index : compareSummaryValues op v w = .ok (op.test o)
  flipped : compareSummaryValues (flipOp op) v w = .ok ((flipOp op).test o)

variable (others) in
theorem exists_compared (h : comparable op v w = true) : ∃ o, Compared others op v w o := by
  -- integers
  have hint : ∀ {l r : ℤ}, valueAsInt v = some l → valueAsInt w = some r →
      compareValues others v w = .ok (compareInts l r) →
      compareValues others w v = .ok (compareInts r l) → Compared others op v w (compareInts l r) :=
    fun {l r} hl hr hvw hwv => by
      refine ⟨?_, ?_, hvw, hwv.trans (by rw [compareInts_swap]), ?_, ?_⟩
      · rintro rfl
        cases hl
      · rintro rfl
        cases hr
      · simp only [compareSummaryValues, hl, hr]
      · simp only [compareSummaryValues, hl, hr]
  -- strings and booleans
  have heq : ∀ {o : Ordering} {p : Prop} [Decidable p], op = .eq → (o = .eq ↔ p) → v ≠ .null →
      w ≠ .null → compareValues others v w = .ok o → compareValues others w v = .ok o.swap →
      compareSummaryValues .eq v w = .ok (decide p) → Compared others op v w o := by
    rintro o p _ rfl hp hl hr hvw hwv hsum
    have htest : compareSummaryValues .eq v w = .ok (BinaryOp.test .eq o) := by
      rw [hsum, BinaryOp.test]
      exact congrArg _ (decide_eq_decide.2 hp.symm)
    exact ⟨hl, hr, hvw, hwv, htest, htest⟩
  cases v with
  | int16 l | int32 l | int64 l =>
    cases w <;> first
      | exact ⟨_, hint rfl rfl rfl rfl⟩
      | cases h
  | text l | char l =>
    cases w with
    | text | char =>
      exact ⟨_, heq (of_decide_eq_true h) compareStrings_eq_iff nofun nofun rfl
        (congrArg _ (compareChars_swap _ _)) rfl⟩
    | _ => cases h
  | bool l =>
    cases w with
    | bool r =>
      refine ⟨_, heq (of_decide_eq_true h) (p := l = r) ?_ nofun nofun rfl
        (congrArg _ (compareInts_swap _ _)) rfl⟩
      cases l <;> cases r <;> decide
    | _ => cases h
  | _ => cases h

variable {o : Ordering}

theorem Compared.applyBinary (h : Compared others op v w o) :
    applyBinary others op v w = .ok (.bool (op.test o)) := by
  unfold Aggregating.applyBinary
  split
  · exact absurd rfl h.left
  · exact absurd rfl h.right
  · rw [h.executor]
    rfl

theorem Compared.applyBinary_swap (h : Compared others op v w o) :
    Aggregating.applyBinary others op w v = .ok (.bool ((flipOp op).test o)) := by
  unfold Aggregating.applyBinary
  split
  · exact absurd rfl h.right
  · exact absurd rfl h.left
  · rw [h.swapped]
    change Except.ok (Value.bool (op.test o.swap)) = _
    rw [← test_flipOp op o.swap, Ordering.swap_swap]

variable {row : Row F} {cols : List ℕ} {p : ScalarExpr F}

/-- The value of a group column, in the row and in its key. -/
theorem compareSummaryValue_eq {i : ℕ} (hi : i ∈ cols) (hv : row[i]? = some v) :
    compareSummaryValue op cols (keyOf cols row) (.column i) (.literal w) =
      some (compareSummaryValues op v w) := by
  obtain ⟨j, hj⟩ := Option.isSome_iff_exists.1 (isSome_idxOf?.2 hi)
  obtain ⟨hlt, hcol, -⟩ := idxOf?_eq_some_iff.1 hj
  have hkey : (keyOf cols row)[j]? = some v := by
    rw [keyOf, getElem?_map, getElem?_eq_getElem hlt, hcol, Option.map_some, hv]
    rfl
  simp only [compareSummaryValue, hj, Option.bind_some, hkey, Option.map_some]

theorem comparisonUsesGroupColumn_eq_true {e e' : ScalarExpr F}
    (h : comparisonUsesGroupColumn cols e e' = true) :
    ∃ i w, e = .column i ∧ e' = .literal w ∧ i ∈ cols := by
  unfold comparisonUsesGroupColumn at h
  split at h
  · exact ⟨_, _, rfl, rfl, contains_iff_mem.1 h⟩
  · cases h

variable (others) in
/-- **The index checks a condition on the key as the executor does on the row.** -/
theorem predicate_agrees (huse : predicateUsesOnlyGroupColumns cols p = true)
    (hcmp : comparableOn row p = true) :
    ∃ b, p.eval others row = .ok (.bool b) ∧
      summaryRowMatchesPredicate cols (keyOf cols row) p = .ok (some b) := by
  induction p with
  | and left right ihl ihr =>
    simp only [predicateUsesOnlyGroupColumns, comparableOn, Bool.and_eq_true] at huse hcmp
    obtain ⟨l, hl, hl'⟩ := ihl huse.1 hcmp.1
    obtain ⟨r, hr, hr'⟩ := ihr huse.2 hcmp.2
    refine ⟨l && r, ?_, ?_⟩
    · simp only [ScalarExpr.eval, hl, hr]
      cases l <;> cases r <;> rfl
    · simp only [summaryRowMatchesPredicate, hl', hr']
      rfl
  | binary op left right =>
    simp only [predicateUsesOnlyGroupColumns, Bool.or_eq_true] at huse
    rcases huse with huse | huse
    · obtain ⟨i, w, rfl, rfl, hi⟩ := comparisonUsesGroupColumn_eq_true huse
      obtain ⟨v, hv, hvw⟩ := (Option.any_eq_true _ _).1 hcmp
      obtain ⟨o, ho⟩ := exists_compared others hvw
      refine ⟨op.test o, ?_, ?_⟩
      · simp only [ScalarExpr.eval, hv, Except.bind, ho.applyBinary]
      · rw [summaryRowMatchesPredicate, compareSummaryValue_eq hi hv, ho.index]
        rfl
    · obtain ⟨i, w, rfl, rfl, hi⟩ := comparisonUsesGroupColumn_eq_true huse
      obtain ⟨v, hv, hvw⟩ := (Option.any_eq_true _ _).1 hcmp
      obtain ⟨o, ho⟩ := exists_compared others hvw
      refine ⟨(flipOp op).test o, ?_, ?_⟩
      · simp only [ScalarExpr.eval, hv, Except.bind, ho.applyBinary_swap]
      · rw [summaryRowMatchesPredicate, compareSummaryValue_eq hi hv, ho.flipped]
        rfl
  | column | literal | other => cases huse

variable [Floating F] [DecidableEq F]

variable {v' : Value F}

/-- Values that are equal as keys are equal, strings with blanks at their ends, decimal numbers of
different scales or values of another type. -/
theorem keyEq_cases (h : v.keyEq v' = true) : v = v' ∨
    (∃ l r, v = .char l ∧ v' = .char r ∧ bpcharSemanticText l = bpcharSemanticText r) ∨
      (∃ l ls r rs, v = .decimal l ls ∧ v' = .decimal r rs) ∨
      ∃ t l u r, v = .other t l ∧ v' = .other u r := by
  cases v with
  | null =>
    cases v' with
    | null => exact .inl rfl
    | _ => cases h
  | char l =>
    cases v' with
    | char r => exact .inr (.inl ⟨l, r, rfl, rfl, of_decide_eq_true h⟩)
    | _ => cases h
  | decimal l ls =>
    cases v' with
    | decimal r rs => exact .inr (.inr (.inl ⟨l, ls, r, rs, rfl, rfl⟩))
    | _ => cases h
  | other t l =>
    cases v' with
    | other u r => exact .inr (.inr (.inr ⟨t, l, u, r, rfl, rfl⟩))
    | _ => cases h
  | bool l | int16 l | int32 l | int64 l | float32 l | float64 l | text l =>
    cases v' <;> first
      | exact .inl (congrArg _ (of_decide_eq_true h))
      | cases h

theorem compareSummaryValues_congr (h : v.keyEq v' = true) (op : BinaryOp) (w : Value F) :
    compareSummaryValues op v w = compareSummaryValues op v' w := by
  rcases keyEq_cases h with rfl | ⟨l, r, rfl, rfl, hlr⟩ | ⟨l, ls, r, rs, rfl, rfl⟩ |
    ⟨t, l, u, r, rfl, rfl⟩
  · rfl
  · change compareOtherValues op (.char l) w = compareOtherValues op (.char r) w
    unfold compareOtherValues
    cases op <;> cases w <;> simp only [hlr]
  · change compareOtherValues op (.decimal l ls) w = compareOtherValues op (.decimal r rs) w
    unfold compareOtherValues
    cases op <;> rfl
  · change compareOtherValues op (.other t l) w = compareOtherValues op (.other u r) w
    unfold compareOtherValues
    cases op <;> rfl

/-- Keys that are equal meet the same conditions. -/
theorem summaryRowMatchesPredicate_congr {k k' : Row F} (h : rowEq Value.keyEq k k' = true) :
    summaryRowMatchesPredicate cols k p = summaryRowMatchesPredicate cols k' p := by
  have hcmp : ∀ op (e e' : ScalarExpr F),
      compareSummaryValue op cols k e e' = compareSummaryValue op cols k' e e' := by
    intro op e e'
    unfold compareSummaryValue
    split
    · refine congrArg _ (funext fun i => ?_)
      simp only [rowEq, Bool.and_eq_true, decide_eq_true_eq, all_eq_true] at h
      by_cases hi : i < k.length
      · have hi' : i < k'.length := h.1 ▸ hi
        rw [getElem?_eq_getElem hi, getElem?_eq_getElem hi', Option.map_some,
          Option.map_some]
        refine congrArg some (compareSummaryValues_congr (h.2 (k[i], k'[i]) ?_) _ _)
        rw [← getElem_zip]
        exact getElem_mem (by simpa using ⟨hi, hi'⟩)
      · rw [getElem?_eq_none (by omega), getElem?_eq_none (by omega)]
    · rfl
  induction p with
  | and left right ihl ihr => simp only [summaryRowMatchesPredicate, ihl, ihr]
  | binary op left right => simp only [summaryRowMatchesPredicate, hcmp]
  | _ => rfl

end Conditions

/-! ## Groups -/

section Groups

variable [Floating F] [DecidableEq F] {others : Value F → Value F → Except ExecError Ordering}
  {displayOrder : Row F → Row F → Bool} {index : AggregatingIndex F schema} {q : Query F}
  {rows : List (Row F)} {cols : List ℕ} {p : ScalarExpr F}

def indexGroups (index : AggregatingIndex F schema) (rows : List (Row F)) :
    Except ServerError (List (Row F × List (AggregateState F))) :=
  groupFold (rowEq Value.eq) (index.aggregates.map .new) (groupKey index.groupColumns)
    (fun states row => addAll row states index.aggregates) rows

def planGroups (others : Value F → Value F → Except ExecError Ordering) (q : Query F)
    (rows : List (Row F)) : Except ExecError (List (Row F × List (AggState F))) :=
  groupFold (rowEq Value.keyEq) (q.aggregates.map initStateFor)
    (fun row => q.groupBy.mapM (·.eval others row))
    (fun states row => accumulateAll others row states q.aggregates) rows

/-- The row of a group in the index. -/
def groupRow (g : Row F × List (AggregateState F)) : Row F := g.1 ++ g.2.map AggregateState.finish

/-- The same groups, with the keys of the given rows. -/
def Corresponding (index : AggregatingIndex F schema) (rows : List (Row F)) :
    List (Row F × List (AggregateState F)) → List (Row F × List (AggState F)) → Prop :=
  SameGroups (fun k => ∃ row ∈ rows, k = keyOf index.groupColumns row)
    (TracksAll index.aggregates)

/-- **The index and the plan have the same groups.** -/
theorem agree_groups (hgb : q.groupBy = index.groupColumns.map .column)
    (hm : List.Forall₂ Matches q.aggregates index.aggregates) (hs : Supported others index q rows)
    (hrows : ∀ row ∈ rows, Conforms schema row) :
    Agree (Corresponding index rows) (indexGroups index rows) (planGroups others q rows) := by
  refine agree_groupFold ?_ (tracksAll_init index.bound hm) (fun row hrow => ?_)
    fun row hrow ss ts h => ?_
  · -- the values of a group column are equal or not for both
    rintro k k' ⟨row, hrow, rfl⟩ -
    unfold rowEq
    refine congrArg _ ?_
    rw [Bool.eq_iff_iff, all_eq_true, all_eq_true]
    refine forall₂_congr fun p hp => ?_
    rw [eq_keyEq fun t ht => ?_]
    obtain ⟨col, hcol, heq⟩ := mem_map.1 (of_mem_zip hp).1
    obtain ⟨v, hv, htype⟩ := (hrows row hrow).getElem?_eq_some
      (getElem?_eq_getElem (index.inRange col hcol))
    rw [hv] at heq
    rw [← heq] at ht
    rw [htype t ht]
    exact hs.keys col hcol _ (getElem?_eq_getElem (index.inRange col hcol))
  · rw [hgb, groupKey_eq (hrows row hrow) index.inRange,
      eval_columns_eq others (hrows row hrow) index.inRange]
    exact .ok ⟨rfl, row, hrow, rfl⟩
  · exact agree_addAll index.bound hm (hrows row hrow) hs.decimals
      (fun a ha col hcol => hs.zeros a ha col hcol row hrow) h

variable {groups : List (Row F × List (AggregateState F))}
  {groups' : List (Row F × List (AggState F))}

omit [DecidableEq F] in
theorem finalise_groups (h : Corresponding index rows groups groups') :
    (groups'.mapM fun g => do
      let values ← g.2.mapM finalise
      return g.1 ++ values) = .ok (groups.map groupRow) := by
  unfold Corresponding SameGroups at h
  induction h with
  | nil => rfl
  | cons hg _ ih =>
    obtain ⟨hkey, -, htracks⟩ := hg
    rw [mapM_cons, ih, htracks.finish, ← hkey]
    rfl

theorem hashAggregate_eq (hgb : q.groupBy ≠ []) (rows : List (Row F)) :
    hashAggregate others q.groupBy q.aggregates rows = (planGroups others q rows).bind
      fun groups => groups.mapM fun g => do
        let values ← g.2.mapM finalise
        return g.1 ++ values := by
  unfold hashAggregate
  rw [if_neg fun h => hgb (isEmpty_iff.1 h.2)]
  rfl

theorem hashAggregate_of_groups {rows' : List (Row F)} (hgb : q.groupBy ≠ [])
    (hp : planGroups others q rows' = .ok groups') (h : Corresponding index rows groups groups') :
    hashAggregate others q.groupBy q.aggregates rows' = .ok (groups.map groupRow) := by
  rw [hashAggregate_eq hgb, hp]
  exact finalise_groups h

/-- The key meets the condition. -/
def meets (cols : List ℕ) (p : ScalarExpr F) (k : Row F) : Bool :=
  match summaryRowMatchesPredicate cols k p with
  | .ok (some b) => b
  | _ => false

variable {row : Row F}

variable (others) in
section

variable (huse : predicateUsesOnlyGroupColumns cols p = true) (hcmp : comparableOn row p = true)
include huse hcmp

omit [Floating F] [DecidableEq F] in
theorem keepRow_eq : keepRow others p row = .ok (meets cols p (keyOf cols row)) := by
  obtain ⟨b, hb, hb'⟩ := predicate_agrees others huse hcmp
  rw [keepRow, meets, hb, hb']

omit [Floating F] [DecidableEq F] in
theorem keepSummaryRow_eq (values : Row F) :
    keepSummaryRow cols p (keyOf cols row ++ values) = .ok (meets cols p (keyOf cols row)) := by
  obtain ⟨b, -, hb⟩ := predicate_agrees (fun _ _ => .ok .eq) huse hcmp
  have hlen : (keyOf cols row).length = cols.length := length_map ..
  rw [keepSummaryRow, meets, ← hlen, take_left, hb]
  rfl

end

variable (displayOrder) in
omit [Floating F] [DecidableEq F] in
theorem perm_groupRow (groups : List (Row F × List (AggregateState F))) :
    ((groups.map groupRow).insertionSort fun a b => displayOrder a b).Perm (groups.map groupRow) :=
  perm_insertionSort _ _

omit [DecidableEq F] in
/-- The index answers with the rows that meet the condition. -/
theorem filterRows_summary {sorted : List (Row F)}
    (huse : predicateUsesOnlyGroupColumns index.groupColumns p = true)
    (hcmp : ∀ row ∈ rows, comparableOn row p = true) (h : Corresponding index rows groups groups')
    (hsorted : sorted.Perm (groups.map groupRow)) :
    ∃ kept, filterRows (keepSummaryRow index.groupColumns p) sorted = .ok kept ∧
      kept.Perm ((groups.filter (meets index.groupColumns p ·.1)).map groupRow) := by
  have hkey : ∀ g ∈ groups, ∃ row ∈ rows, g.1 = keyOf index.groupColumns row := by
    unfold Corresponding SameGroups at h
    clear hsorted
    induction h with
    | nil => exact nofun
    | cons hg _ ih =>
      intro g hmem
      rcases mem_cons.1 hmem with rfl | hmem
      · exact hg.2.1
      · exact ih g hmem
  let f : Row F → Bool := fun row => meets index.groupColumns p (row.take index.groupColumns.length)
  have hf : ∀ g ∈ groups, f (groupRow g) = meets index.groupColumns p g.1 := by
    intro g hg
    obtain ⟨row, -, hrow⟩ := hkey g hg
    have hlen : g.1.length = index.groupColumns.length := by
      rw [hrow]
      exact length_map ..
    simp only [f, groupRow, ← hlen, take_left]
  refine ⟨sorted.filter f, filterRows_eq fun r hr => ?_, ?_⟩
  · obtain ⟨g, hg, rfl⟩ := mem_map.1 (hsorted.mem_iff.1 hr)
    obtain ⟨row, hrow, hgrow⟩ := hkey g hg
    rw [hf g hg, groupRow, hgrow]
    exact keepSummaryRow_eq huse (hcmp row hrow) _
  · refine (hsorted.filter f).trans (List.Perm.of_eq ?_)
    rw [filter_map]
    exact congrArg _ (filter_congr hf)

omit [Floating F] [DecidableEq F] in
theorem agree_project {l l' : List (Row F)} (h : l.Perm l') :
    Agree List.Perm (l.mapM fun row => (q.project others row).mapError ServerError.projection)
      (l'.mapM (q.project others)) := by
  refine ((Agree.mapM_mapError (q.project others) _ l).trans
    (Agree.mapM_perm (q.project others) h)).mono ?_
  rintro _ _ ⟨_, rfl, h⟩
  exact h

/-- **The rows of the index give what the plan of the query gives.** -/
theorem answer_agrees (hq : answers index q = true) (hrows : ∀ row ∈ rows, Conforms schema row)
    (hs : Supported others index q rows) :
    Agree List.Perm ((buildAggregatingIndexRows displayOrder index rows).bind
      (answerFrom others index q)) (q.run others rows) := by
  obtain ⟨hspec, huse⟩ := Bool.and_eq_true_iff.1 hq
  obtain ⟨hgb, hm⟩ := matches_of_spec hspec
  have hne : q.groupBy ≠ [] := by
    rw [hgb]
    exact fun h => index.grouped (map_eq_nil_iff.1 h)
  have hgroups := (agree_groups hgb hm hs hrows).ok_or_error
  have hbuild : buildAggregatingIndexRows displayOrder index rows = (indexGroups index rows).map
      fun groups => (groups.map groupRow).insertionSort fun a b => displayOrder a b := rfl
  unfold Query.run answerFrom
  cases hpred : q.predicate with
  | none =>
    rcases hgroups with ⟨groups, groups', hi, hp, h⟩ | ⟨e, e', hi, hp⟩
    · simp only [hbuild, hi, hashAggregate_of_groups hne hp h, bind, Except.bind, Except.map]
      exact agree_project (perm_groupRow _ _)
    · simp only [hbuild, hi, hashAggregate_eq hne, hp, bind, Except.bind, Except.map]
      exact .error
  | some p =>
    rw [hpred] at huse
    have hcmp := hs.comparisons p hpred
    obtain ⟨out, hout⟩ := hs.unfiltered (by rw [hpred]; nofun)
    rw [hashAggregate_eq hne] at hout
    rcases hgroups with ⟨groups, groups', hi, hp, h⟩ | ⟨e, e', hi, hp⟩
    · -- the plan has the groups that meet the condition
      have hrowsKept := filterRows_eq fun row hrow =>
        keepRow_eq others huse (hcmp row hrow)
      have hgroupsKept : planGroups others q
          (rows.filter fun row => meets index.groupColumns p (keyOf index.groupColumns row)) =
            .ok (groups'.filter (meets index.groupColumns p ·.1)) := by
        refine groupFold_filter (fun k k' hk => ?_) (fun row hrow => ?_) hp
        · rw [meets, meets, summaryRowMatchesPredicate_congr hk]
        · rw [hgb]
          exact eval_columns_eq others (hrows row hrow) index.inRange
      obtain ⟨kept, hkept, hperm⟩ := filterRows_summary huse hcmp h
        (perm_groupRow displayOrder groups)
      have hfilter : Corresponding index rows _ _ := SameGroups.filter h
        (meets index.groupColumns p)
      simp only [hbuild, hi, Except.map, bind, Except.bind, hkept, hrowsKept,
        hashAggregate_of_groups hne hgroupsKept hfilter]
      exact agree_project hperm
    · rw [hp] at hout
      cases hout

end Groups

end UltraSql.Aggregating
