import UltraSql.Lib.Digits

/-!
# The order of NUMERIC values

A NUMERIC value is an integer and a scale, the number of its decimal places. The comparison of the
executor takes the trailing zeros away, compares the places before the point, and then the digits
from the first one on. There are two copies of it, for expressions and for sorting.

The digits of zero are a single 0, as if it were a digit before its scale. So zero is greater than a
positive value that begins behind the last place of that zero (`zero_above_half`).

**Theorem (`compareDecimals_rational`).** For all other pairs, and only for them, the comparison is
that of the rationals. For all pairs the two copies agree, and values are equal when their hash keys
are.
-/

namespace UltraSql.Decimal

open Digits

/-! ## The executor -/

/-- `Ord::cmp` of integers. -/
def cmpInt (a b : ℤ) : Ordering := if a < b then .lt else if a = b then .eq else .gt

/-- The loop that removes trailing zeros. -/
def strip (value scale : ℤ) : ℤ × ℤ :=
  if value ≠ 0 ∧ value % 10 = 0 then strip (value / 10) (scale - 1) else (value, scale)
termination_by value.natAbs
decreasing_by omega

structure DecimalMagnitude where
  negative : Bool
  digits : List ℕ
  integerDigits : ℤ

/-- `DecimalMagnitude::new` -/
def DecimalMagnitude.new (value scale : ℤ) : DecimalMagnitude :=
  let stripped := strip value.natAbs scale
  let digits := decimal stripped.1.toNat
  { negative := value < 0, digits := digits, integerDigits := digits.length - stripped.2 }

/-- The loop of `cmp_abs`. Past the end of a number there are zeros. -/
def cmpDigits : List ℕ → List ℕ → Ordering
  | [], [] => .eq
  | l :: left, [] => (cmpInt l 0).then (cmpDigits left [])
  | [], r :: right => (cmpInt 0 r).then (cmpDigits [] right)
  | l :: left, r :: right => (cmpInt l r).then (cmpDigits left right)

def DecimalMagnitude.cmpAbs (left right : DecimalMagnitude) : Ordering :=
  (cmpInt left.integerDigits right.integerDigits).then (cmpDigits left.digits right.digits)

/-- The body of both comparisons, which ask for the sign in different ways. -/
def compareSigned (negative : Bool) (a s b t : ℤ) : Ordering :=
  match cmpInt a 0, cmpInt b 0 with
  | .eq, .eq => .eq
  | .eq, .lt | .gt, .lt => .gt
  | .lt, .eq | .lt, .gt => .lt
  | _, _ =>
    let magnitudeOrder := (DecimalMagnitude.new a s).cmpAbs (.new b t)
    if negative then magnitudeOrder.swap else magnitudeOrder

/-- `compare_decimal_values`, for expressions. -/
def compareDecimalValues (a s b t : ℤ) : Ordering :=
  compareSigned (DecimalMagnitude.new a s).negative a s b t

/-- `compare_decimals`, for sorting. -/
def compareDecimals (a s b t : ℤ) : Ordering := compareSigned (a < 0) a s b t

/-- `canonical_decimal_key` -/
def canonicalDecimalKey (value scale : ℤ) : ℤ × ℤ :=
  if value = 0 then (0, 0) else strip value scale

/-- `decimal_values_equal` -/
def decimalValuesEqual (a s b t : ℤ) : Bool := canonicalDecimalKey a s = canonicalDecimalKey b t

/-! ## Trailing zeros -/

variable {a b s t v : ℤ}

/-- The number that a value and a scale stand for. -/
def toRat (value scale : ℤ) : ℚ := value * 10 ^ (-scale)

theorem strip_spec (hv : v ≠ 0) : toRat (strip v s).1 (strip v s).2 = toRat v s ∧
    (strip v s).1 % 10 ≠ 0 ∧ (0 < (strip v s).1 ↔ 0 < v) := by
  induction v, s using strip.induct with
  | case1 v s h ih =>
    obtain ⟨h₁, h₂, h₃⟩ := ih (by omega)
    rw [strip, if_pos h, h₁]
    refine ⟨?_, h₂, h₃.trans (by omega)⟩
    have hten : v = 10 * (v / 10) := by omega
    have hcast : (v : ℚ) = 10 * (v / 10 : ℤ) := by exact_mod_cast hten
    rw [toRat, toRat, hcast, neg_sub, sub_eq_add_neg, zpow_add₀ (by norm_num), zpow_one]
    ring
  | case2 v s h =>
    rw [strip, if_neg h]
    exact ⟨rfl, fun h₀ => h ⟨hv, h₀⟩, Iff.rfl⟩

/-- Without trailing zeros a number is written in one way only. -/
theorem toRat_inj (ha : a % 10 ≠ 0) (hb : b % 10 ≠ 0) (h : toRat a s = toRat b t) :
    a = b ∧ s = t := by
  wlog hst : s ≤ t generalizing a b s t
  · obtain ⟨h₁, h₂⟩ := this hb ha h.symm (le_of_not_ge hst)
    exact ⟨h₁.symm, h₂.symm⟩
  · obtain ⟨n, rfl⟩ := Int.le.dest hst
    have hpos : (10 : ℚ) ^ (-s - (n : ℤ)) ≠ 0 := zpow_ne_zero _ (by norm_num)
    have hb' : b = a * 10 ^ n := by
      have hsplit : (10 : ℚ) ^ (-s) = 10 ^ n * 10 ^ (-s - (n : ℤ)) := by
        rw [← zpow_natCast, ← zpow_add₀ (by norm_num)]
        congr 1
        ring
      rw [toRat, toRat, neg_add, ← sub_eq_add_neg, hsplit, ← mul_assoc] at h
      exact_mod_cast (mul_right_cancel₀ hpos h).symm
    cases n with
    | zero => exact ⟨by rw [hb', pow_zero, mul_one], by simp⟩
    | succ n =>
      refine absurd ?_ hb
      rw [hb', pow_succ, ← mul_assoc]
      exact Int.mul_emod_left _ _

/-! ## Digits -/

/-- How an ordering says what two numbers are to each other. -/
structure Orders (o : Ordering) (x y : ℚ) : Prop where
  lt : o = .lt ↔ x < y
  eq : o = .eq ↔ x = y
  gt : o = .gt ↔ y < x

variable {x y : ℚ}

theorem Orders.of_lt (h : x < y) : Orders .lt x y :=
  ⟨by simp [h], by simp [h.ne], by simp [h.le]⟩

theorem Orders.of_gt (h : y < x) : Orders .gt x y :=
  ⟨by simp [h.le], by simp [h.ne'], by simp [h]⟩

theorem Orders.of_eq (h : x = y) : Orders .eq x y := by
  subst h
  exact ⟨by simp, by simp, by simp⟩

variable {o : Ordering}

theorem Orders.swap (h : Orders o x y) : Orders o.swap (-x) (-y) := by
  obtain ⟨h₁, h₂, h₃⟩ := h
  refine ⟨?_, ?_, ?_⟩
  · rw [neg_lt_neg_iff, ← h₃]
    cases o <;> simp
  · rw [neg_inj, ← h₂]
    cases o <;> simp
  · rw [neg_lt_neg_iff, ← h₁]
    cases o <;> simp

/-- Compare first by one measure and then, if it is equal, by another one. -/
theorem orders_then {k l : ℤ} (hlt : k < l → x < y) (hgt : l < k → y < x)
    (heq : k = l → Orders o x y) : Orders ((cmpInt k l).then o) x y := by
  unfold cmpInt
  split_ifs with h h'
  · exact .of_lt (hlt h)
  · exact heq h'
  · exact .of_gt (hgt (by omega))

/-- The number that begins with the digits behind the point. -/
def frac (ds : List ℕ) : ℚ := number 10 ds / 10 ^ ds.length

theorem frac_cons (d : ℕ) (ds : List ℕ) : frac (d :: ds) = (d + frac ds) / 10 := by
  rw [frac, frac, number_cons, List.length_cons, pow_succ]
  push_cast
  field_simp

theorem frac_bounds {ds : List ℕ} (h : ∀ d ∈ ds, d < 10) : 0 ≤ frac ds ∧ frac ds < 1 := by
  have hlt : (number 10 ds : ℚ) < 10 ^ ds.length := by exact_mod_cast number_lt h
  have hpos : (0 : ℚ) < 10 ^ ds.length := by positivity
  exact ⟨div_nonneg (Nat.cast_nonneg _) hpos.le, (div_lt_one hpos).2 hlt⟩

theorem orders_cmpDigits {left right : List ℕ} (hl : ∀ d ∈ left, d < 10)
    (hr : ∀ d ∈ right, d < 10) : Orders (cmpDigits left right) (frac left) (frac right) := by
  -- a missing digit is a zero
  have hstep : ∀ {l r : ℕ} {o x y}, 0 ≤ x ∧ x < 1 → 0 ≤ y ∧ y < 1 → Orders o x y →
      Orders ((cmpInt l r).then o) ((l + x) / 10) ((r + y) / 10) := by
    intro l r o x y hx hy ho
    refine orders_then (fun h => ?_) (fun h => ?_) fun h => ?_
    · have : (l : ℚ) + 1 ≤ r := by exact_mod_cast h
      linarith
    · have : (r : ℚ) + 1 ≤ l := by exact_mod_cast h
      linarith
    · obtain rfl : l = r := by exact_mod_cast h
      refine ⟨ho.lt.trans ?_, ho.eq.trans ?_, ho.gt.trans ?_⟩
      · constructor <;> intro <;> linarith
      · constructor <;> intro <;> linarith
      · constructor <;> intro <;> linarith
  have hnil : frac [] = ((0 : ℕ) + frac []) / 10 := by simp [frac]
  induction left, right using cmpDigits.induct with
  | case1 =>
    rw [cmpDigits]
    exact .of_eq rfl
  | case2 l left ih =>
    have hl' := fun d hd => hl d (List.mem_cons_of_mem _ hd)
    rw [cmpDigits, frac_cons, hnil]
    exact hstep (frac_bounds hl') (frac_bounds hr) (ih hl' hr)
  | case3 r right ih =>
    have hr' := fun d hd => hr d (List.mem_cons_of_mem _ hd)
    rw [cmpDigits, frac_cons, hnil]
    exact hstep (frac_bounds hl) (frac_bounds hr') (ih hl hr')
  | case4 l left r right ih =>
    have hl' := fun d hd => hl d (List.mem_cons_of_mem _ hd)
    have hr' := fun d hd => hr d (List.mem_cons_of_mem _ hd)
    rw [cmpDigits, frac_cons, frac_cons]
    exact hstep (frac_bounds hl') (frac_bounds hr') (ih hl' hr')

/-! ## Magnitudes -/

/-- The digits stand for a number. -/
structure Stands (m : DecimalMagnitude) (x : ℚ) : Prop where
  digit : ∀ d ∈ m.digits, d < 10
  value : x = frac m.digits * 10 ^ m.integerDigits

variable {m n : DecimalMagnitude}

theorem Stands.lt (h : Stands m x) : x < 10 ^ m.integerDigits := by
  rw [h.value]
  exact mul_lt_of_lt_one_left (zpow_pos (by norm_num) _) (frac_bounds h.digit).2

theorem stands_new (v s : ℤ) : Stands (.new v s) (toRat v.natAbs s) ∧
    (v ≠ 0 → 10 ^ ((DecimalMagnitude.new v s).integerDigits - 1) ≤ toRat v.natAbs s) := by
  obtain ⟨m, hm⟩ : ∃ m, m = strip v.natAbs s := ⟨_, rfl⟩
  have hnew : DecimalMagnitude.new v s =
      ⟨v < 0, decimal m.1.toNat, (decimal m.1.toNat).length - m.2⟩ := by
    rw [DecimalMagnitude.new, hm]
  have hspec : toRat m.1 m.2 = toRat v.natAbs s ∧ 0 ≤ m.1 ∧ (v ≠ 0 → m.1 ≠ 0) := by
    by_cases hv : v = 0
    · rw [hm, hv, strip]
      simp
    · obtain ⟨h₁, h₂, h₃⟩ := strip_spec (s := s) (v := v.natAbs) (by omega)
      rw [← hm] at h₁ h₂ h₃
      have := h₃.2 (by omega)
      exact ⟨h₁, this.le, fun _ => this.ne'⟩
  obtain ⟨hval, hpos, hne⟩ := hspec
  have hnum : (number 10 (decimal m.1.toNat) : ℚ) = m.1 := by
    rw [number_decimal]
    exact_mod_cast Int.toNat_of_nonneg hpos
  have hfrac : toRat m.1 m.2 =
      frac (decimal m.1.toNat) * 10 ^ ((decimal m.1.toNat).length - m.2) := by
    rw [toRat, frac, hnum, sub_eq_add_neg, zpow_add₀ (by norm_num), zpow_natCast]
    field_simp
  rw [hnew, ← hval]
  refine ⟨⟨fun d hd => lt_of_mem_decimal hd, hfrac⟩, fun hv => ?_⟩
  have hle := pow_length_decimal_le (n := m.1.toNat) (by have := hne hv; omega)
  have hle' : (10 : ℚ) ^ (decimal m.1.toNat).length ≤ 10 * m.1 := by
    rw [← hnum, number_decimal]
    exact_mod_cast hle
  rw [toRat, sub_right_comm, sub_eq_add_neg, zpow_add₀ (by norm_num), zpow_sub_one₀ (by norm_num),
    zpow_natCast]
  refine mul_le_mul_of_nonneg_right ?_ (zpow_pos (by norm_num) _).le
  linarith

/-- **The comparison of magnitudes**, unless one of them is zero and written with more places before
the point than the other. -/
theorem orders_cmpAbs (hm : Stands m x) (hn : Stands n y)
    (hlt : m.integerDigits < n.integerDigits → 10 ^ m.integerDigits ≤ y)
    (hgt : n.integerDigits < m.integerDigits → 10 ^ n.integerDigits ≤ x) :
    Orders (m.cmpAbs n) x y := by
  refine orders_then (fun h => hm.lt.trans_le (hlt h)) (fun h => hn.lt.trans_le (hgt h)) fun h => ?_
  have ho := orders_cmpDigits hm.digit hn.digit
  have hpos : (0 : ℚ) < 10 ^ n.integerDigits := zpow_pos (by norm_num) _
  rw [hm.value, hn.value, h]
  exact ⟨ho.lt.trans (mul_lt_mul_iff_left₀ hpos).symm, ho.eq.trans (mul_left_inj' hpos.ne').symm,
    ho.gt.trans (mul_lt_mul_iff_left₀ hpos).symm⟩

/-! ## The order -/

theorem toRat_pos_iff : 0 < toRat v s ↔ 0 < v := by
  rw [toRat, mul_pos_iff_of_pos_right (zpow_pos (by norm_num) _)]
  exact_mod_cast Iff.rfl

theorem toRat_neg_iff : toRat v s < 0 ↔ v < 0 := by
  rw [← not_le, ← not_le, not_iff_not, toRat,
    mul_nonneg_iff_of_pos_right (zpow_pos (by norm_num) _)]
  exact_mod_cast Iff.rfl

theorem toRat_eq_zero_iff : toRat v s = 0 ↔ v = 0 := by
  rw [toRat, mul_eq_zero_iff_right (zpow_pos (by norm_num) _).ne']
  exact_mod_cast Iff.rfl

theorem toRat_natAbs : toRat v.natAbs s = if v < 0 then -toRat v s else toRat v s := by
  split_ifs with h
  · rw [toRat, toRat, ← neg_mul]
    congr 1
    rw [← Int.cast_neg]
    exact_mod_cast (by omega : (v.natAbs : ℤ) = -v)
  · rw [toRat, toRat]
    congr 1
    exact_mod_cast (by omega : (v.natAbs : ℤ) = v)

/-- **Equal keys are equal numbers.** -/
theorem decimalValuesEqual_iff : decimalValuesEqual a s b t = true ↔ toRat a s = toRat b t := by
  have hzero : ∀ {v s}, v ≠ 0 → canonicalDecimalKey v s = strip v s ∧ (strip v s).1 ≠ 0 := by
    intro v s hv
    obtain ⟨-, h, -⟩ := strip_spec (s := s) hv
    exact ⟨if_neg hv, fun h₀ => h (by rw [h₀]; rfl)⟩
  rw [decimalValuesEqual, decide_eq_true_eq]
  by_cases ha : a = 0 <;> by_cases hb : b = 0
  · simp [ha, hb, canonicalDecimalKey, toRat]
  · obtain ⟨hkey, hne⟩ := hzero (s := t) hb
    have h₀ : toRat a s = 0 := toRat_eq_zero_iff.2 ha
    rw [hkey, canonicalDecimalKey, if_pos ha, h₀, eq_comm (a := (0 : ℚ)), toRat_eq_zero_iff]
    exact ⟨fun h => absurd (congrArg Prod.fst h).symm hne, fun h => absurd h hb⟩
  · obtain ⟨hkey, hne⟩ := hzero (s := s) ha
    have h₀ : toRat b t = 0 := toRat_eq_zero_iff.2 hb
    rw [hkey, canonicalDecimalKey, if_pos hb, h₀, toRat_eq_zero_iff]
    exact ⟨fun h => absurd (congrArg Prod.fst h) hne, fun h => absurd h ha⟩
  · obtain ⟨ha₁, ha₂, -⟩ := strip_spec (s := s) ha
    obtain ⟨hb₁, hb₂, -⟩ := strip_spec (s := t) hb
    rw [(hzero ha).1, (hzero hb).1, ← ha₁, ← hb₁]
    refine ⟨fun h => by rw [h], fun h => ?_⟩
    obtain ⟨h₁, h₂⟩ := toRat_inj ha₂ hb₂ h
    exact Prod.ext h₁ h₂

theorem toRat_natCast (a : ℤ) (s : ℕ) : toRat a s = a / 10 ^ s := by
  rw [toRat, zpow_neg, zpow_natCast, div_eq_mul_inv]

/-- Zero is not compared with a positive value that begins behind its last place. -/
def ZeroIsBelow (a : ℤ) (s : ℕ) (b : ℤ) (t : ℕ) : Prop := a = 0 → 0 < b → 10 ^ t ≤ b * 10 ^ s

instance (a : ℤ) (s : ℕ) (b : ℤ) (t : ℕ) : Decidable (ZeroIsBelow a s b t) :=
  inferInstanceAs (Decidable (_ → _ → _))

variable {s t : ℕ}

theorem pow_le_toRat_iff : (10 : ℚ) ^ (-(s : ℤ)) ≤ toRat b t ↔ 10 ^ t ≤ b * 10 ^ s := by
  rw [toRat, zpow_neg, zpow_neg, zpow_natCast, zpow_natCast, ← div_eq_mul_inv, ← one_div,
    div_le_div_iff₀ (by positivity) (by positivity), one_mul]
  exact_mod_cast Iff.rfl

/-- Zero does not have more places before the point. -/
theorem zeroIsBelow_iff (ha : a = 0) (hb : 0 < b) : ZeroIsBelow a s b t ↔
    (DecimalMagnitude.new a s).integerDigits ≤ (DecimalMagnitude.new b t).integerDigits := by
  have hzero : (DecimalMagnitude.new a s).integerDigits = 1 - s := by
    rw [ha, DecimalMagnitude.new, strip]
    rfl
  obtain ⟨hstands, hfirst⟩ := stands_new b t
  have hlt := hstands.lt
  have hle := hfirst hb.ne'
  rw [toRat_natAbs, if_neg hb.not_gt] at hlt hle
  rw [ZeroIsBelow, imp_iff_right ha, imp_iff_right hb, ← pow_le_toRat_iff, hzero]
  constructor
  · intro h
    have := (zpow_lt_zpow_iff_right₀ (by norm_num)).1 (h.trans_lt hlt)
    omega
  · exact fun h => (zpow_le_zpow_right₀ (by norm_num) (by omega)).trans hle

/-- The comparison of the magnitudes of two values of one sign. -/
theorem orders_new (hab : a ≠ 0 ∨ b ≠ 0) (h₁ : ZeroIsBelow a s b t) (h₂ : ZeroIsBelow b t a s)
    (hsign : 0 ≤ a ∧ 0 ≤ b ∨ a < 0 ∧ b < 0) :
    Orders ((DecimalMagnitude.new a s).cmpAbs (.new b t)) (toRat a.natAbs s)
      (toRat b.natAbs t) := by
  obtain ⟨ha, hale⟩ := stands_new a s
  obtain ⟨hb, hble⟩ := stands_new b t
  have habove : ∀ {k l : ℤ} {x : ℚ}, k < l → (10 : ℚ) ^ (l - 1) ≤ x → 10 ^ k ≤ x :=
    fun h hx => (zpow_le_zpow_right₀ (by norm_num) (by omega)).trans hx
  refine orders_cmpAbs ha hb (fun h => habove h (hble fun hb₀ => ?_)) fun h =>
    habove h (hale fun ha₀ => ?_)
  · exact absurd ((zeroIsBelow_iff hb₀ (by omega)).1 h₂) h.not_ge
  · exact absurd ((zeroIsBelow_iff ha₀ (by omega)).1 h₁) h.not_ge

/-- Values that are not negative, and not both zero, are compared by their magnitudes. -/
theorem compareDecimals_of_nonneg (ha : 0 ≤ a) (hb : 0 ≤ b) (hab : a ≠ 0 ∨ b ≠ 0) :
    compareDecimals a s b t = (DecimalMagnitude.new a s).cmpAbs (.new b t) := by
  have hgt : ∀ {v : ℤ}, 0 < v → cmpInt v 0 = .gt := fun h =>
    (if_neg h.not_gt).trans (if_neg h.ne')
  have heq : cmpInt 0 0 = .eq := rfl
  unfold compareDecimals compareSigned
  rcases ha.eq_or_lt with rfl | ha <;> rcases hb.eq_or_lt with rfl | hb
  · simp at hab
  · simp [heq, hgt hb]
  · simp [heq, hgt ha, ha.not_gt]
  · simp [hgt ha, hgt hb, ha.not_gt]

theorem compareDecimals_of_neg (h : a < 0 ∨ b < 0) : compareDecimals a s b t =
    if 0 ≤ b then .lt else if 0 ≤ a then .gt
    else ((DecimalMagnitude.new a s).cmpAbs (.new b t)).swap := by
  have hlt : ∀ {v : ℤ}, ¬ 0 ≤ v → cmpInt v 0 = .lt := fun h => if_pos (not_le.1 h)
  have hge : ∀ {v : ℤ}, 0 ≤ v → cmpInt v 0 = .eq ∨ cmpInt v 0 = .gt := fun {v} h => by
    unfold cmpInt
    split_ifs
    · omega
    · exact .inl rfl
    · exact .inr rfl
  unfold compareDecimals compareSigned
  by_cases ha : 0 ≤ a
  · have hb : ¬ 0 ≤ b := by omega
    rcases hge ha with h | h <;> simp [h, hlt hb, ha, hb]
  · by_cases hb : 0 ≤ b
    · rcases hge hb with h | h <;> simp [h, hlt ha, hb]
    · simp [hlt ha, hlt hb, ha, hb, not_le.1 ha]

theorem orders_compareDecimals (h₁ : ZeroIsBelow a s b t) (h₂ : ZeroIsBelow b t a s) :
    Orders (compareDecimals a s b t) (toRat a s) (toRat b t) := by
  by_cases hneg : a < 0 ∨ b < 0
  · rw [compareDecimals_of_neg hneg]
    split_ifs with hb ha
    · have hlt : a < 0 := hneg.resolve_right hb.not_gt
      exact .of_lt ((toRat_neg_iff.2 hlt).trans_le (not_lt.1 (toRat_neg_iff.not.2 hb.not_gt)))
    · exact .of_gt ((toRat_neg_iff.2 (not_le.1 hb)).trans_le
        (not_lt.1 (toRat_neg_iff.not.2 ha.not_gt)))
    · have h := (orders_new (.inl (not_le.1 ha).ne) h₁ h₂ (.inr ⟨not_le.1 ha, not_le.1 hb⟩)).swap
      rw [toRat_natAbs, toRat_natAbs, if_pos (not_le.1 ha), if_pos (not_le.1 hb), neg_neg,
        neg_neg] at h
      exact h
  · obtain ⟨ha, hb⟩ := not_or.1 hneg
    by_cases hab : a = 0 ∧ b = 0
    · obtain ⟨rfl, rfl⟩ := hab
      exact .of_eq ((toRat_eq_zero_iff.2 rfl).trans (toRat_eq_zero_iff.2 rfl).symm)
    · have hab := not_and_or.1 hab
      have h := orders_new hab h₁ h₂ (.inl ⟨not_lt.1 ha, not_lt.1 hb⟩)
      rw [toRat_natAbs, toRat_natAbs, if_neg ha, if_neg hb] at h
      rw [compareDecimals_of_nonneg (not_lt.1 ha) (not_lt.1 hb) hab]
      exact h

/-- Zero is found greater than a positive value that begins behind its last place. -/
theorem compareDecimals_zero (hb : 0 < b) (h : ¬ ZeroIsBelow 0 s b t) :
    compareDecimals 0 s b t = .gt ∧ compareDecimals b t 0 s = .lt := by
  rw [zeroIsBelow_iff rfl hb, not_le] at h
  rw [compareDecimals_of_nonneg le_rfl hb.le (.inr hb.ne'),
    compareDecimals_of_nonneg hb.le le_rfl (.inl hb.ne'), DecimalMagnitude.cmpAbs,
    DecimalMagnitude.cmpAbs, cmpInt, cmpInt, if_neg h.not_gt, if_neg h.ne', if_pos h]
  exact ⟨rfl, rfl⟩

theorem orders_compareDecimals_iff : Orders (compareDecimals a s b t) (toRat a s) (toRat b t) ↔
    ZeroIsBelow a s b t ∧ ZeroIsBelow b t a s := by
  refine ⟨fun h => ⟨fun ha hb => ?_, fun hb ha => ?_⟩, fun h => orders_compareDecimals h.1 h.2⟩
  · subst ha
    by_contra hle
    have hlt := h.gt.1 (compareDecimals_zero hb fun h => hle (h rfl hb)).1
    exact hlt.not_gt ((toRat_eq_zero_iff.2 rfl).trans_lt (toRat_pos_iff.2 hb))
  · subst hb
    by_contra hle
    have hlt := h.lt.1 (compareDecimals_zero ha fun h => hle (h rfl ha)).2
    exact hlt.not_gt ((toRat_eq_zero_iff.2 rfl).trans_lt (toRat_pos_iff.2 ha))

theorem compareDecimals_eq_iff :
    compareDecimals a s b t = .eq ↔ decimalValuesEqual a s b t = true := by
  rw [decimalValuesEqual_iff]
  by_cases h₁ : ZeroIsBelow a s b t
  · by_cases h₂ : ZeroIsBelow b t a s
    · exact (orders_compareDecimals h₁ h₂).eq
    · obtain ⟨rfl, ha, -⟩ : b = 0 ∧ 0 < a ∧ a * 10 ^ t < 10 ^ s := by
        simpa [ZeroIsBelow] using h₂
      rw [(compareDecimals_zero ha h₂).2]
      refine iff_of_false nofun fun h => ?_
      exact (toRat_pos_iff.2 ha).ne' (h.trans (toRat_eq_zero_iff.2 rfl))
  · obtain ⟨rfl, hb, -⟩ : a = 0 ∧ 0 < b ∧ b * 10 ^ s < 10 ^ t := by
      simpa [ZeroIsBelow] using h₁
    rw [(compareDecimals_zero hb h₁).1]
    refine iff_of_false nofun fun h => ?_
    exact (toRat_pos_iff.2 hb).ne' (h.symm.trans (toRat_eq_zero_iff.2 rfl))

/-- **The order of NUMERIC values is that of the rationals**, unless zero is compared with a
positive value that begins behind its last place. -/
theorem compareDecimals_rational (a b : ℤ) (s t : ℕ) :
    compareDecimalValues a s b t = compareDecimals a s b t ∧
      (compareDecimals a s b t = .eq ↔ decimalValuesEqual a s b t = true) ∧
      (Orders (compareDecimals a s b t) (a / 10 ^ s) (b / 10 ^ t) ↔
        ZeroIsBelow a s b t ∧ ZeroIsBelow b t a s) := by
  refine ⟨rfl, compareDecimals_eq_iff, ?_⟩
  rw [← toRat_natCast, ← toRat_natCast]
  exact orders_compareDecimals_iff

/-- Minus one and a half against two, and zero with two places against a hundredth. -/
theorem compare_fractions : Orders (compareDecimals (-15) 1 2 0) (-15 / 10) (2 / 1) ∧
    Orders (compareDecimals 0 2 1 2) 0 (1 / 100) := by
  have h₁ := (compareDecimals_rational (-15) 2 1 0).2.2.2 (by decide)
  have h₂ := (compareDecimals_rational 0 1 2 2).2.2.2 (by decide)
  constructor
  · norm_num at h₁ ⊢
    exact h₁
  · norm_num at h₂ ⊢
    exact h₂

/-- **Zero is greater than a half.** -/
theorem zero_above_half : compareDecimals 0 0 5 1 = .gt ∧ (0 : ℚ) / 10 ^ 0 < 5 / 10 ^ 1 := by
  constructor
  · simp [compareDecimals, compareSigned, cmpInt, DecimalMagnitude.new, DecimalMagnitude.cmpAbs,
      strip, decimal, Ordering.then]
  · norm_num

end UltraSql.Decimal
