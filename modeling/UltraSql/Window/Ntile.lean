import Mathlib

/-!
# NTILE

`WindowAgg` numbers the buckets of a partition by a scaled division, `pos * buckets / n + 1`. SQL
asks for the larger buckets first. With `r = n % b` larger buckets of `b` the division spreads them
out, so the two agree only if `r` is `0`, `1` or `b - 1`. If there are more buckets than rows, `r`
is the number of rows, and numbers are skipped.

**Theorem (`ntile_even_iff`).** The buckets of a partition are as SQL says exactly if `r` is one of
the three and the largest product, `(n - 1) * b`, fits in 64 bits.

**Theorem (`larger_buckets_apart`).** Ten rows in four buckets, and three rows in five.
-/

namespace UltraSql.Ntile

open List Function

/-! ## The operator -/

def i64FromUsizeClamped (v : ℕ) : ℤ := min v (2 ^ 63 - 1)

/-- The numbers along an ordered partition of `n` rows. The product is one of `usize`. -/
def ntileValues (bucketCount n : ℕ) : List ℤ :=
  (range n).map fun pos => i64FromUsizeClamped
    (if bucketCount = 0 then 1 else pos * bucketCount % 2 ^ 64 / n + 1)

/-- The numbers go to the rows by their places in the input. -/
def scatter (windowValues : ℕ → Option ℤ) (sortedIndices : List ℕ) (values : List ℤ) :
    ℕ → Option ℤ :=
  (sortedIndices.zip values).foldl (fun out p => update out p.1 (some p.2)) windowValues

/-- The window values, for the ordered partitions of the input. -/
def execute (bucketCount : ℕ) (partitions : List (List ℕ)) : ℕ → Option ℤ :=
  partitions.foldl (fun out sorted => scatter out sorted (ntileValues bucketCount sorted.length))
    fun _ => none

/-! ## The definition of SQL -/

/-- `values` are the bucket numbers of a partition that is divided into `b` buckets. -/
structure Even (b : ℕ) (values : List ℤ) : Prop where
  sorted : values.Pairwise (· ≤ ·)
  used : ∀ j, j ∈ values ↔ 1 ≤ j ∧ j ≤ min b values.length
  size : ∀ j : ℕ, 1 ≤ j → j ≤ b →
    values.count (j : ℤ) = values.length / b + if j ≤ values.length % b then 1 else 0

/-- The first row of the bucket `j`, counted from zero. -/
def start (b n j : ℕ) : ℕ := j * (n / b) + min j (n % b)

/-- The larger buckets come first in the scaled division. -/
def Regular (b n : ℕ) : Prop := n % b ≤ 1 ∨ n % b = b - 1

variable {b n j pos r : ℕ}

theorem min_mul_bounds (hr : r < b) (h : r ≤ 1 ∨ r = b - 1) (hj : j ≤ b) :
    j * r ≤ min j r * b ∧ min j r * b < j * r + b := by
  constructor
  · rcases le_total j r with hle | hle
    · rw [min_eq_left hle]
      exact Nat.mul_le_mul_left j hr.le
    · rw [min_eq_right hle, Nat.mul_comm]
      exact Nat.mul_le_mul_left r hj
  · rcases h with h | h
    · have hmin : min j r ≤ j * r := by
        rcases Nat.le_one_iff_eq_zero_or_eq_one.1 h with rfl | rfl <;> simp
      have hone : min j r ≤ 1 := (min_le_right j r).trans h
      rcases Nat.le_one_iff_eq_zero_or_eq_one.1 hone with he | he <;> rw [he] at hmin ⊢ <;> omega
    · obtain rfl : b = r + 1 := by omega
      rcases le_total j r with hle | hle
      · rw [min_eq_left hle, Nat.mul_succ]
        omega
      · have := Nat.mul_le_mul_right r hle
        rw [min_eq_right hle, Nat.mul_succ]
        omega

theorem bucket_lt_iff (h : Regular b n) (hj : j ≤ b) (hpos : pos < n) (hb : 0 < b) :
    pos * b / n < j ↔ pos < start b n j := by
  obtain ⟨hlow, hhigh⟩ := min_mul_bounds (Nat.mod_lt n hb) h hj
  have heq : j * n = j * (n / b) * b + j * (n % b) := by
    rw [Nat.mul_assoc, ← Nat.mul_add, Nat.div_add_mod']
  rw [Nat.div_lt_iff_lt_mul (Nat.zero_lt_of_lt hpos), heq, start]
  generalize j * (n / b) = q at *
  constructor
  · intro hlt
    by_contra hge
    have := Nat.mul_le_mul_right b (not_lt.1 hge)
    rw [Nat.add_mul] at this
    omega
  · intro hlt
    have := Nat.mul_le_mul_right b hlt
    rw [Nat.add_mul, Nat.succ_mul] at this
    omega

theorem start_mono {i : ℕ} (h : i ≤ j) : start b n i ≤ start b n j :=
  Nat.add_le_add (Nat.mul_le_mul_right _ h) (min_le_min_right _ h)

theorem start_succ : start b n (j + 1) - start b n j = n / b + if j + 1 ≤ n % b then 1 else 0 := by
  rw [start, start, Nat.succ_mul]
  generalize n / b = q, n % b = r
  generalize j * q = s
  split_ifs <;> omega

/-- How many rows get the bucket `j`, counted from zero. -/
theorem count_bucket (h : Regular b n) (hj : j < b) :
    Nat.count (fun pos => pos * b / n = j) n = n / b + if j + 1 ≤ n % b then 1 else 0 := by
  have hb : 0 < b := Nat.zero_lt_of_lt hj
  have hend : start b n (j + 1) ≤ n := (start_mono hj).trans_eq (by
    rw [start, min_eq_right (Nat.mod_lt n hb).le, Nat.div_add_mod])
  rw [← start_succ, ← Nat.card_Ico, Nat.count_eq_card_filter_range]
  congr 1
  ext pos
  rw [Finset.mem_filter, Finset.mem_range, Finset.mem_Ico]
  refine ⟨fun ⟨hpos, heq⟩ => ?_, fun ⟨hge, hlt⟩ => ?_⟩
  · have h₁ := bucket_lt_iff h hj.le hpos hb
    have h₂ := bucket_lt_iff (j := j + 1) h hj hpos hb
    omega
  · have hpos := hlt.trans_le hend
    have h₁ := bucket_lt_iff h hj.le hpos hb
    have h₂ := bucket_lt_iff (j := j + 1) h hj hpos hb
    omega

/-! ## Partitions -/

theorem bucket_lt (hb : 0 < b) (hpos : pos < n) : pos * b / n < b :=
  Nat.div_lt_of_lt_mul (Nat.mul_lt_mul_of_pos_right hpos hb)

/-- The numbers neither wrap nor reach the largest `i64`. -/
structure Fits (b n : ℕ) : Prop where
  product : (n - 1) * b < 2 ^ 64
  number : ∀ pos < n, pos * b / n + 1 < 2 ^ 63

/-- Then they are those of the scaled division. -/
theorem ntileValues_eq (hb : 0 < b) (hfit : Fits b n) :
    ntileValues b n = (range n).map fun pos => ((pos * b / n + 1 : ℕ) : ℤ) := by
  refine map_congr_left fun pos hpos => ?_
  have hpos := mem_range.1 hpos
  have hle : pos * b ≤ (n - 1) * b := Nat.mul_le_mul_right b (by omega)
  have hnumber := hfit.number pos hpos
  rw [if_neg hb.ne', Nat.mod_eq_of_lt (hle.trans_lt hfit.product), i64FromUsizeClamped]
  exact min_eq_left (by omega)

@[simp] theorem length_ntileValues : (ntileValues b n).length = n := by simp [ntileValues]

theorem count_ntileValues (hb : 0 < b) (hfit : Fits b n) (j : ℕ) :
    (ntileValues b n).count ((j + 1 : ℕ) : ℤ) = Nat.count (fun pos => pos * b / n = j) n := by
  rw [ntileValues_eq hb hfit, count_eq_countP, countP_map, Nat.count]
  refine countP_congr fun pos _ => ?_
  rw [comp_apply, beq_iff_eq, decide_eq_true_iff, Nat.cast_inj, Nat.succ_inj]

theorem even_ntileValues (hb : 0 < b) (hfit : Fits b n) (h : Regular b n) :
    Even b (ntileValues b n) := by
  have hcount : ∀ j : ℕ, 1 ≤ j → j ≤ b → (ntileValues b n).count (j : ℤ) =
      n / b + if j ≤ n % b then 1 else 0 := by
    intro j h1 hj
    obtain ⟨i, rfl⟩ := Nat.exists_eq_add_of_le' h1
    rw [count_ntileValues hb hfit, count_bucket h hj]
  have hpos : ∀ i : ℕ, 1 ≤ i → i ≤ b → ((i : ℤ) ∈ ntileValues b n ↔ i ≤ n) := by
    intro i h1 hi
    rw [← count_pos_iff, hcount i h1 hi]
    rcases Nat.lt_or_ge n b with hlt | hge
    · rw [Nat.div_eq_of_lt hlt, Nat.mod_eq_of_lt hlt]
      split_ifs <;> omega
    · have := Nat.div_pos hge hb
      omega
  refine ⟨?_, fun j => ?_, by rwa [length_ntileValues]⟩
  · rw [ntileValues_eq hb hfit, pairwise_map]
    refine pairwise_lt_range.imp fun {i k} hik => ?_
    exact_mod_cast Nat.succ_le_succ (Nat.div_le_div_right (Nat.mul_le_mul_right b hik.le))
  · rw [length_ntileValues]
    constructor
    · intro hmem
      have hj : ∃ i : ℕ, j = i ∧ 1 ≤ i ∧ i ≤ b := by
        rw [ntileValues_eq hb hfit] at hmem
        obtain ⟨pos, hpos, rfl⟩ := mem_map.1 hmem
        exact ⟨_, rfl, Nat.le_add_left 1 _, bucket_lt hb (mem_range.1 hpos)⟩
      obtain ⟨i, rfl, h1, hi⟩ := hj
      have := (hpos i h1 hi).1 hmem
      omega
    · rintro ⟨h1, hj⟩
      obtain ⟨i, rfl⟩ := Int.eq_ofNat_of_zero_le (by omega : 0 ≤ j)
      exact (hpos i (by omega) (by omega)).2 (by omega)

/-! ## Even buckets -/

/-- The number of rows in the first buckets. -/
theorem count_lt_succ (f : ℕ → ℕ) (j n : ℕ) :
    Nat.count (f · < j + 1) n = Nat.count (f · < j) n + Nat.count (f · = j) n := by
  induction n with
  | zero => rfl
  | succ n ih =>
    rw [Nat.count_succ, Nat.count_succ, Nat.count_succ, ih]
    split_ifs <;> omega

/-- **The larger buckets come first only if the numbers are regular.** The last row of the last one
of them would get a number that is too large. -/
theorem regular_of_even (hb : 0 < b) (hfit : Fits b n) (h : Even b (ntileValues b n)) :
    Regular b n := by
  by_contra hreg
  obtain ⟨hr₁, hr₂⟩ := not_or.1 hreg
  have hr := Nat.mod_lt n hb
  have hsum : ∀ j ≤ n % b, Nat.count (fun pos => pos * b / n < j) n = j * (n / b + 1) := by
    intro j
    induction j with
    | zero => exact fun _ => by simp [Nat.count_eq_card_filter_range]
    | succ j ih =>
      intro hj
      have hsize := h.size (j + 1) (by omega) (by omega)
      rw [length_ntileValues, if_pos hj, count_ntileValues hb hfit] at hsize
      rw [count_lt_succ, ih (by omega), hsize]
      ring
  -- the last row of the last larger bucket
  obtain ⟨pos, hpos⟩ : ∃ pos, pos + 1 = n % b * (n / b + 1) :=
    ⟨n % b * (n / b + 1) - 1, Nat.sub_add_cancel (Nat.mul_pos (by omega) (Nat.succ_pos _))⟩
  have hlt : pos * b / n < n % b := by
    by_contra hge
    have hsub : (Finset.range n).filter (fun i => i * b / n < n % b) ⊆ Finset.range pos := by
      intro i hi
      have hi := (Finset.mem_filter.1 hi).2
      refine Finset.mem_range.2 (not_le.1 fun hle => hge (lt_of_le_of_lt ?_ hi))
      exact Nat.div_le_div_right (Nat.mul_le_mul_right b hle)
    have hcard := Finset.card_le_card hsub
    rw [← Nat.count_eq_card_filter_range, hsum _ le_rfl, Finset.card_range] at hcard
    omega
  rw [Nat.div_lt_iff_lt_mul (by have := Nat.mod_le n b; omega)] at hlt
  have hn := Nat.div_add_mod' n b
  generalize n / b = q at *
  generalize n % b = r at *
  have hb' : r + 2 ≤ b := by omega
  nlinarith

/-- **Numbers that wrap are not those of even buckets.** -/
theorem product_lt_of_even (hb : 0 < b) (hb' : b < 2 ^ 64) (hn : n < 2 ^ 60)
    (h : Even b (ntileValues b n)) : (n - 1) * b < 2 ^ 64 := by
  by_contra hge
  -- the last row whose product does not wrap
  obtain ⟨k, hle, hwrap⟩ : ∃ k, k * b < 2 ^ 64 ∧ 2 ^ 64 ≤ (k + 1) * b := by
    refine ⟨(2 ^ 64 - 1) / b, ?_, ?_⟩
    · have := Nat.div_mul_le_self (2 ^ 64 - 1) b
      omega
    · have : 2 ^ 64 - 1 < ((2 ^ 64 - 1) / b + 1) * b :=
        Nat.lt_mul_of_div_lt (Nat.lt_succ_self _) hb
      omega
  have hkn : k + 1 < n := by
    by_contra hkn
    have := Nat.mul_le_mul_right b (show n - 1 ≤ k by omega)
    omega
  have hmod : (k + 1) * b % 2 ^ 64 = (k + 1) * b - 2 ^ 64 := by
    rw [Nat.mod_eq_sub_mod hwrap, Nat.mod_eq_of_lt]
    rw [Nat.succ_mul]
    omega
  have hmod' : k * b % 2 ^ 64 = k * b := Nat.mod_eq_of_lt hle
  rw [Nat.succ_mul] at hmod hwrap
  have hsorted := h.sorted
  rw [ntileValues, pairwise_map, pairwise_iff_getElem] at hsorted
  have hstep := hsorted k (k + 1) (by simp; omega) (by simpa) (Nat.lt_succ_self k)
  simp only [getElem_range, hb.ne', if_false, hmod', Nat.succ_mul, hmod, i64FromUsizeClamped]
    at hstep
  rcases Nat.lt_or_ge n b with hlt | hge'
  · -- every row has its own number
    have hnodup : (ntileValues b n).Nodup := nodup_iff_count_le_one.2 fun j => by
      by_cases hj : j ∈ ntileValues b n
      · have hj' := (h.used j).1 hj
        obtain ⟨i, rfl⟩ := Int.eq_ofNat_of_zero_le (by omega : 0 ≤ j)
        rw [h.size i (by omega) (by omega), length_ntileValues, Nat.div_eq_of_lt hlt]
        split_ifs <;> omega
      · rw [count_eq_zero_of_not_mem hj]
        exact Nat.zero_le 1
    rw [ntileValues] at hnodup
    have hsame : k = k + 1 := by
      refine inj_on_of_nodup_map hnodup (by simp; omega) (by simpa) ?_
      have hdiv : (k * b + b - 2 ^ 64) / n ≤ k * b / n := Nat.div_le_div_right (by omega)
      simp only [hb.ne', if_false, hmod', Nat.succ_mul, hmod, i64FromUsizeClamped]
      omega
    omega
  · have hone : (k * b + b - 2 ^ 64) / n = 0 := Nat.div_eq_of_lt (by omega)
    have htwo : 1 ≤ k * b / n := (Nat.one_le_div_iff (by omega)).2 (by omega)
    omega

/-- **The numbers of a partition are those of even buckets** exactly if they are regular and do not
wrap. -/
theorem even_ntileValues_iff (hb : 0 < b) (hb' : b < 2 ^ 64) (hn : n < 2 ^ 60) :
    Even b (ntileValues b n) ↔ Regular b n ∧ (n - 1) * b < 2 ^ 64 := by
  constructor
  · intro h
    have hproduct := product_lt_of_even hb hb' hn h
    refine ⟨regular_of_even hb ⟨hproduct, fun pos hpos => ?_⟩ h, hproduct⟩
    have hle : pos * b ≤ (n - 1) * b := Nat.mul_le_mul_right b (by omega)
    have hmem := (h.used _).1 (mem_map_of_mem (mem_range.2 hpos))
    rw [if_neg hb.ne', Nat.mod_eq_of_lt (hle.trans_lt hproduct), length_ntileValues,
      i64FromUsizeClamped] at hmem
    omega
  · rintro ⟨hreg, hproduct⟩
    refine even_ntileValues hb ⟨hproduct, fun pos hpos => ?_⟩ hreg
    have hdiv := bucket_lt hb hpos
    rcases Nat.lt_or_ge n b with hlt | hge
    · rw [Regular, Nat.mod_eq_of_lt hlt] at hreg
      rcases hreg with hone | hb₁
      · rw [show pos = 0 by omega]
        simp
      · omega
    · omega

variable {out : ℕ → Option ℤ} {sorted : List ℕ} {values : List ℤ} {partitions : List (List ℕ)}
  {i : ℕ}

theorem scatter_of_not_mem (h : i ∉ sorted) : scatter out sorted values i = out i := by
  refine foldlRecOn (sorted.zip values) _ (motive := fun f : ℕ → Option ℤ => f i = out i)
    rfl ?_
  intro f hf p hp
  rw [update_of_ne, hf]
  rintro rfl
  exact h (of_mem_zip hp).1

theorem map_scatter (hnd : sorted.Nodup) (hlen : values.length = sorted.length) :
    sorted.map (scatter out sorted values) = values.map some := by
  induction sorted generalizing out values with
  | nil => rw [length_eq_zero_iff.1 hlen, map_nil, map_nil]
  | cons i sorted ih =>
    obtain ⟨v, values, rfl⟩ := exists_cons_of_length_eq_add_one hlen
    obtain ⟨hi, hnd⟩ := nodup_cons.1 hnd
    have hstep : scatter out (i :: sorted) (v :: values) =
        scatter (update out i (some v)) sorted values := rfl
    rw [hstep, map_cons, map_cons, ih hnd (by simpa using hlen), scatter_of_not_mem hi,
      update_self]

/-- A partition gets its numbers, whatever the others get. -/
theorem map_execute (hnd : partitions.flatten.Nodup) (hmem : sorted ∈ partitions) :
    sorted.map (execute b partitions) = (ntileValues b sorted.length).map some := by
  obtain ⟨before, after, rfl⟩ := append_of_mem hmem
  have hafter : ∀ i ∈ sorted, i ∉ after.flatten := by
    rw [flatten_append, flatten_cons] at hnd
    exact fun i hi => disjoint_left.1 (disjoint_of_nodup_append (nodup_append.1 hnd).2.1) hi
  have hsorted : sorted.Nodup := (nodup_flatten.1 hnd).1 sorted (by simp)
  rw [execute, foldl_append, foldl_cons, ← map_scatter hsorted (by simp [ntileValues])]
  refine map_congr_left fun i hi => ?_
  refine foldlRecOn after _ (motive := fun f : ℕ → Option ℤ => f i = _) rfl
    fun f hf part hpart => ?_
  rw [scatter_of_not_mem fun h => hafter i hi (mem_flatten.2 ⟨part, hpart, h⟩), hf]

/-- **NTILE.** A partition has fewer than `2 ^ 60` rows, since the vector of their places has eight
bytes for each. -/
theorem ntile_even_iff (partitions : List (List ℕ)) (hnd : partitions.flatten.Nodup) (b : ℕ)
    (hb : 1 ≤ b ∧ b < 2 ^ 64) (sorted : List ℕ) (hmem : sorted ∈ partitions)
    (hn : sorted.length < 2 ^ 60) :
    (∃ values, sorted.map (execute b partitions) = values.map some ∧ Even b values) ↔
      Regular b sorted.length ∧ (sorted.length - 1) * b < 2 ^ 64 := by
  rw [map_execute hnd hmem, ← even_ntileValues_iff hb.1 hb.2 hn]
  constructor
  · rintro ⟨values, heq, h⟩
    rwa [map_injective_iff.2 (Option.some_injective _) heq]
  · exact fun h => ⟨_, rfl, h⟩

/-- Seven rows in three buckets, beside another partition. -/
theorem seven_rows_even : ∃ values, [8, 1, 2, 3, 4, 5, 6].map (execute 3 [[0, 7],
    [8, 1, 2, 3, 4, 5, 6]]) = values.map some ∧ Even 3 values :=
  (ntile_even_iff [[0, 7], [8, 1, 2, 3, 4, 5, 6]] (by decide) 3 (by decide) _ (by decide)
    (by decide)).2 ⟨.inl (by decide), by decide⟩

/-- **The larger buckets are apart, and numbers are skipped.** -/
theorem larger_buckets_apart :
    (range 10).map (execute 4 [range 10]) = [1, 1, 1, 2, 2, 3, 3, 3, 4, 4].map some ∧
    ¬ Even 4 [1, 1, 1, 2, 2, 3, 3, 3, 4, 4] ∧
    (range 3).map (execute 5 [range 3]) = [1, 2, 4].map some ∧ ¬ Even 5 [1, 2, 4] := by
  refine ⟨by decide, fun h => ?_, by decide, fun h => ?_⟩
  · exact absurd (h.size 2 (by decide) (by decide)) (by decide)
  · exact absurd (h.size 3 (by decide) (by decide)) (by decide)

end UltraSql.Ntile
