import Mathlib

/-!
# Strings of digits

`number b` reads a string of digits, the most significant one first, in base `b`. `decimal` writes a
number in base ten, without leading zeros.
-/

namespace Digits

open List

variable {b n k : ℕ} {d : ℕ} {ds es : List ℕ}

/-- The number that a string of digits stands for. -/
def number (b : ℕ) (ds : List ℕ) : ℕ := ds.foldl (fun n d => n * b + d) 0

theorem foldl_number (b n : ℕ) (ds : List ℕ) :
    ds.foldl (fun n d => n * b + d) n = n * b ^ ds.length + number b ds := by
  induction ds generalizing n with
  | nil => simp [number]
  | cons d ds ih =>
    rw [number, foldl_cons, foldl_cons, ih, ih (0 * b + d), length_cons, pow_succ]
    ring

@[simp] theorem number_nil : number b [] = 0 := rfl

theorem number_cons : number b (d :: ds) = d * b ^ ds.length + number b ds := by
  rw [number, foldl_cons, foldl_number, Nat.zero_mul, Nat.zero_add]

theorem number_append : number b (ds ++ es) = number b ds * b ^ es.length + number b es := by
  rw [number, foldl_append, foldl_number]
  rfl

@[simp] theorem number_singleton : number b [d] = d := by simp [number]

theorem number_lt (h : ∀ d ∈ ds, d < b) : number b ds < b ^ ds.length := by
  induction ds with
  | nil => simp
  | cons d ds ih =>
    have hd := h d mem_cons_self
    have hds := ih fun e he => h e (mem_cons_of_mem _ he)
    rw [number_cons, length_cons, pow_succ, Nat.mul_comm (b ^ ds.length)]
    calc d * b ^ ds.length + number b ds < (d + 1) * b ^ ds.length := by
          rw [Nat.succ_mul]
          omega
      _ ≤ b * b ^ ds.length := Nat.mul_le_mul_right _ hd

/-! ## Numbers in base ten -/

/-- A number as it is printed. -/
def decimal (n : ℕ) : List ℕ := if n = 0 then [0] else (Nat.digits 10 n).reverse

theorem number_reverse_digits (b n : ℕ) : number b (Nat.digits b n).reverse = n := by
  have hrev : ∀ l : List ℕ, number b l.reverse = Nat.ofDigits b l := fun l => by
    induction l with
    | nil => rfl
    | cons d l ih =>
      rw [reverse_cons, number_append, ih, Nat.ofDigits_cons, number_singleton,
        length_singleton, pow_one]
      ring
  rw [hrev, Nat.ofDigits_digits]

@[simp] theorem number_decimal (n : ℕ) : number 10 (decimal n) = n := by
  unfold decimal
  split_ifs with h
  · rw [h, number_singleton]
  · exact number_reverse_digits 10 n

theorem lt_of_mem_decimal (h : d ∈ decimal n) : d < 10 := by
  unfold decimal at h
  split_ifs at h
  · simp at h
    omega
  · exact Nat.digits_lt_base (by decide) (mem_reverse.1 h)

/-- A number has no leading zeros. -/
theorem pow_length_decimal_le (h : n ≠ 0) : 10 ^ (decimal n).length ≤ 10 * n := by
  rw [decimal, if_neg h, length_reverse]
  exact Nat.base_pow_length_digits_le 10 n (by decide) h

end Digits
