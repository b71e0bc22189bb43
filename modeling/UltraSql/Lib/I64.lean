import Mathlib

/-!
# 64-bit signed integers

`I64` is the type of the integers that a signed 64-bit word can hold, with the order of `ℤ`.
-/

/-- A signed 64-bit integer. -/
abbrev I64 := { n : ℤ // -2 ^ 63 ≤ n ∧ n < 2 ^ 63 }

namespace I64

/-- The order of `ℤ`, which can be decided. -/
instance : LinearOrder I64 := @Subtype.instLinearOrder ℤ Int.instLinearOrder _

instance : DecidableLT I64 := fun a b => Int.decLt a.1 b.1

instance : DecidableLE I64 := fun a b => Int.decLe a.1 b.1

/-- `i64::MIN` -/
def minValue : I64 := ⟨-2 ^ 63, by decide⟩

/-- `i64::MAX` -/
def maxValue : I64 := ⟨2 ^ 63 - 1, by decide⟩

def one : I64 := ⟨1, by decide⟩

theorem minValue_le (k : I64) : minValue ≤ k := k.2.1

/-- `checked_add(1)` -/
def checkedSucc (k : I64) : Option I64 :=
  if h : k.1 + 1 < 2 ^ 63 then some ⟨k.1 + 1, by have := k.2.1; omega, h⟩ else none

/-- To be below the successor, if there is one, is to be at most the number. -/
theorem lt_checkedSucc_iff {k n : I64} : (∀ e, k.checkedSucc = some e → n < e) ↔ n ≤ k := by
  unfold checkedSucc
  split_ifs with h
  · constructor
    · intro hlt
      have hlt : n.1 < k.1 + 1 := hlt _ rfl
      show n.1 ≤ k.1
      omega
    · intro hle e he
      have hle : n.1 ≤ k.1 := hle
      cases he
      show n.1 < k.1 + 1
      omega
  · constructor
    · intro
      show n.1 ≤ k.1
      omega
    · intro _ e he
      cases he

/-- `checked_add` -/
def checkedAdd (a b : I64) : Option I64 :=
  if h : -2 ^ 63 ≤ a.1 + b.1 ∧ a.1 + b.1 < 2 ^ 63 then some ⟨a.1 + b.1, h⟩ else none

theorem checkedAdd_eq_some {a b n : I64} (h : a.checkedAdd b = some n) : n.1 = a.1 + b.1 := by
  unfold checkedAdd at h
  split_ifs at h
  cases h
  rfl

/-- The sign extension of a 32-bit integer. -/
def ofInt32 (n : Int32) : I64 :=
  ⟨n.toInt, by
    have h₁ := n.le_toInt
    have h₂ := n.toInt_lt
    omega⟩

end I64
