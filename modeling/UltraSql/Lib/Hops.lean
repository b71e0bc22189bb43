import Mathlib

/-!
# Chains of a partial function

`hops f j n` is the place `j` hops after `n` along the partial function `f`, if there are so many
hops. Chains of versions are followed this way.

**Rules (`hops_update_some`, `hops_update_none`).** The hops after a chain got one more link at its
end, and after a link was taken out.
-/

variable {α : Type*} {f : α → Option α} {a b c n : α} {i j : ℕ}

/-- The place `j` hops after `a`. -/
def hops (f : α → Option α) : ℕ → α → Option α
  | 0, a => some a
  | j + 1, a => (f a).bind (hops f j)

theorem hops_succ (hab : f a = some b) : hops f (j + 1) a = hops f j b := by
  rw [hops, hab, Option.bind_some]

theorem hops_succ_eq_some : hops f (j + 1) a = some c ↔ ∃ b, f a = some b ∧ hops f j b = some c :=
  Option.bind_eq_some_iff

theorem hops_of_none (ha : f a = none) : hops f j a = some c ↔ j = 0 ∧ c = a := by
  cases j with
  | zero => simp [hops, eq_comm]
  | succ j => simp [hops, ha]

theorem hops_add : hops f (i + j) a = (hops f i a).bind (hops f j) := by
  induction i generalizing a with
  | zero => rw [Nat.zero_add, hops, Option.bind_some]
  | succ i ih =>
    simp only [Nat.succ_add, hops, Option.bind_assoc]
    exact congrArg _ (funext fun _ => ih)

/-- A chain that ends has no place further on. -/
theorem hops_eq_none (hb : hops f i a = some b) (hend : f b = none) (hij : i < j) :
    hops f j a = none := by
  obtain ⟨k, rfl⟩ := Nat.exists_eq_add_of_lt hij
  rw [Nat.add_assoc, hops_add, hb, Option.bind_some, hops, hend, Option.bind_none]

/-- A chain has all the places up to one that it has. -/
theorem hops_of_le (hc : hops f j a = some c) (hij : i ≤ j) : ∃ b, hops f i a = some b := by
  obtain ⟨k, rfl⟩ := Nat.exists_eq_add_of_le hij
  rw [hops_add] at hc
  exact (Option.bind_eq_some_iff.1 hc).imp fun _ => And.left

/-- A place between two places of a chain. -/
theorem hops_between (hb : hops f i a = some b) (hc : hops f j a = some c) (hij : i ≤ j) :
    hops f (j - i) b = some c := by
  obtain ⟨k, rfl⟩ := Nat.exists_eq_add_of_le hij
  rw [hops_add, hb] at hc
  rwa [Nat.add_sub_cancel_left]

variable [DecidableEq α]

/-- **One more link** at the end of a chain. -/
theorem hops_update_some (hn : f n = none) (hb : f b = none) (hne : b ≠ n) :
    hops (Function.update f n (some b)) j a = some c ↔
      hops f j a = some c ∨ c = b ∧ ∃ i, j = i + 1 ∧ hops f i a = some n := by
  induction j generalizing a with
  | zero => simp [hops]
  | succ j ih =>
    by_cases han : a = n
    · subst han
      rw [hops_succ (f := Function.update f a (some b)) (Function.update_self ..), ih]
      simp [hops_of_none hb, hops_of_none hn, hne.symm, and_comm]
    · rw [hops, Function.update_of_ne han]
      cases ha : f a with
      | none => simp [hops_of_none ha, Ne.symm han]
      | some a' =>
        rw [Option.bind_some, ih, hops_succ ha]
        refine or_congr_right (and_congr_right fun _ => ⟨?_, ?_⟩)
        · rintro ⟨i, rfl, h⟩
          exact ⟨i + 1, rfl, (hops_succ ha).trans h⟩
        · rintro ⟨i, hi, h⟩
          cases i with
          | zero =>
            cases h
            exact absurd rfl han
          | succ i => exact ⟨i, by omega, (hops_succ ha).symm.trans h⟩

/-- **One link less.** -/
theorem hops_update_none :
    hops (Function.update f n none) j a = some c ↔
      hops f j a = some c ∧ ∀ i < j, hops f i a ≠ some n := by
  induction j generalizing a with
  | zero => simp [hops]
  | succ j ih =>
    by_cases han : a = n
    · subst han
      rw [hops, Function.update_self, Option.bind_none]
      constructor
      · nofun
      · rintro ⟨-, h⟩
        exact absurd rfl (h 0 (by omega))
    · rw [hops, Function.update_of_ne han]
      cases ha : f a with
      | none => simp [hops, ha]
      | some a' =>
        rw [Option.bind_some, ih, hops_succ ha]
        refine and_congr_right fun _ => ⟨fun h i hi => ?_, fun h i hi => ?_⟩
        · cases i with
          | zero =>
            intro h0
            cases h0
            exact han rfl
          | succ i =>
            rw [hops_succ ha]
            exact h i (by omega)
        · rw [← hops_succ ha]
          exact h (i + 1) (by omega)
