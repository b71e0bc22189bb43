import Mathlib

/-!
# Finite maps

`FiniteMap κ ν` is a finite partial function, Mathlib's association list without dependency of the
value on the key. This module adds the lookups of updated maps as case distinctions, the keys and
values, and updates of several keys or of a present one. The last section does the same for total
functions.
-/

/-- A finite partial function. -/
abbrev FiniteMap (κ ν : Type*) := AList fun _ : κ => ν

namespace FiniteMap

variable {κ ν : Type*} [DecidableEq κ]

theorem lookup_insert_eq (m : FiniteMap κ ν) (k k' : κ) (v : ν) :
    (m.insert k v).lookup k' = if k' = k then some v else m.lookup k' := by
  by_cases h : k' = k
  · subst h
    rw [if_pos rfl, AList.lookup_insert]
  · rw [if_neg h, AList.lookup_insert_ne h]

theorem lookup_erase_eq (m : FiniteMap κ ν) (k k' : κ) :
    (m.erase k).lookup k' = if k' = k then none else m.lookup k' := by
  by_cases h : k' = k
  · subst h
    rw [if_pos rfl, AList.lookup_erase]
  · rw [if_neg h, AList.lookup_erase_ne h]

variable {k k' : κ} {m : FiniteMap κ ν} {v w : ν}

/-- What is found after a change at one key. -/
theorem lookup_cases {o o' : Option ν} (h : o' = if k' = k then some v else o) (hw : o' = some w) :
    k' = k ∧ w = v ∨ k' ≠ k ∧ o = some w := by
  rw [h] at hw
  split_ifs at hw with hk
  · exact .inl ⟨hk, (Option.some.inj hw).symm⟩
  · exact .inr ⟨hk, hw⟩

theorem lookup_insert_cases (h : (m.insert k v).lookup k' = some w) :
    k' = k ∧ w = v ∨ k' ≠ k ∧ m.lookup k' = some w :=
  lookup_cases (lookup_insert_eq ..) h

/-- A new key hides no old one. -/
theorem lookup_insert_of_none (hk : m.lookup k = none) (h : m.lookup k' = some w) :
    (m.insert k v).lookup k' = some w := by
  rw [lookup_insert_eq, if_neg, h]
  rintro rfl
  cases hk.symm.trans h

theorem lookup_of_erase (h : (m.erase k).lookup k' = some w) : k' ≠ k ∧ m.lookup k' = some w := by
  rw [lookup_erase_eq] at h
  split_ifs at h with hk
  exact ⟨hk, h⟩

/-- The keys whose values satisfy `p`. -/
def keysWhere (m : FiniteMap κ ν) (p : ν → Bool) : List κ :=
  (m.entries.filter fun e => p e.2).map (·.1)

theorem mem_keysWhere {p : ν → Bool} :
    k ∈ m.keysWhere p ↔ ∃ v, m.lookup k = some v ∧ p v = true := by
  simp only [keysWhere, List.mem_map, List.mem_filter]
  constructor
  · rintro ⟨⟨k', v⟩, ⟨he, hp⟩, rfl⟩
    exact ⟨v, AList.mem_lookup_iff.2 he, hp⟩
  · rintro ⟨v, hk, hp⟩
    exact ⟨⟨k, v⟩, ⟨AList.mem_lookup_iff.1 hk, hp⟩, rfl⟩

/-- The values. -/
def values (m : FiniteMap κ ν) : List ν := m.entries.map (·.2)

theorem mem_values_of_lookup (h : m.lookup k = some v) : v ∈ m.values :=
  List.mem_map.2 ⟨⟨k, v⟩, AList.mem_lookup_iff.1 h, rfl⟩

/-- Erase several keys. -/
def eraseAll (m : FiniteMap κ ν) (ks : List κ) : FiniteMap κ ν :=
  ks.foldl (fun m k => m.erase k) m

theorem lookup_eraseAll (m : FiniteMap κ ν) (ks : List κ) (k : κ) :
    (m.eraseAll ks).lookup k = if k ∈ ks then none else m.lookup k := by
  induction ks generalizing m with
  | nil => simp [eraseAll]
  | cons k' ks ih =>
    have h := ih (m.erase k')
    rw [eraseAll, List.foldl_cons]
    rw [eraseAll] at h
    rw [h, lookup_erase_eq]
    by_cases hk : k = k' <;> simp [hk]

/-- Change the value of a key, if it has one. -/
def modify (m : FiniteMap κ ν) (k : κ) (f : ν → ν) : FiniteMap κ ν :=
  match m.lookup k with
  | some v => m.insert k (f v)
  | none => m

theorem lookup_modify (m : FiniteMap κ ν) (k k' : κ) (f : ν → ν) :
    (m.modify k f).lookup k' = if k' = k then (m.lookup k').map f else m.lookup k' := by
  unfold modify
  cases h : m.lookup k with
  | none =>
    split_ifs with hk
    · subst hk
      rw [h]
      rfl
    · rfl
  | some v =>
    dsimp only
    rw [lookup_insert_eq]
    split_ifs with hk
    · subst hk
      rw [h]
      rfl
    · rfl

end FiniteMap

namespace Function

variable {α β : Type*} [DecidableEq α] (f : α → β) {P : β → Prop} {x y : α} {b : β}

theorem update_cases (x : α) (b : β) (y : α) :
    update f x b y = f y ∨ y = x ∧ update f x b y = b := by
  by_cases h : y = x
  · subst h
    exact .inr ⟨rfl, update_self ..⟩
  · exact .inl (update_of_ne h ..)

theorem of_update (h : P (update f x b y)) (hx : P b → P (f x)) : P (f y) := by
  rcases update_cases f x b y with heq | ⟨rfl, heq⟩
  · exact heq ▸ h
  · exact hx (heq ▸ h)

theorem to_update (h : P (f y)) (hx : P (f x) → P b) : P (update f x b y) := by
  rcases update_cases f x b y with heq | ⟨rfl, heq⟩
  · exact heq ▸ h
  · rw [heq]
    exact hx h

end Function
