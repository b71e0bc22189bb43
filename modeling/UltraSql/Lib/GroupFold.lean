import Mathlib

/-!
# Grouping a list and folding each group

`groupFold` goes through a list, puts each element into the group of its key and folds it into the
state of the group. The first element of a group decides how its key is written.

`Agree R` relates two computations that may fail: both fail, or both succeed with related results.
Which errors they fail with does not matter.

**Rule (`groupFold_filter`).** A condition on the keys can be checked before the grouping or after
it.

**Rule (`agree_groupFold`).** Two ways of folding agree if they agree on each element.
-/

variable {ε ε' ε'' α β σ τ κ : Type}

theorem mapM_eq_ok_map {f : α → Except ε β} {g : α → β} {l : List α}
    (h : ∀ a ∈ l, f a = .ok (g a)) : l.mapM f = .ok (l.map g) := by
  induction l with
  | nil => rfl
  | cons a l ih =>
    rw [List.mapM_cons, h a List.mem_cons_self, ih fun b hb => h b (List.mem_cons_of_mem _ hb)]
    rfl

/-- Both computations fail, or both succeed with related results. -/
inductive Agree (R : α → β → Prop) : Except ε α → Except ε' β → Prop
  | ok {a : α} {b : β} (h : R a b) : Agree R (.ok a) (.ok b)
  | error {e : ε} {e' : ε'} : Agree R (.error e) (.error e')

namespace Agree

variable {R : α → β → Prop} {S : σ → τ → Prop} {u : Except ε α} {v : Except ε' β}

theorem ok_or_error (h : Agree R u v) : (∃ a b, u = .ok a ∧ v = .ok b ∧ R a b) ∨
    ∃ e e', u = .error e ∧ v = .error e' := by
  cases h with
  | ok h => exact .inl ⟨_, _, rfl, rfl, h⟩
  | error => exact .inr ⟨_, _, rfl, rfl⟩

theorem bind {f : α → Except ε σ} {g : β → Except ε' τ} (h : Agree R u v)
    (hfg : ∀ a b, R a b → Agree S (f a) (g b)) : Agree S (u >>= f) (v >>= g) := by
  cases h with
  | ok h => exact hfg _ _ h
  | error => exact .error

theorem mono {R' : α → β → Prop} (h : Agree R u v) (hR : ∀ a b, R a b → R' a b) :
    Agree R' u v := by
  cases h with
  | ok h => exact .ok (hR _ _ h)
  | error => exact .error

theorem trans {T : β → σ → Prop} {w : Except ε'' σ} (h : Agree R u v) (h' : Agree T v w) :
    Agree (fun a c => ∃ b, R a b ∧ T b c) u w := by
  cases h with
  | ok h =>
    cases h' with
    | ok h' => exact .ok ⟨_, h, h'⟩
  | error =>
    cases h' with
    | error => exact .error

theorem refl {R : α → α → Prop} (hR : ∀ a, R a a) (u : Except ε α) : Agree R u u := by
  cases u with
  | ok a => exact .ok (hR a)
  | error => exact .error

theorem mapM_mapError (f : α → Except ε σ) (g : ε → ε') (l : List α) :
    Agree Eq (l.mapM fun a => (f a).mapError g) (l.mapM f) := by
  induction l with
  | nil => exact .ok rfl
  | cons a l ih =>
    rw [List.mapM_cons, List.mapM_cons]
    cases f a with
    | error => exact .error
    | ok b => exact ih.bind fun l l' hl => .ok (congrArg _ hl)

theorem mapM_perm (f : α → Except ε σ) {l l' : List α} (h : l.Perm l') :
    Agree List.Perm (l.mapM f) (l'.mapM f) := by
  induction h with
  | nil => exact .ok .nil
  | cons a _ ih =>
    rw [List.mapM_cons, List.mapM_cons]
    refine (Agree.refl (R := Eq) (fun _ => rfl) (f a)).bind ?_
    rintro b - rfl
    exact ih.bind fun l l' hl => .ok (hl.cons b)
  | swap a b l =>
    simp only [List.mapM_cons]
    cases f a with
    | error e =>
      cases f b with
      | error => exact .error
      | ok => exact .error
    | ok a' =>
      cases f b with
      | error => exact .error
      | ok b' =>
        cases l.mapM f with
        | error => exact .error
        | ok => exact .ok (List.Perm.swap _ _ _)
  | trans _ _ ih ih' => exact (ih.trans ih').mono fun _ _ ⟨_, h, h'⟩ => h.trans h'

end Agree

/-! ## Groups -/

section GroupFold

variable (same : κ → κ → Bool) (init : σ)

/-- Update the state of the group of the key, which may be a new one. -/
def upsert (k : κ) (f : σ → Except ε σ) : List (κ × σ) → Except ε (List (κ × σ))
  | [] => do
    let s ← f init
    return [(k, s)]
  | (k', s) :: groups =>
    if same k' k then do
      let s' ← f s
      return (k', s') :: groups
    else do
      let groups' ← upsert k f groups
      return (k', s) :: groups'

/-- Fold each group of the list, from given groups on. -/
def groupFoldFrom (key : α → Except ε κ) (add : σ → α → Except ε σ) (groups : List (κ × σ))
    (l : List α) : Except ε (List (κ × σ)) :=
  l.foldlM (fun groups a => do upsert same init (← key a) (add · a) groups) groups

def groupFold (key : α → Except ε κ) (add : σ → α → Except ε σ) (l : List α) :
    Except ε (List (κ × σ)) :=
  groupFoldFrom same init key add [] l

variable {same init} {k : κ} {f : σ → Except ε σ} {key : α → Except ε κ} {keyOf : α → κ}
  {add : σ → α → Except ε σ} {groups groups' : List (κ × σ)} {l : List α} {p : κ → Bool}

theorem filter_key_pos {s : σ} (hk : p k = true) :
    ((k, s) :: groups).filter (p ·.1) = (k, s) :: groups.filter (p ·.1) :=
  List.filter_cons_of_pos hk

theorem filter_key_neg {s : σ} (hk : ¬ p k = true) :
    ((k, s) :: groups).filter (p ·.1) = groups.filter (p ·.1) :=
  List.filter_cons_of_neg hk

section

variable (hp : ∀ k k', same k k' = true → p k = p k')
include hp

theorem upsert_filter (h : upsert same init k f groups = .ok groups') :
    if p k then upsert same init k f (groups.filter (p ·.1)) = .ok (groups'.filter (p ·.1))
    else groups'.filter (p ·.1) = groups.filter (p ·.1) := by
  induction groups generalizing groups' with
  | nil =>
    unfold upsert at h
    cases hf : f init with (rw [hf] at h; cases h)
    | ok s =>
      split_ifs with hk
      · rw [List.filter_nil, filter_key_pos hk, List.filter_nil, upsert, hf]
        rfl
      · rw [filter_key_neg hk]
  | cons g groups ih =>
    obtain ⟨k', s⟩ := g
    unfold upsert at h
    split_ifs at h with hsame
    · have hkk := hp k' k hsame
      cases hf : f s with (rw [hf] at h; cases h)
      | ok s' =>
        split_ifs with hk
        · rw [filter_key_pos (hkk.trans hk), filter_key_pos (hkk.trans hk), upsert,
            if_pos hsame, hf]
          rfl
        · have hk' : ¬ p k' = true := fun h => hk (hkk.symm.trans h)
          rw [filter_key_neg hk', filter_key_neg hk']
    · cases hg : upsert same init k f groups with (rw [hg] at h; cases h)
      | ok rest =>
        have hrest := ih hg
        by_cases hk : p k = true
        · rw [if_pos hk] at hrest ⊢
          by_cases hk' : p k' = true
          · rw [filter_key_pos hk', filter_key_pos hk', upsert, if_neg hsame, hrest]
            rfl
          · rw [filter_key_neg hk', filter_key_neg hk', hrest]
        · rw [if_neg hk] at hrest ⊢
          rw [List.filter_cons, List.filter_cons, hrest]

/-- **A condition on the keys can be checked before the grouping or after it.** -/
theorem groupFoldFrom_filter (hkey : ∀ a ∈ l, key a = .ok (keyOf a))
    (h : groupFoldFrom same init key add groups l = .ok groups') :
    groupFoldFrom same init key add (groups.filter (p ·.1)) (l.filter fun a => p (keyOf a)) =
      .ok (groups'.filter (p ·.1)) := by
  unfold groupFoldFrom at h ⊢
  induction l generalizing groups with
  | nil =>
    cases h
    rfl
  | cons a l ih =>
    have ha : key a = .ok (keyOf a) := hkey a List.mem_cons_self
    rw [List.foldlM_cons, ha] at h
    cases hu : upsert same init (keyOf a) (add · a) groups with
      simp only [bind, Except.bind, hu] at h
    | error => cases h
    | ok rest =>
      have hrest := ih (fun b hb => hkey b (List.mem_cons_of_mem _ hb)) h
      have hstep := upsert_filter hp hu
      split_ifs at hstep with hk
      · rw [List.filter_cons, if_pos hk, List.foldlM_cons, ha]
        simp only [bind, Except.bind, hstep]
        exact hrest
      · rw [List.filter_cons, if_neg hk, ← hstep]
        exact hrest

theorem groupFold_filter (hkey : ∀ a ∈ l, key a = .ok (keyOf a))
    (h : groupFold same init key add l = .ok groups') :
    groupFold same init key add (l.filter fun a => p (keyOf a)) = .ok (groups'.filter (p ·.1)) :=
  groupFoldFrom_filter hp hkey h

end

end GroupFold

section Simulation

variable {same same' : κ → κ → Bool} {init : σ} {init' : τ} {key : α → Except ε κ}
  {key' : α → Except ε' κ} {add : σ → α → Except ε σ} {add' : τ → α → Except ε' τ}
  {P : κ → Prop} {R : σ → τ → Prop}
  {groups : List (κ × σ)} {groups' : List (κ × τ)} {l : List α} {k : κ}

/-- The same groups, with related states. -/
def SameGroups (P : κ → Prop) (R : σ → τ → Prop) : List (κ × σ) → List (κ × τ) → Prop :=
  List.Forall₂ fun g g' => g.1 = g'.1 ∧ P g.1 ∧ R g.2 g'.2

theorem SameGroups.filter (h : SameGroups P R groups groups') (p : κ → Bool) :
    SameGroups P R (groups.filter (p ·.1)) (groups'.filter (p ·.1)) := by
  induction h with
  | nil => exact .nil
  | @cons g g' groups groups' hg _ ih =>
    rw [List.filter_cons, List.filter_cons, hg.1]
    split_ifs
    · exact .cons hg ih
    · exact ih

section

variable (hsame : ∀ k k', P k → P k' → same k k' = same' k k') (hinit : R init init')
include hsame hinit

theorem agree_upsert {f : σ → Except ε σ} {f' : τ → Except ε' τ} (hk : P k)
    (hf : ∀ s t, R s t → Agree R (f s) (f' t)) (h : SameGroups P R groups groups') :
    Agree (SameGroups P R) (upsert same init k f groups) (upsert same' init' k f' groups') := by
  induction h with
  | nil => exact (hf _ _ hinit).bind fun s t hst => .ok (.cons ⟨rfl, hk, hst⟩ .nil)
  | @cons g g' groups groups' hg hrest ih =>
    obtain ⟨k₁, s⟩ := g
    obtain ⟨k₂, t⟩ := g'
    obtain ⟨rfl, hk₁, hst⟩ := hg
    simp only [upsert, hsame k₁ k hk₁ hk]
    split_ifs
    · exact (hf _ _ hst).bind fun s t hst => .ok (.cons ⟨rfl, hk₁, hst⟩ hrest)
    · exact ih.bind fun g g' hg => .ok (.cons ⟨rfl, hk₁, hst⟩ hg)

/-- **Two ways of folding agree** if they agree on each element. -/
theorem agree_groupFold (hkey : ∀ a ∈ l, Agree (fun k k' => k = k' ∧ P k) (key a) (key' a))
    (hadd : ∀ a ∈ l, ∀ s t, R s t → Agree R (add s a) (add' t a)) :
    Agree (SameGroups P R) (groupFold same init key add l)
      (groupFold same' init' key' add' l) := by
  have hfrom : ∀ groups groups', SameGroups P R groups groups' → Agree (SameGroups P R)
      (groupFoldFrom same init key add groups l)
      (groupFoldFrom same' init' key' add' groups' l) := by
    unfold groupFoldFrom
    induction l with
    | nil => exact fun groups groups' h => .ok h
    | cons a l ih =>
      intro groups groups' h
      rw [List.foldlM_cons, List.foldlM_cons]
      refine Agree.bind (R := SameGroups P R) ((hkey a List.mem_cons_self).bind ?_) ?_
      · rintro k _ ⟨rfl, hk⟩
        exact agree_upsert hsame hinit hk (hadd a List.mem_cons_self) h
      · exact ih (fun b hb => hkey b (List.mem_cons_of_mem _ hb))
          fun b hb => hadd b (List.mem_cons_of_mem _ hb)
  exact hfrom [] [] .nil

end

end Simulation
