import Mathlib

/-!
# Cycles of serialization graphs

Transactions begin at a time `B` and decide to commit at a time `C`. A dependency of one on another
either runs forward in time (the first has decided before the second begins) or is an
antidependency `E` (the first has begun before the second decides).

**Theorem (`exists_dangerous_of_cycle`).** A cycle of dependencies has two consecutive
antidependencies `a → b → c` such that `c` is the first of the three to decide.

The proof takes the first transaction to decide among those that lie on a cycle with the given one.
Neither of the two edges that lead to it can run forward in time.
-/

namespace SerializationGraph

open Relation

variable {τ κ : Type*} {R E : τ → τ → Prop} {t z : τ}

/-- The transactions on a common cycle with `t`, or `t` itself. -/
def component (R : τ → τ → Prop) (t : τ) : Set τ :=
  {z | ReflTransGen R t z ∧ ReflTransGen R z t}

theorem exists_pred_of_cycle (h : TransGen R t t) (hz : z ∈ component R t) :
    ∃ y ∈ component R t, R y z := by
  obtain ⟨y, hty, hyz⟩ := TransGen.tail'_iff.1 (h.trans_left hz.1)
  exact ⟨y, ⟨hty, hz.2.head hyz⟩, hyz⟩

variable [LinearOrder κ] [WellFoundedLT κ] {B C : τ → κ}

/-- **Two consecutive antidependencies.** -/
theorem exists_dangerous_of_cycle (hBC : ∀ a b, R a b → B b < C b)
    (hR : ∀ a b, R a b → C a < B b ∨ E a b) (hE : ∀ a b, E a b → B a < C b)
    (h : TransGen R t t) : ∃ a b c, E a b ∧ E b c ∧ C c ≤ C a ∧ C c ≤ C b := by
  obtain ⟨c, hc, hmin⟩ := (InvImage.wf C wellFounded_lt).has_min (component R t)
    ⟨t, .refl, .refl⟩
  have hfirst : ∀ z ∈ component R t, C c ≤ C z := fun z hz => not_lt.1 (hmin z hz)
  obtain ⟨b, hb, hbc⟩ := exists_pred_of_cycle h hc
  obtain ⟨a, ha, hab⟩ := exists_pred_of_cycle h hb
  -- `b` cannot decide before `c` begins
  have hEbc : E b c := by
    refine (hR b c hbc).resolve_left fun hlt => ?_
    exact absurd (hlt.trans (hBC b c hbc)) (not_lt.2 (hfirst b hb))
  -- nor `a` before `b` begins, which is before `c` decides
  have hEab : E a b := by
    refine (hR a b hab).resolve_left fun hlt => ?_
    exact absurd (hlt.trans (hE b c hEbc)) (not_lt.2 (hfirst a ha))
  exact ⟨a, b, c, hEab, hEbc, hfirst a ha, hfirst b hb⟩

end SerializationGraph
