import Mathlib.Algebra.BigOperators.Group.Finset.Basic
import Mathlib.Algebra.Order.BigOperators.Group.Finset

/-!
# Counting over an indexed family with one entry replaced

Sums of a weight over a family `f : ι → α`, and what replacing one member does to them.
-/

namespace Kickmsg.Lib

open Finset

section Update

variable {ι α : Type*} [DecidableEq ι] {s : Finset ι} (w : ι → α → Nat) (f : ι → α) {i : ι} (a : α)

/-- Replacing the member at `i` trades its weight for the new one. -/
theorem sum_update_mem (hi : i ∈ s) :
    ∑ t ∈ s, w t (Function.update f i a t) + w i (f i) = ∑ t ∈ s, w t (f t) + w i a := by
  have split : ∀ g : ι → α, w i (g i) + ∑ t ∈ s.erase i, w t (g t) = ∑ t ∈ s, w t (g t) := fun g =>
    add_sum_erase s (fun t => w t (g t)) hi
  have rest : ∑ t ∈ s.erase i, w t (Function.update f i a t) = ∑ t ∈ s.erase i, w t (f t) :=
    sum_congr rfl fun t ht => by rw [Function.update_of_ne (ne_of_mem_erase ht)]
  have h := split (Function.update f i a)
  rw [rest, Function.update_self] at h
  have h' := split f
  omega

variable [Fintype ι]

theorem sum_update (i : ι) :
    ∑ t, w t (Function.update f i a t) + w i (f i) = ∑ t, w t (f t) + w i a :=
  sum_update_mem w f a (mem_univ i)

end Update

/-- A member's weight is part of the sum. -/
theorem le_sum {ι : Type*} [Fintype ι] (w : ι → Nat) (i : ι) : w i ≤ ∑ t, w t :=
  single_le_sum (f := w) (fun _ _ => Nat.zero_le _) (mem_univ i)

/-- So are the weights of two members together. -/
theorem add_le_sum {ι : Type*} [Fintype ι] (w : ι → Nat) {i j : ι} (h : i ≠ j) :
    w i + w j ≤ ∑ t, w t := by
  classical
  rw [← sum_pair h]
  exact sum_le_sum_of_subset (subset_univ _)

end Kickmsg.Lib
