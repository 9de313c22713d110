import Mathlib.Data.List.Nodup
import Mathlib.Logic.Function.Basic

/-!
# Singly linked chains

`Linked next nil a xs` says that following `next` from `a` visits exactly the nodes `xs` and then
reaches `nil`. Since `next` is a function the nodes are determined by the start and never repeat.
-/

namespace Kickmsg.Lib

variable {α : Type*}

/-- Following `next` from a start visits the listed nodes and ends in `nil`. -/
inductive Linked (next : α → α) (nil : α) : α → List α → Prop
  | nil : Linked next nil nil []
  | cons {a : α} {xs : List α} (ha : a ≠ nil) (h : Linked next nil (next a) xs) :
    Linked next nil a (a :: xs)

namespace Linked

variable {next next' : α → α} {nil a b : α} {xs ys : List α}

theorem eq_nil_iff (h : Linked next nil a xs) : xs = [] ↔ a = nil := by
  cases h with
  | nil => simp
  | cons ha _ => simp [ha]

/-- A chain that does not start at its end has a first node. -/
theorem tail (h : Linked next nil a xs) (ha : a ≠ nil) :
    ∃ ys, xs = a :: ys ∧ Linked next nil (next a) ys := by
  cases h with
  | nil => exact absurd rfl ha
  | cons _ h => exact ⟨_, rfl, h⟩

theorem unique (h : Linked next nil a xs) (h' : Linked next nil a ys) : xs = ys := by
  induction h generalizing ys with
  | nil => exact ((eq_nil_iff h').mpr rfl).symm
  | cons ha _ ih =>
    obtain ⟨zs, rfl, hz⟩ := h'.tail ha
    rw [ih hz]

/-- Every node of a chain starts the rest of it. -/
theorem suffix (h : Linked next nil a xs) (hb : b ∈ xs) :
    ∃ ys, Linked next nil b ys ∧ ys.length ≤ xs.length := by
  induction h with
  | nil => simp at hb
  | cons ha h ih =>
    rcases List.mem_cons.mp hb with rfl | hb
    · exact ⟨_, .cons ha h, Nat.le_refl _⟩
    · obtain ⟨ys, hy, hl⟩ := ih hb
      exact ⟨ys, hy, Nat.le_succ_of_le hl⟩

/-- A chain that ends never visits a node twice. -/
theorem nodup (h : Linked next nil a xs) : xs.Nodup := by
  induction h with
  | nil => exact List.nodup_nil
  | @cons a xs ha h ih =>
    refine List.nodup_cons.mpr ⟨fun hmem => ?_, ih⟩
    -- The chain from `a` would be both `a :: xs` and no longer than `xs`.
    obtain ⟨ys, hy, hl⟩ := h.suffix hmem
    have := hy.unique (.cons ha h)
    subst this
    exact absurd hl (by simp)

/-- A node in the middle of a chain starts what follows. -/
theorem from_append (h : Linked next nil a (xs ++ b :: ys)) : Linked next nil b (b :: ys) := by
  induction xs generalizing a with
  | nil =>
    cases h with
    | cons ha h => exact .cons ha h
  | cons x xs ih =>
    cases h with
    | cons _ h => exact ih h

theorem congr (h : Linked next nil a xs) (hn : ∀ x ∈ xs, next' x = next x) :
    Linked next' nil a xs := by
  induction h with
  | nil => exact .nil
  | cons ha h ih =>
    refine .cons ha ?_
    rw [hn _ (by simp)]
    exact ih fun x hx => hn x (by simp [hx])

/-- Nodes off the chain may be relinked. -/
theorem update_of_notMem [DecidableEq α] (h : Linked next nil a xs) (hb : b ∉ xs) (c : α) :
    Linked (Function.update next b c) nil a xs := by
  refine h.congr fun x hx => Function.update_of_ne ?_ ..
  rintro rfl
  exact hb hx

theorem nil_notMem (h : Linked next nil a xs) : nil ∉ xs := by
  induction h with
  | nil => simp
  | cons ha _ ih => simp [ih, Ne.symm ha]

end Linked

end Kickmsg.Lib
