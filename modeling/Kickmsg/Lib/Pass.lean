import Mathlib.Data.List.Nodup
import Mathlib.Data.List.Count

/-!
# Passes over a store that is cut into parts

A pass visits the parts one by one. Where a visit reads and writes its own part only, the pass leaves in
each part what one visit of it leaves, and what the visits report does not depend on the order.
-/

namespace Kickmsg.Lib

variable {ι L V : Type*}

/-- `visit m i` reads and writes part `i` of the store `m` only, as does the report `tells m i`. -/
structure Local (part : L → Option ι) (visit : (L → V) → ι → L → V) (tells : (L → V) → ι → Bool) :
    Prop where
  frame : ∀ m i l, part l ≠ some i → visit m i l = m l
  reads : ∀ m m' i, (∀ l, part l = some i → m l = m' l) → ∀ l, part l = some i →
    visit m i l = visit m' i l
  hears : ∀ m m' i, (∀ l, part l = some i → m l = m' l) → tells m i = tells m' i

/-- One visit, and the count of those that told something. -/
def passStep (visit : (L → V) → ι → L → V) (tells : (L → V) → ι → Bool) (x : (L → V) × Nat) (i : ι) :
    (L → V) × Nat :=
  (visit x.1 i, x.2 + (tells x.1 i).toNat)

namespace Local

variable {part : L → Option ι} {visit : (L → V) → ι → L → V} {tells : (L → V) → ι → Bool} {is : List ι}
  {m : L → V} {i : ι} {l : L}

theorem foldl_of_notMem (h : Local part visit tells) (hi : ∀ i ∈ is, part l ≠ some i) :
    is.foldl visit m l = m l := by
  induction is generalizing m with
  | nil => rfl
  | cons j is ih =>
    rw [List.foldl_cons, ih fun k hk => hi k (List.mem_cons_of_mem _ hk)]
    exact h.frame m j l (hi j List.mem_cons_self)

theorem foldl_of_mem (h : Local part visit tells) (hd : is.Nodup) (hi : i ∈ is) (hl : part l = some i) :
    is.foldl visit m l = visit m i l := by
  induction is generalizing m with
  | nil => cases hi
  | cons j is ih =>
    obtain ⟨hj, hd⟩ := List.nodup_cons.mp hd
    rw [List.foldl_cons]
    rcases List.mem_cons.mp hi with rfl | hi
    · refine h.foldl_of_notMem fun k hk hlk => hj ?_
      rw [hl, Option.some.injEq] at hlk
      exact hlk ▸ hk
    · rw [ih hd hi]
      refine h.reads _ _ i (fun l' hl' => h.frame m j l' fun hj' => hj ?_) l hl
      rw [hl', Option.some.injEq] at hj'
      exact hj' ▸ hi

theorem foldl_passStep (h : Local part visit tells) (hd : is.Nodup) (n : Nat) :
    is.foldl (passStep visit tells) (m, n) = (is.foldl visit m, n + is.countP (tells m)) := by
  induction is generalizing m n with
  | nil => rfl
  | cons j is ih =>
    obtain ⟨hj, hd⟩ := List.nodup_cons.mp hd
    have hcount : is.countP (tells (visit m j)) = is.countP (tells m) := by
      refine List.countP_congr fun k hk => ?_
      rw [h.hears (visit m j) m k fun l hl => h.frame m j l fun hl' => hj ?_]
      rw [hl, Option.some.injEq] at hl'
      exact hl' ▸ hk
    rw [List.foldl_cons, List.foldl_cons, passStep, ih hd, hcount, List.countP_cons]
    cases tells m j <;> simp [Nat.add_comm, Nat.add_left_comm]

end Local

end Kickmsg.Lib
