import Kickmsg.Handles.Model
import Mathlib.Data.List.Nodup

/-!
# Where the slots are

Every slot of a pool is on its free stack, held by its rings, or pending in one publisher. The calls move
a slot along four edges: popped into a publisher, pushed back from one, handed to the rings, and dropped.
-/

namespace Kickmsg.Handles.State

variable {ρ : Type} [DecidableEq ρ]

/-- Publisher `p` has slot `x` of region `r` pending. -/
def Pends (s : State ρ) (p : Nat) (r : ρ) (x : Nat) : Prop := ∃ n, s.pubs p = some ⟨r, some x, n⟩

/-- Every slot of a pool is on the free stack, held by the rings, or pending in one publisher, and it has
been pushed once for each time it was popped and came back. -/
structure Placed (poolSize : ρ → Nat) (s : State ρ) : Prop where
  nodup : ∀ r, (s.stack r).Nodup
  free : ∀ r x, x ∈ s.stack r → s.published r x = false ∧ ∀ p, ¬s.Pends p r x
  held : ∀ r x, s.published r x = true → ∀ p, ¬s.Pends p r x
  unique : ∀ p q r x, s.Pends p r x → s.Pends q r x → p = q
  total : ∀ r x, x < poolSize r ↔ x ∈ s.stack r ∨ s.published r x = true ∨ ∃ p, s.Pends p r x
  once : ∀ r x, s.pops r x = s.pushes r x + if x < poolSize r ∧ x ∉ s.stack r then 1 else 0

variable {s : State ρ} {poolSize : ρ → Nat} {p q : Nat} {r : ρ} {x n : Nat}

theorem bump_self (f : ρ → Nat → Nat) : bump f r x r x = f r x + 1 := by
  simp [bump]

theorem bump_of_ne (f : ρ → Nat → Nat) {r' : ρ} {x' : Nat} (h : r' ≠ r ∨ x' ≠ x) :
    bump f r x r' x' = f r' x' := by
  unfold bump
  by_cases hr : r' = r
  · subst hr
    rw [Function.update_self, Function.update_of_ne (h.resolve_left (by simp))]
  · rw [Function.update_of_ne hr]

omit [DecidableEq ρ] in
theorem pends_setPublisher {u : Option (Publisher ρ)} :
    (s.setPublisher p u).Pends q r x ↔ (q = p ∧ ∃ n, u = some ⟨r, some x, n⟩) ∨ (q ≠ p ∧ s.Pends q r x) := by
  unfold Pends setPublisher
  by_cases h : q = p
  · subst h
    simp
  · simp [h]

omit [DecidableEq ρ] in
theorem Placed.congr {s' : State ρ} (h : Placed poolSize s) (hstack : s'.stack = s.stack)
    (hpub : s'.published = s.published) (hpops : s'.pops = s.pops) (hpushes : s'.pushes = s.pushes)
    (hp : ∀ p r x, s'.Pends p r x ↔ s.Pends p r x) : Placed poolSize s' where
  nodup r := hstack ▸ h.nodup r
  free r x hx := by
    obtain ⟨h1, h2⟩ := h.free r x (hstack ▸ hx)
    exact ⟨hpub ▸ h1, fun p hpe => h2 p ((hp ..).mp hpe)⟩
  held r x hx p hpe := h.held r x (hpub ▸ hx) p ((hp ..).mp hpe)
  unique p q r x h1 h2 := h.unique p q r x ((hp ..).mp h1) ((hp ..).mp h2)
  total r x := by
    rw [h.total r x, hstack, hpub]
    simp only [hp]
  once r x := by
    rw [hpops, hpushes, hstack, h.once r x]

omit [DecidableEq ρ] in
/-- A publisher without a reservation is created, changed or destroyed. -/
theorem Placed.setPublisher (h : Placed poolSize s) {u : Option (Publisher ρ)}
    (hold : ∀ r x, ¬s.Pends p r x) (hnew : ∀ v, u = some v → v.pending = none) :
    Placed poolSize (s.setPublisher p u) := by
  refine h.congr rfl rfl rfl rfl fun q r x => pends_setPublisher.trans ⟨?_, fun hq => .inr ⟨?_, hq⟩⟩
  · rintro (⟨-, n, rfl⟩ | ⟨-, hq⟩)
    · cases hnew _ rfl
    · exact hq
  · rintro rfl
    exact hold r x hq

/-- A publisher's reservation goes back to the pool. -/
theorem Placed.push (h : Placed poolSize s) (hp : s.Pends p r x) {u : Option (Publisher ρ)}
    (hu : ∀ v, u = some v → v.pending = none) :
    Placed poolSize ((s.treiberPush r x).setPublisher p u) := by
  have hnew : ∀ q r' x', ((s.treiberPush r x).setPublisher p u).Pends q r' x' ↔
      q ≠ p ∧ s.Pends q r' x' := by
    intro q r' x'
    refine pends_setPublisher.trans ⟨?_, .inr⟩
    rintro (⟨-, n, rfl⟩ | hq)
    · cases hu _ rfl
    · exact hq
  have hoff : x ∉ s.stack r := fun hx => (h.free r x hx).2 p hp
  have hmem : ∀ r' x', x' ∈ ((s.treiberPush r x).setPublisher p u).stack r' ↔
      (r' = r ∧ x' = x) ∨ x' ∈ s.stack r' := by
    intro r' x'
    simp only [treiberPush, State.setPublisher]
    by_cases hr : r' = r
    · subst hr
      simp
    · simp [hr]
  refine ⟨fun r' => ?_, fun r' x' hx => ?_, fun r' x' hx q hq => ?_, fun q q' r' x' h1 h2 => ?_,
    fun r' x' => ?_, fun r' x' => ?_⟩
  · simp only [treiberPush, State.setPublisher]
    by_cases hr : r' = r
    · subst hr
      simpa using ⟨hoff, h.nodup r'⟩
    · simpa [hr] using h.nodup r'
  · rcases (hmem r' x').mp hx with ⟨rfl, rfl⟩ | hx
    · refine ⟨?_, fun q hq => ((hnew ..).mp hq).1 (h.unique q p r' x' ((hnew ..).mp hq).2 hp)⟩
      by_contra hpub
      exact h.held r' x' (by simpa using hpub) p hp
    · exact ⟨(h.free r' x' hx).1, fun q hq => (h.free r' x' hx).2 q ((hnew ..).mp hq).2⟩
  · exact h.held r' x' hx q ((hnew ..).mp hq).2
  · exact h.unique q q' r' x' ((hnew ..).mp h1).2 ((hnew ..).mp h2).2
  · rw [h.total r' x', hmem]
    simp only [hnew]
    constructor
    · rintro (hx | hx | ⟨q, hq⟩)
      · exact .inl (.inr hx)
      · exact .inr (.inl hx)
      · by_cases hqp : q = p
        · subst hqp
          obtain ⟨n, hn⟩ := hq
          obtain ⟨n', hn'⟩ := hp
          simp only [hn, Option.some.injEq, Publisher.mk.injEq] at hn'
          exact .inl (.inl ⟨hn'.1, hn'.2.1⟩)
        · exact .inr (.inr ⟨q, hqp, hq⟩)
    · rintro ((⟨rfl, rfl⟩ | hx) | hx | ⟨q, -, hq⟩)
      · exact .inr (.inr ⟨p, hp⟩)
      · exact .inl hx
      · exact .inr (.inl hx)
      · exact .inr (.inr ⟨q, hq⟩)
  · have hpool : x < poolSize r := (h.total r x).mpr (.inr (.inr ⟨p, hp⟩))
    have honce := h.once r' x'
    simp only [hmem]
    change s.pops r' x' = bump s.pushes r x r' x' + _
    by_cases he : r' = r ∧ x' = x
    · obtain ⟨rfl, rfl⟩ := he
      rw [bump_self]
      simp only [hpool, hoff, not_false_eq_true, and_self, if_true] at honce
      simp [honce]
    · rw [bump_of_ne _ (by tauto), honce]
      simp [he]

/-- `treiber_pop` into a publisher without a reservation. -/
theorem Placed.pop (h : Placed poolSize s) {xs : List Nat} (hs : s.stack r = x :: xs)
    (hold : ∀ r x, ¬s.Pends p r x) :
    Placed poolSize ((s.treiberPop r).1.setPublisher p (some ⟨r, some x, n⟩)) := by
  have hpop : s.treiberPop r =
      ({ s with stack := Function.update s.stack r xs, pops := bump s.pops r x }, some x) := by
    rw [treiberPop, hs]
  rw [hpop]
  have hnd := h.nodup r
  rw [hs, List.nodup_cons] at hnd
  have hfree := h.free r x (by simp [hs])
  set s' : State ρ := { s with stack := Function.update s.stack r xs, pops := bump s.pops r x } with hs'
  have hnew : ∀ q r' x', (s'.setPublisher p (some ⟨r, some x, n⟩)).Pends q r' x' ↔
      (q = p ∧ r' = r ∧ x' = x) ∨ s.Pends q r' x' := by
    intro q r' x'
    rw [pends_setPublisher]
    constructor
    · rintro (⟨rfl, m, he⟩ | ⟨-, hq⟩)
      · simp only [Option.some.injEq, Publisher.mk.injEq] at he
        exact .inl ⟨rfl, he.1.symm, he.2.1.symm⟩
      · exact .inr hq
    · rintro (⟨rfl, rfl, rfl⟩ | hq)
      · exact .inl ⟨rfl, n, rfl⟩
      · exact .inr ⟨fun he => hold r' x' (he ▸ hq), hq⟩
  have hmem : ∀ r' x', x' ∈ (s'.setPublisher p (some ⟨r, some x, n⟩)).stack r' ↔
      x' ∈ s.stack r' ∧ ¬(r' = r ∧ x' = x) := by
    intro r' x'
    simp only [hs', setPublisher_stack]
    by_cases hr : r' = r
    · subst hr
      rw [Function.update_self, hs]
      constructor
      · intro hx
        exact ⟨List.mem_cons_of_mem _ hx, fun he => hnd.1 (he.2 ▸ hx)⟩
      · rintro ⟨hx, hne⟩
        exact (List.mem_cons.mp hx).resolve_left fun he => hne ⟨rfl, he⟩
    · simp [hr]
  refine ⟨fun r' => ?_, fun r' x' hx => ?_, fun r' x' hx q hq => ?_, fun q q' r' x' h1 h2 => ?_,
    fun r' x' => ?_, fun r' x' => ?_⟩
  · simp only [hs', setPublisher_stack]
    by_cases hr : r' = r
    · subst hr
      simpa using hnd.2
    · simpa [hr] using h.nodup r'
  · obtain ⟨hx, hne⟩ := (hmem r' x').mp hx
    refine ⟨(h.free r' x' hx).1, fun q hq => ?_⟩
    rcases (hnew ..).mp hq with ⟨-, he⟩ | hq
    · exact hne he
    · exact (h.free r' x' hx).2 q hq
  · rcases (hnew ..).mp hq with ⟨-, rfl, rfl⟩ | hq
    · exact Bool.false_ne_true (hfree.1.symm.trans hx)
    · exact h.held r' x' hx q hq
  · rcases (hnew ..).mp h1 with ⟨e1, rfl, rfl⟩ | k1 <;> rcases (hnew ..).mp h2 with ⟨e2, er, ex⟩ | k2
    · exact e1.trans e2.symm
    · exact absurd k2 (hfree.2 q')
    · rw [er, ex] at k1
      exact absurd k1 (hfree.2 q)
    · exact h.unique q q' r' x' k1 k2
  · rw [h.total r' x', hmem]
    simp only [hnew]
    constructor
    · rintro (hx | hx | ⟨q, hq⟩)
      · by_cases he : r' = r ∧ x' = x
        · exact .inr (.inr ⟨p, .inl ⟨rfl, he⟩⟩)
        · exact .inl ⟨hx, he⟩
      · exact .inr (.inl hx)
      · exact .inr (.inr ⟨q, .inr hq⟩)
    · rintro (⟨hx, -⟩ | hx | ⟨q, ⟨-, rfl, rfl⟩ | hq⟩)
      · exact .inl hx
      · exact .inr (.inl hx)
      · exact .inl (by simp [hs])
      · exact .inr (.inr ⟨q, hq⟩)
  · have hpool : x < poolSize r := (h.total r x).mpr (.inl (by simp [hs]))
    have honce := h.once r' x'
    simp only [hmem]
    change bump s.pops r x r' x' = s.pushes r' x' + _
    by_cases he : r' = r ∧ x' = x
    · obtain ⟨rfl, rfl⟩ := he
      rw [bump_self, honce]
      simp [hpool, hs]
    · rw [bump_of_ne _ (by tauto), honce]
      simp [he]

/-- A published slot that the rings hold. -/
theorem Placed.hold (h : Placed poolSize s) (hp : s.pubs p = some ⟨r, some x, n⟩) :
    Placed poolSize ((s.setPublisher p (some ⟨r, none, n⟩)).setPublished r x true) := by
  have hpe : s.Pends p r x := ⟨n, hp⟩
  have hnew : ∀ q r' x', ((s.setPublisher p (some ⟨r, none, n⟩)).setPublished r x true).Pends q r' x' ↔
      q ≠ p ∧ s.Pends q r' x' := by
    intro q r' x'
    refine (pends_setPublisher (s := s) (q := q) (r := r') (x := x')).trans ⟨?_, .inr⟩
    rintro (⟨-, m, he⟩ | hq)
    · simp at he
    · exact hq
  have hpub : ∀ r' x', ((s.setPublisher p (some ⟨r, none, n⟩)).setPublished r x true).published r' x' =
      true ↔ (r' = r ∧ x' = x) ∨ s.published r' x' = true := by
    intro r' x'
    simp only [setPublished, setPublisher_published]
    by_cases hr : r' = r
    · subst hr
      by_cases hx : x' = x <;> simp [hx]
    · simp [hr]
  have hoff : ∀ r' x', x' ∈ s.stack r' → ¬(r' = r ∧ x' = x) := by
    rintro r' x' hx ⟨rfl, rfl⟩
    exact (h.free r' x' hx).2 p hpe
  refine ⟨h.nodup, fun r' x' hx => ?_, fun r' x' hx q hq => ?_, fun q q' r' x' h1 h2 => ?_,
    fun r' x' => ?_, h.once⟩
  · refine ⟨?_, fun q hq => (h.free r' x' hx).2 q ((hnew ..).mp hq).2⟩
    by_contra hp'
    rcases (hpub r' x').mp (by simpa using hp') with he | hp'
    · exact hoff r' x' hx he
    · exact Bool.false_ne_true ((h.free r' x' hx).1.symm.trans hp')
  · obtain ⟨hne, hq'⟩ := (hnew ..).mp hq
    rcases (hpub r' x').mp hx with ⟨rfl, rfl⟩ | hx'
    · exact hne (h.unique q p _ _ hq' hpe)
    · exact h.held r' x' hx' q hq'
  · exact h.unique q q' r' x' ((hnew ..).mp h1).2 ((hnew ..).mp h2).2
  · rw [h.total r' x', hpub]
    simp only [hnew]
    constructor
    · rintro (hx | hx | ⟨q, hq⟩)
      · exact .inl hx
      · exact .inr (.inl (.inr hx))
      · by_cases hqp : q = p
        · subst hqp
          obtain ⟨m, hm⟩ := hq
          simp only [hp, Option.some.injEq, Publisher.mk.injEq] at hm
          exact .inr (.inl (.inl ⟨hm.1.symm, hm.2.1.symm⟩))
        · exact .inr (.inr ⟨q, hqp, hq⟩)
    · rintro (hx | (⟨rfl, rfl⟩ | hx) | ⟨q, -, hq⟩)
      · exact .inl hx
      · exact .inr (.inr ⟨p, hpe⟩)
      · exact .inr (.inl hx)
      · exact .inr (.inr ⟨q, hq⟩)

/-- The last reference to a published slot goes. -/
theorem Placed.drop (h : Placed poolSize s) (hp : s.published r x = true) :
    Placed poolSize ((s.setPublished r x false).treiberPush r x) := by
  have hpub : ∀ r' x', ((s.setPublished r x false).treiberPush r x).published r' x' = true ↔
      ¬(r' = r ∧ x' = x) ∧ s.published r' x' = true := by
    intro r' x'
    simp only [setPublished, treiberPush_published]
    by_cases hr : r' = r
    · subst hr
      by_cases hx : x' = x <;> simp [hx]
    · simp [hr]
  have hoff : x ∉ s.stack r := fun hx => Bool.false_ne_true ((h.free r x hx).1.symm.trans hp)
  have hmem : ∀ r' x', x' ∈ ((s.setPublished r x false).treiberPush r x).stack r' ↔
      (r' = r ∧ x' = x) ∨ x' ∈ s.stack r' := by
    intro r' x'
    simp only [treiberPush, setPublished_stack]
    by_cases hr : r' = r
    · subst hr
      simp
    · simp [hr]
  refine ⟨fun r' => ?_, fun r' x' hx => ?_, fun r' x' hx q hq => ?_, h.unique, fun r' x' => ?_,
    fun r' x' => ?_⟩
  · simp only [treiberPush, setPublished_stack]
    by_cases hr : r' = r
    · subst hr
      simpa using ⟨hoff, h.nodup r'⟩
    · simpa [hr] using h.nodup r'
  · rcases (hmem r' x').mp hx with he | hx'
    · refine ⟨?_, fun q hq => h.held r x hp q (he.1 ▸ he.2 ▸ hq)⟩
      by_contra hp'
      exact ((hpub r' x').mp (by simpa using hp')).1 he
    · refine ⟨?_, (h.free r' x' hx').2⟩
      by_contra hp'
      exact Bool.false_ne_true ((h.free r' x' hx').1.symm.trans ((hpub r' x').mp (by simpa using hp')).2)
  · exact h.held r' x' ((hpub r' x').mp hx).2 q hq
  · rw [h.total r' x', hmem, hpub]
    constructor
    · rintro (hx | hx | hq)
      · exact .inl (.inr hx)
      · by_cases he : r' = r ∧ x' = x
        · exact .inl (.inl he)
        · exact .inr (.inl ⟨he, hx⟩)
      · exact .inr (.inr hq)
    · rintro ((⟨rfl, rfl⟩ | hx) | ⟨-, hx⟩ | hq)
      · exact .inr (.inl hp)
      · exact .inl hx
      · exact .inr (.inl hx)
      · exact .inr (.inr hq)
  · have hpool : x < poolSize r := (h.total r x).mpr (.inr (.inl hp))
    have honce := h.once r' x'
    simp only [hmem]
    change s.pops r' x' = bump s.pushes r x r' x' + _
    by_cases he : r' = r ∧ x' = x
    · obtain ⟨rfl, rfl⟩ := he
      rw [bump_self]
      simp only [hpool, hoff, not_false_eq_true, and_self, if_true] at honce
      simp [honce]
    · rw [bump_of_ne _ (by tauto), honce]
      simp [he]

end Kickmsg.Handles.State
