import Kickmsg.Lib.Transition

/-!
# Runs with their past

`M.traced` remembers the states that a run has left, latest first. What a system can enter only once, it is
in for one stretch of its run.
-/

namespace Kickmsg.Lib

namespace LTS

variable {S L : Type*} {M : LTS S L} {ok : S → L → S → Prop}

/-- The system with the states it has left. -/
def traced (M : LTS S L) : LTS (S × List S) L where
  init x := M.init x.1 ∧ x.2 = []
  step x l y := M.step x.1 l y.1 ∧ y.2 = x.1 :: x.2

/-- A condition on the steps, of the traced system. -/
def onNow (ok : S → L → S → Prop) : S × List S → L → S × List S → Prop := fun x l y => ok x.1 l y.1

/-- All states of a run, latest first. -/
def states (x : S × List S) : List S := x.1 :: x.2

/-- Every run is one with a past. -/
theorem Reach.traced {s : S} (h : M.Reach ok s) : ∃ past, M.traced.Reach (onNow ok) (s, past) := by
  induction h with
  | init h => exact ⟨[], .init ⟨h, rfl⟩⟩
  | @step s s' l _ hs ho ih =>
    obtain ⟨past, hr⟩ := ih
    have hstep : M.traced.step (s, past) l (s', s :: past) := ⟨hs, rfl⟩
    exact ⟨s :: past, .step hr hstep ho⟩

/-- The past of a run that is followed further. -/
theorem Reach.traced_play {init : S → Prop} {next : S → L → Option S} {ok : S → L → Bool} {s s' : S}
    {past : List S} {ls : List L}
    (h : (ofNext init next).traced.Reach (onNow fun s l _ => ok s l = true) (s, past))
    (hp : LTS.play next ok s ls = some s') :
    ∃ past', (ofNext init next).traced.Reach (onNow fun s l _ => ok s l = true) (s', past') ∧
      s :: past <:+ s' :: past' := by
  induction ls generalizing s past with
  | nil =>
    simp only [LTS.play, Option.some.injEq] at hp
    subst hp
    exact ⟨past, h, List.suffix_refl _⟩
  | cons l ls ih =>
    simp only [LTS.play] at hp
    split at hp
    · rename_i hok
      obtain ⟨s₁, hs₁, hp⟩ := Option.bind_eq_some_iff.mp hp
      have hstep : (ofNext init next).traced.step (s, past) l (s₁, s :: past) := ⟨hs₁, rfl⟩
      obtain ⟨past', hr, hsuf⟩ := ih (.step h hstep hok) hp
      exact ⟨past', hr, (List.suffix_cons _ _).trans hsuf⟩
    · simp at hp

/-- Between two states of the run in which `A` holds it holds throughout. -/
def Convex (A : S → Prop) (run : List S) : Prop :=
  ∀ new b mid a old, run = new ++ b :: (mid ++ a :: old) → A a → A b → ∀ c ∈ mid, A c

theorem Convex.cons {A : S → Prop} {s t : S} {run : List S} (h : Convex A (s :: run))
    (hgain : A t → A s ∨ ∀ a ∈ s :: run, ¬ A a) : Convex A (t :: s :: run) := by
  intro new b mid a old hrun ha hb c hc
  cases new with
  | cons x new =>
    rw [List.cons_append, List.cons.injEq] at hrun
    exact h new b mid a old hrun.2 ha hb c hc
  | nil =>
    rw [List.nil_append, List.cons.injEq] at hrun
    obtain ⟨rfl, hrun⟩ := hrun
    cases mid with
    | nil => cases hc
    | cons x mid =>
      rw [List.cons_append, List.cons.injEq] at hrun
      obtain ⟨rfl, hrest⟩ := hrun
      rcases hgain hb with hs | hnone
      · rcases List.mem_cons.mp hc with rfl | hc
        · exact hs
        · exact h [] s mid a old (by rw [hrest]; rfl) ha hs c hc
      · exact absurd ha (hnone a (by rw [hrest]; simp))

/-- A property that a step can bring about only in a run that never had it holds on one stretch of the run. -/
theorem Reach.convex {A : S → Prop}
    (hgain : ∀ x l y, M.traced.Reach (onNow ok) x → M.traced.step x l y → onNow ok x l y → A y.1 →
      A x.1 ∨ ∀ a ∈ states x, ¬ A a)
    {x : S × List S} (h : M.traced.Reach (onNow ok) x) : Convex A (states x) := by
  induction h with
  | @init x h =>
    intro new b mid a old hrun
    rw [states, h.2] at hrun
    have hlen := congrArg List.length hrun
    simp at hlen
    omega
  | @step x y l hr hs ho ih =>
    rw [states, hs.2]
    exact ih.cons fun hA => hgain x l y hr hs ho hA

end LTS

end Kickmsg.Lib
