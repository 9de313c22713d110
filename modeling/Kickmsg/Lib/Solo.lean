import Mathlib.Data.List.Basic
import Mathlib.Data.Nat.Basic

/-!
# An automaton that runs alone

`solo step s es` is the run of a step function from `s`, where `es` are the choices its environment makes.
What a call does is what holds when such a run comes to rest: an invariant says it, a measure bounds the
run, and a step that does not depend on the choice has one end only.
-/

namespace Kickmsg.Lib

variable {S E : Type*} {step : S → E → Option S}

/-- The run on the choices `es`. -/
def solo (step : S → E → Option S) (s : S) (es : List E) : Option S := es.foldlM step s

@[simp] theorem solo_nil (s : S) : solo step s [] = some s := rfl

@[simp] theorem solo_cons (s : S) (e : E) (es : List E) :
    solo step s (e :: es) = (step s e).bind fun s' => solo step s' es := List.foldlM_cons

theorem solo_append (s : S) (es fs : List E) :
    solo step s (es ++ fs) = (solo step s es).bind fun s' => solo step s' fs := List.foldlM_append

/-- What survives every step holds at the end of a run. -/
theorem solo_invariant {I : S → Prop} (hstep : ∀ s e s', I s → step s e = some s' → I s') {s s' : S}
    {es : List E} (hI : I s) (h : solo step s es = some s') : I s' := by
  induction es generalizing s with
  | nil => exact Option.some.inj h ▸ hI
  | cons e es ih =>
    obtain ⟨s₁, h₁, h⟩ := Option.bind_eq_some_iff.mp ((solo_cons s e es).symm.trans h)
    exact ih (hstep s e s₁ hI h₁) h

/-- A run is no longer than a measure that each step lowers, and the choices that stall it. -/
theorem solo_length {I : S → Prop} (hstep : ∀ s e s', I s → step s e = some s' → I s')
    (stalls : E → Bool) (μ : S → Nat)
    (hμ : ∀ s e s', I s → step s e = some s' → μ s' + 1 ≤ μ s + (stalls e).toNat) {s s' : S}
    {es : List E} (hI : I s) (h : solo step s es = some s') :
    es.length ≤ μ s + es.countP stalls := by
  induction es generalizing s with
  | nil => exact Nat.zero_le _
  | cons e es ih =>
    obtain ⟨s₁, h₁, h⟩ := Option.bind_eq_some_iff.mp ((solo_cons s e es).symm.trans h)
    have hlen := ih (hstep s e s₁ hI h₁) h
    have hle := hμ s e s₁ hI h₁
    rw [List.length_cons, List.countP_cons]
    cases hs : stalls e <;> simp only [hs, Bool.toNat_true, Bool.toNat_false, if_true] at hle ⊢
    · simp only [Bool.false_eq_true, if_false]
      omega
    · omega

/-- Where the choices do not matter, two runs that come to rest end alike. -/
theorem solo_unique (hdet : ∀ s e e', step s e = step s e') {s y z : S} {es fs : List E}
    (hy : solo step s es = some y) (hz : solo step s fs = some z) (hyr : ∀ e, step y e = none)
    (hzr : ∀ e, step z e = none) : y = z := by
  induction es generalizing s fs with
  | nil =>
    obtain rfl := Option.some.inj hy
    cases fs with
    | nil => exact Option.some.inj hz
    | cons f fs =>
      rw [solo_cons, hyr] at hz
      cases hz
  | cons e es ih =>
    obtain ⟨s₁, h₁, hy⟩ := Option.bind_eq_some_iff.mp ((solo_cons s e es).symm.trans hy)
    cases fs with
    | nil =>
      obtain rfl := Option.some.inj hz
      rw [hzr] at h₁
      cases h₁
    | cons f fs =>
      rw [solo_cons, hdet s f e, h₁] at hz
      exact ih hy hz

/-- Some run leads from `s` to `s'`. -/
def Leads (step : S → E → Option S) (s s' : S) : Prop := ∃ es, solo step s es = some s'

namespace Leads

variable {s s' s'' : S}

theorem refl (s : S) : Leads step s s := ⟨[], rfl⟩

theorem trans (h : Leads step s s') (h' : Leads step s' s'') : Leads step s s'' := by
  obtain ⟨es, hes⟩ := h
  obtain ⟨fs, hfs⟩ := h'
  exact ⟨es ++ fs, by rw [solo_append, hes, Option.bind_some, hfs]⟩

theorem head {e : E} (h : step s e = some s') (h' : Leads step s' s'') : Leads step s s'' := by
  obtain ⟨es, hes⟩ := h'
  exact ⟨e :: es, by rw [solo_cons, h, Option.bind_some, hes]⟩

end Leads

/-- Whatever the environment chooses, the run from here comes to a state of `P`, and all states before
that are in `I`. -/
inductive Through (step : S → E → Option S) (I P : S → Prop) : S → Prop
  | here {s : S} (h : P s) : Through step I P s
  | next {s : S} (hI : I s) (hp : ∀ e, step s e ≠ none)
    (h : ∀ e s', step s e = some s' → Through step I P s') : Through step I P s

/-- Whatever the environment chooses, the run from here comes to a state of `P`. -/
abbrev Ends (step : S → E → Option S) (P : S → Prop) : S → Prop := Through step (fun _ => True) P

namespace Through

variable {I P Q : S → Prop} {s s' : S}

/-- One step. -/
theorem advance (f : E → S) (hI : I s) (h : ∀ e, step s e = some (f e))
    (h' : ∀ e, Through step I P (f e)) : Through step I P s := by
  refine .next hI (fun e he => ?_) fun e x hx => ?_
  · rw [h] at he
    cases he
  · rw [h] at hx
    exact Option.some.inj hx ▸ h' e

/-- One step, to the same state for every choice. -/
theorem step_eq {t : S} (hI : I s) (h : ∀ e, step s e = some t) (h' : Through step I P t) :
    Through step I P s :=
  .advance (fun _ => t) hI h fun _ => h'

theorem bind (h : Through step I P s) (h' : ∀ x, P x → Through step I Q x) : Through step I Q s := by
  induction h with
  | here h => exact h' _ h
  | next hI hp _ ih => exact .next hI hp fun e x hx => ih e x hx

theorem mono (h : Through step I P s) (h' : ∀ x, P x → Q x) : Through step I Q s :=
  h.bind fun x hx => .here (h' x hx)

/-- A run that stops anywhere stops in `I`. -/
theorem along (h : Through step I P s) (hP : ∀ x, P x → I x ∧ ∀ e, step x e = none) {es : List E}
    (hs : solo step s es = some s') : I s' := by
  induction h generalizing es with
  | here h =>
    cases es with
    | nil => exact Option.some.inj hs ▸ (hP _ h).1
    | cons e es =>
      rw [solo_cons, (hP _ h).2] at hs
      cases hs
  | next hI hp _ ih =>
    cases es with
    | nil => exact Option.some.inj hs ▸ hI
    | cons e es =>
      obtain ⟨x, hx, hs⟩ := Option.bind_eq_some_iff.mp ((solo_cons _ e es).symm.trans hs)
      exact ih e x hx hs

end Through

end Kickmsg.Lib
