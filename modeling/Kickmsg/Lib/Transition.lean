import Mathlib.Logic.Function.Basic

/-!
# Labelled transition systems with a condition on the steps

A run is a sequence of steps from an initial state. `M.Reach ok s` says that `s` ends a run each of
whose steps satisfies `ok`; a claim about "every run in which ..." is a claim about `Reach ok`.
-/

namespace Kickmsg.Lib

/-- What holds of every member of a family holds after one member is replaced by one it holds of. -/
theorem forall_update {ι α : Type*} [DecidableEq ι] {P : α → Prop} {f : ι → α} (h : ∀ v, P (f v))
    {t : ι} {a : α} (ha : P a) (v : ι) : P (Function.update f t a v) :=
  (Function.forall_update_iff f fun _ a => P a).mpr ⟨ha, fun v _ => h v⟩ v

/-- The same, when what holds may depend on the index. -/
theorem forall_update_of {ι α : Type*} [DecidableEq ι] (P : ι → α → Prop) {f : ι → α}
    (h : ∀ v, P v (f v)) {t : ι} {a : α} (ha : P t a) (v : ι) : P v (Function.update f t a v) :=
  (Function.forall_update_iff f fun v a => P v a).mpr ⟨ha, fun v _ => h v⟩ v

/-- A labelled transition system. -/
structure LTS (S L : Type*) where
  init : S → Prop
  step : S → L → S → Prop

namespace LTS

variable {S L : Type*} {M : LTS S L}

/-- The states that end a run whose steps all satisfy `ok`. -/
inductive Reach (M : LTS S L) (ok : S → L → S → Prop) : S → Prop
  | init {s : S} (h : M.init s) : Reach M ok s
  | step {s s' : S} {l : L} (h : Reach M ok s) (hs : M.step s l s') (ho : ok s l s') : Reach M ok s'

/-- Every step is allowed. -/
def any : S → L → S → Prop := fun _ _ _ => True

/-- The invariant rule: what holds initially and survives every allowed step holds on every run. -/
theorem Reach.invariant {ok : S → L → S → Prop} {I : S → Prop} (h0 : ∀ s, M.init s → I s)
    (hstep : ∀ s l s', I s → M.step s l s' → ok s l s' → I s') {s : S} (h : M.Reach ok s) : I s := by
  induction h with
  | init h => exact h0 _ h
  | step _ hs ho ih => exact hstep _ _ _ ih hs ho

/-- The invariant rule relative to an invariant that is already known. -/
theorem Reach.invariant_of {ok : S → L → S → Prop} {J I : S → Prop}
    (hJ : ∀ {s}, M.Reach ok s → J s) (h0 : ∀ s, M.init s → I s)
    (hstep : ∀ s l s', J s → I s → M.step s l s' → ok s l s' → I s') {s : S}
    (h : M.Reach ok s) : I s := by
  induction h with
  | init h => exact h0 _ h
  | step hr hs ho ih => exact hstep _ _ _ (hJ hr) ih hs ho

/-- A run under a stronger condition is a run under a weaker one. -/
theorem Reach.mono {ok ok' : S → L → S → Prop}
    (hle : ∀ s l s', M.step s l s' → ok s l s' → ok' s l s') {s : S} (h : M.Reach ok s) :
    M.Reach ok' s := by
  induction h with
  | init h => exact .init h
  | step _ hs ho ih => exact .step ih hs (hle _ _ _ hs ho)

/-- The system of a step function; `ok` restricts its runs. -/
def ofNext (init : S → Prop) (next : S → L → Option S) : LTS S L where
  init := init
  step s l s' := next s l = some s'

/-- Follow a list of labels, as long as each is enabled and allowed. -/
def play (next : S → L → Option S) (ok : S → L → Bool) : S → List L → Option S
  | s, [] => some s
  | s, l :: ls => if ok s l then (next s l).bind fun s' => play next ok s' ls else none

/-- What a list of labels leads to is reached. -/
theorem Reach.play {init : S → Prop} {next : S → L → Option S} {ok : S → L → Bool} {s s' : S}
    {ls : List L} (h : (ofNext init next).Reach (fun s l _ => ok s l = true) s)
    (hp : play next ok s ls = some s') :
    (ofNext init next).Reach (fun s l _ => ok s l = true) s' := by
  induction ls generalizing s with
  | nil =>
    simp only [LTS.play, Option.some.injEq] at hp
    exact hp ▸ h
  | cons l ls ih =>
    simp only [LTS.play] at hp
    split at hp
    · rename_i hok
      obtain ⟨s₁, hs₁, hp⟩ := Option.bind_eq_some_iff.mp hp
      exact ih (.step h hs₁ hok) hp
    · simp at hp

/-- A list of labels, played and tested. -/
theorem Reach.play_any {init : S → Prop} {next : S → L → Option S} {ok : S → L → Bool} {s : S}
    (h : (ofNext init next).Reach (fun s l _ => ok s l = true) s) (ls : List L) (P : S → Bool)
    (hp : (LTS.play next ok s ls).any P = true) :
    ∃ s', (ofNext init next).Reach (fun s l _ => ok s l = true) s' ∧ P s' = true := by
  obtain ⟨s', hs', hP⟩ := (Option.any_eq_true _ _).mp hp
  exact ⟨s', h.play hs', hP⟩

end LTS

end Kickmsg.Lib
