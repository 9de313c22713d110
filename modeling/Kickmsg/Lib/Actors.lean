import Kickmsg.Lib.Transition

/-!
# Actors over shared words, in processes that can die

A program is given by what an actor asks of the shared memory next (`request`) and by what it does with
the answer (`resume`); calls start it from the outside. Any number of actors run it, interleaved access
by access. An actor belongs to a process. A process may exit at any moment, which stops its actors where
they are, for good: an identity (pid and start time) that has exited never comes back.

Words are natural numbers; a program that depends on the width of a word reduces the values it stores and
says where its counters wrap.
-/

namespace Kickmsg.Lib

/-- One access. `probe` asks the operating system about processes, `clock` reads a clock, and `pause`
touches nothing. `fetchAdd` counts modulo `modulus`, if one is given. -/
inductive Access (L Q : Type)
  | load (l : L)
  | store (l : L) (v : Nat)
  | cas (l : L) (expected desired : Nat)
  | fetchAdd (l : L) (k : Nat) (modulus : Option Nat)
  | probe (q : Q)
  | clock
  | pause

/-- What an access answers: the value read, and a flag (the success of a compare-exchange, the verdict
of a probe). -/
structure Answer where
  val : Nat
  ok : Bool

/-- Processes are told apart by pid and start time, with this proof in every module, whatever else it imports;
hence its priority. -/
instance (priority := 2000) lawful_process : LawfulBEq (Nat × Nat) := inferInstance

/-- The processes that exist (pid to start time) and those that have exited. -/
structure World where
  procs : Nat → Option Nat
  gone : List (Nat × Nat)

namespace World

/-- Process `p` runs. -/
def alive (w : World) (p : Nat × Nat) : Bool := decide (w.procs p.1 = some p.2)

/-- What has exited does not run, and what runs has a nonzero pid and start time. -/
structure Sound (w : World) : Prop where
  gone : ∀ p ∈ w.gone, w.alive p = false
  nonzero : ∀ p, w.alive p = true → p.1 ≠ 0 ∧ p.2 ≠ 0

def exit (w : World) (pid : Nat) : Option World :=
  match w.procs pid with
  | some starttime => some ⟨Function.update w.procs pid none, (pid, starttime) :: w.gone⟩
  | none => none

def spawn (w : World) (pid starttime : Nat) : Option World :=
  if w.procs pid = none ∧ pid ≠ 0 ∧ starttime ≠ 0 ∧ (pid, starttime) ∉ w.gone then
    some { w with procs := Function.update w.procs pid (some starttime) }
  else none

/-- `w'` comes after `w`: what was gone stays gone, and what ran either runs or is gone. -/
structure Le (w w' : World) : Prop where
  gone : ∀ p ∈ w.gone, p ∈ w'.gone
  alive : ∀ p, w.alive p = true → w'.alive p = true ∨ p ∈ w'.gone

/-- Process `p` has run. -/
def Known (w : World) (p : Nat × Nat) : Prop := w.alive p = true ∨ p ∈ w.gone

theorem Known.le {w w' : World} {p : Nat × Nat} (h : w.Known p) (hle : w.Le w') : w'.Known p := by
  rcases h with h | h
  · exact hle.alive p h
  · exact .inr (hle.gone p h)

/-- A process that has run and does not run any more is gone. -/
theorem Known.gone {w : World} {p : Nat × Nat} (h : w.Known p) (hd : w.alive p = false) :
    p ∈ w.gone := by
  rcases h with h | h
  · rw [hd] at h
    simp at h
  · exact h

theorem Sound.not_gone {w : World} {p : Nat × Nat} (hs : w.Sound) (h : w.alive p = true) :
    p ∉ w.gone := by
  intro hg
  rw [hs.gone p hg] at h
  simp at h

theorem Le.refl (w : World) : w.Le w := ⟨fun _ h => h, fun _ h => .inl h⟩

theorem exit_le {w w' : World} {pid : Nat} (h : w.exit pid = some w') : w.Le w' := by
  unfold exit at h
  split at h
  · rename_i st hst
    obtain rfl := Option.some.inj h
    refine ⟨fun p hp => List.mem_cons_of_mem _ hp, fun p hp => ?_⟩
    simp only [World.alive, decide_eq_true_eq] at hp ⊢
    by_cases he : p.1 = pid
    · right
      rw [he, hst, Option.some.injEq] at hp
      rw [show p = (pid, st) from Prod.ext he hp.symm]
      exact List.mem_cons_self
    · left
      rwa [Function.update_of_ne he]
  · simp at h

theorem spawn_le {w w' : World} {pid st : Nat} (h : w.spawn pid st = some w') : w.Le w' := by
  unfold spawn at h
  split at h
  · rename_i hc
    obtain rfl := Option.some.inj h
    refine ⟨fun p hp => hp, fun p hp => .inl ?_⟩
    simp only [World.alive, decide_eq_true_eq] at hp ⊢
    rw [Function.update_of_ne, hp]
    rintro rfl
    rw [hc.1] at hp
    simp at hp
  · simp at h

/-- Another process than the one that exits goes on. -/
theorem alive_exit {w w' : World} {pid : Nat} (h : w.exit pid = some w') {p : Nat × Nat} (hp : p.1 ≠ pid)
    (ha : w.alive p = true) : w'.alive p = true := by
  unfold exit at h
  split at h
  · obtain rfl := Option.some.inj h
    simp only [World.alive, decide_eq_true_eq] at ha ⊢
    rwa [Function.update_of_ne hp]
  · simp at h

theorem alive_spawn {w w' : World} {pid st : Nat} (h : w.spawn pid st = some w') {p : Nat × Nat}
    (ha : w.alive p = true) : w'.alive p = true := by
  unfold spawn at h
  split at h
  · rename_i hc
    obtain rfl := Option.some.inj h
    simp only [World.alive, decide_eq_true_eq] at ha ⊢
    rwa [Function.update_of_ne]
    rintro rfl
    rw [hc.1] at ha
    simp at ha
  · simp at h

theorem Sound.exit {w w' : World} {pid : Nat} (hs : w.Sound) (h : w.exit pid = some w') :
    w'.Sound := by
  unfold World.exit at h
  split at h
  · rename_i st hst
    obtain rfl := Option.some.inj h
    have hdown : ∀ p : Nat × Nat, w.alive p = false →
        (World.mk (Function.update w.procs pid none) ((pid, st) :: w.gone)).alive p = false := by
      intro p hp
      simp only [World.alive, decide_eq_false_iff_not] at hp ⊢
      by_cases he : p.1 = pid
      · simp [he]
      · rwa [Function.update_of_ne he]
    refine ⟨fun p hp => ?_, fun p hp => hs.nonzero p ?_⟩
    · rcases List.mem_cons.mp hp with rfl | hp
      · simp [World.alive]
      · exact hdown p (hs.gone p hp)
    · by_contra hn
      rw [hdown p (by simpa using hn)] at hp
      simp at hp
  · simp at h

theorem Sound.spawn {w w' : World} {pid st : Nat} (hs : w.Sound) (h : w.spawn pid st = some w') :
    w'.Sound := by
  unfold World.spawn at h
  split at h
  · rename_i hc
    obtain rfl := Option.some.inj h
    have hother : ∀ p : Nat × Nat, p.1 ≠ pid →
        (World.mk (Function.update w.procs pid (some st)) w.gone).alive p = w.alive p := by
      intro p hp
      simp only [World.alive, Function.update_of_ne hp]
    refine ⟨fun p hp => ?_, fun p hp => ?_⟩
    · by_cases he : p.1 = pid
      · simp only [World.alive, he, Function.update_self, Option.some.injEq,
          decide_eq_false_iff_not]
        intro hst
        exact hc.2.2.2 (by rwa [show (pid, st) = p from Prod.ext he.symm hst])
      · rw [hother p he]
        exact hs.gone p hp
    · by_cases he : p.1 = pid
      · simp only [World.alive, he, Function.update_self, Option.some.injEq,
          decide_eq_true_eq] at hp
        exact ⟨he ▸ hc.2.1, hp ▸ hc.2.2.1⟩
      · rw [hother p he] at hp
        exact hs.nonzero p hp
  · simp at h

end World

section Exec

variable {L Q : Type} [DecidableEq L]

/-- Perform an access. `now` is the clock's. -/
def Access.exec (verdict : (Nat → Option Nat) → Q → Bool) (procs : Nat → Option Nat) (m : L → Nat)
    (now : Nat) : Access L Q → (L → Nat) × Answer
  | .load l => (m, ⟨m l, true⟩)
  | .store l v => (Function.update m l v, ⟨0, true⟩)
  | .cas l expected desired =>
    if m l = expected then (Function.update m l desired, ⟨m l, true⟩) else (m, ⟨m l, false⟩)
  | .fetchAdd l k none => (Function.update m l (m l + k), ⟨m l, true⟩)
  | .fetchAdd l k (some modulus) => (Function.update m l ((m l + k) % modulus), ⟨m l, true⟩)
  | .probe q => (m, ⟨0, verdict procs q⟩)
  | .clock => (m, ⟨now, true⟩)
  | .pause => (m, ⟨0, true⟩)

/-- The word an access may change. -/
def Access.target : Access L Q → Option L
  | .store l _ | .cas l _ _ | .fetchAdd l _ _ => some l
  | _ => none

theorem Access.exec_frame {verdict : (Nat → Option Nat) → Q → Bool} {procs : Nat → Option Nat}
    {m : L → Nat} {now : Nat} {a : Access L Q} {l : L} (h : a.target ≠ some l) :
    (a.exec verdict procs m now).1 l = m l := by
  cases a <;>
    simp only [Access.target, ne_eq, Option.some.injEq, reduceCtorEq, not_false_eq_true] at h <;>
    simp only [Access.exec]
  case cas =>
    split
    · exact Function.update_of_ne (Ne.symm h) ..
    · rfl
  case fetchAdd l' k modulus => cases modulus <;> exact Function.update_of_ne (Ne.symm h) ..
  all_goals exact Function.update_of_ne (Ne.symm h) ..

end Exec

/-- A program: its accesses, its calls, the answers of the operating system, and the bookkeeping of a
run that statements speak about and the program does not keep. -/
structure Program (ι L Q A C G : Type) where
  request : A → Option (Access L Q)
  resume : A → Answer → A
  call : A → C → Option A
  verdict : (Nat → Option Nat) → Q → Bool
  track : G → (L → Nat) → ι → A → Access L Q → Answer → G
  trackCall : G → (L → Nat) → ι → A → C → G

/-- Shared words, processes and actors. -/
structure Shared (ι L A G : Type) where
  mem : L → Nat
  world : World
  th : ι → A
  ghost : G

/-- One step: an actor performs its next access, a call starts, a process exits or starts. -/
inductive Action (ι C : Type)
  | run (t : ι) (now : Nat)
  | call (t : ι) (c : C)
  | exit (pid : Nat)
  | spawn (pid starttime : Nat)

namespace Program

variable {ι L Q A C G : Type} [DecidableEq ι] [DecidableEq L]

/-- The state after actor `t` has performed access `a`. -/
def ran (P : Program ι L Q A C G) (s : Shared ι L A G) (t : ι) (a : Access L Q) (now : Nat) :
    Shared ι L A G :=
  { s with
    mem := (a.exec P.verdict s.world.procs s.mem now).1
    th := Function.update s.th t (P.resume (s.th t) (a.exec P.verdict s.world.procs s.mem now).2)
    ghost := P.track s.ghost s.mem t (s.th t) a (a.exec P.verdict s.world.procs s.mem now).2 }

def next (P : Program ι L Q A C G) (proc : ι → Nat × Nat) (s : Shared ι L A G) :
    Action ι C → Option (Shared ι L A G)
  | .run t now =>
    if s.world.alive (proc t) then (P.request (s.th t)).map fun a => P.ran s t a now else none
  | .call t c =>
    if s.world.alive (proc t) then
      (P.call (s.th t) c).map fun a =>
        { s with th := Function.update s.th t a, ghost := P.trackCall s.ghost s.mem t (s.th t) c }
    else none
  | .exit pid => (s.world.exit pid).map fun w => { s with world := w }
  | .spawn pid st => (s.world.spawn pid st).map fun w => { s with world := w }

/-- The system of a program. -/
def machine (P : Program ι L Q A C G) (proc : ι → Nat × Nat) (init : Shared ι L A G → Prop) :
    LTS (Shared ι L A G) (Action ι C) :=
  .ofNext init (P.next proc)

variable {P : Program ι L Q A C G} {proc : ι → Nat × Nat} {s s' : Shared ι L A G}

theorem run_cases {t : ι} {now : Nat} (h : P.next proc s (.run t now) = some s') :
    s.world.alive (proc t) = true ∧ ∃ a, P.request (s.th t) = some a ∧ s' = P.ran s t a now := by
  simp only [next] at h
  split at h
  · rename_i ha
    obtain ⟨a, ha', hs'⟩ := Option.map_eq_some_iff.mp h
    exact ⟨ha, a, ha', hs'.symm⟩
  · simp at h

theorem call_cases {t : ι} {c : C} (h : P.next proc s (.call t c) = some s') :
    s.world.alive (proc t) = true ∧ ∃ a, P.call (s.th t) c = some a ∧
      s' = { s with th := Function.update s.th t a
                    ghost := P.trackCall s.ghost s.mem t (s.th t) c } := by
  simp only [next] at h
  split at h
  · rename_i ha
    obtain ⟨a, ha', hs'⟩ := Option.map_eq_some_iff.mp h
    exact ⟨ha, a, ha', hs'.symm⟩
  · simp at h

theorem exit_cases {pid : Nat} (h : P.next proc s (.exit pid) = some s') :
    ∃ w, s.world.exit pid = some w ∧ s' = { s with world := w } := by
  simp only [next] at h
  obtain ⟨w, hw, hs'⟩ := Option.map_eq_some_iff.mp h
  exact ⟨w, hw, hs'.symm⟩

theorem spawn_cases {pid st : Nat} (h : P.next proc s (.spawn pid st) = some s') :
    ∃ w, s.world.spawn pid st = some w ∧ s' = { s with world := w } := by
  simp only [next] at h
  obtain ⟨w, hw, hs'⟩ := Option.map_eq_some_iff.mp h
  exact ⟨w, hw, hs'.symm⟩

/-- The processes only move on. -/
theorem world_next {l : Action ι C} (h : P.next proc s l = some s') :
    s.world.Le s'.world ∧ (s.world.Sound → s'.world.Sound) := by
  cases l with
  | run t now =>
    obtain ⟨-, a, -, rfl⟩ := run_cases h
    exact ⟨.refl _, id⟩
  | call t c =>
    obtain ⟨-, a, -, rfl⟩ := call_cases h
    exact ⟨.refl _, id⟩
  | exit pid =>
    obtain ⟨w, hw, rfl⟩ := exit_cases h
    exact ⟨World.exit_le hw, fun hs => hs.exit hw⟩
  | spawn pid st =>
    obtain ⟨w, hw, rfl⟩ := spawn_cases h
    exact ⟨World.spawn_le hw, fun hs => hs.spawn hw⟩

/-- The invariant rule of a program: an invariant of the world alone, the accesses, the calls, and a
world that moves on. -/
theorem invariant {init : Shared ι L A G → Prop}
    {ok : Shared ι L A G → Action ι C → Shared ι L A G → Prop} {I : Shared ι L A G → Prop}
    (h0 : ∀ s, init s → I s ∧ s.world.Sound)
    (hrun : ∀ s t now a, I s → s.world.Sound → s.world.alive (proc t) = true →
      P.request (s.th t) = some a → ok s (.run t now) (P.ran s t a now) → I (P.ran s t a now))
    (hcall : ∀ s t c a, I s → s.world.Sound → s.world.alive (proc t) = true →
      P.call (s.th t) c = some a →
      I { s with th := Function.update s.th t a, ghost := P.trackCall s.ghost s.mem t (s.th t) c })
    (hworld : ∀ s w, I s → s.world.Sound → s.world.Le w → w.Sound → I { s with world := w })
    (h : (P.machine proc init).Reach ok s) : I s ∧ s.world.Sound := by
  refine h.invariant h0 fun s l s' ⟨hI, hs⟩ hst hok => ?_
  refine ⟨?_, (world_next hst).2 hs⟩
  cases l with
  | run t now =>
    obtain ⟨ha, a, hreq, rfl⟩ := run_cases hst
    exact hrun s t now a hI hs ha hreq hok
  | call t c =>
    obtain ⟨ha, a, hc, rfl⟩ := call_cases hst
    exact hcall s t c a hI hs ha hc
  | exit pid =>
    obtain ⟨w, hw, rfl⟩ := exit_cases hst
    exact hworld s w hI hs (World.exit_le hw) (hs.exit hw)
  | spawn pid st =>
    obtain ⟨w, hw, rfl⟩ := spawn_cases hst
    exact hworld s w hI hs (World.spawn_le hw) (hs.spawn hw)

end Program

end Kickmsg.Lib
