import Kickmsg.Registry.Rows

/-!
# One writer to a row

Two mechanisms guard a row: the state, which a registrant and a deregistrant move by compare-exchange, and
the generation, which a sweeper makes odd. Together they leave the row to one live thread at a time, a row
to its live registrant until it deregisters, and every row accounted for as long as nobody dies.
-/

namespace Kickmsg.Registry

open Lib

/-- The row whose fields a running call may write: the registrant's from the claim until the generation
is settled, the deregistrant's from `Reclaiming` to `Free`, the sweeper's from the odd generation to
`Free`. -/
def Pc.writes : Pc → Option Nat
  | .openLoad _ i | .openStore _ i _ | .fill _ i _ _ | .activate _ i | .settleLoad _ i
  | .settleStore _ i _ => some i
  | .deregOpenLoad i | .deregOpenStore i _ | .deregPid i | .deregStart i | .deregSettleLoad i
  | .deregSettleStore i _ | .deregFree i => some i
  | .sweepReclaim _ _ i | .sweepClearPid _ _ i | .sweepClearStart _ _ i | .sweepSettleLoad _ _ i
  | .sweepSettleStore _ _ i _ | .sweepFree _ _ i => some i
  | _ => none

/-- The row a running `deregister` is about. -/
def Pc.deregisters : Pc → Option Nat
  | .deregCas i | .deregOpenLoad i | .deregOpenStore i _ | .deregPid i | .deregStart i
  | .deregSettleLoad i | .deregSettleStore i _ | .deregFree i => some i
  | _ => none

/-- The thread has registered row `i` and has not called `deregister` for it, or its running call is
registering, deregistering or reclaiming the row. -/
def Actor.owns (a : Actor) (i : Nat) : Prop :=
  i ∈ a.held ∨ a.pc.writes = some i ∨ a.pc.deregisters = some i

theorem Pc.phase_of_writes {pc : Pc} {i : Nat} (h : pc.writes = some i) :
    ∃ φ, pc.phase = some (i, φ) := by
  cases pc <;> simp_all [Pc.writes, Pc.phase]

theorem Pc.phase_of_deregisters {pc : Pc} {i : Nat} (h : pc.deregisters = some i) :
    ∃ φ, pc.phase = some (i, φ) := by
  cases pc <;> simp_all [Pc.deregisters, Pc.phase]

theorem Pc.writes_of_phase {pc : Pc} {i : Nat} {φ : Phase} (h : pc.phase = some (i, φ)) :
    pc.writes = some i ∨ pc.deregisters = some i := by
  cases pc <;> simp_all [Pc.writes, Pc.deregisters, Pc.phase]

/-- Only a thread with the right to write a row stores in it. -/
theorem Actor.writes_of_store {a : Actor} {i v : Nat} {f : Field}
    (h : a.request = some (.store (i, f) v)) : a.pc.writes = some i := by
  unfold Actor.request at h
  cases hpc : a.pc <;> rw [hpc] at h <;> simp_all [Pc.writes]

theorem Actor.owns_of_phase {a : Actor} {i : Nat} {φ : Phase} (h : a.phase i = some φ) :
    a.owns i := by
  cases hp : a.pc.phase with
  | none =>
    rw [Actor.phase_of_none hp] at h
    split at h
    · exact .inl ‹_›
    · simp at h
  | some x =>
    obtain ⟨j, ψ⟩ := x
    by_cases he : i = j
    · subst he
      exact .inr (Pc.writes_of_phase hp)
    · rw [Actor.phase_of_ne hp he] at h
      split at h
      · exact .inl ‹_›
      · simp at h

section System

variable {ι : Type} {proc : ι → Nat × Nat} {s : Shared ι Loc Actor (Trace ι)}

/-- What a thread holds it has registered, unless it has begun to deregister it. -/
theorem Inv.phase_of_held (h : Inv proc s) (hs : s.world.Sound) {t : ι}
    (ha : s.world.alive (proc t) = true) {i : Nat} (hi : i ∈ (s.th t).held) :
    (s.th t).phase i = some .registered := by
  cases hp : (s.th t).pc.phase with
  | none =>
    rw [Actor.phase_of_none hp]
    exact if_pos hi
  | some x =>
    obtain ⟨j, ψ⟩ := x
    have hap := (h.apart t j ψ hp).resolve_left (hs.not_gone ha)
    rw [Actor.phase_of_ne hp (fun he => hap.1 (he ▸ hi))]
    exact if_pos hi

theorem Inv.phase_of_owns (h : Inv proc s) (hs : s.world.Sound) {t : ι}
    (ha : s.world.alive (proc t) = true) {i : Nat} (hi : (s.th t).owns i) :
    ∃ φ, (s.th t).phase i = some φ := by
  rcases hi with hi | hi | hi
  · exact ⟨_, h.phase_of_held hs ha hi⟩
  · obtain ⟨φ, hφ⟩ := Pc.phase_of_writes hi
    exact ⟨φ, Actor.phase_of_pc hφ⟩
  · obtain ⟨φ, hφ⟩ := Pc.phase_of_deregisters hi
    exact ⟨φ, Actor.phase_of_pc hφ⟩

theorem Inv.one_writer (h : Inv proc s) (hs : s.world.Sound) {t u : ι} {i : Nat}
    (ht : s.world.alive (proc t) = true) (hu : s.world.alive (proc u) = true)
    (hti : (s.th t).pc.writes = some i) (hui : (s.th u).pc.writes = some i) : t = u := by
  obtain ⟨φ, hφ⟩ := Pc.phase_of_writes hti
  obtain ⟨ψ, hψ⟩ := Pc.phase_of_writes hui
  by_contra hne
  exact hs.not_gone hu
    (h.others hs ht (Actor.phase_of_pc hφ) (Ne.symm hne) (Actor.phase_of_pc hψ))

/-- A free row names nobody and is settled. -/
theorem Inv.free_row (h : Inv proc s) {i : Nat} (hf : s.mem (i, .state) = free) :
    s.mem (i, .pid) = 0 ∧ s.mem (i, .pidStarttime) = 0 ∧ s.mem (i, .generation) % 2 = 0 := by
  cases ht : s.ghost.tenant i with
  | none =>
    obtain ⟨-, heven, hpid, hst⟩ := h.vacant i ht
    exact ⟨hpid, hst, heven⟩
  | some t =>
    obtain ⟨-, φ, -, hok⟩ := h.tenant i t ht
    exact absurd hf (Phase.state_ne_free hok)

/-- A row that is not free has an owner, who lives unless somebody has died. -/
theorem Inv.owned (h : Inv proc s) {i : Nat} (hf : s.mem (i, .state) ≠ free) :
    ∃ t, s.world.Known (proc t) ∧ (s.th t).owns i := by
  cases ht : s.ghost.tenant i with
  | none => exact absurd (h.vacant i ht).1 hf
  | some t =>
    obtain ⟨hk, φ, hφ, -⟩ := h.tenant i t ht
    exact ⟨t, hk, Actor.owns_of_phase hφ⟩

variable [DecidableEq ι] {capacity now : Nat} {u : ι}

/-- Nobody else changes a word of a live owner's row. -/
theorem Inv.keeps (h : Inv proc s) (hs : s.world.Sound) {t : ι}
    (ht : s.world.alive (proc t) = true) {i : Nat} (hi : (s.th t).owns i) (hut : u ≠ t)
    (hu : s.world.alive (proc u) = true) {a : Access Loc (Nat × Nat)}
    (hreq : (s.th u).request = some a) (hcalm : calm (2 ^ 32) s (.run u now) = true) (f : Field) :
    ((program ι capacity).ran s u a now).mem (i, f) = s.mem (i, f) := by
  obtain ⟨ψ, hψ⟩ := h.phase_of_owns hs ht hi
  have hok := (h.row hs ht hψ).2
  have hnot : ∀ φ, (s.th u).pc.phase ≠ some (i, φ) := fun φ hφ =>
    hs.not_gone hu (h.others hs ht hψ hut (Actor.phase_of_pc hφ))
  by_cases htar : a.target = some (i, f)
  · cases a with
    | load l | probe q | clock | pause | fetchAdd l k modulus =>
      unfold Actor.request at hreq
      split at hreq <;> simp_all [Access.target]
    | store l v =>
      obtain rfl : l = (i, f) := Option.some.inj htar
      obtain ⟨φ, hφ⟩ := Pc.phase_of_writes (Actor.writes_of_store hreq)
      exact absurd hφ (hnot φ)
    | cas l e d =>
      obtain rfl : l = (i, f) := Option.some.inj htar
      dsimp only [Program.ran, Access.exec]
      split_ifs with hm
      · -- a compare-exchange that succeeds: only the acquisition is by a thread that owns nothing
        exfalso
        cases hpc : (s.th u).pc <;> rw [Actor.request, hpc] at hreq <;>
          simp only [Option.some.injEq, Access.cas.injEq, Prod.mk.injEq, reduceCtorEq] at hreq
        case claim =>
          obtain ⟨⟨rfl, rfl⟩, rfl, -⟩ := hreq
          exact Phase.state_ne_free hok hm
        case sweepAcquire k n j g p st =>
          obtain ⟨⟨rfl, rfl⟩, rfl, rfl⟩ := hreq
          have hinv := h.acquire hu hpc hm (by simpa [calm, hpc] using hcalm) hs
          rcases hinv.owner t j ψ (by simpa [Function.update_of_ne (Ne.symm hut)] using hψ) with hg | hg
          · exact hs.not_gone ht hg
          · simp only [Trace.rent, Function.update_self, Option.some.injEq] at hg
            exact hut hg
        all_goals
          obtain ⟨⟨rfl, rfl⟩, -⟩ := hreq
          exact hnot _ (by rw [hpc]; rfl)
      · rfl
  · exact Access.exec_frame htar

/-- A `deregister` that returns has freed its row. -/
theorem Inv.deregistered (h : Inv proc s) (hs : s.world.Sound)
    (ha : s.world.alive (proc u) = true) {i : Nat} (hi : (s.th u).pc.deregisters = some i)
    {a : Access Loc (Nat × Nat)} (hreq : (s.th u).request = some a)
    (hret : (((program ι capacity).ran s u a now).th u).pc = .idle) :
    ((program ι capacity).ran s u a now).mem (i, .state) = free := by
  cases hpc : (s.th u).pc <;> rw [hpc] at hi <;>
    simp only [Pc.deregisters, Option.some.injEq, reduceCtorEq] at hi <;>
    rw [Actor.request, hpc] at hreq <;> obtain rfl := Option.some.inj hreq <;> subst hi
  case deregCas j =>
    obtain ⟨-, hst, -⟩ := h.row hs ha (Actor.phase_of_pc (i := j) (by rw [hpc]; rfl))
    exfalso
    dsimp only [Program.ran, program, Access.exec] at hret
    rw [if_pos (show s.mem (j, .state) = active from hst)] at hret
    simp [Actor.resume, hpc, Actor.goto] at hret
  case deregFree j =>
    obtain ⟨-, hst, -⟩ := h.row hs ha (Actor.phase_of_pc (i := j) (by rw [hpc]; rfl))
    dsimp only [Program.ran, program, Access.exec]
    rw [if_pos (show s.mem (j, .state) = reclaiming from hst)]
    simp
  all_goals
    exfalso
    dsimp only [Program.ran, program, Access.exec] at hret
    simp [Actor.resume, hpc, Actor.goto] at hret

/-- The runs of a registry with `capacity` rows, in which the generation of a row changes fewer than
`2^31` times while a sweep looks at it. -/
def Reached (capacity : Nat) (proc : ι → Nat × Nat) : Shared ι Loc Actor (Trace ι) → Prop :=
  ((program ι capacity).machine proc (Init proc)).Reach (fun s l _ => calm (2 ^ 31) s l = true)

omit [DecidableEq ι] in
theorem calm_mono {m n : Nat} (hmn : m ≤ n) {l : Action ι Call} (h : calm m s l = true) :
    calm n s l = true := by
  cases l with
  | run t now =>
    simp only [calm] at h ⊢
    split <;> simp_all
    omega
  | call | exit | spawn => rfl

theorem inv_reached (h : Reached capacity proc s) : Inv proc s ∧ s.world.Sound :=
  inv_reach (h.mono fun _ _ _ _ hc => calm_mono (by decide) hc)

/-- In every run, with any number of threads in processes that may die at any step: at most one live
thread may write a row's fields; the row of a live registrant, from its claim to the end of its
`deregister`, is changed by nobody else, and once registered it is active and carries the registration; a
free row names nobody and is settled; a `deregister` that returns has freed its row; and as long as no
process has died, a row that is not free has an owner that lives. -/
theorem row_exclusive (h : Reached capacity proc s) :
    (∀ t i f v, (s.th t).request = some (.store (i, f) v) → (s.th t).pc.writes = some i) ∧
    (∀ t u i, s.world.alive (proc t) = true → s.world.alive (proc u) = true →
      (s.th t).pc.writes = some i → (s.th u).pc.writes = some i → t = u) ∧
    (∀ t i, s.world.alive (proc t) = true → i ∈ (s.th t).held →
      s.mem (i, .state) = active ∧ Carries (proc t) (s.ghost.written i) (rowOf s.mem i) ∧
      ∀ u, s.world.alive (proc u) = true → (s.th u).pc.writes ≠ some i) ∧
    (∀ t i, s.world.alive (proc t) = true → (s.th t).owns i → ∀ u now s', u ≠ t →
      (program ι capacity).next proc s (.run u now) = some s' →
      calm (2 ^ 31) s (.run u now) = true → ∀ f, s'.mem (i, f) = s.mem (i, f)) ∧
    (∀ i, s.mem (i, .state) = free →
      s.mem (i, .pid) = 0 ∧ s.mem (i, .pidStarttime) = 0 ∧ s.mem (i, .generation) % 2 = 0) ∧
    (∀ t i now s', (s.th t).pc.deregisters = some i →
      (program ι capacity).next proc s (.run t now) = some s' → (s'.th t).pc = .idle →
      s'.mem (i, .state) = free) ∧
    (s.world.gone = [] → ∀ i, s.mem (i, .state) ≠ free →
      ∃ t, s.world.alive (proc t) = true ∧ (s.th t).owns i) := by
  obtain ⟨hI, hs⟩ := inv_reached h
  refine ⟨fun t i f v => Actor.writes_of_store, fun t u i ht hu => hI.one_writer hs ht hu,
    fun t i ht hi => ?_, fun t i ht hi u now s' hut hn hcalm => ?_, fun i => hI.free_row, fun t i now s' hi hn hret => ?_, fun hg i hf => ?_⟩
  · have hreg := hI.phase_of_held hs ht hi
    obtain ⟨-, hst, -, hcar⟩ := hI.row hs ht hreg
    refine ⟨hst, hcar, fun u hu hw => ?_⟩
    obtain ⟨φ, hφ⟩ := Pc.phase_of_writes hw
    by_cases hut : u = t
    · subst hut
      exact ((hI.apart u i φ hφ).resolve_left (hs.not_gone ht)).1 hi
    · exact hs.not_gone hu (hI.others hs ht hreg hut (Actor.phase_of_pc hφ))
  · obtain ⟨hu, a, hreq, rfl⟩ := Program.run_cases hn
    exact hI.keeps hs ht hi hut hu hreq (calm_mono (by decide) hcalm)
  · obtain ⟨ha, a, hreq, rfl⟩ := Program.run_cases hn
    exact hI.deregistered hs ha hi hreq hret
  · obtain ⟨t, hk, ho⟩ := hI.owned hf
    rcases hk with hk | hk
    · exact ⟨t, hk, ho⟩
    · simp [hg] at hk

/-! ### A row reclaimed beside a row in use -/

section Heirs

/-- Three threads, each in a process of its own. -/
def heirProc (t : Fin 3) : Nat × Nat := (t.val + 1, 1)

def heirs : Shared (Fin 3) Loc Actor (Trace (Fin 3)) where
  mem _ := 0
  world := ⟨fun pid => if 0 < pid ∧ pid ≤ 3 then some 1 else none, []⟩
  th t := ⟨t.val + 1, 1, ∅, .pending, .idle⟩
  ghost := ⟨fun _ => 0, fun _ => ⟨0, 0⟩, fun _ => none, fun _ => []⟩

theorem init_heirs : Init heirProc heirs where
  mem _ := rfl
  world := by
    refine ⟨by simp [heirs], fun p hp => ?_⟩
    simp only [World.alive, heirs, decide_eq_true_eq, Option.ite_none_right_eq_some,
      Option.some.injEq] at hp
    omega
  gone := rfl
  th _ := rfl
  ghost := rfl

/-- There is a first heir. The numerals of the runs below are read with this proof, whatever else is imported;
hence its priority. -/
scoped instance (priority := 2000) neZero_heirs : NeZero 3 := ⟨by decide⟩

def heirArgs : Args := ⟨[47, 107], [116], .pubSub, .pubsub, .publisher, [110]⟩

/-- Thread 0 registers in row 0 and dies, thread 1 registers in row 1, and thread 2 sweeps row 0. -/
def heirRuns : List (Action (Fin 3) Call) :=
  .call 0 (.registerParticipant heirArgs) :: List.replicate 53 (.run 0 5) ++ .exit 1 ::
    .call 1 (.registerParticipant heirArgs) :: List.replicate 54 (.run 1 6) ++
    .call 2 .sweepStale :: List.replicate 8 (.run 2 0)

theorem row_exclusive_heirs : ∃ s : Shared (Fin 3) Loc Actor (Trace (Fin 3)),
    ((s.th 2).pc.writes = some 0 ∧ 1 ∈ (s.th 1).held ∧ s.world.alive (heirProc 1) = true) ∧
      s.mem (1, .state) = active := by
  have h0 : Reached 2 heirProc heirs := .init init_heirs
  obtain ⟨s, hs, hP⟩ := LTS.Reach.play_any h0 heirRuns
    (fun s : Shared (Fin 3) Loc Actor (Trace (Fin 3)) => decide
      ((s.th 2).pc.writes = some 0 ∧ 1 ∈ (s.th 1).held ∧ s.world.alive (heirProc 1) = true))
    (by decide +kernel)
  have hP := of_decide_eq_true hP
  exact ⟨s, hP, ((row_exclusive hs).2.2.1 1 1 hP.2.2 hP.2.1).1⟩

end Heirs

end System

end Kickmsg.Registry
