import Kickmsg.Blackboard.Course

/-!
# The phases of an actor

What an actor knows beside the words it has just loaded depends on which of four things it is doing. A
reader knows what it has copied of an entry, a listing which rows it has, a claimant or a writer what it
has stored; elsewhere there is nothing to know. `phase_resume` says where each of the three begins.
-/

namespace Kickmsg.Blackboard

open Lib

inductive Phase
  | desk
  | draft
  | read
  | list
  deriving DecidableEq

def Pc.phase : Pc → Phase
  | .claimKey _ _ _ | .claimClock _ _ | .claimStamp _ _ _ | .claimStart _ _ | .claimPid _ _
  | .claimHash _ _ | .claimBump _ _ | .claimActivate _ _ | .claimTenancy _ _ => .draft
  | .writeState _ _ | .writeTenancy _ _ | .writeOpen _ _ | .writeWord _ _ _ | .writeLen _ _
  | .writeClock _ _ | .writeStamp _ _ _ | .writeClose _ _ _ => .draft
  | .resState _ | .resTenancy _ | .seekState _ | .seekHash _ | .seekTenancy _ | .seekKey _ _
  | .readTenancy _ | .readPublish _ | .readLen _ | .readWord _ _ | .readStamp _
  | .readPublishAfter _ | .readTenancyAfter _ => .read
  | .entState _ | .entTenancy _ | .entKey _ _ | .entPublish _ | .entLen _ | .entStamp _
  | .entWord _ _ | .entPublishAfter _ | .entTenancyAfter _ | .entStateAfter _ | .rowPid _
  | .rowStart _ _ | .rowProbe _ _ _ => .list
  | .notifySeq _ (.probe _) | .notifyWaiters _ (.probe _) | .notifyWake _ (.probe _)
  | .unlock (.probe _) => .list
  | _ => .desk

/-- The answers of a reader and of a listing. -/
def Result.answers : Result → Bool
  | .read _ _ | .listing _ _ => true
  | _ => false

/-- A locked call returns no answer of a reader, and a listing only as `.probe`. -/
def Outcome.silent : Outcome → Bool
  | .keep r => !r.answers
  | _ => true

def Pc.silent : Pc → Bool
  | .notifySeq _ o | .notifyWaiters _ o | .notifyWake _ o | .unlock o => o.silent
  | _ => true

/-- The actor goes to a phase, with its reader as it was and without a new answer. -/
structure Actor.Goes (a b : Actor) (p : Phase) : Prop where
  phase : b.pc.phase = p
  silent : b.pc.silent = true
  reader : b.reader = a.reader
  result : b.result = a.result ∨ b.result.answers = false

/-- The actor has nothing to know. -/
abbrev Actor.Desk (a b : Actor) : Prop := a.Goes b .desk

section Heads

variable {g : Geometry} {a : Actor} {key : List UInt8} {i n : Nat}

theorem Actor.goes_goto {pc : Pc} {p : Phase} (h : pc.phase = p) (hs : pc.silent = true) :
    a.Goes (a.goto pc) p :=
  ⟨h, hs, rfl, .inl rfl⟩

theorem Actor.desk_ret {r : Result} (h : r.answers = false) : a.Desk (a.ret r) := ⟨rfl, rfl, rfl, .inr h⟩

theorem Actor.desk_full : a.Desk a.full := goes_goto rfl rfl

theorem Actor.desk_reclaimAt : a.Desk (a.reclaimAt g key i) := by
  unfold Actor.reclaimAt
  split <;> exact goes_goto rfl rfl

theorem Actor.desk_sweepAt {k : SweepFor} {c : Nat} : a.Desk (a.sweepAt g k c i) := by
  unfold Actor.sweepAt
  split
  · exact goes_goto rfl rfl
  · cases k with
    | ret => dsimp only; split <;> exact goes_goto rfl rfl
    | claim key =>
      dsimp only
      split
      · exact desk_reclaimAt
      · exact desk_full

theorem Actor.desk_claimAt {swept : Bool} : a.Desk (a.claimAt g key swept i) := by
  unfold Actor.claimAt
  split_ifs
  · exact desk_reclaimAt
  · exact goes_goto rfl rfl
  · exact desk_sweepAt

theorem Actor.desk_scanAt : a.Desk (a.scanAt g key i) := by
  unfold Actor.scanAt
  split
  · exact goes_goto rfl rfl
  · exact desk_claimAt

theorem Actor.desk_lockFailed {j : Job} : a.Desk (a.lockFailed j) := by
  cases j <;> exact ⟨rfl, rfl, rfl, .inr rfl⟩

theorem Actor.desk_lockRetry {j : Job} {start c : Nat} : a.Desk (a.lockRetry j start c) := by
  unfold Actor.lockRetry
  split
  · exact goes_goto rfl rfl
  · exact desk_lockFailed

theorem Actor.desk_enter {j : Job} (hj : j ≠ .snapshot) : a.Desk (a.enter g j) := by
  cases j with
  | declare key => exact desk_scanAt
  | release w => exact goes_goto rfl rfl
  | sweep => exact desk_sweepAt
  | snapshot => exact absurd rfl hj

/-- The lock is held: a snapshot begins its listing, other calls have nothing to know yet. -/
theorem Actor.enter_cases (j : Job) : a.Desk (a.enter g j) ∨ a.enter g j = a.listAt g .snapshot [] 0 := by
  cases j with
  | snapshot => exact .inr rfl
  | declare | release | sweep => exact .inl (desk_enter nofun)

theorem Actor.repairAt_cases (j : Job) :
    a.Desk (a.repairAt g j i) ∨ a.repairAt g j i = a.listAt g .snapshot [] 0 := by
  unfold Actor.repairAt
  split
  · exact .inl (goes_goto rfl rfl)
  · exact enter_cases j

theorem Actor.cleaned_cases (v : Visit) :
    a.Desk (a.cleaned g v i) ∨ a.cleaned g v i = a.listAt g .snapshot [] 0 := by
  cases v with
  | repair j => exact repairAt_cases j
  | sweep k c => exact .inl desk_sweepAt

theorem Actor.inOrder_cases (v : Visit) :
    a.Desk (a.inOrder g v i) ∨ a.inOrder g v i = a.listAt g .snapshot [] 0 := by
  cases v with
  | repair j => exact repairAt_cases j
  | sweep k c => exact .inl (goes_goto rfl rfl)

end Heads

section Resume

variable {g : Geometry} {a : Actor} {r : Answer}

theorem Actor.desk_notified {locked : Bool} {o : Outcome} (ho : ∀ rows, o ≠ .probe rows)
    (hs : o.silent = true) : a.Desk (a.notified locked o) := by
  cases locked with
  | true => cases o <;> first | exact goes_goto rfl hs | exact absurd rfl (ho _)
  | false =>
    cases o with
    | keep res => exact desk_ret (by simpa [Outcome.silent] using hs)
    | gain | drop => exact ⟨rfl, rfl, rfl, .inr rfl⟩
    | probe rows => exact absurd rfl (ho rows)

/-- From a desk: a claim begins when it stores the key, a listing under the lock when it has the lock. -/
theorem Actor.resume_desk (h : a.pc.phase = .desk) (hs : a.pc.silent = true) :
    a.Desk (a.resume g r) ∨
      (∃ key i, a.pc = .claimClear key i ∧ a.resume g r = a.goto (.claimKey key i 0)) ∨
      a.resume g r = a.listAt g .snapshot [] 0 := by
  have hgo : ∀ {pc : Pc}, pc.phase = .desk → pc.silent = true → a.Desk (a.goto pc) := goes_goto
  have hfin : ∀ {o : Outcome}, (∀ rows, o ≠ .probe rows) → o.silent = true → a.Desk (a.finish o) :=
    fun ho hs => show a.Desk (a.notified false _) from desk_notified ho hs
  cases hpc : a.pc <;> rw [hpc] at h hs <;> simp only [Pc.phase, reduceCtorEq] at h <;>
    simp only [Actor.resume, hpc]
  case idle => exact .inl ⟨by rw [hpc]; rfl, by rw [hpc]; rfl, rfl, .inl rfl⟩
  case claimClear key i => exact .inr (.inl ⟨key, i, rfl, rfl⟩)
  case lockTake j start n =>
    split
    · exact (enter_cases j).imp id .inr
    · exact .inl desk_lockRetry
  case lockSteal j start n held =>
    split
    · exact (repairAt_cases j).imp id .inr
    · exact .inl desk_lockRetry
  case lockProbe =>
    split
    · exact .inl (hgo rfl rfl)
    · exact .inl desk_lockRetry
  case lockTime =>
    split
    · exact .inl desk_lockFailed
    · exact .inl (hgo rfl rfl)
  case normState v i =>
    split_ifs
    · exact .inl (hgo rfl rfl)
    · exact .inl (hgo rfl rfl)
    · exact (inOrder_cases v).imp id .inr
  case normHash v i st =>
    split_ifs
    · exact .inl (hgo rfl rfl)
    · exact (inOrder_cases v).imp id .inr
    · exact .inl (hgo rfl rfl)
    · exact .inl (hgo rfl rfl)
  case normPid v i =>
    split_ifs
    · exact .inl (hgo rfl rfl)
    · exact (inOrder_cases v).imp id .inr
  case wipeStart v i b =>
    split_ifs
    · exact .inl (hgo rfl rfl)
    · exact (cleaned_cases v).imp id .inr
  case wipeState v i => exact (cleaned_cases v).imp id .inr
  case sweepPid | sweepProbe =>
    split_ifs <;> first | exact .inl desk_sweepAt | exact .inl (hgo rfl rfl)
  case scanState | scanHash =>
    split_ifs <;> first | exact .inl desk_scanAt | exact .inl (hgo rfl rfl)
  case scanKey => split_ifs <;> first | exact .inl desk_scanAt | exact .inl (hgo rfl rfl)
  case claimState =>
    split_ifs
    · exact .inl (hgo rfl rfl)
    · exact .inl desk_claimAt
  case unlock o =>
    exact .inl (hfin (fun rows he => by subst he; simp at h) hs)
  case notifySeq locked o => exact .inl (hgo (by cases o <;> simp_all [Pc.phase]) hs)
  case notifyWaiters locked o =>
    have ho : ∀ rows, o ≠ .probe rows := fun rows he => by subst he; simp at h
    split_ifs
    · exact .inl (desk_notified ho hs)
    · exact .inl (hgo (by cases o <;> simp_all [Pc.phase]) hs)
  case notifyWake locked o =>
    exact .inl (desk_notified (fun rows he => by subst he; simp at h) hs)
  case relState | relTenancy => split_ifs <;> exact .inl (hgo rfl rfl)
  all_goals first
    | exact .inl (hgo rfl rfl)
    | (split_ifs <;> exact .inl (hgo rfl rfl))

theorem Actor.goes_writeWords {w : Writer} {d : List UInt8} {k : Nat} :
    a.Goes (a.writeWords w d k) .draft := by
  unfold Actor.writeWords
  split <;> exact goes_goto rfl rfl

theorem Actor.resume_draft (h : a.pc.phase = .draft) :
    a.Desk (a.resume g r) ∨ a.Goes (a.resume g r) .draft := by
  cases hpc : a.pc <;> rw [hpc] at h <;> simp only [Pc.phase, reduceCtorEq] at h <;>
    simp only [Actor.resume, hpc]
  case claimKey => split_ifs <;> exact .inr (goes_goto rfl rfl)
  case claimTenancy => exact .inl (goes_goto rfl rfl)
  case writeState | writeTenancy =>
    split_ifs
    · exact .inr (goes_goto rfl rfl)
    · exact .inl (desk_ret rfl)
  case writeOpen | writeWord => exact .inr goes_writeWords
  case writeClose => exact .inl ⟨rfl, rfl, rfl, .inl rfl⟩
  case notifySeq locked o | notifyWaiters locked o | notifyWake locked o => cases o <;> cases h
  case unlock o => cases o <;> cases h
  all_goals exact .inr (goes_goto rfl rfl)

/-- The actor goes on reading, or returns from it. -/
def Actor.StaysRead (a b : Actor) : Prop :=
  (b.pc.phase = .read ∧ b.result = a.result) ∨ (b.pc = .idle ∧ ∃ o d, b.result = .read o d)

/-- The actor goes on listing, or returns from it. -/
structure Actor.StaysList (a b : Actor) : Prop where
  reader : b.reader = a.reader
  next : (b.pc.phase = .list ∧ b.result = a.result) ∨ (b.pc = .idle ∧ ∃ l rows, b.result = .listing l rows)

theorem Actor.staysRead_seekAt {q : ReadCall} {i : Nat} : a.StaysRead (a.seekAt g q i) := by
  unfold Actor.seekAt
  split
  · exact .inl ⟨rfl, rfl⟩
  · exact .inr ⟨rfl, _, _, rfl⟩

theorem Actor.staysRead_resolve {q : ReadCall} : a.StaysRead (a.resolve g q) := by
  unfold Actor.resolve
  split
  · split
    · exact .inl ⟨rfl, rfl⟩
    · exact staysRead_seekAt
  · exact staysRead_seekAt

theorem Actor.staysRead_readRetry {q : ReadCall} : a.StaysRead (a.readRetry g q) := by
  unfold Actor.readRetry
  split
  · exact staysRead_resolve
  · exact .inr ⟨rfl, _, _, rfl⟩

theorem Actor.staysRead_readWords {q : ReadCall} {k : Nat} : a.StaysRead (a.readWords q k) := by
  unfold Actor.readWords
  split <;> exact .inl ⟨rfl, rfl⟩

theorem Actor.resume_read (h : a.pc.phase = .read) : a.StaysRead (a.resume g r) := by
  cases hpc : a.pc <;> rw [hpc] at h <;> simp only [Pc.phase, reduceCtorEq] at h <;>
    simp only [Actor.resume, hpc]
  case notifySeq locked o | notifyWaiters locked o | notifyWake locked o => cases o <;> cases h
  case unlock o => cases o <;> cases h
  case resState | resTenancy | seekState | seekHash =>
    split_ifs
    · exact .inl ⟨rfl, rfl⟩
    · exact staysRead_seekAt
  case seekKey =>
    split_ifs
    · exact .inl ⟨rfl, rfl⟩
    · exact .inl ⟨rfl, rfl⟩
    · exact staysRead_seekAt
  case readTenancy =>
    split_ifs
    · exact .inl ⟨rfl, rfl⟩
    · exact staysRead_readRetry
  case readPublish =>
    split_ifs
    · exact .inr ⟨rfl, _, _, rfl⟩
    · exact .inl ⟨rfl, rfl⟩
  case readLen | readWord => exact staysRead_readWords
  case readTenancyAfter =>
    split_ifs
    · exact .inr ⟨rfl, _, _, rfl⟩
    · exact staysRead_readRetry
  all_goals exact .inl ⟨rfl, rfl⟩

theorem Actor.staysList_goto {pc : Pc} (h : pc.phase = .list) : a.StaysList (a.goto pc) :=
  ⟨rfl, .inl ⟨h, rfl⟩⟩

theorem Actor.staysList_listAt {l : Listing} {rows : List Row} {i : Nat} :
    a.StaysList (a.listAt g l rows i) := by
  unfold Actor.listAt
  split
  · exact staysList_goto rfl
  · cases l with
    | snapshot => exact staysList_goto rfl
    | keys | readAll => exact ⟨rfl, .inr ⟨rfl, _, _, rfl⟩⟩

theorem Actor.staysList_listRetry {q : ListCall} : a.StaysList (a.listRetry g q) := by
  unfold Actor.listRetry
  split
  · exact staysList_goto rfl
  · exact staysList_listAt

theorem Actor.staysList_listed {q : ListCall} : a.StaysList (a.listed g q) := by
  unfold Actor.listed
  split
  · exact staysList_goto rfl
  · exact staysList_listAt

theorem Actor.staysList_listWords {q : ListCall} {k : Nat} : a.StaysList (a.listWords q k) := by
  unfold Actor.listWords
  split
  · split <;> exact staysList_goto rfl
  · exact staysList_goto rfl

theorem Actor.staysList_probeFrom {done todo : List Row} : a.StaysList (a.probeFrom done todo) := by
  rcases a.probeFrom_eq done todo with ⟨rows, h⟩ | ⟨d, row, t, h⟩ <;> rw [h]
  · exact ⟨rfl, .inr ⟨rfl, _, _, rfl⟩⟩
  · exact staysList_goto rfl

theorem Actor.resume_list (h : a.pc.phase = .list) : a.StaysList (a.resume g r) := by
  cases hpc : a.pc <;> rw [hpc] at h <;> simp only [Pc.phase, reduceCtorEq] at h <;>
    simp only [Actor.resume, hpc]
  case notifySeq locked o =>
    obtain ⟨rows, rfl⟩ : ∃ rows, o = .probe rows := by cases o <;> first | exact ⟨_, rfl⟩ | cases h
    exact staysList_goto rfl
  case notifyWaiters locked o =>
    obtain ⟨rows, rfl⟩ : ∃ rows, o = .probe rows := by cases o <;> first | exact ⟨_, rfl⟩ | cases h
    cases locked <;> split_ifs <;> first | exact staysList_goto rfl | exact staysList_probeFrom
  case notifyWake locked o =>
    obtain ⟨rows, rfl⟩ : ∃ rows, o = .probe rows := by cases o <;> first | exact ⟨_, rfl⟩ | cases h
    cases locked <;> first | exact staysList_goto rfl | exact staysList_probeFrom
  case unlock o =>
    obtain ⟨rows, rfl⟩ : ∃ rows, o = .probe rows := by cases o <;> first | exact ⟨_, rfl⟩ | cases h
    exact staysList_probeFrom
  case entState =>
    split_ifs
    · exact staysList_goto rfl
    · exact staysList_listAt
  case entKey | entPublish => split_ifs <;> exact staysList_goto rfl
  case entStamp | entWord => exact staysList_listWords
  case entStateAfter =>
    split_ifs
    · exact staysList_listed
    · exact staysList_listRetry
  case rowStart => exact staysList_listAt
  case rowProbe => exact staysList_probeFrom
  all_goals exact staysList_goto rfl

theorem Pc.silent_of_phase {pc : Pc} (h : pc.phase ≠ .desk) : pc.silent = true := by
  cases pc
  case notifySeq locked o | notifyWaiters locked o | notifyWake locked o =>
    cases o <;> first | rfl | exact absurd rfl h
  case unlock o => cases o <;> first | rfl | exact absurd rfl h
  all_goals rfl

theorem Actor.StaysList.silent {b : Actor} (h : a.StaysList b) : b.pc.silent = true := by
  rcases h.next with ⟨h, -⟩ | ⟨h, -⟩
  · exact Pc.silent_of_phase (by rw [h]; nofun)
  · rw [h]
    rfl

theorem Actor.StaysRead.silent {b : Actor} (h : a.StaysRead b) : b.pc.silent = true := by
  rcases h with ⟨h, -⟩ | ⟨h, -⟩
  · exact Pc.silent_of_phase (by rw [h]; nofun)
  · rw [h]
    rfl

theorem Actor.silent_resume (h : a.pc.silent = true) : (a.resume g r).pc.silent = true := by
  cases hph : a.pc.phase with
  | desk =>
    rcases a.resume_desk (g := g) (r := r) hph h with h | ⟨key, i, -, h⟩ | h
    · exact h.silent
    · rw [h]
      rfl
    · rw [h]
      exact staysList_listAt.silent
  | draft => rcases a.resume_draft (g := g) (r := r) hph with h | h <;> exact h.silent
  | read => exact (resume_read hph).silent
  | list => exact (resume_list hph).silent

end Resume

end Kickmsg.Blackboard
