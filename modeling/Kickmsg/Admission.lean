import Kickmsg.Attribution
import Kickmsg.Lib.Count

/-!
# Admission and quiescence

The `in_flight` field of a ring's state word counts the publishers admitted to the ring. With one
`reclaim_dead_rings` pass at a time it is exact in every state, crashed publishers included; a subscriber
that saw it reach zero after leaving `Live` keeps the ring to itself until it publishes `Free`.
-/

namespace Kickmsg

open Finset Lib

/-- The ring a publisher is admitted to and has not released. -/
def PubPc.admittedTo : PubPc → Option Nat
  | .claim d | .peek d _ | .signalEarly d _ | .waitFirst d _ | .waitLoad d _ _ _
  | .waitClock d _ _ _ _ | .lock d _ _ _ _ | .relook d _ _ _ | .selfRepair d _ _ | .stealCas d _ _
  | .stealSkip d _ | .stealCount d | .abandonDrop d _ | .abandonLeave d _ | .check d _ | .metaLoad d _
  | .metaCas d _ _ | .releaseSlot d _ _ | .releasePush d _ _ _ | .commit d _ | .leave d => some d.i
  | _ => none

/-- An admission exchange expects a `Live` word. -/
def PubPc.SeesLive : PubPc → Prop
  | .admitCas _ old => getState old = .live
  | _ => True

/-- Accesses that end or begin an admission. -/
def PubPc.gate : PubPc → Bool
  | .admitCas _ _ | .leave _ | .abandonLeave _ _ => true
  | _ => false

namespace Pub

section Dispatch

variable {g : Geometry} {u : Pub} {d : Delivery} {pos : Nat}

theorem admittedTo_finish : (u.finish d).pc.admittedTo = none ∧ (u.finish d).pc.SeesLive := by
  unfold finish
  split_ifs <;> exact ⟨rfl, trivial⟩

theorem admittedTo_ring : (u.ring g d).pc.admittedTo = none ∧ (u.ring g d).pc.SeesLive := by
  unfold ring
  split_ifs
  · exact ⟨rfl, trivial⟩
  · exact ⟨rfl, trivial⟩
  · exact admittedTo_finish

theorem admittedTo_tryAdmit {old : Nat} :
    (u.tryAdmit g d old).pc.admittedTo = none ∧ (u.tryAdmit g d old).pc.SeesLive := by
  unfold tryAdmit
  split_ifs with h
  · exact admittedTo_ring
  · exact ⟨rfl, not_not.mp h⟩

theorem admittedTo_tryLock {w : CommitWait} {a o : Nat} :
    (u.tryLock g d pos w a o).pc.admittedTo = some d.i ∧ (u.tryLock g d pos w a o).pc.SeesLive := by
  unfold tryLock
  split_ifs <;> exact ⟨rfl, trivial⟩

theorem admittedTo_repairWith {w : CommitWait} {q : Nat} :
    (u.repairWith g d pos w q).pc.admittedTo = some d.i ∧ (u.repairWith g d pos w q).pc.SeesLive := by
  unfold repairWith
  split_ifs <;> exact ⟨rfl, trivial⟩

theorem admittedTo_tryTake {old : Nat} :
    (u.tryTake d pos old).pc.admittedTo = some d.i ∧ (u.tryTake d pos old).pc.SeesLive := by
  unfold tryTake
  split_ifs <;> exact ⟨rfl, trivial⟩

theorem admittedTo_releasePrev {old : Nat} :
    (u.releasePrev g d pos old).pc.admittedTo = some d.i ∧ (u.releasePrev g d pos old).pc.SeesLive := by
  unfold releasePrev
  split_ifs <;> exact ⟨rfl, trivial⟩

end Dispatch

variable {g : Geometry} {u : Pub}

/-- Between its gates a publisher stays where it is admitted. -/
theorem admittedTo_resume (h : u.pc.gate = false) (r : Resp) :
    (u.resume g r).pc.admittedTo = u.pc.admittedTo ∧ (u.resume g r).pc.SeesLive := by
  cases e : u.pc <;> simp only [e, PubPc.gate, reduceCtorEq] at h <;> simp only [resume, e]
  case idle => exact ⟨trivial, trivial⟩
  all_goals
    (repeat' split) <;>
      first
        | exact ⟨rfl, trivial⟩
        | exact admittedTo_ring
        | exact admittedTo_tryAdmit
        | exact admittedTo_tryLock
        | exact admittedTo_repairWith
        | exact admittedTo_tryTake
        | exact admittedTo_releasePrev
        | exact admittedTo_finish

/-- What the gates do. -/
theorem admittedTo_gate (r : Resp) :
    (∀ d old, u.pc = .admitCas d old → (u.resume g r).pc.SeesLive ∧
      (u.resume g r).pc.admittedTo = if r.ok then some d.i else none) ∧
    ∀ d, (u.pc = .leave d ∨ ∃ exc, u.pc = .abandonLeave d exc) →
      (u.resume g r).pc.SeesLive ∧ (u.resume g r).pc.admittedTo = none := by
  refine ⟨fun d old e => ?_, fun d e => ?_⟩
  · simp only [resume, e]
    split_ifs
    · exact ⟨trivial, rfl⟩
    · exact ⟨admittedTo_tryAdmit.2, admittedTo_tryAdmit.1⟩
  · rcases e with e | ⟨exc, e⟩ <;> simp only [resume, e] <;> exact ⟨trivial, rfl⟩

end Pub

namespace SubPc

/-- `release_ring` has moved the ring out of `Live`. -/
def leaving : SubPc → Bool
  | .leaveSpin | .leaveClock | .clearWaiter _ | .clearPid _ | .clearStart _ | .drainPos | .drainMeta _ _
  | .drainCas _ _ _ | .drainSub _ _ _ | .drainPush _ _ _ _ | .leaveFree | .leaveLoad2
  | .leaveCas2 _ => true
  | _ => false

/-- `release_ring` has seen its ring quiesce and not freed it yet. -/
def quiesced : SubPc → Bool
  | .clearWaiter q | .clearPid q | .clearStart q => q
  | .drainPos | .drainMeta _ _ | .drainCas _ _ _ | .drainSub _ _ _ | .drainPush _ _ _ _
  | .leaveFree => true
  | _ => false

/-- Inside `drain_unconsumed`. -/
def draining : SubPc → Bool
  | .drainPos | .drainMeta _ _ | .drainCas _ _ _ | .drainSub _ _ _ | .drainPush _ _ _ _ => true
  | _ => false

theorem leaving_of_quiesced {pc : SubPc} (h : pc.quiesced = true) : pc.leaving = true := by
  cases pc <;> first | rfl | cases h

theorem quiesced_of_draining {pc : SubPc} (h : pc.draining = true) : pc.quiesced = true := by
  cases pc <;> first | rfl | cases h

end SubPc

namespace Sub

variable {g : Geometry} {u : Sub}

/-- Leaving begins with the exchange to `Draining`, quiescence with a load that found nobody. -/
theorem leaving_resume (r : Resp) :
    ((u.resume g r).pc.leaving = true → u.pc.leaving = true ∨ (∃ old, u.pc = .leaveCas old) ∧ r.ok = true) ∧
    ((u.resume g r).pc.quiesced = true →
      u.pc.quiesced = true ∨ u.pc = .leaveSpin ∧ getInFlight r.val = 0) := by
  obtain ⟨_, _, _, _, _, _, _, _, _, _, _, _, _, pc⟩ := u
  cases pc <;>
    simp only [resume, recvLoop, recvNone, recvWith, recvClaim, tryPin, sample, armWith, drainLoop,
      tryJoin] <;>
    (repeat' split) <;> simp_all [SubPc.leaving, SubPc.quiesced]

end Sub

namespace ReclaimPc

/-- The ring a pass has claimed and the state it may restore. -/
def saved : ReclaimPc → Option (Nat × RingState)
  | .pid2 i st _ | .start2 i st _ _ | .probe2 i st _ _ _ | .restore i st _ => some (i, st)
  | _ => none

end ReclaimPc

namespace Reclaim

variable {g : Geometry} {u : Reclaim}

theorem watching_resume {r : Resp} {i j : Nat} (h : (u.resume g r).pc.watching = some i)
    (hj : u.pc.watching = some j) : i = j := by
  obtain ⟨_, pc⟩ := u
  cases pc <;> simp only [ReclaimPc.watching, Option.some.injEq, reduceCtorEq] at hj <;> subst hj <;>
    simp only [resume, scanRing, tryFree, tryRestore] at h <;> (repeat' split at h) <;>
    simp_all [ReclaimPc.watching]

/-- A state is saved by the claim, and kept. -/
theorem saved_resume {r : Resp} {i : Nat} {st : RingState} (h : (u.resume g r).pc.saved = some (i, st)) :
    u.pc.saved = some (i, st) ∨ (∃ old, u.pc = .claim i st old) ∧ r.ok = true := by
  obtain ⟨_, pc⟩ := u
  cases pc <;> simp only [resume, scanRing, tryFree, tryRestore] at h <;> (repeat' split at h) <;>
    simp_all [ReclaimPc.saved]

end Reclaim

namespace Local

def isPub : Local → Bool
  | .pub _ => true
  | _ => false

/-- Whether a publisher is admitted to ring `r`. -/
def admitted (r : Nat) : Local → Nat
  | .pub u => if u.pc.admittedTo = some r then 1 else 0
  | _ => 0

def SeesLive : Local → Prop
  | .pub u => u.pc.SeesLive
  | _ => True

def leaving : Local → Bool
  | .sub u => u.pc.leaving
  | _ => false

def quiesced : Local → Bool
  | .sub u => u.pc.quiesced
  | _ => false

theorem admitted_le {l : Local} {r : Nat} : l.admitted r ≤ if l.isPub then 1 else 0 := by
  cases l <;> simp only [admitted, isPub, le_refl, Bool.false_eq_true, if_false, if_true]
  split <;> decide

end Local

namespace Sys

variable {ι : Type}

/-- The ring a pass watches is still as the pass left it. -/
def Undrained (s : Sys ι) (pc : ReclaimPc) : Prop :=
  ∀ i, pc.watching = some i → s.ringState i = .reclaiming

variable [Fintype ι]

/-- The publishers. -/
def publishers (s : Sys ι) : Nat := ∑ t, if (s.th t).isPub then 1 else 0

def admissions (s : Sys ι) (r : Nat) : Nat := ∑ t, (s.th t).admitted r

/-- What holds of the state words while the passes do not overlap. -/
structure Admission (proc : ι → Nat × Nat) (s : Sys ι) : Prop where
  attributed : Attributed proc Undrained s
  solo : ∀ v w u u', s.alive proc v = true → s.alive proc w = true → s.th v = .reclaim u →
    s.th w = .reclaim u' → u.pc ≠ .idle → u'.pc ≠ .idle → v = w
  seesLive : ∀ t, (s.th t).SeesLive
  count : ∀ r, getInFlight (s.mem (.stateFlight r)) = s.admissions r
  leaving : ∀ r T, s.ghost.tenant r = some T → (s.th T).leaving = true →
    s.ringState r = .draining ∨ s.ringState r = .reclaiming
  saved : ∀ v u i, s.alive proc v = true → s.th v = .reclaim u → u.pc.saved = some (i, .live) →
    s.ringState i = .reclaiming → ∀ T, s.ghost.tenant i = some T → (s.th T).leaving = false
  quiet : ∀ r T, s.ghost.tenant r = some T → (s.th T).quiesced = true →
    getInFlight (s.mem (.stateFlight r)) = 0

section Steps

variable [DecidableEq ι] {g : Geometry} {proc : ι → Nat × Nat} {s s' : Sys ι} {t : ι}

omit [Fintype ι] in
/-- A tenant after an access: the tenant before, or a subscriber that has just taken the ring. -/
theorem tenant_cases (h : Tenancy proc s) (ha : s.alive proc t = true) {op : Op} {c : Bool}
    (hop : (s.th t).request g = some op) {r : Nat} {T : ι}
    (hT : (s.ran g t op c).ghost.tenant r = some T) : s.ghost.tenant r = some T ∨
      (T = t ∧ (op.exec s.procs s.mem c).2.ok = true ∧
        ∃ u wp, s.th t = .sub u ∧ u.pc = .joinCas r wp) := by
  have hlt := (h.ring r).word_lt
  rcases stateWrite_run c hop r with ⟨e, -⟩ | ⟨hok, ht, hw⟩
  · by_cases ht : op.target = some (.stateFlight r)
    · replace hT := (tenantAfter_self (s := s) ht).symm.trans hT
      have e' : (op.exec s.procs s.mem c).1 (.stateFlight r) = s.mem (.stateFlight r) := e
      rw [e'] at hT
      split_ifs at hT
      exact .inl hT
    · exact .inl ((tenantAfter_of_ne ht).symm.trans hT)
  · replace hT := (tenantAfter_self (s := s) ht).symm.trans hT
    split_ifs at hT with h1 h2
    · right
      obtain rfl : t = T := Option.some.inj hT
      refine ⟨rfl, hok, ?_⟩
      cases hw with
      | enter hl hpc hi hw => exact absurd ((congrArg getState hw).trans ((getState_admitted _).trans h2)) h1
      | release hl hpc hi hw => exact absurd ((congrArg getState hw).trans ((getState_release _).trans h2)) h1
      | @join u wp hl hpc h0 hw => exact ⟨u, wp, hl, hpc⟩
      | drain hl hpc hi hw =>
        have hh : (s.th t).held = some r := by simp [hl, Local.held, Sub.held, hpc, hi]
        exact absurd h2 (h.ringState_ne (h.tenant_of_held ha hh))
      | vacate hl hpc hi hw => exact absurd ((congrArg getState hw).trans (getState_packed _)) h1
      | vacateLate hl hpc hi hw => exact absurd ((congrArg getState hw).trans (getState_setState hlt _)) h1
      | claim hl hpc hw =>
        have hk := h.knows t
        simp only [hl, Local.Knows, hpc, ReclaimPc.Checked] at hk
        exact absurd (hk.2.symm.trans h2) hk.1
      | free hl hpc hw => exact absurd ((congrArg getState hw).trans (getState_setState hlt _)) h1
      | restore hl hpc hw =>
        have hk := h.knows t
        simp only [hl, Local.Knows, hpc, ReclaimPc.Checked] at hk
        cases hk.2.symm.trans h2
    · exact .inl hT

omit [Fintype ι] in
/-- A ring becomes `Reclaiming` by a pass's claim only. -/
theorem reclaiming_cases (h : Tenancy proc s) {op : Op} {c : Bool}
    (hop : (s.th t).request g = some op) {r : Nat}
    (hr : (s.ran g t op c).ringState r = .reclaiming) : s.ringState r = .reclaiming ∨
      ∃ u st, s.th t = .reclaim u ∧ u.pc = .claim r st (s.mem (.stateFlight r)) := by
  have hlt := (h.ring r).word_lt
  unfold ringState at hr ⊢
  rcases stateWrite_run c hop r with ⟨e, -⟩ | ⟨-, -, hw⟩
  · exact .inl (e ▸ hr)
  · cases hw with
    | enter hl hpc hi hw => exact .inl ((getState_admitted _).symm.trans (hw ▸ hr))
    | release hl hpc hi hw => exact .inl ((getState_release _).symm.trans (hw ▸ hr))
    | join hl hpc h0 hw => cases (getState_packed _).symm.trans (hw ▸ hr)
    | drain hl hpc hi hw => cases (getState_setState hlt _).symm.trans (hw ▸ hr)
    | vacate hl hpc hi hw => cases (getState_packed _).symm.trans (hw ▸ hr)
    | vacateLate hl hpc hi hw => cases (getState_setState hlt _).symm.trans (hw ▸ hr)
    | @claim u st hl hpc hw => exact .inr ⟨u, st, hl, hpc⟩
    | free hl hpc hw => cases (getState_setState hlt _).symm.trans (hw ▸ hr)
    | restore hl hpc hw =>
      have hk := h.knows t
      simp only [hl, Local.Knows, hpc, ReclaimPc.Checked] at hk
      exact .inl hk.2

omit [Fintype ι] in
/-- A running pass is at work. -/
theorem busy_of_request {u : Reclaim} {op : Op} (hop : u.request = some op) : u.pc ≠ .idle := by
  rintro e
  simp [Reclaim.request, e] at hop

theorem Admission.attributed_run (h : Admission proc s) {c : Bool}
    (hs : s.next g proc (.run t c) = some s') : Attributed proc Undrained s' := by
  obtain ⟨ha, op, hop, hs'⟩ := ran_cases hs
  have hA := h.attributed
  refine hA.run hs (freesRight_of_verdict fun t' c' u i e hu hpc => ?_) (fun v u u' hav hu hu' hw hq => ?_)
    fun v u i _ _ _ hw hq _ hf => by have := hq i hw; simp [hf] at this
  · obtain ⟨rfl, -⟩ := Label.run.inj e
    have hk := hA.tenancy.knows t
    simp only [hu, Local.Knows, hpc, ReclaimPc.Checked] at hk
    refine hA.verdict t u ha hu fun j hj => ?_
    rw [hpc] at hj
    cases hj
    exact hk
  · -- the ring was `Reclaiming` before: no other pass runs that could have claimed it
    intro i hi
    obtain ⟨j, hj⟩ := Option.ne_none_iff_exists'.mp hw
    have hidle : u.pc ≠ .idle := by
      rintro e
      simp [e, ReclaimPc.watching] at hi
    have hij : j = i := by
      subst hs'
      by_cases e : v = t
      · subst e
        simp only [ran, Function.update_self, hu, Local.resume, Local.reclaim.injEq] at hu'
        rw [← hu'] at hj
        exact Reclaim.watching_resume hj hi
      · simp only [ran, Function.update_of_ne e, hu, Local.reclaim.injEq] at hu'
        rw [← hu', hi] at hj
        exact (Option.some.inj hj).symm
    subst hij hs'
    rcases reclaiming_cases hA.tenancy hop (hq j hj) with hr | ⟨w, st, hw, hpc⟩
    · exact hr
    · obtain rfl := h.solo v t u w hav ha hu hw hidle (by simp [hpc])
      rw [hu] at hw
      cases hw
      rw [hpc] at hi
      cases hi

omit [Fintype ι] in
/-- An access of `t` changes what `t` is admitted to at its gates only. -/
theorem admitted_run {op : Op} {c : Bool} (hop : (s.th t).request g = some op) (r : Nat) :
    ((s.ran g t op c).th t).admitted r = (s.th t).admitted r ∨
      op.target = some (.stateFlight r) ∧ (op.exec s.procs s.mem c).2.ok = true := by
  simp only [ran, Function.update_self]
  cases hl : s.th t with
  | pub u =>
    rw [hl] at hop
    by_cases hgate : u.pc.gate = false
    · left
      simp only [Local.resume, Local.admitted, (Pub.admittedTo_resume hgate _).1]
    · obtain ⟨g1, g2⟩ := Pub.admittedTo_gate (g := g) (u := u) (op.exec s.procs s.mem c).2
      cases e : u.pc <;> simp only [e, PubPc.gate, not_true_eq_false] at hgate <;>
        simp only [Local.request, Pub.request, e, Option.some.injEq] at hop <;> subst hop
      case admitCas d old =>
        have hz : (PubPc.admitCas d old).admittedTo = none := rfl
        cases hok : ((Op.cas true (.stateFlight d.i) old (u32 (old + inFlightOne))).exec s.procs s.mem
          c).2.ok
        · left
          simp only [Local.resume, Local.admitted, (g1 d old e).2, hok, e, hz, Bool.false_eq_true,
            if_false]
        · by_cases hi : d.i = r
          · exact .inr ⟨by rw [hi]; rfl, rfl⟩
          · left
            simp [Local.resume, Local.admitted, (g1 d old e).2, hok, e, hz, hi]
      case leave d =>
        have hz : (PubPc.leave d).admittedTo = some d.i := rfl
        by_cases hi : d.i = r
        · exact .inr ⟨by rw [hi]; rfl, rfl⟩
        · left
          simp [Local.resume, Local.admitted, (g2 d (.inl e)).2, e, hz, hi]
      case abandonLeave d exc =>
        have hz : (PubPc.abandonLeave d exc).admittedTo = some d.i := rfl
        by_cases hi : d.i = r
        · exact .inr ⟨by rw [hi]; rfl, rfl⟩
        · left
          simp [Local.resume, Local.admitted, (g2 d (.inr ⟨exc, e⟩)).2, e, hz, hi]
  | _ => exact .inl rfl

omit [DecidableEq ι] in
/-- A publisher that is not admitted leaves room for one admission. -/
theorem admissions_lt {r : Nat} (hp : (s.th t).isPub = true) (h0 : (s.th t).admitted r = 0) :
    s.admissions r < s.publishers :=
  sum_lt_sum (fun _ _ => Local.admitted_le) ⟨t, mem_univ t, by simp [hp, h0]⟩

theorem admissions_run (op : Op) (c : Bool) (r : Nat) :
    (s.ran g t op c).admissions r + (s.th t).admitted r =
      s.admissions r + ((s.ran g t op c).th t).admitted r := by
  have := sum_update (fun _ l => l.admitted r) s.th ((s.ran g t op c).th t) t
  simpa only [admissions, ran, Function.update_self] using this

/-- The in-flight field stays the number of admissions. -/
theorem Admission.count_run (h : Admission proc s) (hp : s.publishers < 2 ^ 30)
    (ha : s.alive proc t = true) {op : Op} {c : Bool} (hop : (s.th t).request g = some op) (r : Nat) :
    getInFlight ((s.ran g t op c).mem (.stateFlight r)) = (s.ran g t op c).admissions r := by
  have hsum := admissions_run (g := g) (s := s) (t := t) op c r
  have hcount := h.count r
  have hlt := (h.attributed.tenancy.ring r).word_lt
  have hadm := admitted_run (c := c) hop r
  rcases stateWrite_run c hop r with ⟨e, hfail⟩ | ⟨hok, ht, hw⟩
  · have hsame := hadm.resolve_right fun hc => by simp [hfail hc.1] at hc
    rw [e]
    omega
  · -- nobody but a publisher changes the number of admissions
    have hother : (∀ u, s.th t ≠ .pub u) → (s.ran g t op c).admissions r = s.admissions r := by
      intro hne
      have : (s.th t).admitted r = 0 ∧ ((s.ran g t op c).th t).admitted r = 0 := by
        simp only [ran, Function.update_self]
        cases hl : s.th t with
        | pub u => exact absurd hl (hne u)
        | _ => exact ⟨rfl, rfl⟩
      omega
    have hset : ∀ {q : RingState},
        (s.ran g t op c).mem (.stateFlight r) = setState (s.mem (.stateFlight r)) q →
        (∀ u, s.th t ≠ .pub u) →
        (s.ran g t op c).mem (.stateFlight r) / 4 = (s.ran g t op c).admissions r := by
      intro q hw hne
      have := getInFlight_setState hlt q
      rw [getInFlight_eq, getInFlight_eq] at this
      rw [hw, this, hother hne, ← hcount, getInFlight_eq]
    rw [getInFlight_eq] at hcount ⊢
    cases hw with
    | @enter u d hl hpc hi hw =>
      have h0 : (s.th t).admitted r = 0 := by simp [hl, Local.admitted, hpc, PubPc.admittedTo]
      have h1 : ((s.ran g t op c).th t).admitted r = 1 := by
        simp [ran, hl, Local.resume, Local.admitted, ((Pub.admittedTo_gate _).1 d _ hpc).2, hok, hi]
      have := admissions_lt (s := s) (t := t) (r := r) (by rw [hl]; rfl) h0
      rw [hw, u32, inFlightOne]
      omega
    | @release u d hl hpc hi hw =>
      have h1 : (s.th t).admitted r = 1 := by
        rcases hpc with hpc | ⟨exc, hpc⟩ <;> simp [hl, Local.admitted, hpc, PubPc.admittedTo, hi]
      have h0 : ((s.ran g t op c).th t).admitted r = 0 := by
        simp [ran, hl, Local.resume, Local.admitted, ((Pub.admittedTo_gate _).2 d hpc).2]
      have := le_sum (fun v => (s.th v).admitted r) t
      simp only [admissions] at hsum hcount ⊢
      rw [hw, inFlightOne]
      omega
    | join hl hpc h0 hw =>
      rw [h0, makePacked_zero] at hcount
      rw [hw, makePacked_zero]
      have := hother (by simp [hl])
      simp only [RingState.code] at hcount ⊢
      omega
    | drain hl hpc hi hw => exact hset hw (by simp [hl])
    | @vacate u hl hpc hi hw =>
      have hh : (s.th t).held = some r := by simp [hl, Local.held, Sub.held, hpc, hi]
      have hq := h.quiet r t (h.attributed.tenancy.tenant_of_held ha hh)
        (by simp [hl, Local.quiesced, hpc, SubPc.quiesced])
      rw [getInFlight_eq] at hq
      have := hother (by simp [hl])
      rw [hw, makePacked_zero]
      simp only [RingState.code]
      omega
    | vacateLate hl hpc hi hw => exact hset hw (by simp [hl])
    | claim hl hpc hw => exact hset hw (by simp [hl])
    | free hl hpc hw => exact hset hw (by simp [hl])
    | restore hl hpc hw => exact hset hw (by simp [hl])

omit [Fintype ι] in
/-- An actor that is leaving after an access was leaving before, or has just left `Live`. -/
theorem leaving_ran {op : Op} {c : Bool} {T : ι} (h : ((s.ran g t op c).th T).leaving = true) :
    (s.th T).leaving = true ∨
      T = t ∧ (op.exec s.procs s.mem c).2.ok = true ∧ ∃ u old, s.th t = .sub u ∧ u.pc = .leaveCas old := by
  by_cases e : T = t
  · subst e
    simp only [ran, Function.update_self] at h
    cases hl : s.th T with
    | sub u =>
      rw [hl] at h
      rcases (Sub.leaving_resume _).1 h with h | ⟨⟨old, hpc⟩, hok⟩
      · exact .inl h
      · exact .inr ⟨rfl, hok, u, old, rfl, hpc⟩
    | _ =>
      rw [hl] at h
      cases h
  · simp only [ran, Function.update_of_ne e] at h
    exact .inl h

omit [Fintype ι] in
theorem quiesced_ran {op : Op} {c : Bool} {T : ι} (h : ((s.ran g t op c).th T).quiesced = true) :
    (s.th T).quiesced = true ∨ T = t ∧ getInFlight (op.exec s.procs s.mem c).2.val = 0 ∧
      ∃ u, s.th t = .sub u ∧ u.pc = .leaveSpin := by
  by_cases e : T = t
  · subst e
    simp only [ran, Function.update_self] at h
    cases hl : s.th T with
    | sub u =>
      rw [hl] at h
      rcases (Sub.leaving_resume _).2 h with h | ⟨hpc, h0⟩
      · exact .inl h
      · exact .inr ⟨rfl, h0, u, rfl, hpc⟩
    | _ =>
      rw [hl] at h
      cases h
  · simp only [ran, Function.update_of_ne e] at h
    exact .inl h

omit [Fintype ι] in
/-- A ring that its holder has just moved out of `Live` is `Draining`. -/
theorem ringState_leave (h : Tenancy proc s) {u : Sub} {old : Nat} {op : Op} {c : Bool}
    (hop : (s.th t).request g = some op) (hu : s.th t = .sub u) (hpc : u.pc = .leaveCas old)
    (hok : (op.exec s.procs s.mem c).2.ok = true) :
    (s.ran g t op c).ringState u.ringIdx = .draining := by
  simp only [hu, Local.request, Sub.request, hpc, Option.some.injEq] at hop
  subst hop
  have hlt := (h.ring u.ringIdx).word_lt
  rcases Op.exec_cas s.procs s.mem c true (.stateFlight u.ringIdx) old (setState old .draining) with
    ⟨rfl, he⟩ | he
  · simp [ringState, ran, he, getState_setState hlt]
  · simp [he] at hok

omit [Fintype ι] in
/-- A subscriber that has just taken a ring is not leaving it. -/
theorem leaving_join {u : Sub} {r wp : Nat} {op : Op} {c : Bool} (hu : s.th t = .sub u)
    (hpc : u.pc = .joinCas r wp) (hok : (op.exec s.procs s.mem c).2.ok = true) :
    ((s.ran g t op c).th t).leaving = false ∧ ((s.ran g t op c).th t).quiesced = false := by
  simp [ran, hu, Local.resume, Sub.resume, hpc, hok, Local.leaving, Local.quiesced, SubPc.leaving,
    SubPc.quiesced]

/-- A tenant that has left `Live` has not left `Draining` and `Reclaiming`. -/
theorem Admission.leaving_run (h : Admission proc s) (ha : s.alive proc t = true) {op : Op} {c : Bool}
    (hop : (s.th t).request g = some op) (hT' : Tenancy proc (s.ran g t op c)) {r : Nat} {T : ι}
    (hten : (s.ran g t op c).ghost.tenant r = some T)
    (hlv : ((s.ran g t op c).th T).leaving = true) :
    (s.ran g t op c).ringState r = .draining ∨ (s.ran g t op c).ringState r = .reclaiming := by
  have hT := h.attributed.tenancy
  have hlt := (hT.ring r).word_lt
  have hnf := hT'.ringState_ne hten
  rcases tenant_cases hT ha hop hten with hten₀ | ⟨rfl, hok, u, wp, hu, hpc⟩
  swap
  · simp [(leaving_join (g := g) hu hpc hok).1] at hlv
  rcases leaving_ran hlv with hlv₀ | ⟨rfl, hok, u, old, hu, hpc⟩
  · have hst := h.leaving r T hten₀ hlv₀
    unfold ringState at hst hnf ⊢
    rcases stateWrite_run c hop r with ⟨e, -⟩ | ⟨-, -, hw⟩
    · rwa [e]
    · cases hw with
      | enter hl hpc hi hw => rwa [hw, getState_admitted]
      | release hl hpc hi hw => rwa [hw, getState_release]
      | join hl hpc h0 hw =>
        rw [h0, getState_packed] at hst
        simp at hst
      | drain hl hpc hi hw => exact .inl (by rw [hw, getState_setState hlt])
      | vacate hl hpc hi hw => exact absurd (by rw [hw, getState_packed]) hnf
      | vacateLate hl hpc hi hw => exact absurd (by rw [hw, getState_setState hlt]) hnf
      | claim hl hpc hw => exact .inr (by rw [hw, getState_setState hlt])
      | free hl hpc hw => exact absurd (by rw [hw, getState_setState hlt]) hnf
      | @restore u st hl hpc hw =>
        have hk := hT.knows t
        simp only [hl, Local.Knows, hpc, ReclaimPc.Checked] at hk
        rw [hw, getState_setState hlt]
        cases st with
        | free => exact absurd rfl hk.1
        | live =>
          -- a pass that would restore `Live` has claimed the ring before its tenant left it
          have := h.saved t u r ha hl (by rw [hpc]; rfl) hk.2 T hten₀
          simp [this] at hlv₀
        | draining => exact .inl rfl
        | reclaiming => exact .inr rfl
  · have hh := (hT.ring r).tenant T hten₀
    have hr : u.ringIdx = r := by simpa [hu, Local.held, Sub.held, hpc] using hh.1
    exact .inl (hr ▸ ringState_leave hT hop hu hpc hok)

/-- A quiesced ring stays so. -/
theorem Admission.quiet_run (h : Admission proc s) (ha : s.alive proc t = true) {op : Op} {c : Bool}
    (hop : (s.th t).request g = some op) {r : Nat} {T : ι}
    (hten : (s.ran g t op c).ghost.tenant r = some T)
    (hq : ((s.ran g t op c).th T).quiesced = true) :
    getInFlight ((s.ran g t op c).mem (.stateFlight r)) = 0 := by
  have hT := h.attributed.tenancy
  have hlt := (hT.ring r).word_lt
  rcases tenant_cases hT ha hop hten with hten₀ | ⟨rfl, hok, u, wp, hu, hpc⟩
  swap
  · simp [(leaving_join (g := g) hu hpc hok).2] at hq
  rcases quiesced_ran hq with hq₀ | ⟨rfl, h0, u, hu, hpc⟩
  · have hlv : (s.th T).leaving = true := by
      cases hl : s.th T with
      | sub u =>
        rw [hl] at hq₀
        exact SubPc.leaving_of_quiesced hq₀
      | _ =>
        rw [hl] at hq₀
        cases hq₀
    have h0 := h.quiet r T hten₀ hq₀
    rcases stateWrite_run c hop r with ⟨e, -⟩ | ⟨-, -, hw⟩
    · rwa [e]
    · cases hw with
      | @enter u d hl hpc hi hw =>
        have hlive := h.seesLive t
        simp only [hl, Local.SeesLive, hpc, PubPc.SeesLive] at hlive
        have hst := h.leaving r T hten₀ hlv
        simp only [ringState, hlive] at hst
        simp at hst
      | @release u d hl hpc hi hw =>
        have h1 : (s.th t).admitted r = 1 := by
          rcases hpc with hpc | ⟨exc, hpc⟩ <;> simp [hl, Local.admitted, hpc, PubPc.admittedTo, hi]
        have h2 := le_sum (fun v => (s.th v).admitted r) t
        have h3 := h.count r
        simp only [admissions] at h3
        omega
      | join hl hpc h0 hw =>
        rw [hw, makePacked_zero]
        rfl
      | drain hl hpc hi hw => rwa [hw, getInFlight_setState hlt]
      | vacate hl hpc hi hw =>
        rw [hw, makePacked_zero]
        rfl
      | vacateLate hl hpc hi hw => rwa [hw, getInFlight_setState hlt]
      | claim hl hpc hw => rwa [hw, getInFlight_setState hlt]
      | free hl hpc hw => rwa [hw, getInFlight_setState hlt]
      | restore hl hpc hw => rwa [hw, getInFlight_setState hlt]
  · have hh := (hT.ring r).tenant T hten₀
    have hr : u.ringIdx = r := by simpa [hu, Local.held, Sub.held, hpc] using hh.1
    simp only [hu, Local.request, Sub.request, hpc, Option.some.injEq] at hop
    subst hop hr
    exact h0

/-- A pass that may restore `Live` has claimed the ring of a tenant that has not left it. -/
theorem Admission.saved_run (h : Admission proc s) (ha : s.alive proc t = true) {op : Op} {c : Bool}
    (hop : (s.th t).request g = some op) {v : ι} {u' : Reclaim} {i : Nat}
    (hav : s.alive proc v = true) (hu' : (s.ran g t op c).th v = .reclaim u')
    (hs : u'.pc.saved = some (i, .live)) (hst : (s.ran g t op c).ringState i = .reclaiming) {T : ι}
    (hten : (s.ran g t op c).ghost.tenant i = some T) :
    ((s.ran g t op c).th T).leaving = false := by
  have hT := h.attributed.tenancy
  by_contra hlv
  rw [Bool.not_eq_false] at hlv
  rcases tenant_cases hT ha hop hten with hten₀ | ⟨rfl, hok, u, wp, hu, hpc⟩
  swap
  · simp [(leaving_join (g := g) hu hpc hok).1] at hlv
  rcases leaving_ran hlv with hlv₀ | ⟨rfl, hok, u, old, hu, hpc⟩
  swap
  · have hh := (hT.ring i).tenant T hten₀
    have hr : u.ringIdx = i := by simpa [hu, Local.held, Sub.held, hpc] using hh.1
    rw [← hr, ringState_leave hT hop hu hpc hok] at hst
    cases hst
  -- what the pass had saved before the step
  have key : ∀ u, s.th v = .reclaim u → u.pc.saved = some (i, .live) → False := by
    intro u hu hsv
    have hidle : u.pc ≠ .idle := by
      rintro e
      simp [e, ReclaimPc.saved] at hsv
    rcases reclaiming_cases hT hop hst with hr | ⟨w, st, hw, hpc⟩
    · simp [h.saved v u i hav hu hsv hr T hten₀] at hlv₀
    · obtain rfl := h.solo v t u w hav ha hu hw hidle (by simp [hpc])
      rw [hu] at hw
      cases hw
      simp [hpc, ReclaimPc.saved] at hsv
  by_cases e : v = t
  · subst e
    simp only [ran, Function.update_self] at hu'
    cases hl : s.th v with
    | reclaim u =>
      rw [hl] at hu'
      simp only [Local.resume, Local.reclaim.injEq] at hu'
      rw [← hu'] at hs
      rcases Reclaim.saved_resume hs with hs | ⟨⟨old, hpc⟩, hok⟩
      · exact key u hl hs
      · have hk := hT.knows v
        simp only [hl, Local.Knows, hpc, ReclaimPc.Checked] at hk
        simp only [hl, Local.request, Reclaim.request, hpc, Option.some.injEq] at hop
        subst hop
        rcases Op.exec_cas s.procs s.mem c false (.stateFlight i) old (setState old .reclaiming) with
          ⟨rfl, -⟩ | he
        · have := h.leaving i T hten₀ hlv₀
          simp [ringState, hk.2] at this
        · simp [he] at hok
    | _ =>
      rw [hl] at hu'
      simp [Local.resume] at hu'
  · simp only [ran, Function.update_of_ne e] at hu'
    exact key u' hu' hs

theorem Admission.run (h : Admission proc s) (hp : s.publishers < 2 ^ 30) {c : Bool}
    (hs : s.next g proc (.run t c) = some s') : Admission proc s' := by
  have hA' := h.attributed_run hs
  obtain ⟨ha, op, hop, rfl⟩ := ran_cases hs
  refine ⟨hA', fun v w u u' hav haw hu hu' hi hi' => ?_, fun v => ?_, h.count_run hp ha hop,
    fun r T => h.leaving_run ha hop hA'.tenancy, fun v u i hav hu hsv hst T => h.saved_run ha hop hav hu hsv hst,
    fun r T => h.quiet_run ha hop⟩
  · -- the pass that moved was at work before
    have back : ∀ v u, (s.ran g t op c).th v = .reclaim u → u.pc ≠ .idle →
        ∃ u₀, s.th v = .reclaim u₀ ∧ u₀.pc ≠ .idle := by
      intro v u hu hi
      by_cases e : v = t
      · subst e
        cases hl : s.th v with
        | reclaim u₀ =>
          rw [hl] at hop
          exact ⟨u₀, rfl, busy_of_request hop⟩
        | _ =>
          simp only [ran, Function.update_self, hl] at hu
          simp [Local.resume] at hu
      · simp only [ran, Function.update_of_ne e] at hu
        exact ⟨u, hu, hi⟩
    obtain ⟨u₀, h1, h2⟩ := back v u hu hi
    obtain ⟨w₀, h3, h4⟩ := back w u' hu' hi'
    exact h.solo v w u₀ w₀ hav haw h1 h3 h2 h4
  · by_cases e : v = t
    · subst e
      simp only [ran, Function.update_self]
      cases hl : s.th v with
      | pub u =>
        simp only [Local.resume, Local.SeesLive]
        by_cases hgate : u.pc.gate = false
        · exact (Pub.admittedTo_resume hgate _).2
        · obtain ⟨g1, g2⟩ := Pub.admittedTo_gate (g := g) (u := u) (op.exec s.procs s.mem c).2
          cases e : u.pc <;> simp only [e, PubPc.gate, not_true_eq_false] at hgate
          case admitCas d old => exact (g1 d old e).1
          case leave d => exact (g2 d (.inl e)).1
          case abandonLeave d exc => exact (g2 d (.inr ⟨exc, e⟩)).1
      | _ => trivial
    · simp only [ran, Function.update_of_ne e]
      exact h.seesLive v

omit [Fintype ι] in
/-- A call starts outside the gates and outside `release_ring`'s waits. -/
theorem call_calm {l l' : Local} {c : Call} (hc : l.call g c = some l') :
    (∀ r, l'.admitted r = l.admitted r) ∧ l'.leaving = l.leaving ∧ l'.quiesced = l.quiesced ∧
      (l.SeesLive → l'.SeesLive) ∧ l'.isPub = l.isPub := by
  rcases Local.call_pass hc with ⟨u, rfl⟩ | ⟨u, rfl⟩ | ⟨u, rfl, -, rfl⟩ | ⟨u, rfl, -, -, rfl⟩ |
    ⟨u, rfl, -, -, rfl⟩
  · obtain ⟨hidle, u', rfl, hu'⟩ := Local.call_pub hc
    rcases hu' with ⟨n, rfl⟩ | ⟨x, k, n, -, rfl⟩ | ⟨-, rfl⟩ | ⟨x, len, -, -, -, rfl⟩ <;>
      simp [Local.admitted, Local.leaving, Local.quiesced, Local.SeesLive, Local.isPub,
        PubPc.admittedTo, PubPc.SeesLive, hidle]
  · obtain ⟨u', rfl, hu'⟩ := Local.call_sub hc
    have key : u'.pc.leaving = u.pc.leaving ∧ u'.pc.quiesced = u.pc.quiesced := by
      rcases hu' with ⟨e, w, rfl⟩ | ⟨e, ⟨copy, blocking, rfl⟩ | rfl | rfl | rfl⟩
      · simp only [Sub.join, Sub.tryJoin]
        split_ifs <;> simp [SubPc.leaving, SubPc.quiesced, e]
      · simp only [Sub.receive, Sub.recvLoop, Sub.recvNone]
        split_ifs <;> simp [SubPc.leaving, SubPc.quiesced, e]
      · simp [Sub.armWait, SubPc.leaving, SubPc.quiesced, e]
      · simp [Sub.disarmWait, SubPc.leaving, SubPc.quiesced, e]
      · simp [Sub.releaseRing, SubPc.leaving, SubPc.quiesced, e]
    exact ⟨fun _ => rfl, key.1, key.2, fun h => h, rfl⟩
  · exact ⟨fun _ => rfl, rfl, rfl, fun h => h, rfl⟩
  · exact ⟨fun _ => rfl, rfl, rfl, fun h => h, rfl⟩
  · exact ⟨fun _ => rfl, rfl, rfl, fun h => h, rfl⟩

omit [Fintype ι] in
theorem calm_of_next {l : Label ι} (hs : s.next g proc l = some s') (hl : ∀ t c, l ≠ .run t c)
    (v : ι) : (∀ r, (s'.th v).admitted r = (s.th v).admitted r) ∧
      (s'.th v).leaving = (s.th v).leaving ∧ (s'.th v).quiesced = (s.th v).quiesced ∧
      ((s.th v).SeesLive → (s'.th v).SeesLive) ∧ (s'.th v).isPub = (s.th v).isPub := by
  cases l with
  | run t c => exact absurd rfl (hl t c)
  | call t c =>
    obtain ⟨-, l, hl, rfl⟩ := call_cases hs
    by_cases e : v = t
    · subst e
      simp only [Function.update_self]
      exact call_calm hl
    · simp [Function.update_of_ne e]
  | destroy t w k =>
    obtain ⟨-, u', x, ht, hw, -, rfl⟩ := destroy_cases hs
    by_cases e : v = w
    · subst e
      simp only [Function.update_self, hw]
      exact ⟨fun _ => rfl, rfl, rfl, fun h => h, rfl⟩
    · by_cases e' : v = t
      · subst e'
        simp only [Function.update_of_ne e, Function.update_self, ht]
        exact ⟨fun _ => rfl, rfl, rfl, fun h => h, rfl⟩
      · simp [Function.update_of_ne e, Function.update_of_ne e']
  | write t off byte =>
    obtain ⟨-, u', slot, -, -, -, -, rfl⟩ := write_cases hs
    exact ⟨fun _ => rfl, rfl, rfl, fun h => h, rfl⟩
  | exit pid =>
    obtain ⟨st, -, rfl⟩ := exit_cases hs
    exact ⟨fun _ => rfl, rfl, rfl, fun h => h, rfl⟩
  | spawn pid st =>
    obtain ⟨-, rfl⟩ := spawn_cases hs
    exact ⟨fun _ => rfl, rfl, rfl, fun h => h, rfl⟩

theorem publishers_next {l : Label ι} (hs : s.next g proc l = some s') :
    s'.publishers = s.publishers := by
  have key : ∀ v, (s'.th v).isPub = (s.th v).isPub := by
    intro v
    by_cases hl : ∃ t c, l = .run t c
    · obtain ⟨t, c, rfl⟩ := hl
      obtain ⟨-, op, -, rfl⟩ := ran_cases hs
      by_cases e : v = t
      · subst e
        simp only [ran, Function.update_self]
        cases s.th v <;> rfl
      · simp [ran, Function.update_of_ne e]
    · exact (calm_of_next hs (fun t c e => hl ⟨t, c, e⟩) v).2.2.2.2
  unfold publishers
  simp only [key]

/-- A pass is started only while no other is at work in a running process. -/
def soloPass (proc : ι → Nat × Nat) (s : Sys ι) (l : Label ι) : Prop :=
  ∀ t, l = .call t .reclaimDeadRings → ∀ v u, v ≠ t → s.alive proc v = true → s.th v = .reclaim u →
    u.pc = .idle

theorem Admission.still (h : Admission proc s) {l : Label ι} (hs : s.next g proc l = some s')
    (hl : ∀ t c, l ≠ .run t c) (ho : s.soloPass proc l) : Admission proc s' := by
  have hm := mem_eq_of_next hs hl
  have hcalm := calm_of_next hs hl
  obtain ⟨hten, hdead, halive⟩ := world_of_next hs hl
  have hst : ∀ r, s'.ringState r = s.ringState r := fun r => by rw [ringState, hm]; rfl
  have hA' := h.attributed.still hs hl fun pc hq i hi => hst i ▸ hq i hi
  -- a pass at work in a running process was there before, or is the one just started
  have back : ∀ v u, s'.alive proc v = true → s'.th v = .reclaim u → u.pc ≠ .idle →
      s.alive proc v = true ∧ (s.th v = .reclaim u ∨ l = .call v .reclaimDeadRings) := by
    intro v u hav hu hi
    rcases reclaim_of_next hs hl hu with hu | ⟨ha, e, -⟩
    · rcases h.attributed.busy v u hu hi with ha | hd
      · exact ⟨ha, .inl hu⟩
      · exact absurd (hdead v hd) (hA'.tenancy.not_dead hav)
    · exact ⟨ha, .inr e⟩
  refine ⟨hA', fun v w u u' hav haw hu hu' hi hi' => ?_, fun v => (hcalm v).2.2.2.1 (h.seesLive v),
    fun r => ?_, fun r T hT hlv => ?_, fun v u i hav hu hsv hr T hT => ?_, fun r T hT hq => ?_⟩
  · obtain ⟨ha, hv⟩ := back v u hav hu hi
    obtain ⟨ha', hv'⟩ := back w u' haw hu' hi'
    by_contra hne
    rcases hv with hv | e
    · rcases hv' with hv' | e'
      · exact hne (h.solo v w u u' ha ha' hv hv' hi hi')
      · exact hi (ho w e' v u hne ha hv)
    · rcases hv' with hv' | e'
      · exact hi' (ho v e w u' (Ne.symm hne) ha' hv')
      · rw [e] at e'
        exact hne (Label.call.inj e').1
  · rw [hm, h.count r]
    unfold admissions
    exact sum_congr rfl fun v _ => ((hcalm v).1 r).symm
  · rw [hst]
    exact h.leaving r T (hten ▸ hT) ((hcalm T).2.1 ▸ hlv)
  · rw [(hcalm T).2.1]
    have hidle : u.pc ≠ .idle := by
      rintro e
      simp [e, ReclaimPc.saved] at hsv
    rcases reclaim_of_next hs hl hu with hu | ⟨-, -, u₀, -, -, rfl⟩
    · rcases h.attributed.busy v u hu hidle with ha | hd
      · exact h.saved v u i ha hu hsv (hst i ▸ hr) T (hten ▸ hT)
      · exact absurd (hdead v hd) (hA'.tenancy.not_dead hav)
    · exfalso
      simp only [Reclaim.start, Reclaim.scanRing] at hsv
      split_ifs at hsv <;> cases hsv
  · rw [hm]
    exact h.quiet r T (hten ▸ hT) ((hcalm T).2.2.1 ▸ hq)

omit [DecidableEq ι] in
theorem admission_init (hg : g.Valid) (h : Init g proc s) : Admission proc s := by
  have hz : ∀ r, s.mem (.stateFlight r) = 0 := fun r => by
    rw [h.mem]
    exact stampNewRegion_zero hg (by simp) (by simp)
  have hidle : ∀ v u, s.th v = .reclaim u → u.pc = .idle := by
    intro v u hu
    have := h.th v
    rw [hu] at this
    exact this
  have hpub : ∀ v r, (s.th v).admitted r = 0 ∧ (s.th v).SeesLive := by
    intro v r
    have := h.th v
    cases hl : s.th v with
    | pub u =>
      rw [hl] at this
      simp [Local.admitted, Local.SeesLive, this.2.2, PubPc.admittedTo, PubPc.SeesLive]
    | _ => exact ⟨rfl, trivial⟩
  refine ⟨attributed_init hg h, fun v w u u' _ _ hu _ hi _ => absurd (hidle v u hu) hi,
    fun v => (hpub v 0).2, fun r => ?_, fun r T hT => ?_, fun v u i _ hu hsv => ?_, fun r T hT => ?_⟩
  · rw [hz, admissions, sum_eq_zero fun v _ => (hpub v r).1]
    rfl
  · simp [h.tenant] at hT
  · simp [hidle v u hu, ReclaimPc.saved] at hsv
  · simp [h.tenant] at hT

theorem admission_reach (hg : g.Valid)
    (h : (machine g proc).Reach (fun s l _ => s.soloPass proc l) s) (hp : s.publishers < 2 ^ 30) :
    Admission proc s := by
  have key := h.invariant (I := fun s => s.publishers < 2 ^ 30 → Admission proc s)
    (fun _ h0 _ => admission_init hg h0) fun s l s' hI hs ho hp => by
      have hI := hI (publishers_next hs ▸ hp)
      by_cases hl : ∃ t c, l = .run t c
      · obtain ⟨t, c, rfl⟩ := hl
        exact hI.run (publishers_next hs ▸ hp) hs
      · exact hI.still hs (fun t c e => hl ⟨t, c, e⟩) ho
  exact key hp

/-- A publisher keeps the state bits, and moves the in-flight field by one without wrapping it. -/
theorem Admission.word_pub (h : Admission proc s) (hp : s.publishers < 2 ^ 30) {c : Bool}
    (hs : s.next g proc (.run t c) = some s') (hpub : (s.th t).isPub = true) (r : Nat) :
    s'.ringState r = s.ringState r ∧
      (s'.mem (.stateFlight r) = s.mem (.stateFlight r) ∨
        s'.mem (.stateFlight r) = s.mem (.stateFlight r) + inFlightOne ∨
        s'.mem (.stateFlight r) + inFlightOne = s.mem (.stateFlight r)) := by
  obtain ⟨ha, op, hop, rfl⟩ := ran_cases hs
  have hcount := h.count r
  have hlt := (h.attributed.tenancy.ring r).word_lt
  rw [getInFlight_eq] at hcount
  rcases stateWrite_run c hop r with ⟨e, -⟩ | ⟨hok, ht, hw⟩
  · exact ⟨congrArg getState e, .inl e⟩
  · cases hw with
    | @enter u d hl hpc hi hw =>
      refine ⟨(congrArg getState hw).trans (getState_admitted _), .inr (.inl ?_)⟩
      have h0 : (s.th t).admitted r = 0 := by simp [hl, Local.admitted, hpc, PubPc.admittedTo]
      have := admissions_lt (s := s) (t := t) (r := r) hpub h0
      rw [hw, u32, inFlightOne]
      omega
    | @release u d hl hpc hi hw =>
      refine ⟨(congrArg getState hw).trans (getState_release _), .inr (.inr ?_)⟩
      have h1 : (s.th t).admitted r = 1 := by
        rcases hpc with hpc | ⟨exc, hpc⟩ <;> simp [hl, Local.admitted, hpc, PubPc.admittedTo, hi]
      have := le_sum (fun v => (s.th v).admitted r) t
      simp only [admissions] at hcount
      rw [hw, inFlightOne]
      omega
    | join hl | drain hl | vacate hl | vacateLate hl | claim hl | free hl | restore hl =>
      simp [hl, Local.isPub] at hpub

/-- `Free` becomes `Live` by a claim that found nobody in flight. -/
theorem Admission.live_of_free (h : Admission proc s) {l : Label ι} (hs : s.next g proc l = some s')
    {r : Nat} (hf : s.ringState r = .free) (hl' : s'.ringState r = .live) :
    getInFlight (s.mem (.stateFlight r)) = 0 ∧ getInFlight (s'.mem (.stateFlight r)) = 0 := by
  by_cases hrun : ∃ t c, l = .run t c
  swap
  · rw [ringState, mem_eq_of_next hs fun t c e => hrun ⟨t, c, e⟩] at hl'
    cases hf.symm.trans hl'
  obtain ⟨t, c, rfl⟩ := hrun
  obtain ⟨ha, op, hop, rfl⟩ := ran_cases hs
  have hlt := (h.attributed.tenancy.ring r).word_lt
  unfold ringState at hf hl'
  rcases stateWrite_run c hop r with ⟨e, -⟩ | ⟨-, -, hw⟩
  · cases hf.symm.trans (e ▸ hl')
  · cases hw with
    | enter hl hpc hi hw => cases hf.symm.trans ((getState_admitted _).symm.trans (hw ▸ hl'))
    | release hl hpc hi hw => cases hf.symm.trans ((getState_release _).symm.trans (hw ▸ hl'))
    | join hl hpc h0 hw =>
      rw [hw, h0, makePacked_zero, makePacked_zero]
      exact ⟨rfl, rfl⟩
    | drain hl hpc hi hw => cases (getState_setState hlt _).symm.trans (hw ▸ hl')
    | vacate hl hpc hi hw => cases (getState_packed _).symm.trans (hw ▸ hl')
    | vacateLate hl hpc hi hw => cases (getState_setState hlt _).symm.trans (hw ▸ hl')
    | claim hl hpc hw => cases (getState_setState hlt _).symm.trans (hw ▸ hl')
    | free hl hpc hw => cases (getState_setState hlt _).symm.trans (hw ▸ hl')
    | restore hl hpc hw =>
      have hk := h.attributed.tenancy.knows t
      simp only [hl, Local.Knows, hpc, ReclaimPc.Checked] at hk
      cases hf.symm.trans hk.2

/-- A ring whose running subscriber has seen it quiesce has no publisher in it, and no position of it is
claimed. -/
theorem Admission.quiet_ring (h : Admission proc s) {u : Sub} (ha : s.alive proc t = true)
    (hu : s.th t = .sub u) (hq : u.pc.quiesced = true) : s.admissions u.ringIdx = 0 ∧
      ∀ l s', s.next g proc l = some s' →
        s'.mem (.writePos u.ringIdx) = s.mem (.writePos u.ringIdx) := by
  have hheld : (s.th t).held = some u.ringIdx := by
    simp only [hu, Local.held, Sub.held]
    cases e : u.pc <;> simp only [e, SubPc.quiesced, Bool.false_eq_true] at hq <;> rfl
  have hten := h.attributed.tenancy.tenant_of_held ha hheld
  have h0 : s.admissions u.ringIdx = 0 := by
    rw [← h.count]
    exact h.quiet _ t hten (by rw [hu]; exact hq)
  refine ⟨h0, fun l s' hs => ?_⟩
  by_cases hrun : ∃ v c, l = .run v c
  · obtain ⟨v, c, rfl⟩ := hrun
    obtain ⟨-, op, hop, rfl⟩ := ran_cases hs
    refine Op.exec_frame _ _ _ _ fun ht => ?_
    -- whoever claims a position is admitted to its ring
    obtain ⟨w, d, hw, hpc, hi, -⟩ := Local.writePos_cases hop ht
    have h1 : (s.th v).admitted u.ringIdx = 1 := by
      simp [hw, Local.admitted, hpc, PubPc.admittedTo, hi]
    have := le_sum (fun v => (s.th v).admitted u.ringIdx) v
    simp only [admissions] at h0
    omega
  · rw [mem_eq_of_next hs fun t c e => hrun ⟨t, c, e⟩]

/-- Admission and quiescence. -/
theorem in_flight_exact (hg : g.Valid)
    (h : (machine g proc).Reach (fun s l _ => s.soloPass proc l) s) (hp : s.publishers < 2 ^ 30) :
    (∀ r, getInFlight (s.mem (.stateFlight r)) = s.admissions r) ∧
    (∀ t c s' r, s.next g proc (.run t c) = some s' → (s.th t).isPub = true →
      s'.ringState r = s.ringState r ∧
        (s'.mem (.stateFlight r) = s.mem (.stateFlight r) ∨
          s'.mem (.stateFlight r) = s.mem (.stateFlight r) + inFlightOne ∨
          s'.mem (.stateFlight r) + inFlightOne = s.mem (.stateFlight r))) ∧
    (∀ l s' r, s.next g proc l = some s' → s.ringState r = .free → s'.ringState r = .live →
      getInFlight (s.mem (.stateFlight r)) = 0 ∧ getInFlight (s'.mem (.stateFlight r)) = 0) ∧
    ∀ t u, s.alive proc t = true → s.th t = .sub u → u.pc.draining = true →
      (∀ v, (s.th v).admitted u.ringIdx = 0) ∧
      ∀ l s', s.next g proc l = some s' →
        s'.mem (.writePos u.ringIdx) = s.mem (.writePos u.ringIdx) := by
  have hA := admission_reach hg h hp
  refine ⟨hA.count, fun t c s' r hs hpub => hA.word_pub hp hs hpub r,
    fun l s' r hs hf hl => hA.live_of_free hs hf hl, fun t u ha hu hd => ?_⟩
  obtain ⟨h0, hw⟩ := hA.quiet_ring (g := g) ha hu (SubPc.quiesced_of_draining hd)
  refine ⟨fun v => ?_, hw⟩
  have := le_sum (fun v => (s.th v).admitted u.ringIdx) v
  simp only [admissions] at h0
  omega

end Steps

/-- A subscriber inside `drain_unconsumed`. -/
def draining : Local → Bool
  | .sub u => u.pc.draining
  | _ => false

/-- A step that does not start a pass over dead rings. -/
def noDeadPass : Label (Fin 9) → Bool
  | .call _ .reclaimDeadRings => false
  | _ => true

/-- A run that ends inside `drain_unconsumed`, after a publication. -/
theorem in_flight_exact_draining : ∃ (s : Sys (Fin 9)) (u : Sub),
    (machine smallGeometry crewProc).Reach (fun s l _ => s.soloPass crewProc l) s ∧
      s.publishers < 2 ^ 30 ∧ s.alive crewProc 3 = true ∧ s.th 3 = .sub u ∧ u.pc.draining = true ∧
      (∀ v, (s.th v).admitted u.ringIdx = 0) ∧
      ∀ l s', s.next smallGeometry crewProc l = some s' →
        s'.mem (.writePos u.ringIdx) = s.mem (.writePos u.ringIdx) := by
  have h0 : (machine smallGeometry crewProc).Reach
      (fun (_ : Sys (Fin 9)) l _ => noDeadPass l = true)
      (crew smallGeometry) := .init (init_crew smallGeometry)
  obtain ⟨s, hs, hP⟩ := h0.play_any
    (.call 3 (.join false) :: runs 3 5 ++ .call 0 .allocate :: runs 0 3 ++
      .call 0 (.publish 1) :: runs 0 12 ++ .call 3 .releaseRing :: runs 3 7)
    (fun s => decide (s.publishers < 2 ^ 30) && s.alive crewProc 3 && Sys.draining (s.th 3)) (by decide +kernel)
  simp only [Bool.and_eq_true, decide_eq_true_eq] at hP
  obtain ⟨⟨hp, ha⟩, hd⟩ := hP
  have hs' : (machine smallGeometry crewProc).Reach (fun s l _ => s.soloPass crewProc l) s :=
    hs.mono fun s l s' _ ho t e => by
      rw [e] at ho
      cases ho
  unfold draining at hd
  split at hd
  · rename_i u hu
    exact ⟨s, u, hs', hp, ha, hu, hd, (in_flight_exact valid_smallGeometry hs' hp).2.2.2 3 u ha hu hd⟩
  · cases hd

end Sys

end Kickmsg
