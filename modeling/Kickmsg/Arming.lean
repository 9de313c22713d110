import Kickmsg.CommitWait
import Kickmsg.Wakeup

/-!
# The carrier mode

What the two sides of a descriptor wait keep to by themselves. A publisher that finds `WaiterCarrier` in a
ring's `has_waiter` remembers it until it calls `signal()`; before it reads the word it is on its way to
read it. A subscriber never reads ahead of `write_pos`, so `arm_wait` answers `Armed` only on an empty
ring, and gives the mode back whenever a position was claimed while it armed.
-/

namespace Kickmsg

open Lib

/-! ## The publisher -/

/-- The locals of the ring loop at an access. -/
def PubPc.locals : PubPc → Option Delivery
  | .idle | .releasePending _ _ _ | .allocate _ | .storeLen _ _ | .presetRefcount _ | .signal _ => none
  | .snapshot d | .admitCas d _ | .claim d | .peek d _ | .signalEarly d _ | .waitFirst d _
  | .waitLoad d _ _ _ | .waitClock d _ _ _ _ | .lock d _ _ _ _ | .relook d _ _ _ | .selfRepair d _ _
  | .stealCas d _ _ | .stealSkip d _ | .stealCount d | .abandonDrop d _ | .abandonLeave d _
  | .abandonWake d _ | .abandonFutex d _ | .check d _ | .metaLoad d _ | .metaCas d _ _
  | .releaseSlot d _ _ | .releasePush d _ _ _ | .commit d _ | .leave d | .wake d | .wakeFutex d
  | .returnExcess d | .excessPush d _ => some d

/-- The publisher has a `signal()` to make. -/
def PubPc.carrying : PubPc → Bool
  | .signal _ => true
  | pc => pc.locals.any Delivery.carrier

/-- The ring of a delivery that has claimed its position and not looked at `has_waiter` yet. -/
def PubPc.unread : PubPc → Option Nat
  | .wakeFutex _ | .abandonFutex _ _ => none
  | pc => pc.visiting

theorem PubPc.publishing_of_carrying {pc : PubPc} (h : pc.carrying = true) : pc.publishing = true := by
  cases pc <;> first | rfl | simp [PubPc.carrying, PubPc.locals] at h

theorem PubPc.claimed_of_resting {pc : PubPc} (h : pc.publishing = false) : pc.claimed = none := by
  cases pc <;> first | rfl | cases h

theorem PubPc.publishing_of_unread {pc : PubPc} {r : Nat} (h : pc.unread = some r) :
    pc.publishing = true := by
  cases pc <;> first | rfl | simp [PubPc.unread, PubPc.visiting, PubPc.owes] at h

namespace Pub

variable {g : Geometry} {u : Pub} {d : Delivery}

section Carrying

variable (hb : u.backend = true) (hc : d.carrier = true)
include hb hc

theorem carrying_finish : (u.finish d).pc.carrying = true := by
  unfold finish
  rw [if_pos ⟨hc, hb⟩]
  rfl

theorem carrying_ring : (u.ring g d).pc.carrying = true := by
  unfold ring
  split_ifs
  · exact hc
  · exact hc
  · exact carrying_finish hb hc

theorem carrying_nextRing {exc : Bool} : (u.nextRing g d exc).pc.carrying = true := carrying_ring hb hc

theorem carrying_tryAdmit {old : Nat} : (u.tryAdmit g d old).pc.carrying = true := by
  unfold tryAdmit
  split_ifs
  · exact carrying_nextRing hb hc
  · exact hc

omit hb in
theorem carrying_tryLock {pos a o : Nat} {w : CommitWait} :
    (u.tryLock g d pos w a o).pc.carrying = true := by
  unfold tryLock
  split_ifs <;> exact hc

omit hb in
theorem carrying_repairWith {pos seq : Nat} {w : CommitWait} :
    (u.repairWith g d pos w seq).pc.carrying = true := by
  unfold repairWith
  split_ifs <;> exact hc

omit hb in
theorem carrying_tryTake {pos old : Nat} : (u.tryTake d pos old).pc.carrying = true := by
  unfold tryTake
  split_ifs <;> exact hc

omit hb in
theorem carrying_releasePrev {pos old : Nat} : (u.releasePrev g d pos old).pc.carrying = true := by
  unfold releasePrev
  split_ifs <;> exact hc

end Carrying

/-- A publisher that has a `signal()` to make keeps it in mind until it makes it. -/
theorem carrying_resume {op : Op} {a : Resp} (hop : u.request g = some op) (hb : u.backend = true)
    (hc : u.pc.carrying = true) : (u.resume g a).pc.carrying = true ∨ op = .signal := by
  cases e : u.pc <;> rw [e] at hc <;>
    simp only [PubPc.carrying, PubPc.locals, Option.any_none, Option.any_some, Bool.false_eq_true] at hc
  case signalEarly | signal => exact .inr (by simpa [request, e] using hop.symm)
  all_goals
    left
    simp only [resume, e]
    (repeat' split) <;>
      first
        | exact hc
        | exact carrying_ring hb (by simp [hc])
        | exact carrying_tryAdmit hb hc
        | exact carrying_tryLock hc
        | exact carrying_repairWith hc
        | exact carrying_tryTake hc
        | exact carrying_releasePrev hc
        | exact carrying_finish hb hc

theorem unread_of_owes {pc : PubPc} {i : Nat} (h : pc.owes = some i) (hw : ∀ d, pc ≠ .wakeFutex d) :
    pc.unread = some i := by
  cases pc <;> simp_all [PubPc.unread, PubPc.visiting, PubPc.owes]

/-- A delivery goes on to its look at `has_waiter`. If it finds the carrier mode, it keeps it in mind. -/
theorem unread_resume {op : Op} {a : Resp} {i : Nat} (hop : u.request g = some op)
    (hb : u.backend = true) (hv : u.pc.unread = some i) :
    (u.resume g a).pc.unread = some i ∨
      (op = .load (.hasWaiter i) ∧ (a.val = waiterCarrier → (u.resume g a).pc.carrying = true)) := by
  cases e : u.pc <;> rw [e] at hv <;>
    simp only [PubPc.unread, PubPc.visiting, PubPc.owes, Option.some.injEq, reduceCtorEq] at hv <;>
    subst hv
  case abandonDrop | abandonLeave | leave =>
    left
    simp only [resume, e]
    rfl
  case abandonWake d exc =>
    refine .inr ⟨by simpa [request, e] using hop.symm, fun ha => ?_⟩
    have hne : ¬a.val = waiterFutex := by
      rw [ha]
      decide
    simp only [resume, e, hne, if_false]
    exact carrying_nextRing hb (by simp [ha])
  case wake d =>
    refine .inr ⟨by simpa [request, e] using hop.symm, fun ha => ?_⟩
    have hne : ¬a.val = waiterFutex := by
      rw [ha]
      decide
    simp only [resume, e, hne, if_false]
    exact carrying_nextRing hb (by simp [ha])
  all_goals
    left
    refine unread_of_owes ?_ fun d => ?_
    · rw [owes_resume (by rw [e]; rfl)]
      simp only [owesAfter, e, PubPc.owes]
    · simp only [resume, e]
      (repeat' split) <;>
        first
          | exact PubPc.noConfusion
          | (unfold tryLock; split_ifs <;> exact PubPc.noConfusion)
          | (unfold repairWith; split_ifs <;> exact PubPc.noConfusion)
          | (unfold tryTake; split_ifs <;> exact PubPc.noConfusion)
          | (unfold releasePrev; split_ifs <;> exact PubPc.noConfusion)

/-- A look at `has_waiter` that finds the carrier mode. -/
theorem carrying_look {a : Resp} {r : Nat} (hop : u.request g = some (.load (.hasWaiter r)))
    (hb : u.backend = true) (ha : a.val = waiterCarrier) : (u.resume g a).pc.carrying = true := by
  have hne : ¬a.val = waiterFutex := by
    rw [ha]
    decide
  cases e : u.pc <;> simp only [request, e, Option.some.injEq, Op.load.injEq, reduceCtorEq] at hop
  case releasePending s k p => cases p <;> simp [PushPc.request] at hop
  case allocate p => cases p <;> simp [PopPc.request] at hop
  case releasePush d pos idx p => cases p <;> simp [PushPc.request] at hop
  case excessPush d p => cases p <;> simp [PushPc.request] at hop
  case wake | abandonWake =>
    simp only [resume, e, hne, if_false]
    exact carrying_nextRing hb (by simp [ha])

/-- A claim starts a delivery. -/
theorem unread_claim {a : Resp} (hpc : u.pc = .claim d) : (u.resume g a).pc.unread = some d.i := by
  simp only [resume, hpc]
  split_ifs
  · rfl
  · unfold tryLock
    split_ifs <;> rfl

end Pub

/-! ## The subscriber -/

/-- The accesses of `arm_wait`. -/
def SubPc.inArm : SubPc → Bool
  | .armPos | .armHead _ | .armSeq _ | .armSet _ | .armCheck _ | .armUndo | .armHead2 | .armSeq2 => true
  | _ => false

/-- How `read_pos` and the positions a subscriber has loaded relate to the rings' `write_pos`. -/
def Sub.Behind (wpos : Nat → Nat) (u : Sub) : Prop :=
  match u.pc with
  | .out | .joinPos _ => True
  | .joinCas i wp | .joinStart i wp | .joinPid i wp | .joinPos2 i wp => wp ≤ wpos i
  | .recvSkip _ wp => wp ≤ wpos u.ringIdx ∧ u.readPos < wp
  | .recvSeq _ | .recvLost _ | .recvMeta _ _ | .recvRc _ _ _ | .recvPin _ _ _ _ | .recvSeq2 _ _ _
  | .recvUnpin _ _ | .recvUnpinPush _ _ _ | .recvLen _ _ => u.readPos < wpos u.ringIdx
  | .armHead cur => u.readPos ≤ cur ∧ cur ≤ wpos u.ringIdx
  | .armSet cur | .armCheck cur => u.readPos = cur ∧ u.readPos ≤ wpos u.ringIdx
  | .armSeq _ | .armUndo | .armHead2 | .armSeq2 => u.readPos < wpos u.ringIdx
  | _ => u.readPos ≤ wpos u.ringIdx

namespace Sub

variable {g : Geometry} {u : Sub} {wpos : Nat → Nat}

theorem Behind.mono {wpos' : Nat → Nat} (hle : ∀ r, wpos r ≤ wpos' r) (h : u.Behind wpos) :
    u.Behind wpos' := by
  unfold Behind at h ⊢
  cases e : u.pc <;> rw [e] at h <;> dsimp only at h ⊢ <;>
    first
      | trivial
      | exact h.trans (hle _)
      | exact lt_of_lt_of_le h (hle _)
      | exact ⟨h.1, h.2.trans (hle _)⟩
      | exact ⟨h.1.trans (hle _), h.2⟩

section Dispatch

variable (h : u.readPos ≤ wpos u.ringIdx)
include h

theorem behind_recvNone : u.recvNone.Behind wpos := by
  unfold recvNone
  split_ifs <;> exact h

theorem behind_recvLoop {k : Nat} : (u.recvLoop k).Behind wpos := by
  unfold recvLoop
  split_ifs
  · exact h
  · exact behind_recvNone h

theorem behind_drainLoop {pos wp : Nat} : (u.drainLoop pos wp).Behind wpos := by
  unfold drainLoop
  split_ifs
  · exact h
  · exact h

theorem behind_armWith {cur : Nat} {w : Wait} (hw : w = .armed → u.readPos = cur) :
    (u.armWith cur w).Behind wpos := by
  unfold armWith
  split_ifs with ha
  · exact ⟨hw ha.1, h⟩
  · exact h

end Dispatch

theorem behind_tryPin {k seq slot rc : Nat} (h : u.readPos < wpos u.ringIdx) :
    (u.tryPin k seq slot rc).Behind wpos := by
  unfold tryPin
  split_ifs <;> exact h

theorem behind_recvWith {k seq : Nat} (h : u.readPos < wpos u.ringIdx) :
    (u.recvWith k seq).Behind wpos := by
  unfold recvWith
  split_ifs
  all_goals first
    | exact h
    | exact behind_recvNone h.le

theorem behind_recvClaim {k seq word : Nat} (h : u.readPos < wpos u.ringIdx) :
    (u.recvClaim g k seq word).Behind wpos := by
  unfold recvClaim
  split_ifs <;> exact h

theorem headSeq_ne_armed (u : Sub) (seq : Nat) : u.headSeq seq ≠ .armed := by
  unfold headSeq
  split_ifs <;> simp

/-- A load of a ring's `write_pos` answers it. -/
def Honest (g : Geometry) (wpos : Nat → Nat) (u : Sub) (a : Resp) : Prop :=
  ∀ i, u.request g = some (.load (.writePos i)) → a.val = wpos i

/-- A subscriber stays behind the publishers. -/
theorem Behind.resume (h : u.Behind wpos) {a : Resp} (hcap : 0 < g.subRingCapacity)
    (hlt : ∀ r, wpos r < 2 ^ 62) (ha : u.Honest g wpos a) : (u.resume g a).Behind wpos := by
  have hread : ∀ {i}, u.request g = some (.load (.writePos i)) → a.val = wpos i := fun h => ha _ h
  have hnext : u.readPos < wpos u.ringIdx → u64 (u.readPos + 1) ≤ wpos u.ringIdx := fun hp => by
    have := hlt u.ringIdx
    unfold u64
    omega
  unfold Behind at h
  cases e : u.pc <;> rw [e] at h <;> dsimp only at h <;> simp only [Sub.resume, e]
  case out | live => simp only [Behind, e]; try exact h
  case joinPos i => exact le_of_eq (hread (by simp [request, e]))
  case joinCas i wp =>
    split_ifs
    · exact h
    · unfold tryJoin
      split_ifs <;> trivial
  case joinPos2 i wp =>
    have hv := hread (i := i) (by simp [request, e])
    show (if a.val > wp then a.val else wp) ≤ wpos i
    split_ifs <;> omega
  case recvPos k =>
    have hv := hread (i := u.ringIdx) (by simp [request, e])
    split_ifs with h1 h2
    · exact behind_recvNone h
    · exact ⟨hv.le, by show u.readPos < a.val; omega⟩
    · show u.readPos < wpos u.ringIdx
      omega
  case recvSkip k wp =>
    show wp - g.subRingCapacity < wpos u.ringIdx
    omega
  case recvSeq => exact behind_recvWith h
  case recvLost k => exact behind_recvLoop (hnext h)
  case recvMeta => exact behind_recvClaim h
  case recvRc => exact behind_tryPin h
  case recvPin =>
    split_ifs
    · exact h
    · exact behind_tryPin h
  case recvUnpinPush k slot p =>
    cases p.resume a <;> exact h
  case recvLen k slot =>
    split_ifs
    · exact h
    · unfold sample
      split_ifs
      · exact hnext h
      · exact hnext h
  case copyPush v p => cases p.resume a <;> exact h
  case parkPos =>
    split_ifs
    · exact h
    · exact behind_recvLoop h
  case parkClear => exact behind_recvLoop h
  case parked cur wakes =>
    split_ifs
    · exact h
    · simp only [Behind, e]
      exact h
  case armPos =>
    have hv := hread (i := u.ringIdx) (by simp [request, e])
    exact ⟨by rw [hv]; exact h, hv.le⟩
  case armHead cur =>
    have hv := hread (i := u.ringIdx) (by simp [request, e])
    unfold headPos
    split_ifs with h1 h2
    · exact behind_armWith (h.1.trans h.2) fun _ => by omega
    · exact behind_armWith (h.1.trans h.2) fun hw => by cases hw
    · show u.readPos < wpos u.ringIdx
      omega
  case armSeq cur => exact behind_armWith h.le fun hw => absurd hw (headSeq_ne_armed u _)
  case armCheck cur =>
    have hv := hread (i := u.ringIdx) (by simp [request, e])
    split_ifs with h1
    · show u.readPos < wpos u.ringIdx
      omega
    · exact h.2
  case armHead2 =>
    cases u.headPos g a.val
    · exact h
    · exact h.le
  case armSeq2 => exact h.le
  case drainPos | drainMeta | drainCas | drainSub =>
    split_ifs
    all_goals first
      | exact h
      | exact behind_drainLoop h
  case drainPush pos wp slot p =>
    cases p.resume a
    · exact behind_drainLoop h
    · exact h
  case leaveFree => trivial
  case leaveCas2 =>
    split_ifs
    · trivial
    · exact h
  all_goals
    try split_ifs
    all_goals exact h

/-- The calls start behind the publishers. -/
theorem behind_call {l' : Local} {c : Call} (h : u.Behind wpos) (hc : (Local.sub u).call g c = some l') :
    ∃ u', l' = .sub u' ∧ u'.Behind wpos := by
  obtain ⟨u', rfl, ⟨-, waker, rfl⟩ | ⟨hlive, hcase⟩⟩ := Local.call_sub hc
  · refine ⟨_, rfl, ?_⟩
    unfold join tryJoin
    split_ifs <;> trivial
  · have hle : u.readPos ≤ wpos u.ringIdx := by simpa only [Behind, hlive] using h
    refine ⟨u', rfl, ?_⟩
    rcases hcase with ⟨copy, blocking, rfl⟩ | rfl | rfl | rfl
    · exact behind_recvLoop (u := { u with copy := copy, blocking := blocking, returned := none }) hle
    · exact hle
    · exact hle
    · exact hle

/-- What an access of `arm_wait` leads to: the mode is set before the check, and `Armed` is answered only
by a check that finds the ring empty. -/
structure Arms (wpos : Nat → Nat) (op : Op) (u u' : Sub) : Prop where
  ringIdx : u'.ringIdx = u.ringIdx
  readPos : u'.readPos = u.readPos
  waker : u'.waker = true
  goes : u'.pc.inArm = true ∨ u'.pc = .live
  sets : ∀ cur, u'.pc = .armCheck cur → op = .store (.hasWaiter u.ringIdx) waiterCarrier
  armed : u'.pc = .live → u'.waitState = .armed → (∃ cur, u.pc = .armCheck cur) ∧
    wpos u.ringIdx ≤ u.readPos ∧ op = .load (.writePos u.ringIdx)

theorem arms_armWith {op : Op} (hw : u.waker = true) (cur : Nat) (w : Wait) :
    Arms wpos op u (u.armWith cur w) := by
  unfold armWith
  split_ifs with hif
  · exact ⟨rfl, rfl, hw, .inl rfl, by simp, by simp⟩
  · exact ⟨rfl, rfl, hw, .inr rfl, by simp, fun _ hs => absurd ⟨hs, hw⟩ hif⟩

theorem arms_resume {op : Op} {a : Resp} (h : u.Behind wpos) (harm : u.pc.inArm = true)
    (hop : u.request g = some op) (ha : u.Honest g wpos a) (hw : u.waker = true) :
    Arms wpos op u (u.resume g a) := by
  unfold Behind at h
  cases e : u.pc <;> rw [e] at harm h <;> simp only [SubPc.inArm, Bool.false_eq_true] at harm <;>
    dsimp only at h <;> simp only [request, e, Option.some.injEq] at hop <;> subst hop <;>
    simp only [resume, e]
  case armHead cur =>
    cases u.headPos g a.val with
    | none => exact ⟨rfl, rfl, hw, .inl rfl, by simp, by simp⟩
    | some w => exact arms_armWith hw cur w
  case armSeq cur => exact arms_armWith hw cur (u.headSeq a.val)
  case armCheck cur =>
    have hv := ha u.ringIdx (by simp [request, e])
    split_ifs with h1
    · exact ⟨rfl, rfl, hw, .inl rfl, by simp, by simp⟩
    · exact ⟨rfl, rfl, hw, .inr rfl, by simp, fun _ _ => ⟨⟨cur, e⟩, by omega, rfl⟩⟩
  case armHead2 =>
    have hv := ha u.ringIdx (by simp [request, e])
    unfold headPos
    split_ifs with h1 h2
    · omega
    · exact ⟨rfl, rfl, hw, .inr rfl, by simp, by simp⟩
    · exact ⟨rfl, rfl, hw, .inl rfl, by simp, by simp⟩
  case armSeq2 =>
    exact ⟨rfl, rfl, hw, .inr rfl, by simp, fun _ hs => absurd hs (headSeq_ne_armed u _)⟩
  case armSet cur => exact ⟨rfl, rfl, hw, .inl rfl, fun _ _ => rfl, by simp⟩
  case armPos | armUndo => exact ⟨rfl, rfl, hw, .inl rfl, by simp, by simp⟩

end Sub

/-! ## All actors -/

namespace Local

/-- A subscriber is behind the publishers. -/
def Behind (wpos : Nat → Nat) : Local → Prop
  | .sub u => u.Behind wpos
  | _ => True

/-- Only a publisher looks at `has_waiter`. -/
theorem look_cases {g : Geometry} {l : Local} {r : Nat}
    (hop : l.request g = some (.load (.hasWaiter r))) : ∃ u, l = .pub u := by
  cases l with
  | pub u => exact ⟨u, rfl⟩
  | sub u =>
    cases e : u.pc <;>
      simp only [request, Sub.request, e, Option.some.injEq, Op.load.injEq, reduceCtorEq] at hop
    case recvUnpinPush k slot p => cases p <;> simp [PushPc.request] at hop
    case copyPush v p => cases p <;> simp [PushPc.request] at hop
    case drainPush pos wp slot p => cases p <;> simp [PushPc.request] at hop
  | view pc =>
    cases pc <;> simp only [request, ViewPc.request, Option.some.injEq, reduceCtorEq] at hop
    case push v p => cases p <;> simp [PushPc.request] at hop
  | repair u => cases e : u.pc <;> simp [request, Repair.request, e] at hop
  | reclaim u => cases e : u.pc <;> simp [request, Reclaim.request, e] at hop
  | orphan u =>
    cases e : u.pc <;> simp only [request, Orphan.request, e, Option.some.injEq, Op.load.injEq,
      reduceCtorEq] at hop
    case push claims onStack idx p => cases p <;> simp [PushPc.request] at hop

end Local

namespace Sys

variable {ι : Type} [DecidableEq ι] {g : Geometry} {proc : ι → Nat × Nat} {s s' : Sys ι}

/-- What a step that is not an access leaves of the actors: a publisher inside `publish()` is as it was,
and so is a subscriber on which no call starts, but for its views. -/
structure Still (l : Label ι) (s s' : Sys ι) : Prop where
  mem : s'.mem = s.mem
  publishing : ∀ p u, s.th p = .pub u → u.pc.publishing = true → s'.th p = .pub u
  resting : ∀ p u u', s.th p = .pub u → u.pc.publishing = false → s'.th p = .pub u' →
    u'.pc.claimed = none
  pub : ∀ p u', s'.th p = .pub u' → ∃ u, s.th p = .pub u ∧ u'.backend = u.backend
  kind : ∀ p u, s.th p = .pub u → ∃ u', s'.th p = .pub u'
  sub : ∀ t u, s.th t = .sub u → (∀ c, l ≠ .call t c) → ∃ vs, s'.th t = .sub { u with views := vs }

theorem still_next {l : Label ι} (hs : s.next g proc l = some s') (hl : ∀ t c, l ≠ .run t c) :
    Still l s s' := by
  have hsame : ∀ {s'' : Sys ι}, s''.mem = s.mem → s''.th = s.th → Still l s s'' := by
    intro s'' hm hth
    refine ⟨hm, fun p u hu _ => by rw [hth, hu], fun p u u' hu hrest hu' => ?_,
      fun p u hu => ⟨u, by rw [← hth, hu], rfl⟩, fun p u hu => ⟨u, by rw [hth, hu]⟩,
      fun t u hu _ => ⟨u.views, by rw [hth, hu]⟩⟩
    rw [hth, hu] at hu'
    obtain rfl := Local.pub.inj hu'
    exact PubPc.claimed_of_resting hrest
  cases l with
  | run t c => exact absurd rfl (hl t c)
  | call t c =>
    obtain ⟨-, l, hc, rfl⟩ := call_cases hs
    refine ⟨rfl, fun p u hu hpub => ?_, fun p u u' hu hrest hu' => ?_, fun p u' hu' => ?_,
      fun p u hu => ?_, fun v u hu hne => ?_⟩
    · have hpt : p ≠ t := by
        rintro rfl
        rw [hu] at hc
        obtain ⟨hidle, -⟩ := Local.call_pub hc
        rw [hidle] at hpub
        cases hpub
      simp [Function.update_of_ne hpt, hu]
    · by_cases hpt : p = t
      · subst hpt
        simp only [Function.update_self] at hu'
        subst hu'
        rw [hu] at hc
        obtain ⟨hidle, w, hw, hcase⟩ := Local.call_pub hc
        obtain rfl := Local.pub.inj hw
        rcases hcase with ⟨n, rfl⟩ | ⟨y, k, n, -, rfl⟩ | ⟨-, rfl⟩ | ⟨y, len, -, -, -, rfl⟩
        · exact PubPc.claimed_of_resting hrest
        all_goals rfl
      · simp only [Function.update_of_ne hpt, hu] at hu'
        obtain rfl := Local.pub.inj hu'
        exact PubPc.claimed_of_resting hrest
    · by_cases hpt : p = t
      · subst hpt
        simp only [Function.update_self] at hu'
        subst hu'
        rcases Local.call_pass hc with ⟨v, hv⟩ | ⟨v, hv⟩ | ⟨v, -, -, hv⟩ | ⟨v, -, -, -, hv⟩ | ⟨v, -, -, -, hv⟩
        · rw [hv] at hc
          obtain ⟨-, w, hw, hcase⟩ := Local.call_pub hc
          obtain rfl := Local.pub.inj hw
          refine ⟨v, hv, ?_⟩
          rcases hcase with ⟨n, rfl⟩ | ⟨y, k, n, -, rfl⟩ | ⟨-, rfl⟩ | ⟨y, len, -, -, -, rfl⟩ <;> rfl
        · rw [hv] at hc
          obtain ⟨w, hw, -⟩ := Local.call_sub hc
          cases hw
        all_goals cases hv
      · exact ⟨u', by simpa [Function.update_of_ne hpt] using hu', rfl⟩
    · by_cases hpt : p = t
      · subst hpt
        rw [hu] at hc
        obtain ⟨-, w, rfl, -⟩ := Local.call_pub hc
        exact ⟨w, by simp⟩
      · exact ⟨u, by simp [Function.update_of_ne hpt, hu]⟩
    · have hvt : v ≠ t := by
        rintro rfl
        exact hne c rfl
      exact ⟨u.views, by simp [Function.update_of_ne hvt, hu]⟩
  | destroy a v k =>
    obtain ⟨-, w, y, ha, hv, -, rfl⟩ := destroy_cases hs
    have hother : ∀ p u, s.th p = .pub u → p ≠ a ∧ p ≠ v := by
      intro p u hu
      refine ⟨?_, ?_⟩
      · rintro rfl
        rw [hu] at ha
        cases ha
      · rintro rfl
        rw [hu] at hv
        cases hv
    have hpub : ∀ p u, s.th p = .pub u → (Function.update (Function.update s.th a
        (.sub { w with views := w.views.eraseIdx k })) v (.view (.sub y))) p = .pub u := by
      intro p u hu
      obtain ⟨hpa, hpv⟩ := hother p u hu
      rw [Function.update_of_ne hpv, Function.update_of_ne hpa, hu]
    refine ⟨rfl, fun p u hu _ => hpub p u hu, fun p u u' hu hrest hu' => ?_, fun p u' hu' => ?_,
      fun p u hu => ⟨u, hpub p u hu⟩, fun t u hu _ => ?_⟩
    · obtain rfl := Local.pub.inj ((hpub p u hu).symm.trans hu')
      exact PubPc.claimed_of_resting hrest
    · refine ⟨u', ?_, rfl⟩
      have hpv : p ≠ v := by
        rintro rfl
        simp at hu'
      have hpa : p ≠ a := by
        rintro rfl
        simp [Function.update_of_ne hpv] at hu'
      simpa [Function.update_of_ne hpv, Function.update_of_ne hpa] using hu'
    · have htv : t ≠ v := by
        rintro rfl
        rw [hu] at hv
        cases hv
      by_cases hta : t = a
      · subst hta
        obtain rfl : u = w := by
          rw [hu] at ha
          exact Local.sub.inj ha
        exact ⟨u.views.eraseIdx k, by simp [Function.update_of_ne htv]⟩
      · exact ⟨u.views, by simp [Function.update_of_ne htv, Function.update_of_ne hta, hu]⟩
  | write a off byte =>
    obtain ⟨-, u, slot, -, -, -, -, rfl⟩ := write_cases hs
    exact hsame rfl rfl
  | exit pid =>
    obtain ⟨st, -, rfl⟩ := exit_cases hs
    exact hsame rfl rfl
  | spawn pid st =>
    obtain ⟨-, rfl⟩ := spawn_cases hs
    exact hsame rfl rfl

omit [DecidableEq ι] in
/-- The publishers that hold a position are as they were. -/
theorem Unstolen.still {l : Label ι} (h : Unstolen g s) (hst : Still l s s') : Unstolen g s' := by
  have hback : ∀ {p : ι} {u : Pub} {x : Nat × Nat}, s'.th p = .pub u → u.pc.claimed = some x →
      s.th p = .pub u := by
    intro p u x hu hx
    obtain ⟨w, hw, -⟩ := hst.pub p u hu
    cases hpub : w.pc.publishing with
    | true =>
      have := hst.publishing p w hw hpub
      rw [hu] at this
      rw [Local.pub.inj this, hw]
    | false =>
      rw [hst.resting p w u hw hpub hu] at hx
      cases hx
  refine ⟨fun p q u w x hu hw hpx hqx => h.unique p q u w x (hback hu hpx) (hback hw hqx) hpx hqx,
    fun p u r pos hu hc => ?_, fun p u pos hu hwr => ?_, fun p u d pos hu hpc => ?_,
    fun p u d hu hbl => ?_⟩
  · rw [hst.mem]
    exact h.below p u r pos (hback hu (PubPc.claimed_of_contending hc)) hc
  · have hc : ∃ x, u.pc.claimed = some x := by
      cases e : u.pc <;> rw [e] at hwr <;> first | exact ⟨_, rfl⟩ | cases hwr
    obtain ⟨x, hx⟩ := hc
    exact h.wrapped p u pos (hback hu hx) hwr
  · rw [hst.mem]
    exact h.resolved p u d pos (hback hu (x := (d.i, pos)) (by rw [hpc]; rfl)) hpc
  · have hc : ∃ x, u.pc.claimed = some x := by
      cases e : u.pc <;> rw [e] at hbl <;> first | exact ⟨_, rfl⟩ | cases hbl
    obtain ⟨x, hx⟩ := hc
    exact h.blocking p u d (hback hu hx) hbl

/-- Every subscriber stays behind the publishers. -/
theorem behind_next (hg : g.Valid) (hseq : Sequenced g s) (h : ∀ t, (s.th t).Behind s.wpos) {l : Label ι}
    (hs : s.next g proc l = some s') (hr : s.inRange l = true) : ∀ t, (s'.th t).Behind s'.wpos := by
  have hmono : ∀ {wpos' : Nat → Nat} {l : Local}, (∀ r, s.wpos r ≤ wpos' r) → l.Behind s.wpos →
      l.Behind wpos' := by
    intro wpos' l hle hl
    cases l with
    | sub u => exact Sub.Behind.mono hle hl
    | _ => trivial
  cases l with
  | run t c =>
    obtain ⟨-, op, hop, rfl⟩ := run_cases hs
    have hle := wpos_run_le (by decide) hop hr
    refine forall_update (fun v => hmono hle (h v)) ?_
    cases ht : s.th t with
    | sub u =>
      have hu := h t
      rw [ht] at hu hop
      refine hmono hle (Sub.Behind.resume hu hg.capacity_pos hseq.wpos_lt fun i hi => ?_)
      rw [show u.request g = some op from hop] at hi
      obtain rfl := Option.some.inj hi
      rfl
    | _ => trivial
  | call t c =>
    obtain ⟨-, l, hc, rfl⟩ := call_cases hs
    refine forall_update h ?_
    rcases Local.call_pass hc with ⟨u, hu⟩ | ⟨u, hu⟩ | ⟨u, -, -, rfl⟩ | ⟨u, -, -, -, rfl⟩ | ⟨u, -, -, -, rfl⟩
    · rw [hu] at hc
      obtain ⟨-, u', rfl, -⟩ := Local.call_pub hc
      trivial
    · have hb := h t
      rw [hu] at hc hb
      obtain ⟨u', rfl, hb'⟩ := Sub.behind_call hb hc
      exact hb'
    all_goals trivial
  | destroy a v k =>
    obtain ⟨-, u, w, ha, -, -, rfl⟩ := destroy_cases hs
    have hu : (Local.sub { u with views := u.views.eraseIdx k }).Behind s.wpos := by
      have := h a
      rw [ha] at this
      exact this
    have hview : (Local.view (.sub w)).Behind s.wpos := trivial
    exact forall_update (forall_update h hu) hview
  | write a off byte =>
    obtain ⟨-, u, slot, -, -, -, -, rfl⟩ := write_cases hs
    exact h
  | exit pid =>
    obtain ⟨st, -, rfl⟩ := exit_cases hs
    exact h
  | spawn pid st =>
    obtain ⟨-, rfl⟩ := spawn_cases hs
    exact h

end Sys

end Kickmsg
