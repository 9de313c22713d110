import Kickmsg.Sequence

/-!
# Who holds a ring

A ring is claimed by the `Free` to `Live` exchange of a `Subscriber` constructor and held until `Free` is
published again, by the holder's `release_ring` or by a `reclaim_dead_rings` pass. `Tenancy` ties the
state word and the recorded owner to the holder. It survives every step but one: a pass that publishes
`Free` must be right about the holder's death, and the theorems of the next modules say when it is.
-/

namespace Kickmsg

open Lib

/-! ## The subscriber's side -/

/-- The ring a subscriber holds. -/
def Sub.held (u : Sub) : Option Nat :=
  match u.pc with
  | .out | .joinPos _ | .joinCas _ _ => none
  | .joinStart i _ | .joinPid i _ | .joinPos2 i _ => some i
  | _ => some u.ringIdx

namespace SubPc

/-- `release_ring` has cleared `owner_pid`. -/
def pidCleared : SubPc → Bool
  | .clearStart _ | .drainPos | .drainMeta _ _ | .drainCas _ _ _ | .drainSub _ _ _ | .drainPush _ _ _ _
  | .leaveFree | .leaveLoad2 | .leaveCas2 _ => true
  | _ => false

/-- `release_ring` has cleared `owner_starttime`. -/
def startCleared : SubPc → Bool
  | .drainPos | .drainMeta _ _ | .drainCas _ _ _ | .drainSub _ _ _ | .drainPush _ _ _ _
  | .leaveFree | .leaveLoad2 | .leaveCas2 _ => true
  | _ => false

/-- Accesses that write the state word or the recorded owner. -/
def tenure : SubPc → Bool
  | .joinCas _ _ | .joinStart _ _ | .joinPid _ _ | .leaveCas _ | .clearPid _ | .clearStart _
  | .leaveFree | .leaveCas2 _ => true
  | _ => false

end SubPc

/-- The state word and the recorded owner of a ring. -/
def Loc.tenure : Loc → Bool
  | .stateFlight _ | .ownerPid _ | .ownerStarttime _ => true
  | _ => false

namespace Sub

variable {g : Geometry} {u : Sub}

/-- `u'` holds what `u` holds, and has cleared what `u` has. -/
structure Keeps (u u' : Sub) : Prop where
  held : u'.held = u.held
  pid : u'.pc.pidCleared = u.pc.pidCleared
  start : u'.pc.startCleared = u.pc.startCleared
  ids : u'.pid = u.pid ∧ u'.starttime = u.starttime

theorem keeps_resume (h : u.pc.tenure = false) (r : Resp) : Keeps u (u.resume g r) := by
  obtain ⟨_, _, _, _, _, _, _, _, _, _, _, _, _, pc⟩ := u
  cases pc <;> simp only [SubPc.tenure, reduceCtorEq] at h <;>
    simp only [resume, recvLoop, recvNone, recvWith, recvClaim, tryPin, sample, armWith, drainLoop] <;>
    (repeat' split) <;> exact ⟨rfl, rfl, rfl, rfl, rfl⟩

theorem ids_resume (r : Resp) : (u.resume g r).pid = u.pid ∧ (u.resume g r).starttime = u.starttime := by
  obtain ⟨_, _, _, _, _, _, _, _, _, _, _, _, _, pc⟩ := u
  cases pc <;>
    simp only [resume, recvLoop, recvNone, recvWith, recvClaim, tryPin, sample, armWith, drainLoop,
      tryJoin] <;>
    (repeat' split) <;> trivial

theorem tenure_request {op : Op} (h : u.pc.tenure = false) (hop : u.request g = some op) {l : Loc}
    (hl : op.target = some l) : l.tenure = false := by
  cases e : u.pc <;> simp only [e, SubPc.tenure, reduceCtorEq] at h <;>
    simp only [request, e, Option.some.injEq, reduceCtorEq] at hop <;> subst hop <;>
    first
      | (rcases Local.push_target hl with rfl | rfl <;> rfl)
      | (simp only [Op.target, Option.some.injEq, reduceCtorEq] at hl <;> subst hl <;> rfl)

end Sub

/-! ## The pass's side -/

namespace ReclaimPc

/-- What a pass knows of the state words it is about to exchange. -/
def Checked : ReclaimPc → Prop
  | .pid1 _ st | .start1 _ st _ | .probe1 _ st _ _ | .fresh _ st | .pid2 _ st _ | .start2 _ st _ _
  | .probe2 _ st _ _ _ => st ≠ .free
  | .claim _ st old => st ≠ .free ∧ getState old = st
  | .restore _ st old => st ≠ .free ∧ getState old = .reclaiming
  | .free _ old => getState old = .reclaiming
  | _ => True

/-- Accesses that write the state word or the recorded owner. -/
def tenure : ReclaimPc → Bool
  | .claim _ _ _ | .clearPid _ _ | .clearStart _ _ | .free _ _ | .restore _ _ _ => true
  | _ => false

end ReclaimPc

namespace Reclaim

variable {g : Geometry} {u : Reclaim}

theorem checked_resume (h : u.pc.Checked) (r : Resp) : (u.resume g r).pc.Checked := by
  obtain ⟨_, pc⟩ := u
  cases pc <;> simp only [ReclaimPc.Checked] at h <;>
    simp only [resume, scanRing, tryFree, tryRestore] <;> (repeat' split) <;>
    simp_all [ReclaimPc.Checked]

theorem tenure_request {op : Op} (h : u.pc.tenure = false) (hop : u.request = some op) {l : Loc}
    (hl : op.target = some l) : l.tenure = false := by
  cases e : u.pc <;> simp only [e, ReclaimPc.tenure, reduceCtorEq] at h <;>
    simp only [request, e, Option.some.injEq, reduceCtorEq] at hop <;> subst hop <;>
    simp only [Op.target, Option.some.injEq, reduceCtorEq] at hl
  subst hl
  rfl

end Reclaim

namespace Local

/-- The ring an actor holds. -/
def held : Local → Option Nat
  | .sub u => u.held
  | _ => none

def pidCleared : Local → Bool
  | .sub u => u.pc.pidCleared
  | _ => false

def startCleared : Local → Bool
  | .sub u => u.pc.startCleared
  | _ => false

/-- What an actor knows by itself: who it is, or what its pass has checked. -/
def Knows (id : Nat × Nat) : Local → Prop
  | .sub u => u.pid = id.1 ∧ u.starttime = id.2
  | .reclaim u => u.pc.Checked
  | _ => True

/-- `l'` holds what `l` holds, and has cleared what `l` has. -/
structure Keeps (l l' : Local) : Prop where
  held : l'.held = l.held
  pid : l'.pidCleared = l.pidCleared
  start : l'.startCleared = l.startCleared

end Local

namespace Sys

variable {ι : Type}

/-- The state of a ring. -/
def ringState (s : Sys ι) (r : Nat) : RingState := getState (s.mem (.stateFlight r))

/-- The actor's process existed and is gone. -/
def Dead (proc : ι → Nat × Nat) (s : Sys ι) (t : ι) : Prop := proc t ∈ s.gone

/-- Who holds ring `r`, and what its words say about it. -/
structure RingTenancy (proc : ι → Nat × Nat) (s : Sys ι) (r : Nat) : Prop where
  word_lt : s.mem (.stateFlight r) < 2 ^ 32
  free_iff : s.ghost.tenant r = none ↔ s.ringState r = .free
  tenant : ∀ t, s.ghost.tenant r = some t → (s.th t).held = some r ∧
    (s.alive proc t = true ∨ s.Dead proc t)
  holder : ∀ t, (s.th t).held = some r → s.ghost.tenant r = some t ∨ s.Dead proc t
  vacant : s.ghost.tenant r = none → s.mem (.ownerPid r) = 0 ∧ s.mem (.ownerStarttime r) = 0
  owner : ∀ t, s.ghost.tenant r = some t →
    (s.mem (.ownerPid r) = 0 ∨ s.mem (.ownerPid r) = (proc t).1) ∧
    (s.mem (.ownerStarttime r) = 0 ∨ s.mem (.ownerStarttime r) = (proc t).2)
  cleared : ∀ t, s.ghost.tenant r = some t →
    ((s.th t).pidCleared = true → s.mem (.ownerPid r) = 0) ∧
    ((s.th t).startCleared = true → s.mem (.ownerStarttime r) = 0)

/-- Who holds the rings. -/
structure Tenancy (proc : ι → Nat × Nat) (s : Sys ι) : Prop where
  procs : ∀ pid st, s.procs pid = some st → pid ≠ 0 ∧ st ≠ 0 ∧ (pid, st) ∉ s.gone
  knows : ∀ t, (s.th t).Knows (proc t)
  ring : ∀ r, s.RingTenancy proc r

section Basic

variable {proc : ι → Nat × Nat} {s : Sys ι}

/-- A process that exists is not gone. -/
theorem Tenancy.not_dead (h : Tenancy proc s) {t : ι} (ha : s.alive proc t = true) :
    ¬ s.Dead proc t := by
  simp only [alive, decide_eq_true_eq] at ha
  exact (h.procs _ _ ha).2.2

/-- A running holder is the tenant. -/
theorem Tenancy.tenant_of_held (h : Tenancy proc s) {r : Nat} {t : ι} (ha : s.alive proc t = true)
    (hr : (s.th t).held = some r) : s.ghost.tenant r = some t :=
  ((h.ring r).holder t hr).resolve_right (h.not_dead ha)

/-- Two running holders of one ring are one. -/
theorem Tenancy.held_unique (h : Tenancy proc s) {r : Nat} {t v : ι} (ha : s.alive proc t = true)
    (hr : (s.th t).held = some r) (hav : s.alive proc v = true) (hrv : (s.th v).held = some r) :
    v = t :=
  Option.some.inj ((h.tenant_of_held hav hrv).symm.trans (h.tenant_of_held ha hr))

end Basic

section Steps

variable [DecidableEq ι] {g : Geometry} {proc : ι → Nat × Nat} {s s' : Sys ι} {r : Nat} {t : ι}
  {l' : Local}

/-- `Live` is published on a free ring by its new tenant. -/
theorem RingTenancy.join (h : s.RingTenancy proc r) (hth : s'.th = Function.update s.th t l')
    (hp : s'.procs = s.procs) (hgo : s'.gone = s.gone) (hlt : s'.mem (.stateFlight r) < 2 ^ 32)
    (hst : s.ringState r = .free) (hst' : s'.ringState r ≠ .free)
    (hpid : s'.mem (.ownerPid r) = s.mem (.ownerPid r))
    (hstart : s'.mem (.ownerStarttime r) = s.mem (.ownerStarttime r))
    (hten : s'.ghost.tenant r = some t) (hheld : l'.held = some r)
    (ha : s.alive proc t = true) : s'.RingTenancy proc r := by
  have hn := h.free_iff.mpr hst
  obtain ⟨v1, v2⟩ := h.vacant hn
  refine ⟨hlt, by simp [hten, hst'], fun v hv => ?_, fun v hv => ?_, fun hn => ?_, fun v hv => ?_,
    fun v hv => ?_⟩
  · obtain rfl : t = v := Option.some.inj (hten.symm.trans hv)
    rw [hth, Function.update_self, alive, hp]
    exact ⟨hheld, .inl ha⟩
  · by_cases e : v = t
    · exact .inl (e ▸ hten)
    · rw [hth, Function.update_of_ne e] at hv
      right
      rw [Dead, hgo]
      exact (h.holder v hv).resolve_left (by simp [hn])
  · simp [hten] at hn
  · rw [hpid, hstart]
    exact ⟨.inl v1, .inl v2⟩
  · rw [hpid, hstart]
    exact ⟨fun _ => v1, fun _ => v2⟩

/-- `Free` is published on a ring whose recorded owner is cleared; the holder, if it runs, is `t`. -/
theorem RingTenancy.vacate (h : s.RingTenancy proc r) (hth : s'.th = Function.update s.th t l')
    (hgo : s'.gone = s.gone) (hlt : s'.mem (.stateFlight r) < 2 ^ 32)
    (hst' : s'.ringState r = .free) (hpid : s'.mem (.ownerPid r) = 0)
    (hstart : s'.mem (.ownerStarttime r) = 0) (hten : s'.ghost.tenant r = none)
    (hheld : l'.held ≠ some r) (hT : ∀ v, s.ghost.tenant r = some v → v = t ∨ s.Dead proc v) :
    s'.RingTenancy proc r := by
  refine ⟨hlt, by simp [hten, hst'], fun v hv => ?_, fun v hv => ?_, fun _ => ⟨hpid, hstart⟩,
    fun v hv => ?_, fun v hv => ?_⟩
  · simp [hten] at hv
  · by_cases e : v = t
    · subst e
      rw [hth, Function.update_self] at hv
      exact absurd hv hheld
    · rw [hth, Function.update_of_ne e] at hv
      right
      rw [Dead, hgo]
      rcases h.holder v hv with hv | hv
      · exact (hT v hv).resolve_left e
      · exact hv
  · simp [hten] at hv
  · simp [hten] at hv

/-- A step that neither takes nor frees ring `r`, and writes nothing but zero or the tenant's identity
as its recorded owner. -/
theorem RingTenancy.record (h : s.RingTenancy proc r) (hth : s'.th = Function.update s.th t l')
    (hp : s'.procs = s.procs) (hgo : s'.gone = s.gone) (hlt : s'.mem (.stateFlight r) < 2 ^ 32)
    (hst : s'.ringState r = .free ↔ s.ringState r = .free)
    (hten : s'.ghost.tenant r = s.ghost.tenant r)
    (hheld : l'.held = some r ↔ (s.th t).held = some r)
    (hpid : s'.mem (.ownerPid r) = s.mem (.ownerPid r) ∨ s'.mem (.ownerPid r) = 0 ∨
      (s.ghost.tenant r = some t ∧ s'.mem (.ownerPid r) = (proc t).1))
    (hstart : s'.mem (.ownerStarttime r) = s.mem (.ownerStarttime r) ∨
      s'.mem (.ownerStarttime r) = 0 ∨
      (s.ghost.tenant r = some t ∧ s'.mem (.ownerStarttime r) = (proc t).2))
    (hflag : ∀ v, s.ghost.tenant r = some v →
      ((s'.th v).pidCleared = true → s'.mem (.ownerPid r) = 0) ∧
      ((s'.th v).startCleared = true → s'.mem (.ownerStarttime r) = 0)) :
    s'.RingTenancy proc r := by
  have hh : ∀ v, (s'.th v).held = some r ↔ (s.th v).held = some r := by
    intro v
    rw [hth]
    by_cases hv : v = t
    · subst hv
      rw [Function.update_self, hheld]
    · rw [Function.update_of_ne hv]
  refine ⟨hlt, by rw [hten, hst]; exact h.free_iff, fun v hv => ?_, fun v hv => ?_,
    fun hn => ?_, fun v hv => ?_, fun v hv => hflag v (hten ▸ hv)⟩
  · rw [hten] at hv
    rw [hh, Dead, hgo, alive, hp]
    exact h.tenant v hv
  · rw [hten, Dead, hgo]
    exact h.holder v ((hh v).mp hv)
  · rw [hten] at hn
    obtain ⟨v1, v2⟩ := h.vacant hn
    refine ⟨?_, ?_⟩
    · rcases hpid with e | e | ⟨e, -⟩
      · exact e.trans v1
      · exact e
      · simp [hn] at e
    · rcases hstart with e | e | ⟨e, -⟩
      · exact e.trans v2
      · exact e
      · simp [hn] at e
  · rw [hten] at hv
    obtain ⟨o1, o2⟩ := h.owner v hv
    refine ⟨?_, ?_⟩
    · rcases hpid with e | e | ⟨e, e'⟩
      · rw [e]; exact o1
      · exact .inl e
      · obtain rfl : t = v := Option.some.inj (e.symm.trans hv)
        exact .inr e'
    · rcases hstart with e | e | ⟨e, e'⟩
      · rw [e]; exact o2
      · exact .inl e
      · obtain rfl : t = v := Option.some.inj (e.symm.trans hv)
        exact .inr e'

/-- A step of `t` that leaves the recorded owner of ring `r`, and what `t` has of the ring, alone. -/
theorem RingTenancy.frame (h : s.RingTenancy proc r) (hth : s'.th = Function.update s.th t l')
    (hp : s'.procs = s.procs) (hgo : s'.gone = s.gone) (hlt : s'.mem (.stateFlight r) < 2 ^ 32)
    (hst : s'.ringState r = .free ↔ s.ringState r = .free)
    (hpid : s'.mem (.ownerPid r) = s.mem (.ownerPid r))
    (hstart : s'.mem (.ownerStarttime r) = s.mem (.ownerStarttime r))
    (hten : s'.ghost.tenant r = s.ghost.tenant r)
    (hheld : l'.held = some r ↔ (s.th t).held = some r)
    (hflag : (s.th t).held = some r → l'.pidCleared = (s.th t).pidCleared ∧
      l'.startCleared = (s.th t).startCleared) : s'.RingTenancy proc r := by
  refine h.record hth hp hgo hlt hst hten hheld (.inl hpid) (.inl hstart) fun v hv => ?_
  rw [hpid, hstart, hth]
  by_cases e : v = t
  · subst e
    obtain ⟨f1, f2⟩ := hflag (h.tenant v hv).1
    rw [Function.update_self, f1, f2]
    exact h.cleared v hv
  · rw [Function.update_of_ne e]
    exact h.cleared v hv

omit [DecidableEq ι] in
/-- A state word that is written without a ring being taken or freed changes no tenant. -/
theorem tenantAfter_eq {op : Op} {m' : Mem} (h : ∀ r, s.RingTenancy proc r)
    (hst : ∀ r, getState (m' (.stateFlight r)) = .free ↔ s.ringState r = .free) :
    s.ghost.tenantAfter t op s.mem m' = s.ghost.tenant := by
  unfold Ghost.tenantAfter
  split
  · rename_i i hi
    split_ifs with h1 h2
    · have := (h i).free_iff.mpr ((hst i).mp h1)
      rw [← this, Function.update_eq_self]
    · exact absurd ((hst i).mpr h2) h1
    · rfl
  · rfl

/-- An access that takes and frees no ring and does not touch a recorded owner. -/
theorem Tenancy.run_keep (h : Tenancy proc s) {op : Op} {c : Bool}
    (hlt : ∀ r, (s.ran g t op c).mem (.stateFlight r) < 2 ^ 32)
    (hst : ∀ r, (s.ran g t op c).ringState r = .free ↔ s.ringState r = .free)
    (howner : ∀ r, op.target ≠ some (.ownerPid r) ∧ op.target ≠ some (.ownerStarttime r))
    (hkeeps : (s.th t).Keeps ((s.ran g t op c).th t))
    (hknows : ((s.ran g t op c).th t).Knows (proc t)) : Tenancy proc (s.ran g t op c) := by
  simp only [ran, Function.update_self] at hkeeps hknows
  refine ⟨h.procs, fun v => ?_, fun r => ?_⟩
  · by_cases e : v = t
    · subst e
      simpa [ran] using hknows
    · simpa [ran, Function.update_of_ne e] using h.knows v
  · exact (h.ring r).frame rfl rfl rfl (hlt r) (hst r) (Op.exec_frame _ _ _ _ (howner r).1)
      (Op.exec_frame _ _ _ _ (howner r).2) (congrFun (tenantAfter_eq h.ring hst) r)
      (by rw [hkeeps.held]) fun _ => ⟨hkeeps.pid, hkeeps.start⟩

/-- An access that touches neither a state word nor a recorded owner. -/
theorem Tenancy.run_still (h : Tenancy proc s) {op : Op} {c : Bool}
    (htarget : ∀ l, op.target = some l → l.tenure = false)
    (hkeeps : (s.th t).Keeps ((s.ran g t op c).th t))
    (hknows : ((s.ran g t op c).th t).Knows (proc t)) : Tenancy proc (s.ran g t op c) := by
  have hne : ∀ l : Loc, l.tenure = true → op.target ≠ some l := fun l hl e => by
    simp [htarget l e] at hl
  have hsf : ∀ r, (s.ran g t op c).mem (.stateFlight r) = s.mem (.stateFlight r) := fun r =>
    Op.exec_frame _ _ _ _ (hne _ rfl)
  exact h.run_keep (fun r => hsf r ▸ (h.ring r).word_lt) (fun r => by rw [ringState, hsf r]; rfl)
    (fun r => ⟨hne _ rfl, hne _ rfl⟩) hkeeps hknows

/-- What an exchange of a state word leaves behind. -/
theorem ran_exchange (g : Geometry) (s : Sys ι) (t : ι) (c weak : Bool) (r old new i : Nat) :
    (s.ran g t (.cas weak (.stateFlight r) old new) c).mem (.stateFlight i) =
        s.mem (.stateFlight i) ∨
      (i = r ∧ s.mem (.stateFlight i) = old ∧
        (s.ran g t (.cas weak (.stateFlight r) old new) c).mem (.stateFlight i) = new) := by
  rcases Op.exec_cas s.procs s.mem c weak (.stateFlight r) old new with ⟨ho, he⟩ | he
  · by_cases e : i = r
    · subst e
      exact .inr ⟨rfl, ho, by simp [ran, he]⟩
    · exact .inl (by simp [ran, he, e])
  · exact .inl (by simp [ran, he])

/-- An exchange of a state word by one that frees and takes nothing. -/
theorem Tenancy.run_exchange (h : Tenancy proc s) {c weak : Bool} {r old new : Nat}
    (hnew : s.mem (.stateFlight r) = old →
      new < 2 ^ 32 ∧ (getState new = .free ↔ getState old = .free))
    (hkeeps : (s.th t).Keeps ((s.ran g t (.cas weak (.stateFlight r) old new) c).th t))
    (hknows : ((s.ran g t (.cas weak (.stateFlight r) old new) c).th t).Knows (proc t)) :
    Tenancy proc (s.ran g t (.cas weak (.stateFlight r) old new) c) := by
  refine h.run_keep (fun i => ?_) (fun i => ?_) (fun i => by simp [Op.target]) hkeeps hknows
  · rcases ran_exchange g s t c weak r old new i with e | ⟨rfl, ho, e⟩
    · rw [e]
      exact (h.ring i).word_lt
    · rw [e]
      exact (hnew ho).1
  · rcases ran_exchange g s t c weak r old new i with e | ⟨rfl, ho, e⟩
    · rw [ringState, e]
      rfl
    · rw [ringState, e, ringState, ho]
      exact (hnew ho).2

/-- Counting a publisher in or out keeps the state bits: they are the low ones. -/
theorem getState_admitted (w : Nat) : getState (u32 (w + inFlightOne)) = getState w := by
  rw [getState_eq, getState_eq, u32, inFlightOne]
  have : (w + 4) % 2 ^ 32 % 4 = w % 4 := by omega
  rw [this]

theorem getState_release (w : Nat) : getState ((w + 2 ^ 32 - inFlightOne) % 2 ^ 32) = getState w := by
  rw [getState_eq, getState_eq, inFlightOne]
  have : (w + 2 ^ 32 - 4) % 2 ^ 32 % 4 = w % 4 := by omega
  rw [this]

/-- A publisher moves no ring. -/
theorem Tenancy.run_pub (h : Tenancy proc s) {u : Pub} {op : Op} {c : Bool} (hu : s.th t = .pub u)
    (hop : u.request g = some op) : Tenancy proc (s.ran g t op c) := by
  have hk : (s.th t).Keeps ((s.ran g t op c).th t) := by
    simp only [ran, Function.update_self, hu, Local.resume]
    exact ⟨rfl, rfl, rfl⟩
  have hkn : ((s.ran g t op c).th t).Knows (proc t) := by
    simp only [ran, Function.update_self, hu, Local.resume]
    trivial
  have hleave : ∀ d : Delivery, op = .fetchSub (.stateFlight d.i) inFlightOne →
      Tenancy proc (s.ran g t op c) := by
    rintro d rfl
    have key : ∀ r, (s.ran g t (.fetchSub (.stateFlight d.i) inFlightOne) c).mem (.stateFlight r) =
        s.mem (.stateFlight r) ∨
        (s.ran g t (.fetchSub (.stateFlight d.i) inFlightOne) c).mem (.stateFlight r) =
          (s.mem (.stateFlight r) + 2 ^ 32 - inFlightOne) % 2 ^ 32 := by
      intro r
      by_cases e : r = d.i
      · subst e
        exact .inr (by simp [ran, Op.exec, Loc.modulus])
      · exact .inl (by simp [ran, Op.exec, e])
    refine h.run_keep (fun r => ?_) (fun r => ?_) (fun r => by simp [Op.target]) hk hkn
    · rcases key r with e | e <;> rw [e]
      · exact (h.ring r).word_lt
      · exact Nat.mod_lt _ (by decide)
    · rcases key r with e | e <;> rw [ringState, e]
      · rfl
      · rw [getState_release]
        rfl
  cases e : u.pc <;> simp only [Pub.request, e, Option.some.injEq, reduceCtorEq] at hop
  case admitCas d old =>
    subst hop
    refine h.run_exchange (fun _ => ⟨Nat.mod_lt _ (by decide), ?_⟩) hk hkn
    rw [getState_admitted]
  case leave d => exact hleave d hop.symm
  case abandonLeave d exc => exact hleave d hop.symm
  all_goals
    refine h.run_still (fun l hl => ?_) hk hkn
    subst hop
    first
      | (rcases Local.push_target hl with rfl | rfl <;> rfl)
      | (rw [Local.pop_target hl]; rfl)
      | (simp only [Op.target, Option.some.injEq, reduceCtorEq] at hl <;> subst hl <;> rfl)

theorem getState_packed (q : RingState) : getState (makePacked q 0) = q := by
  rw [makePacked_zero]
  cases q <;> rfl

theorem packed_lt (q : RingState) : makePacked q 0 < 2 ^ 32 := by
  rw [makePacked_zero]
  have := q.code_lt
  omega

omit [DecidableEq ι] in
theorem tenantAfter_of_ne {op : Op} {m m' : Mem} (h : op.target ≠ some (.stateFlight r)) :
    s.ghost.tenantAfter t op m m' r = s.ghost.tenant r := by
  unfold Ghost.tenantAfter
  cases ho : op.target with
  | none => rfl
  | some l =>
    cases l with
    | stateFlight i =>
      have hne : r ≠ i := fun e => h (e ▸ ho)
      simp only
      split_ifs <;> simp [hne]
    | _ => rfl

/-- An access to the state word or the recorded owner of ring `i`. -/
theorem Tenancy.run_ring (h : Tenancy proc s) {op : Op} {c : Bool} (i : Nat)
    (htarget : op.target = some (.stateFlight i) ∨ op.target = some (.ownerPid i) ∨
      op.target = some (.ownerStarttime i))
    (hheld : ∀ r, r ≠ i → (s.th t).held ≠ some r ∧ ((s.ran g t op c).th t).held ≠ some r)
    (hknows : ((s.ran g t op c).th t).Knows (proc t))
    (hring : (s.ran g t op c).RingTenancy proc i) : Tenancy proc (s.ran g t op c) := by
  refine ⟨h.procs, fun v => ?_, fun r => ?_⟩
  · by_cases e : v = t
    · exact e ▸ hknows
    · simpa [ran, Function.update_of_ne e] using h.knows v
  · by_cases e : r = i
    · exact e ▸ hring
    · obtain ⟨h1, h2⟩ := hheld r e
      simp only [ran, Function.update_self] at h2
      have hne : op.target ≠ some (.stateFlight r) ∧ op.target ≠ some (.ownerPid r) ∧
          op.target ≠ some (.ownerStarttime r) := by
        rcases htarget with ht | ht | ht <;> simp [ht, Ne.symm e]
      have hsf : (s.ran g t op c).mem (.stateFlight r) = s.mem (.stateFlight r) :=
        Op.exec_frame _ _ _ _ hne.1
      exact (h.ring r).frame rfl rfl rfl (hsf ▸ (h.ring r).word_lt) (by rw [ringState, hsf]; rfl)
        (Op.exec_frame _ _ _ _ hne.2.1) (Op.exec_frame _ _ _ _ hne.2.2) (tenantAfter_of_ne hne.1)
        (by simp [h1, h2]) fun hr => absurd hr h1

omit [DecidableEq ι] in
theorem tenantAfter_self {op : Op} {m m' : Mem} (h : op.target = some (.stateFlight r)) :
    s.ghost.tenantAfter t op m m' r =
      if getState (m' (.stateFlight r)) = .free then none
      else if getState (m (.stateFlight r)) = .free then some t else s.ghost.tenant r := by
  unfold Ghost.tenantAfter
  rw [h]
  simp only
  split_ifs <;> simp

/-- A free ring is taken. -/
theorem Tenancy.run_take (h : Tenancy proc s) {op : Op} {c : Bool} {i w : Nat}
    (ht : op.target = some (.stateFlight i))
    (hm : (s.ran g t op c).mem = Function.update s.mem (.stateFlight i) w)
    (hst : s.ringState i = .free) (hw : w < 2 ^ 32 ∧ getState w ≠ .free)
    (hnone : (s.th t).held = none) (hheld : ((s.ran g t op c).th t).held = some i)
    (hknows : ((s.ran g t op c).th t).Knows (proc t)) (ha : s.alive proc t = true) :
    Tenancy proc (s.ran g t op c) := by
  have hsf : (s.ran g t op c).mem (.stateFlight i) = w := by rw [hm, Function.update_self]
  have hten : (s.ran g t op c).ghost.tenant i = some t := by
    refine (tenantAfter_self ht).trans ?_
    have e : (op.exec s.procs s.mem c).1 (.stateFlight i) = w := hsf
    rw [e, if_neg hw.2]
    exact if_pos hst
  refine h.run_ring i (.inl ht) (fun r hr => ?_) hknows ?_
  · rw [hnone, hheld]
    simp [Ne.symm hr]
  · refine (h.ring i).join rfl rfl rfl (hsf ▸ hw.1) hst (by rw [ringState, hsf]; exact hw.2)
      (by simp [hm]) (by simp [hm]) hten ?_ ha
    simpa [ran] using hheld

/-- `Free` is published on a ring. -/
theorem Tenancy.run_vacate (h : Tenancy proc s) {op : Op} {c : Bool} {i w : Nat}
    (ht : op.target = some (.stateFlight i))
    (hm : (s.ran g t op c).mem = Function.update s.mem (.stateFlight i) w)
    (hw : w < 2 ^ 32 ∧ getState w = .free)
    (howner : s.mem (.ownerPid i) = 0 ∧ s.mem (.ownerStarttime i) = 0)
    (hheld : ∀ r, r ≠ i → (s.th t).held ≠ some r) (hnone : ((s.ran g t op c).th t).held = none)
    (hknows : ((s.ran g t op c).th t).Knows (proc t))
    (hT : ∀ v, s.ghost.tenant i = some v → v = t ∨ s.Dead proc v) :
    Tenancy proc (s.ran g t op c) := by
  have hsf : (s.ran g t op c).mem (.stateFlight i) = w := by rw [hm, Function.update_self]
  have hten : (s.ran g t op c).ghost.tenant i = none := by
    refine (tenantAfter_self ht).trans ?_
    have e : (op.exec s.procs s.mem c).1 (.stateFlight i) = w := hsf
    rw [e, if_pos hw.2]
  refine h.run_ring i (.inl ht) (fun r hr => ⟨hheld r hr, by simp [hnone]⟩) hknows ?_
  refine (h.ring i).vacate rfl rfl (hsf ▸ hw.1) (by rw [ringState, hsf]; exact hw.2)
    (by simp [hm, howner]) (by simp [hm, howner]) hten ?_ hT
  have : ((s.ran g t op c).th t).held ≠ some i := by simp [hnone]
  simpa [ran] using this

/-- The recorded owner of a ring is written. -/
theorem Tenancy.run_record (h : Tenancy proc s) {c : Bool} {loc : Loc} {i v : Nat}
    (hloc : loc = .ownerPid i ∧ (v = 0 ∨ s.ghost.tenant i = some t ∧ v = (proc t).1) ∨
      loc = .ownerStarttime i ∧ (v = 0 ∨ s.ghost.tenant i = some t ∧ v = (proc t).2))
    (hheld : ∀ r, r ≠ i → (s.th t).held ≠ some r)
    (hsame : ((s.ran g t (.store loc v) c).th t).held = (s.th t).held)
    (hknows : ((s.ran g t (.store loc v) c).th t).Knows (proc t))
    (hflag : ∀ T, s.ghost.tenant i = some T →
      (((s.ran g t (.store loc v) c).th T).pidCleared = true →
        (s.ran g t (.store loc v) c).mem (.ownerPid i) = 0) ∧
      (((s.ran g t (.store loc v) c).th T).startCleared = true →
        (s.ran g t (.store loc v) c).mem (.ownerStarttime i) = 0)) :
    Tenancy proc (s.ran g t (.store loc v) c) := by
  have ht : (Op.store loc v).target = some (.ownerPid i) ∨
      (Op.store loc v).target = some (.ownerStarttime i) := by
    rcases hloc with ⟨rfl, -⟩ | ⟨rfl, -⟩
    · exact .inl rfl
    · exact .inr rfl
  have hne : (Op.store loc v).target ≠ some (.stateFlight i) := by
    rcases ht with ht | ht <;> simp [ht]
  have hsf : (s.ran g t (.store loc v) c).mem (.stateFlight i) = s.mem (.stateFlight i) :=
    Op.exec_frame s.procs s.mem c _ hne
  refine h.run_ring i (.inr ht) (fun r hr => ⟨hheld r hr, hsame ▸ hheld r hr⟩) hknows ?_
  refine (h.ring i).record rfl rfl rfl (hsf ▸ (h.ring i).word_lt) (by rw [ringState, hsf]; rfl)
    (tenantAfter_of_ne hne) ?_ ?_ ?_ hflag
  · have := hsame
    simp only [ran, Function.update_self] at this
    rw [this]
  · rcases hloc with ⟨rfl, rfl | ⟨h1, h2⟩⟩ | ⟨rfl, -⟩
    · exact .inr (.inl (by simp [ran, Op.exec]))
    · exact .inr (.inr ⟨h1, by simp [ran, Op.exec, h2]⟩)
    · exact .inl (by simp [ran, Op.exec])
  · rcases hloc with ⟨rfl, -⟩ | ⟨rfl, rfl | ⟨h1, h2⟩⟩
    · exact .inl (by simp [ran, Op.exec])
    · exact .inr (.inl (by simp [ran, Op.exec]))
    · exact .inr (.inr ⟨h1, by simp [ran, Op.exec, h2]⟩)

/-- An exchange of a state word that fails. -/
theorem Tenancy.run_failed (h : Tenancy proc s) {c weak : Bool} {r old new : Nat}
    (hm : (s.ran g t (.cas weak (.stateFlight r) old new) c).mem = s.mem)
    (hkeeps : (s.th t).Keeps ((s.ran g t (.cas weak (.stateFlight r) old new) c).th t))
    (hknows : ((s.ran g t (.cas weak (.stateFlight r) old new) c).th t).Knows (proc t)) :
    Tenancy proc (s.ran g t (.cas weak (.stateFlight r) old new) c) := by
  refine h.run_keep (fun i => ?_) (fun i => ?_) (fun i => by simp [Op.target]) hkeeps hknows
  · rw [hm]
    exact (h.ring i).word_lt
  · rw [ringState, hm]
    rfl

section Subscriber

variable {u : Sub} {c : Bool}

/-- What a subscriber does to the rings. -/
theorem Tenancy.run_sub (h : Tenancy proc s) {op : Op} (ha : s.alive proc t = true)
    (hu : s.th t = .sub u) (hop : u.request g = some op) : Tenancy proc (s.ran g t op c) := by
  have hk : u.pid = (proc t).1 ∧ u.starttime = (proc t).2 := by simpa [hu, Local.Knows] using h.knows t
  by_cases htn : u.pc.tenure = false
  · have hkeeps := Sub.keeps_resume (g := g) htn (op.exec s.procs s.mem c).2
    refine h.run_still (fun l hl => Sub.tenure_request htn hop hl) ?_ ?_
    · simp only [ran, Function.update_self, hu, Local.resume]
      exact ⟨hkeeps.held, hkeeps.pid, hkeeps.start⟩
    · simp only [ran, Function.update_self, hu, Local.resume, Local.Knows, hkeeps.ids]
      exact hk
  -- the ring of an access to a held ring's words
  have hring : ∀ i, (s.th t).held = some i → s.ghost.tenant i = some t ∧ s.ringState i ≠ .free ∧
      ∀ r, r ≠ i → (s.th t).held ≠ some r := by
    intro i hi
    have ht := h.tenant_of_held ha hi
    refine ⟨ht, ?_, fun r hr => by simp [hi, Ne.symm hr]⟩
    rw [Ne, ← (h.ring i).free_iff, ht]
    simp
  have hids : ∀ op, ((s.ran g t op c).th t).Knows (proc t) := by
    intro op
    simp only [ran, Function.update_self, hu, Local.resume, Local.Knows, Sub.ids_resume]
    exact hk
  cases e : u.pc <;> simp only [e, SubPc.tenure, not_true_eq_false] at htn <;>
    simp only [Sub.request, e, Option.some.injEq] at hop <;> subst hop
  case joinCas i wp =>
    have hnone : (s.th t).held = none := by simp [hu, Local.held, Sub.held, e]
    rcases Op.exec_cas s.procs s.mem c false (.stateFlight i) (makePacked .free 0) (makePacked .live 0)
      with ⟨ho, he⟩ | he
    · refine h.run_take (w := makePacked .live 0) rfl (by simp [ran, he])
        (by rw [ringState, ho, getState_packed]) ⟨packed_lt _, by simp [getState_packed]⟩ hnone ?_
        (hids _) ha
      simp [ran, he, hu, Local.resume, Sub.resume, e, Local.held, Sub.held]
    · refine h.run_failed (by simp [ran, he]) ?_ (hids _)
      simp only [ran, he, hu, Local.resume, Sub.resume, e, Function.update_self, Sub.tryJoin,
        Bool.false_eq_true, if_false]
      split_ifs
      all_goals constructor <;> simp [Local.held, Sub.held, Local.pidCleared, SubPc.pidCleared,
        Local.startCleared, SubPc.startCleared, e]
  case joinStart i wp =>
    have hheld : (s.th t).held = some i := by simp [hu, Local.held, Sub.held, e]
    obtain ⟨hten, -, hr⟩ := hring i hheld
    refine h.run_record (.inr ⟨rfl, .inr ⟨hten, hk.2⟩⟩) hr ?_ (hids _) fun T hT => ?_
    · simp [ran, hu, Local.resume, Sub.resume, e, Local.held, Sub.held]
    · obtain rfl : t = T := Option.some.inj (hten.symm.trans hT)
      simp [ran, hu, Local.resume, Sub.resume, e, Local.pidCleared, SubPc.pidCleared,
        Local.startCleared, SubPc.startCleared]
  case joinPid i wp =>
    have hheld : (s.th t).held = some i := by simp [hu, Local.held, Sub.held, e]
    obtain ⟨hten, -, hr⟩ := hring i hheld
    refine h.run_record (.inl ⟨rfl, .inr ⟨hten, hk.1⟩⟩) hr ?_ (hids _) fun T hT => ?_
    · simp [ran, hu, Local.resume, Sub.resume, e, Local.held, Sub.held]
    · obtain rfl : t = T := Option.some.inj (hten.symm.trans hT)
      simp [ran, hu, Local.resume, Sub.resume, e, Local.pidCleared, SubPc.pidCleared,
        Local.startCleared, SubPc.startCleared]
  case leaveCas old =>
    have hheld : (s.th t).held = some u.ringIdx := by simp [hu, Local.held, Sub.held, e]
    obtain ⟨-, hfree, -⟩ := hring _ hheld
    refine h.run_exchange (fun ho => ?_) ?_ (hids _)
    · have hlt : old < 2 ^ 32 := ho ▸ (h.ring _).word_lt
      have hfree' : getState old ≠ .free := ho ▸ hfree
      exact ⟨setState_lt hlt _, by simp [getState_setState hlt, hfree']⟩
    · simp only [ran, hu, Local.resume, Sub.resume, e, Function.update_self]
      split_ifs
      all_goals constructor <;> simp [Local.held, Sub.held, Local.pidCleared, SubPc.pidCleared,
        Local.startCleared, SubPc.startCleared, e]
  case clearPid q =>
    have hheld : (s.th t).held = some u.ringIdx := by simp [hu, Local.held, Sub.held, e]
    obtain ⟨hten, -, hr⟩ := hring _ hheld
    refine h.run_record (.inl ⟨rfl, .inl rfl⟩) hr ?_ (hids _) fun T hT => ?_
    · simp [ran, hu, Local.resume, Sub.resume, e, Local.held, Sub.held]
    · obtain rfl : t = T := Option.some.inj (hten.symm.trans hT)
      simp [ran, hu, Local.resume, Sub.resume, e, Op.exec, Local.startCleared, SubPc.startCleared]
  case clearStart q =>
    have hheld : (s.th t).held = some u.ringIdx := by simp [hu, Local.held, Sub.held, e]
    obtain ⟨hten, -, hr⟩ := hring _ hheld
    have hcl := ((h.ring _).cleared t hten).1 (by simp [hu, Local.pidCleared, SubPc.pidCleared, e])
    refine h.run_record (.inr ⟨rfl, .inl rfl⟩) hr ?_ (hids _) fun T hT => ?_
    · simp only [ran, hu, Local.resume, Sub.resume, e, Function.update_self]
      split_ifs <;> simp [Local.held, Sub.held, e]
    · obtain rfl : t = T := Option.some.inj (hten.symm.trans hT)
      simp [ran, Op.exec, hcl]
  case leaveFree =>
    have hheld : (s.th t).held = some u.ringIdx := by simp [hu, Local.held, Sub.held, e]
    obtain ⟨hten, -, hr⟩ := hring _ hheld
    obtain ⟨c1, c2⟩ := (h.ring _).cleared t hten
    refine h.run_vacate (w := makePacked .free 0) rfl rfl ⟨packed_lt _, getState_packed _⟩
      ⟨c1 ?_, c2 ?_⟩ hr ?_ (hids _) fun v hv => .inl (Option.some.inj (hv.symm.trans hten))
    · simp [hu, Local.pidCleared, SubPc.pidCleared, e]
    · simp [hu, Local.startCleared, SubPc.startCleared, e]
    · simp [ran, hu, Local.resume, Sub.resume, e, Local.held, Sub.held]
  case leaveCas2 old =>
    have hheld : (s.th t).held = some u.ringIdx := by simp [hu, Local.held, Sub.held, e]
    obtain ⟨hten, -, hr⟩ := hring _ hheld
    obtain ⟨c1, c2⟩ := (h.ring _).cleared t hten
    rcases Op.exec_cas s.procs s.mem c true (.stateFlight u.ringIdx) old (setState old .free)
      with ⟨ho, he⟩ | he
    · have hlt : old < 2 ^ 32 := ho ▸ (h.ring _).word_lt
      refine h.run_vacate (w := setState old .free) rfl (by simp [ran, he])
        ⟨setState_lt hlt _, getState_setState hlt _⟩ ⟨c1 ?_, c2 ?_⟩ hr ?_ (hids _) fun v hv =>
        .inl (Option.some.inj (hv.symm.trans hten))
      · simp [hu, Local.pidCleared, SubPc.pidCleared, e]
      · simp [hu, Local.startCleared, SubPc.startCleared, e]
      · simp [ran, he, hu, Local.resume, Sub.resume, e, Local.held, Sub.held]
    · refine h.run_failed (by simp [ran, he]) ?_ (hids _)
      simp only [ran, he, hu, Local.resume, Sub.resume, e, Function.update_self, Bool.false_eq_true,
        if_false]
      constructor <;> simp [Local.held, Sub.held, Local.pidCleared, SubPc.pidCleared,
        Local.startCleared, SubPc.startCleared, e]

end Subscriber

/-- What a pass does to the rings; if it publishes `Free`, the tenant must be dead and the recorded owner
cleared. -/
theorem Tenancy.run_reclaim (h : Tenancy proc s) {u : Reclaim} {op : Op} {c : Bool}
    (hu : s.th t = .reclaim u) (hop : u.request = some op)
    (hfree : ∀ i, u.pc = .free i (s.mem (.stateFlight i)) →
      (∀ v, s.ghost.tenant i = some v → s.Dead proc v) ∧
      s.mem (.ownerPid i) = 0 ∧ s.mem (.ownerStarttime i) = 0) :
    Tenancy proc (s.ran g t op c) := by
  have hk : u.pc.Checked := by simpa [hu, Local.Knows] using h.knows t
  have hkeeps : ∀ op, (s.th t).Keeps ((s.ran g t op c).th t) := by
    intro op
    simp only [ran, Function.update_self, hu, Local.resume]
    exact ⟨rfl, rfl, rfl⟩
  have hknows : ∀ op, ((s.ran g t op c).th t).Knows (proc t) := by
    intro op
    simp only [ran, Function.update_self, hu, Local.resume, Local.Knows]
    exact Reclaim.checked_resume hk _
  have hnone : (s.th t).held = none := by rw [hu]; rfl
  by_cases htn : u.pc.tenure = false
  · exact h.run_still (fun l hl => Reclaim.tenure_request htn hop hl) (hkeeps _) (hknows _)
  cases e : u.pc <;> simp only [e, ReclaimPc.tenure, not_true_eq_false] at htn <;>
    simp only [Reclaim.request, e, Option.some.injEq] at hop <;> subst hop <;>
    simp only [e, ReclaimPc.Checked] at hk
  case claim i st old =>
    refine h.run_exchange (fun ho => ?_) (hkeeps _) (hknows _)
    have hlt : old < 2 ^ 32 := ho ▸ (h.ring i).word_lt
    exact ⟨setState_lt hlt _, by simp [getState_setState hlt, hk]⟩
  case restore i st old =>
    refine h.run_exchange (fun ho => ?_) (hkeeps _) (hknows _)
    have hlt : old < 2 ^ 32 := ho ▸ (h.ring i).word_lt
    exact ⟨setState_lt hlt _, by simp [getState_setState hlt, hk]⟩
  case clearPid i claim =>
    refine h.run_record (.inl ⟨rfl, .inl rfl⟩) (by simp [hnone]) (hkeeps _).held (hknows _)
      fun T hT => ?_
    have hne : T ≠ t := fun e' => by simp [← e', ((h.ring i).tenant T hT).1] at hnone
    have hcl := (h.ring i).cleared T hT
    simpa [ran, Op.exec, hne] using hcl.2
  case clearStart i claim =>
    refine h.run_record (.inr ⟨rfl, .inl rfl⟩) (by simp [hnone]) (hkeeps _).held (hknows _)
      fun T hT => ?_
    have hne : T ≠ t := fun e' => by simp [← e', ((h.ring i).tenant T hT).1] at hnone
    have hcl := (h.ring i).cleared T hT
    simpa [ran, Op.exec, hne] using hcl.1
  case free i old =>
    rcases Op.exec_cas s.procs s.mem c true (.stateFlight i) old (setState old .free)
      with ⟨rfl, he⟩ | he
    · obtain ⟨hT, howner⟩ := hfree i e
      have hlt := (h.ring i).word_lt
      exact h.run_vacate rfl (by simp [ran, he])
        ⟨setState_lt hlt _, getState_setState hlt _⟩ howner (by simp [hnone])
        ((hkeeps _).held.trans hnone) (hknows _) fun v hv => .inr (hT v hv)
    · exact h.run_failed (by simp [ran, he]) (hkeeps _) (hknows _)

/-- The other actors never touch these words. -/
theorem tenure_request_other {l : Local} {op : Op} (hop : l.request g = some op) (hp : ∀ u, l ≠ .pub u)
    (hs : ∀ u, l ≠ .sub u) (hr : ∀ u, l ≠ .reclaim u) {loc : Loc} (hl : op.target = some loc) :
    loc.tenure = false := by
  cases l with
  | pub u => exact absurd rfl (hp u)
  | sub u => exact absurd rfl (hs u)
  | reclaim u => exact absurd rfl (hr u)
  | view pc =>
    cases pc <;> simp only [Local.request, ViewPc.request, Option.some.injEq, reduceCtorEq] at hop <;>
      subst hop
    · simp only [Op.target, Option.some.injEq] at hl
      subst hl
      rfl
    · rcases Local.push_target hl with rfl | rfl <;> rfl
  | repair u =>
    cases e : u.pc <;> simp only [Local.request, Repair.request, e, Option.some.injEq, reduceCtorEq] at hop <;>
      subst hop <;> simp only [Op.target, Option.some.injEq, reduceCtorEq] at hl <;> subst hl <;> rfl
  | orphan u =>
    cases e : u.pc <;> simp only [Local.request, Orphan.request, e, Option.some.injEq, reduceCtorEq] at hop <;>
      subst hop
    case push => rcases Local.push_target hl with rfl | rfl <;> rfl
    all_goals
      simp only [Op.target, Option.some.injEq, reduceCtorEq] at hl
      try (subst hl; rfl)

/-- A pass that publishes `Free` is right about the tenant. -/
def FreesRight (proc : ι → Nat × Nat) (s : Sys ι) (l : Label ι) : Prop :=
  ∀ t c u i, l = .run t c → s.th t = .reclaim u → u.pc = .free i (s.mem (.stateFlight i)) →
    (∀ v, s.ghost.tenant i = some v → s.Dead proc v) ∧
    s.mem (.ownerPid i) = 0 ∧ s.mem (.ownerStarttime i) = 0

theorem Tenancy.run (h : Tenancy proc s) {c : Bool} (hs : s.next g proc (.run t c) = some s')
    (hf : s.FreesRight proc (.run t c)) : Tenancy proc s' := by
  obtain ⟨ha, op, hop, rfl⟩ := ran_cases hs
  cases hl : s.th t with
  | pub u => exact h.run_pub hl (by simpa [hl, Local.request] using hop)
  | sub u => exact h.run_sub ha hl (by simpa [hl, Local.request] using hop)
  | reclaim u =>
    exact h.run_reclaim hl (by simpa [hl, Local.request] using hop) fun i hi => hf t c u i rfl hl hi
  | _ =>
    refine h.run_still (fun l htl => ?_) ?_ ?_
    · exact tenure_request_other hop (by simp [hl]) (by simp [hl]) (by simp [hl]) htl
    · simp only [ran, Function.update_self, hl, Local.resume]
      exact ⟨rfl, rfl, rfl⟩
    · simp only [ran, Function.update_self, hl, Local.resume]
      trivial

/-- A step that only replaces actors by ones that hold the same. -/
theorem Tenancy.rethread (h : Tenancy proc s) (hm : s'.mem = s.mem) (hp : s'.procs = s.procs)
    (hgo : s'.gone = s.gone) (hten : s'.ghost.tenant = s.ghost.tenant)
    (hth : s'.th = Function.update s.th t l') (hk : (s.th t).Keeps l') (hkn : l'.Knows (proc t)) :
    Tenancy proc s' := by
  refine ⟨by rw [hp, hgo]; exact h.procs, fun v => ?_, fun r => ?_⟩
  · rw [hth]
    by_cases e : v = t
    · subst e
      rwa [Function.update_self]
    · rw [Function.update_of_ne e]
      exact h.knows v
  · exact (h.ring r).frame hth hp hgo (hm ▸ (h.ring r).word_lt) (by rw [ringState, hm]; rfl)
      (by rw [hm]) (by rw [hm]) (by rw [hten]) (by rw [hk.held]) fun _ => ⟨hk.pid, hk.start⟩

omit [DecidableEq ι] in
theorem call_keeps {l : Local} {c : Call} {id : Nat × Nat} (hc : l.call g c = some l')
    (hk : l.Knows id) : l.Keeps l' ∧ l'.Knows id := by
  rcases Local.call_pass hc with ⟨u, rfl⟩ | ⟨u, rfl⟩ | ⟨u, rfl, -, rfl⟩ |
    ⟨u, rfl, -, -, rfl⟩ | ⟨u, rfl, -, -, rfl⟩
  · obtain ⟨-, u', rfl, -⟩ := Local.call_pub hc
    exact ⟨⟨rfl, rfl, rfl⟩, trivial⟩
  · obtain ⟨u', rfl, hu'⟩ := Local.call_sub hc
    have key : u'.held = u.held ∧ u'.pc.pidCleared = u.pc.pidCleared ∧
        u'.pc.startCleared = u.pc.startCleared ∧ u'.pid = u.pid ∧ u'.starttime = u.starttime := by
      rcases hu' with ⟨e, w, rfl⟩ | ⟨e, ⟨copy, blocking, rfl⟩ | rfl | rfl | rfl⟩
      · simp only [Sub.join, Sub.tryJoin]
        split_ifs <;> simp [Sub.held, SubPc.pidCleared, SubPc.startCleared, e]
      · simp only [Sub.receive, Sub.recvLoop, Sub.recvNone]
        split_ifs <;> simp [Sub.held, SubPc.pidCleared, SubPc.startCleared, e]
      · simp [Sub.armWait, Sub.held, SubPc.pidCleared, SubPc.startCleared, e]
      · simp [Sub.disarmWait, Sub.held, SubPc.pidCleared, SubPc.startCleared, e]
      · simp [Sub.releaseRing, Sub.held, SubPc.pidCleared, SubPc.startCleared, e]
    obtain ⟨k1, k2, k3, k4, k5⟩ := key
    exact ⟨⟨k1, k2, k3⟩, k4.trans hk.1, k5.trans hk.2⟩
  · exact ⟨⟨rfl, rfl, rfl⟩, trivial⟩
  · refine ⟨⟨rfl, rfl, rfl⟩, ?_⟩
    simp only [Local.Knows, Reclaim.start, Reclaim.scanRing]
    split_ifs <;> trivial
  · exact ⟨⟨rfl, rfl, rfl⟩, trivial⟩

theorem published_tenant (gh : Ghost ι) (data : Nat → Nat → Nat) (t : ι) (l : Local) :
    (gh.published data t l).tenant = gh.tenant := by
  unfold Ghost.published
  split
  · split <;> rfl
  · rfl

theorem Tenancy.destroy (h : Tenancy proc s) {v : ι} {k : Nat}
    (hs : s.next g proc (.destroy t v k) = some s') : Tenancy proc s' := by
  obtain ⟨-, u, w, ht, hv, hw, rfl⟩ := destroy_cases hs
  have htv : v ≠ t := by
    rintro rfl
    rw [ht] at hv
    cases hv
  have h1 : Tenancy proc { s with
      th := Function.update s.th t (.sub { u with views := u.views.eraseIdx k }) } := by
    refine h.rethread rfl rfl rfl rfl rfl ?_ ?_
    · rw [ht]
      exact ⟨rfl, rfl, rfl⟩
    · have := h.knows t
      rw [ht] at this
      exact this
  refine h1.rethread rfl rfl rfl rfl rfl ?_ trivial
  simp only [Function.update_of_ne htv, hv]
  exact ⟨rfl, rfl, rfl⟩

omit [DecidableEq ι] in
/-- A process exits, or a new one starts: the dead stay dead. -/
theorem Tenancy.reproc (h : Tenancy proc s) (hm : s'.mem = s.mem) (hth : s'.th = s.th)
    (hgh : s'.ghost = s.ghost)
    (hp : ∀ pid st, s'.procs pid = some st → pid ≠ 0 ∧ st ≠ 0 ∧ (pid, st) ∉ s'.gone)
    (hgone : ∀ v, s.Dead proc v → s'.Dead proc v)
    (halive : ∀ v, s.alive proc v = true → s'.alive proc v = true ∨ s'.Dead proc v) :
    Tenancy proc s' := by
  refine ⟨hp, fun v => hth ▸ h.knows v, fun r => ?_⟩
  have hr := h.ring r
  refine ⟨hm ▸ hr.word_lt, ?_, fun v hv => ?_, fun v hv => ?_, fun hn => ?_, fun v hv => ?_,
    fun v hv => ?_⟩
  · rw [ringState, hm, hgh]
    exact hr.free_iff
  · rw [hgh] at hv
    obtain ⟨h1, h2⟩ := hr.tenant v hv
    rw [hth]
    refine ⟨h1, ?_⟩
    rcases h2 with h2 | h2
    · exact halive v h2
    · exact .inr (hgone v h2)
  · rw [hth] at hv
    rw [hgh]
    exact (hr.holder v hv).imp_right (hgone v)
  · rw [hm]
    exact hr.vacant (hgh ▸ hn)
  · rw [hm]
    exact hr.owner v (hgh ▸ hv)
  · rw [hm, hth]
    exact hr.cleared v (hgh ▸ hv)

theorem Tenancy.exit (h : Tenancy proc s) {pid : Nat} (hs : s.next g proc (.exit pid) = some s') :
    Tenancy proc s' := by
  obtain ⟨st, hst, rfl⟩ := exit_cases hs
  refine h.reproc rfl rfl rfl (fun p q hp => ?_) (fun v hv => List.mem_cons_of_mem _ hv) fun v hv => ?_
  · by_cases e : p = pid
    · simp [e] at hp
    · simp only [Function.update_of_ne e] at hp
      obtain ⟨h1, h2, h3⟩ := h.procs p q hp
      exact ⟨h1, h2, by simp [e, h3]⟩
  · simp only [alive, decide_eq_true_eq] at hv
    by_cases e : (proc v).1 = pid
    · right
      rw [e, hst, Option.some.injEq] at hv
      simp only [Dead]
      rw [← e, hv]
      exact List.mem_cons_self
    · left
      simpa [alive, Function.update_of_ne e] using hv

theorem Tenancy.spawn (h : Tenancy proc s) {pid st : Nat}
    (hs : s.next g proc (.spawn pid st) = some s') : Tenancy proc s' := by
  obtain ⟨⟨h0, hp0, hst0, hgo⟩, rfl⟩ := spawn_cases hs
  refine h.reproc rfl rfl rfl (fun p q hp => ?_) (fun v hv => hv) fun v hv => ?_
  · by_cases e : p = pid
    · subst e
      simp only [Function.update_self, Option.some.injEq] at hp
      subst hp
      exact ⟨hp0, hst0, hgo⟩
    · simp only [Function.update_of_ne e] at hp
      exact h.procs p q hp
  · left
    simp only [alive, decide_eq_true_eq] at hv ⊢
    have e : (proc v).1 ≠ pid := fun e => by simp [e, h0] at hv
    rw [Function.update_of_ne e, hv]

/-- Every step keeps the tenancies, if the passes that publish `Free` are right. -/
theorem Tenancy.next (h : Tenancy proc s) {l : Label ι} (hs : s.next g proc l = some s')
    (hf : s.FreesRight proc l) : Tenancy proc s' := by
  cases l with
  | run t c => exact h.run hs hf
  | call t c =>
    obtain ⟨-, l, hl, rfl⟩ := call_cases hs
    obtain ⟨hk, hkn⟩ := call_keeps hl (h.knows t)
    exact h.rethread rfl rfl rfl (published_tenant ..) rfl hk hkn
  | destroy t v k => exact h.destroy hs
  | write t off byte =>
    obtain ⟨-, u, slot, -, -, -, -, rfl⟩ := write_cases hs
    exact h.reproc rfl rfl rfl h.procs (fun v hv => hv) fun v hv => .inl hv
  | exit pid => exact h.exit hs
  | spawn pid st => exact h.spawn hs

omit [DecidableEq ι] in
theorem tenancy_init (hg : g.Valid) (h : Init g proc s) : Tenancy proc s := by
  have hz : ∀ {l : Loc}, l.tenure = true → s.mem l = 0 := by
    intro l hl
    rw [h.mem]
    exact stampNewRegion_zero hg (by rintro rfl; cases hl) (by rintro x rfl; cases hl)
  have hheld : ∀ t, (s.th t).held = none ∧ (s.th t).Knows (proc t) := by
    intro t
    have ht := h.th t
    cases hl : s.th t with
    | sub u =>
      rw [hl] at ht
      exact ⟨by simp [Local.held, Sub.held, ht.2.2.2], ht.1, ht.2.1⟩
    | reclaim u =>
      rw [hl] at ht
      simp only [Local.Fresh] at ht
      exact ⟨rfl, by simp [Local.Knows, ht, ReclaimPc.Checked]⟩
    | _ => exact ⟨rfl, trivial⟩
  refine ⟨fun pid st hp => ?_, fun t => (hheld t).2, fun r => ?_⟩
  · obtain ⟨h1, h2⟩ := h.procs pid st hp
    exact ⟨h1, h2, by simp [h.gone]⟩
  · refine ⟨by simp [hz (l := .stateFlight r) rfl], ?_, fun t ht => ?_, fun t ht => ?_, fun _ => ?_,
      fun t ht => ?_, fun t ht => ?_⟩
    · rw [ringState, hz rfl]
      simp [h.tenant]
      rfl
    · simp [h.tenant] at ht
    · simp [(hheld t).1] at ht
    · exact ⟨hz rfl, hz rfl⟩
    · simp [h.tenant] at ht
    · simp [h.tenant] at ht

end Steps

end Sys

end Kickmsg
