import Kickmsg.Publisher
import Kickmsg.Ledger

/-!
# The publisher's bounds and account

`Pub.Ok` are the bounds a publisher keeps whatever the shared words answer. `Pub.share` is the part of
the `max_subs` references preset by `publish()` that is still its own, `Pub.owed` the reference of a
claim it has displaced. Each access of a publisher is a `Move` of its account.
-/

namespace Kickmsg

/-- The delivery of a publisher inside the ring loop. -/
def PubPc.delivery : PubPc → Option Delivery
  | .snapshot d | .admitCas d _ | .claim d | .peek d _ | .signalEarly d _ | .waitFirst d _
  | .waitLoad d _ _ _ | .waitClock d _ _ _ _ | .lock d _ _ _ _ | .relook d _ _ _
  | .selfRepair d _ _ | .stealCas d _ _ | .stealSkip d _ | .stealCount d | .abandonDrop d _
  | .abandonLeave d _ | .abandonWake d _ | .abandonFutex d _ | .check d _ | .metaLoad d _
  | .metaCas d _ _ | .releaseSlot d _ _ | .releasePush d _ _ _ | .commit d _ | .leave d | .wake d
  | .wakeFutex d => some d
  | _ => none

/-- Whether the reference meant for the current ring is still the publisher's. -/
def PubPc.kept : PubPc → Bool
  | .abandonDrop _ exc | .abandonLeave _ exc | .abandonWake _ exc | .abandonFutex _ exc => exc
  | .releaseSlot _ _ _ | .releasePush _ _ _ _ | .commit _ _ | .leave _ | .wake _ | .wakeFutex _ =>
    false
  | _ => true

/-- The locals of the ring loop stay in bounds. -/
structure Delivery.Ok (g : Geometry) (d : Delivery) : Prop where
  slot_lt : d.slotIdx < g.poolSize
  ring_lt : d.i < g.maxSubs
  excess_le : d.excess ≤ d.i

/-- What the slot of a delivery still owes its rings: theirs to come, and the excess. -/
def Delivery.left (g : Geometry) (d : Delivery) (kept : Bool) : Nat :=
  g.maxSubs - d.i - (if kept then 0 else 1) + d.excess

/-- Not at a displaced claim or at the push that may follow it. -/
def PubPc.steady : PubPc → Bool
  | .releaseSlot _ _ _ | .releasePush _ _ _ _ => false
  | _ => true

namespace Pub

attribute [local simp] PubPc.delivery PubPc.steady

/-- The bounds of a publisher. -/
structure Ok (g : Geometry) (u : Pub) : Prop where
  pending_lt : ∀ s, u.pending = some s → s < g.poolSize
  delivery_ok : ∀ d, u.pc.delivery = some d → d.Ok g
  pc_ok : match u.pc with
    | .releasePending s _ _ => u.pending = some s
    | .allocate p => u.pending = none ∧ p.Ok g.poolSize
    | .storeLen s len => s < g.poolSize ∧ len ≤ g.slotDataSize
    | .presetRefcount s => s < g.poolSize
    | .releaseSlot _ _ idx | .releasePush _ _ idx _ => idx < g.poolSize
    | .returnExcess d => d.slotIdx < g.poolSize ∧ 0 < d.excess ∧ d.excess ≤ g.maxSubs
    | .excessPush d _ => d.slotIdx < g.poolSize
    | _ => True

/-- The share of the preset references that the publisher still holds, per slot. -/
def share (g : Geometry) (u : Pub) : Nat → Nat :=
  match u.pc with
  | .returnExcess d => Pi.single d.slotIdx d.excess
  | pc =>
    match pc.delivery with
    | some d => Pi.single d.slotIdx (d.left g pc.kept)
    | none => 0

/-- The reference of a claim the publisher has replaced and not yet dropped. -/
def owed (u : Pub) : Nat → Nat :=
  match u.pc with
  | .releaseSlot _ _ idx => Pi.single idx 1
  | _ => 0

/-- The reservation. -/
def reserved (u : Pub) : Nat → Nat :=
  match u.pending with
  | some s => Pi.single s 1
  | none => 0

/-- The slots nobody else can reach: the reservation, and a slot before or after its publication. -/
def excl (u : Pub) : Nat → Nat :=
  u.reserved +
    match u.pc with
    | .storeLen s _ | .presetRefcount s => Pi.single s 1
    | .releasePush _ _ idx _ => Pi.single idx 1
    | .excessPush d _ => Pi.single d.slotIdx 1
    | _ => 0

/-- The place in the free stack. -/
def stack (u : Pub) : StackPc :=
  match u.pc with
  | .releasePending s _ p => p.stack s
  | .allocate p => p.stack
  | .releasePush _ _ idx p => p.stack idx
  | .excessPush d p => p.stack d.slotIdx
  | _ => .away

def acct (g : Geometry) (u : Pub) : Acct := ⟨u.excl, u.share g + u.owed, u.stack⟩

/-- The account of a publisher that holds its reservation and `n` references on a slot. -/
def plain (u : Pub) (slotIdx n : Nat) : Acct := ⟨u.reserved, Pi.single slotIdx n, .away⟩

section Dispatch

variable {g : Geometry} {u : Pub} {d : Delivery}

theorem acct_of_delivery {pc : PubPc} (hd : pc.delivery = some d) (h : pc.steady = true) :
    acct g { u with pc := pc } = u.plain d.slotIdx (d.left g pc.kept) := by
  cases pc <;>
    simp_all [PubPc.delivery, PubPc.steady, acct, plain, excl, share, owed, stack, reserved]

theorem acct_idle (pc : PubPc) (h : pc = .idle ∨ ∃ n, pc = .signal n) (r : Nat) :
    acct g { u with pc := pc, result := r } = u.plain 0 0 := by
  rcases h with rfl | ⟨n, rfl⟩ <;>
    simp [PubPc.delivery, acct, plain, excl, share, owed, stack, reserved]

theorem acct_finish : (u.finish d).acct g = u.plain d.slotIdx 0 := by
  unfold finish
  split_ifs <;> simp [PubPc.delivery, acct, plain, excl, share, owed, stack, reserved]

theorem acct_ring (h : d.i ≤ g.maxSubs) :
    (u.ring g d).acct g = u.plain d.slotIdx (d.left g true) := by
  unfold ring
  split_ifs with h1 h2
  · rw [acct_of_delivery rfl rfl]
    rfl
  · have e : d.left g true = d.excess := by
      simp only [Delivery.left, if_true]
      omega
    rw [e]
    simp [acct, plain, excl, share, owed, stack, reserved]
  · have e : d.left g true = 0 := by
      simp only [Delivery.left, if_true]
      omega
    rw [e, acct_finish]

theorem acct_nextRing (hg : g.Valid) (h : d.Ok g) (exc : Bool) :
    (u.nextRing g d exc).acct g = u.plain d.slotIdx (d.left g exc) := by
  unfold nextRing
  have := h.ring_lt
  have := h.excess_le
  have := hg.maxSubs_lt
  rw [acct_ring (by simp only; omega)]
  have hu : u32 (d.excess + 1) = d.excess + 1 := Nat.mod_eq_of_lt (by omega)
  congr 1
  cases exc
  · simp [Delivery.left]
    omega
  · simp only [Delivery.left, if_true, hu]
    omega

theorem acct_tryAdmit (hg : g.Valid) (h : d.Ok g) (old : Nat) :
    (u.tryAdmit g d old).acct g = u.plain d.slotIdx (d.left g true) := by
  unfold tryAdmit
  split_ifs
  · rw [acct_nextRing hg h]
  · exact acct_of_delivery rfl rfl

theorem acct_tryLock (pos : Nat) (wait : CommitWait) (attempt observed : Nat) :
    (u.tryLock g d pos wait attempt observed).acct g = u.plain d.slotIdx (d.left g true) := by
  unfold tryLock
  split_ifs <;> exact acct_of_delivery rfl rfl

theorem acct_repairWith (pos : Nat) (wait : CommitWait) (seq : Nat) :
    (u.repairWith g d pos wait seq).acct g = u.plain d.slotIdx (d.left g true) := by
  unfold repairWith
  split_ifs <;> exact acct_of_delivery rfl rfl

theorem acct_tryTake (pos oldMeta : Nat) :
    (u.tryTake d pos oldMeta).acct g = u.plain d.slotIdx (d.left g true) := by
  unfold tryTake
  split_ifs <;> exact acct_of_delivery rfl rfl

/-- Taking over a claim passes the ring's reference to the entry and makes the old one owed. -/
theorem holds_releasePrev (h : d.Ok g) (pos oldMeta : Nat) :
    ((u.releasePrev g d pos oldMeta).acct g).holds + Pi.single d.slotIdx 1 =
      (u.plain d.slotIdx (d.left g true)).holds + named g oldMeta := by
  have := h.ring_lt
  funext x
  unfold releasePrev named
  split_ifs with h1
  · have e : metaSlotBiased oldMeta = x + 1 ∧ x < g.poolSize ↔ x = metaSlotBiased oldMeta - 1 := by
      omega
    simp only [acct, plain, share, owed, PubPc.delivery, PubPc.kept, Delivery.left, Pi.add_apply,
      Pi.single_apply, e, if_true, Bool.false_eq_true, if_false]
    split_ifs <;> omega
  · have e : ¬(metaSlotBiased oldMeta = x + 1 ∧ x < g.poolSize) := by omega
    simp only [acct, plain, share, owed, PubPc.delivery, PubPc.kept, Delivery.left, Pi.add_apply,
      Pi.single_apply, e, Pi.zero_apply, if_true, Bool.false_eq_true, if_false]
    split_ifs <;> omega

theorem excl_releasePrev (pos oldMeta : Nat) :
    ((u.releasePrev g d pos oldMeta).acct g).excl = u.reserved ∧
      ((u.releasePrev g d pos oldMeta).acct g).stack = .away := by
  unfold releasePrev
  split_ifs <;> simp [acct, excl, stack, reserved]

end Dispatch

/-! ## The bounds are kept -/

section Bounds

variable {g : Geometry} {u : Pub} {d : Delivery}

theorem Ok.inRing (h : u.Ok g) {pc : PubPc} (hd : pc.delivery = some d) (hs : pc.steady = true)
    (hok : d.Ok g) : Ok g { u with pc := pc } := by
  refine ⟨h.pending_lt, fun d' hd' => ?_, ?_⟩
  · rw [show d' = d from Option.some.inj (hd'.symm.trans hd)]
    exact hok
  · cases pc <;> simp_all [PubPc.delivery, PubPc.steady]

theorem Ok.rest (h : u.Ok g) (n : Nat) : Ok g { u with pc := .idle, result := n } :=
  ⟨h.pending_lt, by simp [PubPc.delivery], trivial⟩

theorem Ok.finish (h : u.Ok g) (d : Delivery) : (u.finish d).Ok g := by
  unfold Pub.finish
  split_ifs
  · exact ⟨h.pending_lt, by simp [PubPc.delivery], trivial⟩
  · exact h.rest _

theorem Ok.ring (h : u.Ok g) (hs : d.slotIdx < g.poolSize) (hi : d.i ≤ g.maxSubs)
    (he : d.excess ≤ d.i) : (u.ring g d).Ok g := by
  unfold Pub.ring
  split_ifs with h1 h2
  · exact h.inRing rfl rfl ⟨hs, h1, he⟩
  · exact ⟨h.pending_lt, by simp [PubPc.delivery], hs, h2, by omega⟩
  · exact h.finish d

theorem Ok.nextRing (hg : g.Valid) (h : u.Ok g) (hd : d.Ok g) (exc : Bool) :
    (u.nextRing g d exc).Ok g := by
  have := hd.ring_lt
  have := hd.excess_le
  have := hg.maxSubs_lt
  have hu : u32 (d.excess + 1) = d.excess + 1 := Nat.mod_eq_of_lt (by omega)
  refine h.ring hd.slot_lt (by simp only; omega) ?_
  cases exc
  · simp only [Bool.false_eq_true, if_false]
    omega
  · simp only [if_true, hu]
    omega

theorem Ok.tryAdmit (hg : g.Valid) (h : u.Ok g) (hd : d.Ok g) (old : Nat) :
    (u.tryAdmit g d old).Ok g := by
  unfold Pub.tryAdmit
  split_ifs
  · exact h.nextRing hg hd _
  · exact h.inRing rfl rfl hd

theorem Ok.tryLock (h : u.Ok g) (hd : d.Ok g) (pos : Nat) (wait : CommitWait)
    (attempt observed : Nat) : (u.tryLock g d pos wait attempt observed).Ok g := by
  unfold Pub.tryLock
  split_ifs <;> exact h.inRing rfl rfl hd

theorem Ok.repairWith (h : u.Ok g) (hd : d.Ok g) (pos : Nat) (wait : CommitWait) (seq : Nat) :
    (u.repairWith g d pos wait seq).Ok g := by
  unfold Pub.repairWith
  split_ifs <;> exact h.inRing rfl rfl hd

theorem Ok.tryTake (h : u.Ok g) (hd : d.Ok g) (pos oldMeta : Nat) :
    (u.tryTake d pos oldMeta).Ok g := by
  unfold Pub.tryTake
  split_ifs <;> exact h.inRing rfl rfl hd

theorem Ok.releasePrev (h : u.Ok g) (hd : d.Ok g) (pos oldMeta : Nat) :
    (u.releasePrev g d pos oldMeta).Ok g := by
  unfold Pub.releasePrev
  split_ifs with h1
  · exact ⟨h.pending_lt, fun d' hd' => by cases hd'; exact hd, h1.2⟩
  · exact h.inRing rfl rfl hd

/-- The bounds survive every answer of the shared words. -/
theorem Ok.resume (hg : g.Valid) (h : u.Ok g) (r : Resp) : (u.resume g r).Ok g := by
  have hd := h.delivery_ok
  have hpc := h.pc_ok
  cases e : u.pc <;> rw [e] at hpc hd <;> simp only [Pub.resume, e]
  case idle => exact h
  case releasePending s k p =>
    split
    · exact ⟨h.pending_lt, by simp [PubPc.delivery], hpc⟩
    · exact ⟨by simp, by simp [PubPc.delivery], trivial⟩
    · exact ⟨by simp, by simp [PubPc.delivery], rfl, trivial⟩
  case allocate p =>
    have hp := hpc.2.resume r
    split at hp <;> rename_i e' <;> simp only [e']
    · exact ⟨h.pending_lt, by simp [PubPc.delivery], hpc.1, hp⟩
    · exact ⟨by simpa using hp, by simp [PubPc.delivery], trivial⟩
    · exact ⟨by simp, by simp [PubPc.delivery], trivial⟩
  case storeLen s len => exact ⟨h.pending_lt, by simp [PubPc.delivery], hpc.1⟩
  case presetRefcount s => exact h.ring hpc (Nat.zero_le _) (Nat.zero_le _)
  case returnExcess d =>
    split_ifs
    · exact ⟨h.pending_lt, by simp [PubPc.delivery], hpc.1⟩
    · exact h.finish d
  case excessPush d p =>
    split
    · exact ⟨h.pending_lt, by simp [PubPc.delivery], hpc⟩
    · exact h.finish d
  case signal n => exact h.rest n
  -- inside the ring loop
  all_goals
    have hd := hd _ rfl
    have hd' : ∀ c n, Delivery.Ok g ⟨Delivery.slotIdx _, Delivery.i _, n, Delivery.excess _, c⟩ :=
      fun _ _ => ⟨hd.slot_lt, hd.ring_lt, hd.excess_le⟩
  case snapshot => exact h.tryAdmit hg hd _
  case admitCas =>
    split_ifs
    · exact h.inRing rfl rfl hd
    · exact h.tryAdmit hg hd _
  case claim =>
    split_ifs
    · exact h.inRing rfl rfl hd
    · exact h.tryLock hd _ _ _ _
  case peek => split_ifs <;> exact h.inRing rfl rfl hd
  case signalEarly => exact h.inRing rfl rfl (hd' _ _)
  case waitFirst =>
    split_ifs
    · exact h.tryLock hd _ _ _ _
    · exact h.inRing rfl rfl hd
  case waitLoad =>
    split_ifs
    · exact h.tryLock hd _ _ _ _
    · exact h.inRing rfl rfl hd
    · exact h.inRing rfl rfl hd
  case waitClock =>
    split_ifs
    · exact h.tryLock hd _ _ _ _
    · exact h.inRing rfl rfl hd
  case lock =>
    split_ifs
    · exact h.inRing rfl rfl hd
    · exact h.tryLock hd _ _ _ _
  case relook => exact h.tryLock hd _ _ _ _
  case selfRepair => exact h.repairWith hd _ _ _
  case stealCas => split_ifs <;> exact h.inRing rfl rfl hd
  case stealSkip => exact h.inRing rfl rfl hd
  case stealCount => exact h.inRing rfl rfl hd
  case abandonDrop => exact ⟨h.pending_lt, fun d' hd' => by cases hd'; exact hd, trivial⟩
  case abandonLeave => exact h.inRing rfl rfl hd
  case abandonWake =>
    split_ifs
    · exact h.inRing rfl rfl hd
    · exact h.nextRing hg (hd' _ _) _
  case abandonFutex => exact h.nextRing hg hd _
  case check => split_ifs <;> exact h.inRing rfl rfl hd
  case metaLoad => exact h.tryTake hd _ _
  case metaCas =>
    split_ifs
    · exact h.releasePrev hd _ _
    · exact h.tryTake hd _ _
  case releaseSlot =>
    split_ifs
    · exact ⟨h.pending_lt, fun d' hd' => by cases hd'; exact hd, hpc⟩
    · exact h.inRing rfl rfl hd
  case releasePush =>
    split
    · exact ⟨h.pending_lt, fun d' hd' => by cases hd'; exact hd, hpc⟩
    · exact h.inRing rfl rfl hd
  case commit => split_ifs <;> exact h.inRing rfl rfl hd
  case leave => exact h.inRing rfl rfl hd
  case wake =>
    split_ifs
    · exact h.inRing rfl rfl hd
    · exact h.nextRing hg (hd' _ _) _
  case wakeFutex => exact h.nextRing hg (hd' _ _) _

theorem Ok.allocate (h : u.Ok g) : (u.allocate).Ok g := by
  unfold Pub.allocate
  split <;> rename_i e
  · exact ⟨h.pending_lt, by simp [PubPc.delivery], e⟩
  · exact ⟨h.pending_lt, by simp [PubPc.delivery], e, trivial⟩

theorem Ok.releasePending (h : u.Ok g) : (u.releasePending).Ok g := by
  unfold Pub.releasePending
  split <;> rename_i e
  · exact ⟨h.pending_lt, by simp [PubPc.delivery], e⟩
  · exact h

theorem Ok.publish (h : u.Ok g) (len : Nat) : (u.publish g len).Ok g := by
  unfold Pub.publish
  split_ifs with hlen
  · exact ⟨h.releasePending.pending_lt, h.releasePending.delivery_ok, h.releasePending.pc_ok⟩
  · split <;> rename_i e
    · exact ⟨by simp, by simp [PubPc.delivery], h.pending_lt _ e, by omega⟩
    · exact ⟨h.pending_lt, h.delivery_ok, h.pc_ok⟩

end Bounds

/-! ## Every access is a move -/

section Moves

variable {g : Geometry} {u : Pub} {d : Delivery} {r : Resp}

theorem quiet_of_plain {op : Op} {a a' : Acct} {slotIdx n : Nat} (hop : op.quiet = true)
    (h : a = u.plain slotIdx n) (h' : a' = u.plain slotIdx n) : Move g a r a' op := by
  subst h h'
  exact .quiet hop rfl rfl rfl

theorem acct_eq_plain (hd : u.pc.delivery = some d) (h : u.pc.steady = true) :
    u.acct g = u.plain d.slotIdx (d.left g u.pc.kept) := by
  exact acct_of_delivery hd h

/-- `publish()` gives its preset references to the ring loop. -/
theorem move_preset {s : Nat} (hs : s < g.poolSize) (e : u.pc = .presetRefcount s) :
    Move g (u.acct g) r ((u.ring g ⟨s, 0, 0, 0, false⟩).acct g)
      (.store (.refcount s) (u32 g.maxSubs)) := by
  rw [acct_ring (Nat.zero_le _)]
  refine .preset hs ?_ ?_ rfl
  · simp [acct, plain, excl, e]
  · simp [acct, plain, share, owed, e, PubPc.delivery, Delivery.left]

theorem move_allocate (h : u.Ok g) {p : PopPc} (e : u.pc = .allocate p) :
    Move g (u.acct g) r ((u.resume g r).acct g) p.request := by
  have hpc := h.pc_ok
  rw [e] at hpc
  have hpend : u.pending = none := hpc.1
  refine PopPc.move (by simp [acct, stack, e]) ?_ (fun p' hp' => ?_) (fun hp' => ?_) (fun s hp' => ?_)
  · simp only [Pub.resume, e]
    split <;> simp [acct, share, owed, e, PubPc.delivery]
  · simp only [Pub.resume, e, hp']
    simp [acct, stack, excl, e, reserved]
  · simp only [Pub.resume, e, hp']
    simp [acct, stack, excl, e, hpend, reserved]
  · simp only [Pub.resume, e, hp']
    simp [acct, stack, excl, e, hpend, reserved]

theorem move_releasePending (h : u.Ok g) {s : Nat} {k : AfterRelease} {p : PushPc}
    (e : u.pc = .releasePending s k p) :
    Move g (u.acct g) r ((u.resume g r).acct g) (p.request s) := by
  have hpc := h.pc_ok
  rw [e] at hpc
  have hpend : u.pending = some s := hpc
  refine PushPc.move (h.pending_lt s hpend) (by simp [acct, stack, e])
    (by simp [acct, excl, e, reserved, hpend]) ?_ (fun p' hp' => ?_) (fun hp' => ?_)
  · simp only [Pub.resume, e]
    split <;> simp [acct, share, owed, e, PubPc.delivery]
  · simp only [Pub.resume, e, hp']
    simp [acct, stack, excl, e, reserved]
  · cases k <;> simp only [Pub.resume, e, hp']
    · simp [acct, stack, excl, e, reserved, hpend]
    · simp [acct, stack, excl, e, reserved, hpend, PopPc.stack]

/-- The claim take-over. -/
theorem move_metaCas (hg : g.Valid) (h : u.Ok g) {pos oldMeta : Nat}
    (e : u.pc = .metaCas d pos oldMeta) :
    Move g (u.acct g) r ((u.resume g r).acct g)
      (.cas true (.metaWord d.i (g.entryIdx pos)) oldMeta (metaPack pos d.slotIdx)) := by
  have hd := h.delivery_ok d (by rw [e]; rfl)
  have ha : u.acct g = u.plain d.slotIdx (d.left g true) := by
    rw [acct_eq_plain (d := d) (by rw [e]; rfl) (by rw [e]; rfl), e]
    rfl
  simp only [Pub.resume, e]
  rw [ha]
  by_cases hr : r.ok = true
  · rw [if_pos hr]
    obtain ⟨he, hs⟩ := excl_releasePrev (g := g) (u := u) (d := d) pos oldMeta
    exact .take hd.ring_lt (hg.entryIdx_lt pos) hd.slot_lt he hs
      (fun _ => holds_releasePrev hd pos oldMeta) (by simp [hr])
  · rw [if_neg hr, acct_tryTake]
    exact .take hd.ring_lt (hg.entryIdx_lt pos) hd.slot_lt rfl rfl (by simp [hr]) (fun _ => rfl)

theorem move_releaseSlot (h : u.Ok g) {pos idx : Nat} (e : u.pc = .releaseSlot d pos idx) :
    Move g (u.acct g) r ((u.resume g r).acct g) (.fetchSub (.refcount idx) 1) := by
  have hpc := h.pc_ok
  rw [e] at hpc
  simp only [Pub.resume, e]
  refine .drop hpc (by decide) ?_ ?_ ?_
  · split_ifs <;> simp [acct, share, owed, e, PubPc.delivery, PubPc.kept]
  · split_ifs <;> simp [acct, excl, e, reserved]
  · split_ifs <;> simp [acct, stack, PushPc.stack]

theorem move_releasePush (h : u.Ok g) {pos idx : Nat} {p : PushPc}
    (e : u.pc = .releasePush d pos idx p) :
    Move g (u.acct g) r ((u.resume g r).acct g) (p.request idx) := by
  have hpc := h.pc_ok
  rw [e] at hpc
  refine PushPc.move hpc (by simp [acct, stack, e]) (by simp [acct, excl, e]) ?_ (fun p' hp' => ?_)
    (fun hp' => ?_)
  · simp only [Pub.resume, e]
    split <;> simp [acct, share, owed, e, PubPc.delivery, PubPc.kept]
  · simp only [Pub.resume, e, hp']
    simp [acct, stack, excl, e, reserved]
  · simp only [Pub.resume, e, hp']
    simp [acct, stack, excl, e, reserved]

theorem move_returnExcess (h : u.Ok g) (e : u.pc = .returnExcess d) :
    Move g (u.acct g) r ((u.resume g r).acct g) (.fetchSub (.refcount d.slotIdx) d.excess) := by
  have hpc := h.pc_ok
  rw [e] at hpc
  simp only [Pub.resume, e]
  by_cases hr : r.val = d.excess
  · rw [if_pos hr]
    refine .drop hpc.1 hpc.2.1 ?_ ?_ ?_
    · simp [acct, share, owed, e, PubPc.delivery]
    · simp [acct, excl, e, hr, reserved]
    · simp [acct, stack, PushPc.stack]
  · rw [if_neg hr, acct_finish]
    refine .drop hpc.1 hpc.2.1 ?_ ?_ rfl
    · simp [acct, plain, share, owed, e]
    · simp [acct, plain, excl, e, hr]

theorem move_excessPush (h : u.Ok g) {p : PushPc} (e : u.pc = .excessPush d p) :
    Move g (u.acct g) r ((u.resume g r).acct g) (p.request d.slotIdx) := by
  have hpc := h.pc_ok
  rw [e] at hpc
  have hfin : p.resume r = none → (u.resume g r).acct g = u.plain d.slotIdx 0 := fun hp' => by
    simp only [Pub.resume, e, hp']
    exact acct_finish
  refine PushPc.move hpc (by simp [acct, stack, e]) (by simp [acct, excl, e]) ?_ (fun p' hp' => ?_)
    (fun hp' => ?_)
  · cases hp' : p.resume r with
    | none =>
      rw [hfin hp']
      simp [acct, plain, share, owed, e, PubPc.delivery]
    | some p' =>
      simp only [Pub.resume, e, hp']
      simp [acct, share, owed, e, PubPc.delivery]
  · simp only [Pub.resume, e, hp']
    simp [acct, stack, excl, e, reserved]
  · rw [hfin hp']
    simp [acct, plain, excl, e]

/-- Every access of a publisher is a move of its account. -/
theorem move (hg : g.Valid) (h : u.Ok g) {op : Op} (hop : u.request g = some op) (r : Resp) :
    Move g (u.acct g) r ((u.resume g r).acct g) op := by
  have hd := h.delivery_ok
  have hpc := h.pc_ok
  have hplain := fun d => acct_eq_plain (g := g) (u := u) (d := d)
  cases e : u.pc <;> rw [e] at hpc hd hplain <;> simp only [Pub.request, e, Option.some.injEq] at hop
  case idle => simp at hop
  all_goals subst hop
  case releasePending => exact move_releasePending h e
  case allocate => exact move_allocate h e
  case storeLen =>
    simp only [Pub.resume, e]
    exact .quiet rfl (by simp [acct, excl, e, reserved]) (by simp [acct, share, owed, e, PubPc.delivery])
      (by simp [acct, stack])
  case presetRefcount =>
    simp only [Pub.resume, e]
    exact move_preset hpc e
  case metaCas => exact move_metaCas hg h e
  case releaseSlot => exact move_releaseSlot h e
  case releasePush => exact move_releasePush h e
  case returnExcess => exact move_returnExcess h e
  case excessPush => exact move_excessPush h e
  case signal n =>
    simp only [Pub.resume, e]
    rw [acct_idle .idle (.inl rfl)]
    exact .quiet rfl (by simp [acct, excl, e, plain]) (by simp [acct, share, owed, e, PubPc.delivery, plain])
      rfl
  -- the rest of the ring loop moves nothing
  all_goals
    have hd := hd _ rfl
    have ha := hplain _ rfl rfl
    simp only [Pub.resume, e]
    refine quiet_of_plain rfl ha ?_
  case snapshot => exact acct_tryAdmit hg hd _
  case admitCas =>
    split_ifs
    · exact acct_of_delivery rfl rfl
    · exact acct_tryAdmit hg hd _
  case claim =>
    split_ifs
    · exact acct_of_delivery rfl rfl
    · exact acct_tryLock _ _ _ _
  case peek => split_ifs <;> exact acct_of_delivery rfl rfl
  case signalEarly d _ _ => exact acct_of_delivery (d := { d with carrier := false }) rfl rfl
  case waitFirst =>
    split_ifs
    · exact acct_tryLock _ _ _ _
    · exact acct_of_delivery rfl rfl
  case waitLoad =>
    split_ifs
    · exact acct_tryLock _ _ _ _
    · exact acct_of_delivery rfl rfl
    · exact acct_of_delivery rfl rfl
  case waitClock =>
    split_ifs
    · exact acct_tryLock _ _ _ _
    · exact acct_of_delivery rfl rfl
  case lock =>
    split_ifs
    · exact acct_of_delivery rfl rfl
    · exact acct_tryLock _ _ _ _
  case relook => exact acct_tryLock _ _ _ _
  case selfRepair => exact acct_repairWith _ _ _
  case stealCas => split_ifs <;> exact acct_of_delivery rfl rfl
  case stealSkip => exact acct_of_delivery rfl rfl
  case stealCount => exact acct_of_delivery rfl rfl
  case abandonDrop =>
    exact acct_of_delivery (u := { u with dropped := u.dropped + 1 }) rfl rfl
  case abandonLeave => exact acct_of_delivery rfl rfl
  case abandonWake =>
    split_ifs
    · exact acct_of_delivery rfl rfl
    · rw [acct_nextRing hg]
      · rfl
      · exact ⟨hd.slot_lt, hd.ring_lt, hd.excess_le⟩
  case abandonFutex => exact acct_nextRing hg hd _
  case check => split_ifs <;> exact acct_of_delivery rfl rfl
  case metaLoad => exact acct_tryTake _ _
  case commit => split_ifs <;> exact acct_of_delivery rfl rfl
  case leave => exact acct_of_delivery rfl rfl
  case wake =>
    split_ifs
    · exact acct_of_delivery rfl rfl
    · rw [acct_nextRing hg]
      · rfl
      · exact ⟨hd.slot_lt, hd.ring_lt, hd.excess_le⟩
  case wakeFutex =>
    rw [acct_nextRing hg]
    · rfl
    · exact ⟨hd.slot_lt, hd.ring_lt, hd.excess_le⟩

end Moves

end Pub

end Kickmsg
