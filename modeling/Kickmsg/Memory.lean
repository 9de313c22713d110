import Kickmsg.Types
import Kickmsg.Lib.Solo
import Kickmsg.Lib.Transition

/-!
# Shared memory and its atomic operations

A region is the map from its words (`Loc`) to their values; the payload bytes are kept apart. An actor
touches shared state only through an `Op`: one atomic load, store, compare-exchange, `fetch_add` or
`fetch_sub`, or one call into the kernel. `Op.exec` performs it in one step. The interleaving is
sequentially consistent, so the fences of the source have no counterpart.

`Geometry` is the validated local copy of the layout every handle carries.
-/

namespace Kickmsg

open Lib

/-- `struct Geometry`. -/
structure Geometry where
  subRingsOffset : Nat
  subRingStride : Nat
  subRingCapacity : Nat
  subRingMask : Nat
  poolOffset : Nat
  slotStride : Nat
  poolSize : Nat
  slotDataSize : Nat
  maxSubs : Nat
  commitTimeoutUs : Nat
  schemaBlobOffset : Nat
  schemaBlobCapacity : Nat
  deriving DecidableEq, Repr

/-- `pos & sub_ring_mask`: the entry of a position. -/
def Geometry.entryIdx (g : Geometry) (pos : Nat) : Nat := pos &&& g.subRingMask

/-- What `validate_snapshot` guarantees of the counts of a geometry. -/
structure Geometry.Valid (g : Geometry) : Prop where
  maxSubs_pos : 0 < g.maxSubs
  maxSubs_le : g.maxSubs ≤ maxSubscribers
  poolSize_pos : 0 < g.poolSize
  poolSize_le : g.poolSize ≤ maxPoolSize
  slotDataSize_le : g.slotDataSize ≤ maxPayloadSize
  capacity : ∃ k < 60, g.subRingCapacity = 2 ^ k
  mask : g.subRingMask = g.subRingCapacity - 1

namespace Geometry.Valid

variable {g : Geometry} (h : g.Valid)

include h

theorem capacity_pos : 0 < g.subRingCapacity := by
  obtain ⟨k, -, hk⟩ := h.capacity
  rw [hk]
  exact Nat.two_pow_pos k

theorem capacity_lt : g.subRingCapacity < 2 ^ 60 := by
  obtain ⟨k, hk60, hk⟩ := h.capacity
  rw [hk]
  exact Nat.pow_lt_pow_right (by decide) hk60

theorem entryIdx_eq (pos : Nat) : g.entryIdx pos = pos % g.subRingCapacity := by
  obtain ⟨k, -, hk⟩ := h.capacity
  unfold entryIdx
  rw [h.mask, hk, Nat.and_two_pow_sub_one_eq_mod]

theorem entryIdx_lt (pos : Nat) : g.entryIdx pos < g.subRingCapacity := by
  rw [h.entryIdx_eq]
  exact Nat.mod_lt _ h.capacity_pos

theorem slot_lt {s : Nat} (hs : s < g.poolSize) : s + 1 < 2 ^ 24 := by
  have := h.poolSize_le
  unfold maxPoolSize at this
  omega

theorem ne_invalidSlot {s : Nat} (hs : s < g.poolSize) : s ≠ invalidSlot := by
  have := h.slot_lt hs
  unfold invalidSlot
  omega

theorem maxSubs_lt : g.maxSubs < 2 ^ 16 := by
  have := h.maxSubs_le
  unfold maxSubscribers at this
  omega

end Geometry.Valid

/-- The shared words: of the `Header`, of a `SubRingHeader`, of an `Entry` (ring, index) and of a
`SlotHeader`. `futexWakes` is kernel state: the number of `futex_wake_all` calls on a ring. -/
inductive Loc
  | freeTop
  | stealCount
  | stateFlight (r : Nat)
  | ownerPid (r : Nat)
  | ownerStarttime (r : Nat)
  | writePos (r : Nat)
  | hasWaiter (r : Nat)
  | droppedCount (r : Nat)
  | lostCount (r : Nat)
  | sequence (r i : Nat)
  | metaWord (r i : Nat)
  | refcount (s : Nat)
  | nextFree (s : Nat)
  | payloadLen (s : Nat)
  | futexWakes (r : Nat)
  deriving DecidableEq, Repr

/-- Two to the width of the word. -/
def Loc.modulus : Loc → Nat
  | .stateFlight _ | .hasWaiter _ | .refcount _ | .nextFree _ | .payloadLen _ => 2 ^ 32
  | _ => 2 ^ 64

abbrev Mem := Loc → Nat

/-- One access to shared state. `weak` marks `compare_exchange_weak`;
`probeOwner` asks the OS whether a recorded owner is gone; `clock` is an
`elapsed_time(start) >= timeout` test; `copyOut` is the payload copy of `try_receive`. -/
inductive Op
  | load (l : Loc)
  | store (l : Loc) (v : Nat)
  | cas (weak : Bool) (l : Loc) (expected desired : Nat)
  | fetchAdd (l : Loc) (k : Nat)
  | fetchSub (l : Loc) (k : Nat)
  | probeOwner (pid starttime : Nat)
  | clock
  | futexWait (r cur : Nat)
  | futexWake (r : Nat)
  | signal
  | copyOut (s len : Nat)
  deriving DecidableEq, Repr

/-- What an access answers: the value read (for a compare-exchange the value found) and a flag (its
success, a liveness verdict, an elapsed deadline, or that `futex_wait` went to sleep). -/
structure Resp where
  val : Nat
  ok : Bool
  deriving DecidableEq, Repr

/-- The processes that exist: pid to start time. -/
abbrev Procs := Nat → Option Nat

/-- `owner_is_dead`, on exact probes: a process that exists has not exited and has a start time. A
zero start time degrades the verdict to the pid alone, and pid 0 is never dead. -/
def ownerIsDead (procs : Procs) (pid recordedStarttime : Nat) : Bool :=
  if pid = 0 then false
  else match procs pid with
    | none => true
    | some starttime =>
      if recordedStarttime = 0 ∨ starttime = 0 then false else recordedStarttime != starttime

/-- Perform one access. `choice` is the environment's: a weak compare-exchange fails spuriously, a
deadline has passed, or the OS ends a sleep early. -/
def Op.exec (procs : Procs) (m : Mem) (choice : Bool) : Op → Mem × Resp
  | .load l => (m, ⟨m l, choice⟩)
  | .store l v => (Function.update m l v, ⟨0, true⟩)
  | .cas weak l expected desired =>
    if m l = expected ∧ ¬(weak = true ∧ choice = true) then
      (Function.update m l desired, ⟨m l, true⟩)
    else (m, ⟨m l, false⟩)
  | .fetchAdd l k => (Function.update m l ((m l + k) % l.modulus), ⟨m l, true⟩)
  | .fetchSub l k => (Function.update m l ((m l + l.modulus - k) % l.modulus), ⟨m l, true⟩)
  | .probeOwner pid starttime => (m, ⟨0, ownerIsDead procs pid starttime⟩)
  | .clock => (m, ⟨0, choice⟩)
  | .futexWait r cur =>
    (m, ⟨m (.futexWakes r), decide (u32 (m (.writePos r)) = u32 cur)⟩)
  | .futexWake r =>
    (Function.update m (.futexWakes r) (m (.futexWakes r) + 1), ⟨0, true⟩)
  | .signal => (m, ⟨0, true⟩)
  | .copyOut _ _ => (m, ⟨0, true⟩)

/-- A compare-exchange found what it expected and replaced it, or changed nothing. -/
theorem Op.exec_cas (procs : Procs) (m : Mem) (c weak : Bool) (l : Loc) (e d : Nat) :
    (m l = e ∧ (Op.cas weak l e d).exec procs m c = (Function.update m l d, ⟨m l, true⟩)) ∨
      (Op.cas weak l e d).exec procs m c = (m, ⟨m l, false⟩) := by
  simp only [Op.exec]
  split
  · rename_i h
    exact .inl ⟨h.1, rfl⟩
  · exact .inr rfl

/-- The word an access may change. -/
def Op.target : Op → Option Loc
  | .store l _ | .cas _ l _ _ | .fetchAdd l _ | .fetchSub l _ => some l
  | .futexWake r => some (.futexWakes r)
  | _ => none

/-- An access leaves every word but its target alone. -/
theorem Op.exec_frame (procs : Procs) (m : Mem) (c : Bool) (op : Op) {l : Loc}
    (h : op.target ≠ some l) : (op.exec procs m c).1 l = m l := by
  cases op <;> simp only [Op.target, ne_eq, Option.some.injEq, reduceCtorEq, not_false_eq_true] at h <;>
    simp only [Op.exec]
  case cas =>
    split
    · exact Function.update_of_ne (Ne.symm h) ..
    · rfl
  all_goals exact Function.update_of_ne (Ne.symm h) ..

/-- The words hold what their width allows. -/
def Mem.InRange (m : Mem) : Prop := ∀ l, m l < l.modulus

theorem Loc.modulus_pos (l : Loc) : 0 < l.modulus := by
  cases l <;> simp [modulus]

theorem Mem.InRange.update {m : Mem} (h : m.InRange) {l : Loc} {v : Nat} (hv : v < l.modulus) :
    Mem.InRange (Function.update m l v) :=
  forall_update_of (fun (l : Loc) v => v < l.modulus) h hv

/-- One access of an actor with nobody else about. -/
def alone {α : Type} (procs : Procs) (request : α → Option Op) (resume : α → Resp → α) (x : Mem × α)
    (choice : Bool) : Option (Mem × α) :=
  (request x.2).map fun op =>
    ((op.exec procs x.1 choice).1, resume x.2 (op.exec procs x.1 choice).2)

end Kickmsg
