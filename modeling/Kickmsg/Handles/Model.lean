import Kickmsg.Types
import Kickmsg.Lib.Transition
import Mathlib.Logic.Function.Basic
import Mathlib.Tactic.Basic

/-!
# Reservation handles

`AllocatedSlot` and `Publisher` as objects that are created, moved, assigned and destroyed, over any
number of regions. An object is known by its address, and an address may be used again. A handle keeps a
pointer to its `Publisher` and the id of its reservation; validity is the comparison of that id with the
publisher's counter.

The calls come one after the other, so `treiber_push` and `treiber_pop` are the push and the pop of a
list, top first. What the rings do with a published slot is the environment's: they hold it (`published`)
until its last reference is dropped. `reservation_` is a `uint64_t` and here a natural number: what is
proved is about objects whose counters stay below `2 ^ 64`.
-/

namespace Kickmsg.Handles

open Lib

/-- What a `Publisher` object keeps: its region, `pending_slot_` and `reservation_`. -/
structure Publisher (ρ : Type) where
  region : ρ
  pending : Option Nat
  reservation : Nat

/-- An `AllocatedSlot` object. `data` is the slot whose payload `data_` points to. -/
structure AllocatedSlot (ρ : Type) where
  publisher : Option Nat
  data : Option (ρ × Nat)
  maxSize : Nat
  id : Nat
  published : Bool

/-- `AllocatedSlot{}`. -/
def AllocatedSlot.default (ρ : Type) : AllocatedSlot ρ := ⟨none, none, 0, 0, false⟩

/-- `other.publisher_ = nullptr`. -/
def AllocatedSlot.movedFrom {ρ : Type} (a : AllocatedSlot ρ) : AllocatedSlot ρ :=
  { a with publisher := none }

/-- The objects, by address, and the regions: free stack, published slots, payloads. `pops` and `pushes`
count the pops and the pushes of a slot; `result` is what the last call returned. -/
structure State (ρ : Type) where
  pubs : Nat → Option (Publisher ρ)
  slots : Nat → Option (AllocatedSlot ρ)
  stack : ρ → List Nat
  published : ρ → Nat → Bool
  payload : ρ → Nat → Nat → UInt8
  pops : ρ → Nat → Nat
  pushes : ρ → Nat → Nat
  result : Int

/-- What the rings do with a publication: how many took it, and whether a reference is left. -/
structure Outcome where
  delivered : Nat
  held : Bool

/-- One call, or one special member function, on objects given by their addresses. `drop` is the
environment's: the last reference to a published slot goes. -/
inductive Op (ρ : Type)
  | constructPublisher (p : Nat) (r : ρ)
  | moveConstructPublisher (p q : Nat)
  | moveAssignPublisher (p q : Nat)
  | destroyPublisher (p : Nat)
  | allocate (p h : Nat)
  | send (p : Nat) (bytes : List UInt8) (o : Outcome)
  | write (h : Nat) (bytes : List UInt8)
  | publish (h len : Nat) (o : Outcome)
  | default (h : Nat)
  | moveConstruct (h k : Nat)
  | moveAssign (h k : Nat)
  | destroy (h : Nat)
  | drop (r : ρ) (x : Nat)

def eMsgSize : Nat := 90
def eAgain : Nat := 11

namespace State

variable {ρ : Type} [DecidableEq ρ]

/-- Bump a counter of slot `x` of region `r`. -/
def bump (f : ρ → Nat → Nat) (r : ρ) (x : Nat) : ρ → Nat → Nat :=
  Function.update f r (Function.update (f r) x (f r x + 1))

def treiberPush (s : State ρ) (r : ρ) (x : Nat) : State ρ :=
  { s with stack := Function.update s.stack r (x :: s.stack r), pushes := bump s.pushes r x }

def treiberPop (s : State ρ) (r : ρ) : State ρ × Option Nat :=
  match s.stack r with
  | [] => (s, none)
  | x :: xs => ({ s with stack := Function.update s.stack r xs, pops := bump s.pops r x }, some x)

def setPublisher (s : State ρ) (p : Nat) (u : Option (Publisher ρ)) : State ρ :=
  { s with pubs := Function.update s.pubs p u }

def setSlot (s : State ρ) (h : Nat) (a : Option (AllocatedSlot ρ)) : State ρ :=
  { s with slots := Function.update s.slots h a }

/-- `Publisher::release_pending`. -/
def releasePending (s : State ρ) (p : Nat) : State ρ :=
  match s.pubs p with
  | some ⟨r, some x, n⟩ => (s.treiberPush r x).setPublisher p (some ⟨r, none, n⟩)
  | _ => s

/-- `AllocatedSlot::valid`. -/
def valid (s : State ρ) (a : AllocatedSlot ρ) : Bool :=
  match a.publisher with
  | none => false
  | some p =>
    match s.pubs p with
    | none => false
    | some u => !a.published && u.reservation == a.id

/-- The start of the destructor and of the assignment of a handle: a valid one gives its slot back. -/
def releaseIfValid (s : State ρ) (a : AllocatedSlot ρ) : State ρ :=
  match a.publisher with
  | some p => if s.valid a then s.releasePending p else s
  | none => s

/-- The rings hold slot `x`, or hold it no more. -/
def setPublished (s : State ρ) (r : ρ) (x : Nat) (b : Bool) : State ρ :=
  { s with published := Function.update s.published r (Function.update (s.published r) x b) }

/-- `Publisher::allocate`. -/
def allocate (size : ρ → Nat) (s : State ρ) (p : Nat) : State ρ × AllocatedSlot ρ :=
  let s := s.releasePending p
  match s.pubs p with
  | none => (s, .default ρ)
  | some u =>
    let u := { u with reservation := u.reservation + 1 }
    match s.treiberPop u.region with
    | (s, none) => (s.setPublisher p (some u), .default ρ)
    | (s, some x) =>
      (s.setPublisher p (some { u with pending := some x }),
        ⟨some p, some (u.region, x), size u.region, u.reservation, false⟩)

/-- `Publisher::publish`, the private one. -/
def publishPending (size : ρ → Nat) (s : State ρ) (p len : Nat) (o : Outcome) : State ρ :=
  match s.pubs p with
  | none => s
  | some u =>
    if len > size u.region then { s.releasePending p with result := 0 }
    else
      match u.pending with
      | none => { s with result := 0 }
      | some x =>
        let s := s.setPublisher p (some { u with pending := none })
        if o.held then { s.setPublished u.region x true with result := o.delivered }
        else { s.treiberPush u.region x with result := o.delivered }

/-- `std::memcpy(data_, src, len)`. -/
def memcpy (s : State ρ) (data : Option (ρ × Nat)) (bytes : List UInt8) : State ρ :=
  match data with
  | some (r, x) =>
    let copied : Nat → UInt8 := fun i => (bytes[i]?).getD (s.payload r x i)
    { s with payload := Function.update s.payload r (Function.update (s.payload r) x copied) }
  | none => s

/-- `AllocatedSlot::write`. -/
def write (s : State ρ) (a : AllocatedSlot ρ) (bytes : List UInt8) : State ρ :=
  if s.valid a = false ∨ bytes.length > a.maxSize then { s with result := 0 }
  else { s.memcpy a.data bytes with result := bytes.length }

/-- `AllocatedSlot::publish`, on the handle at `h`. -/
def publish (size : ρ → Nat) (s : State ρ) (h : Nat) (a : AllocatedSlot ρ) (len : Nat) (o : Outcome) :
    State ρ :=
  match a.publisher with
  | some p =>
    if s.valid a then (s.setSlot h (some { a with published := true })).publishPending size p len o
    else { s with result := 0 }
  | none => { s with result := 0 }

/-- `Publisher::send`. Its handle is a local, published or invalid by the time it is destroyed. -/
def send (size : ρ → Nat) (s : State ρ) (p : Nat) (bytes : List UInt8) (o : Outcome) : State ρ :=
  match s.pubs p with
  | none => s
  | some u =>
    if bytes.length > size u.region then { s with result := -eMsgSize }
    else
      let (s, a) := s.allocate size p
      if s.valid a then
        { (s.write a bytes).publishPending size p bytes.length o with result := bytes.length }
      else { s with result := -eAgain }

/-- The effect of a call; `none` where an object it names does not exist, or one it creates does. -/
def next (size : ρ → Nat) (s : State ρ) : Op ρ → Option (State ρ)
  | .constructPublisher p r =>
    match s.pubs p with
    | none => some (s.setPublisher p (some ⟨r, none, 0⟩))
    | some _ => none
  | .moveConstructPublisher p q =>
    match s.pubs p, s.pubs q with
    | none, some v =>
      let s := (s.setPublisher p (some ⟨v.region, none, v.reservation⟩)).releasePending q
      some (s.setPublisher q (some ⟨v.region, none, v.reservation + 1⟩))
    | _, _ => none
  | .moveAssignPublisher p q =>
    match s.pubs p, s.pubs q with
    | some u, some v =>
      if p = q then some s
      else
        let s := s.releasePending p
        let s := s.setPublisher p (some ⟨v.region, none, max u.reservation v.reservation + 1⟩)
        let s := s.releasePending q
        some (s.setPublisher q (some ⟨v.region, none, v.reservation + 1⟩))
    | _, _ => none
  | .destroyPublisher p =>
    match s.pubs p with
    | some _ => some ((s.releasePending p).setPublisher p none)
    | none => none
  | .allocate p h =>
    match s.pubs p, s.slots h with
    | some _, none =>
      let (s, a) := s.allocate size p
      some (s.setSlot h (some a))
    | _, _ => none
  | .send p bytes o =>
    match s.pubs p with
    | some _ => some (s.send size p bytes o)
    | none => none
  | .write h bytes => (s.slots h).map fun a => s.write a bytes
  | .publish h len o => (s.slots h).map fun a => s.publish size h a len o
  | .default h =>
    match s.slots h with
    | none => some (s.setSlot h (some (.default ρ)))
    | some _ => none
  | .moveConstruct h k =>
    match s.slots h, s.slots k with
    | none, some b => some ((s.setSlot h (some b)).setSlot k (some b.movedFrom))
    | _, _ => none
  | .moveAssign h k =>
    match s.slots h, s.slots k with
    | some a, some b =>
      if h = k then some s
      else some (((s.releaseIfValid a).setSlot h (some b)).setSlot k (some b.movedFrom))
    | _, _ => none
  | .destroy h => (s.slots h).map fun a => (s.releaseIfValid a).setSlot h none
  | .drop r x =>
    if s.published r x then some ((s.setPublished r x false).treiberPush r x) else none

/-- New regions, and no object yet. -/
structure Init (poolSize : ρ → Nat) (s : State ρ) : Prop where
  pubs : ∀ p, s.pubs p = none
  slots : ∀ h, s.slots h = none
  nodup : ∀ r, (s.stack r).Nodup
  full : ∀ r x, x ∈ s.stack r ↔ x < poolSize r
  published : ∀ r x, s.published r x = false
  pops : ∀ r x, s.pops r x = 0
  pushes : ∀ r x, s.pushes r x = 0

/-- The calls, one after the other. -/
def machine (size poolSize : ρ → Nat) : LTS (State ρ) (Op ρ) :=
  .ofNext (Init poolSize) (next size)

/-- What the API asks: no handle outlives the publisher it points to. -/
def inLifetime (s : State ρ) : Op ρ → State ρ → Prop
  | .destroyPublisher p, _ => ∀ h a, s.slots h = some a → a.publisher ≠ some p
  | _, _ => True

section Fields

variable (s : State ρ) (u : Option (Publisher ρ)) (a : Option (AllocatedSlot ρ)) (p h x : Nat) (r : ρ) (b : Bool)

@[simp] theorem treiberPush_pubs : (s.treiberPush r x).pubs = s.pubs := rfl
@[simp] theorem treiberPush_slots : (s.treiberPush r x).slots = s.slots := rfl
@[simp] theorem treiberPush_published : (s.treiberPush r x).published = s.published := rfl
@[simp] theorem setPublished_pubs : (s.setPublished r x b).pubs = s.pubs := rfl
@[simp] theorem setPublished_slots : (s.setPublished r x b).slots = s.slots := rfl
@[simp] theorem setPublished_stack : (s.setPublished r x b).stack = s.stack := rfl

omit [DecidableEq ρ]

@[simp] theorem setPublisher_pubs : (s.setPublisher p u).pubs = Function.update s.pubs p u := rfl
@[simp] theorem setPublisher_slots : (s.setPublisher p u).slots = s.slots := rfl
@[simp] theorem setPublisher_stack : (s.setPublisher p u).stack = s.stack := rfl
@[simp] theorem setPublisher_published : (s.setPublisher p u).published = s.published := rfl
@[simp] theorem setSlot_pubs : (s.setSlot h a).pubs = s.pubs := rfl
@[simp] theorem setSlot_slots : (s.setSlot h a).slots = Function.update s.slots h a := rfl
@[simp] theorem setSlot_stack : (s.setSlot h a).stack = s.stack := rfl

end Fields

end State

end Kickmsg.Handles
