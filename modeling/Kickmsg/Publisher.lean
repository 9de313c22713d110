import Kickmsg.Treiber

/-!
# The publisher

`Publisher.cc` as an automaton over shared accesses: `allocate`, `release_pending`, and `publish` with
its per-ring delivery (admission, position claim, commit wait, lock, claim take-over, commit), its
abandoned deliveries and `self_repair`. Every program counter is one shared access; `Pub.request` names
it and `Pub.resume` runs the local code up to the next one.
-/

namespace Kickmsg

/-- The locals of `publish()`'s ring loop. -/
structure Delivery where
  slotIdx : Nat
  i : Nat
  delivered : Nat
  excess : Nat
  carrier : Bool
  deriving DecidableEq, Repr

/-- `Publisher::CommitWait`. -/
structure CommitWait where
  lastSeq : Nat
  stableLock : Bool
  deriving DecidableEq, Repr

/-- What follows `release_pending()`: the return, or the rest of `allocate()`. -/
inductive AfterRelease
  | ret
  | allocate
  deriving DecidableEq, Repr

/-- The next shared access of a `Publisher`. -/
inductive PubPc
  | idle
  | releasePending (slotIdx : Nat) (k : AfterRelease) (p : PushPc)
  | allocate (p : PopPc)
  | storeLen (slotIdx len : Nat)
  | presetRefcount (slotIdx : Nat)
  | snapshot (d : Delivery)
  | admitCas (d : Delivery) (old : Nat)
  | claim (d : Delivery)
  | peek (d : Delivery) (pos : Nat)
  | signalEarly (d : Delivery) (pos : Nat)
  | waitFirst (d : Delivery) (pos : Nat)
  | waitLoad (d : Delivery) (pos first n : Nat)
  | waitClock (d : Delivery) (pos first seq n : Nat)
  | lock (d : Delivery) (pos : Nat) (wait : CommitWait) (attempt observed : Nat)
  | relook (d : Delivery) (pos : Nat) (wait : CommitWait) (attempt : Nat)
  | selfRepair (d : Delivery) (pos : Nat) (wait : CommitWait)
  | stealCas (d : Delivery) (pos observed : Nat)
  | stealSkip (d : Delivery) (pos : Nat)
  | stealCount (d : Delivery)
  | abandonDrop (d : Delivery) (exc : Bool)
  | abandonLeave (d : Delivery) (exc : Bool)
  | abandonWake (d : Delivery) (exc : Bool)
  | abandonFutex (d : Delivery) (exc : Bool)
  | check (d : Delivery) (pos : Nat)
  | metaLoad (d : Delivery) (pos : Nat)
  | metaCas (d : Delivery) (pos oldMeta : Nat)
  | releaseSlot (d : Delivery) (pos idx : Nat)
  | releasePush (d : Delivery) (pos idx : Nat) (p : PushPc)
  | commit (d : Delivery) (pos : Nat)
  | leave (d : Delivery)
  | wake (d : Delivery)
  | wakeFutex (d : Delivery)
  | returnExcess (d : Delivery)
  | excessPush (d : Delivery) (p : PushPc)
  | signal (delivered : Nat)
  deriving DecidableEq, Repr

/-- A `Publisher`: `pending_slot_`, `reservation_`, `dropped_`, whether it has a wake backend, the last
value `publish()` returned, and where it is. -/
structure Pub where
  pending : Option Nat
  reservation : Nat
  dropped : Nat
  backend : Bool
  result : Nat
  pc : PubPc
  deriving DecidableEq, Repr

namespace Pub

/-- `prev_seq`: what the previous wrap's occupant commits. -/
def prevSeq (g : Geometry) (pos : Nat) : Nat :=
  if pos ≥ g.subRingCapacity then u64 (pos - g.subRingCapacity + 1) else 0

/-- The end of `publish()`: return the excess references, signal the backend, return. -/
def finish (u : Pub) (d : Delivery) : Pub :=
  if d.carrier = true ∧ u.backend = true then { u with pc := .signal d.delivered }
  else { u with pc := .idle, result := d.delivered }

/-- The loop head: the next ring, or the code after the loop. -/
def ring (g : Geometry) (u : Pub) (d : Delivery) : Pub :=
  if d.i < g.maxSubs then { u with pc := .snapshot d }
  else if d.excess > 0 then { u with pc := .returnExcess d }
  else u.finish d

/-- `continue`, with the reference of this ring kept as excess or not. -/
def nextRing (g : Geometry) (u : Pub) (d : Delivery) (exc : Bool) : Pub :=
  u.ring g { d with i := d.i + 1, excess := if exc then u32 (d.excess + 1) else d.excess }

/-- One turn of the admission loop: the state is checked before the compare-exchange. -/
def tryAdmit (g : Geometry) (u : Pub) (d : Delivery) (old : Nat) : Pub :=
  if getState old ≠ .live then u.nextRing g d true else { u with pc := .admitCas d old }

/-- `seq_is_locked(seq) or seq_pos(seq) < expected_seq` is false: the predecessor is resolved. -/
def resolved (seq expected : Nat) : Bool := !seqIsLocked seq && decide (seqPos seq ≥ expected)

/-- One turn of the lock loop, given the word observed. -/
def tryLock (g : Geometry) (u : Pub) (d : Delivery) (pos : Nat) (wait : CommitWait)
    (attempt observed : Nat) : Pub :=
  if attempt ≥ 64 then { u with pc := .selfRepair d pos wait }
  else if seqIsLocked observed = false ∧ seqPos observed = prevSeq g pos then
    { u with pc := .lock d pos wait attempt observed }
  else if seqIsLocked observed = false then { u with pc := .selfRepair d pos wait }
  else { u with pc := .relook d pos wait attempt }

/-- `self_repair` after its load: steal a lock proven stable, or a word more than one wrap behind. -/
def repairWith (g : Geometry) (u : Pub) (d : Delivery) (pos : Nat) (wait : CommitWait) (seq : Nat) :
    Pub :=
  if seqIsLocked seq = true then
    if wait.stableLock = false ∨ seq ≠ wait.lastSeq then { u with pc := .abandonDrop d true }
    else { u with pc := .stealCas d pos seq }
  else if u64 (seqPos seq + g.subRingCapacity) ≥ u64 (pos + 1) then
    { u with pc := .abandonDrop d true }
  else { u with pc := .stealCas d pos seq }

/-- One turn of the claim take-over loop. -/
def tryTake (u : Pub) (d : Delivery) (pos oldMeta : Nat) : Pub :=
  if metaPrecedes oldMeta pos = true then { u with pc := .metaCas d pos oldMeta }
  else { u with pc := .abandonDrop d true }

/-- `release_slot` of the claim just replaced; an index out of range is ignored. -/
def releasePrev (g : Geometry) (u : Pub) (d : Delivery) (pos oldMeta : Nat) : Pub :=
  if metaSlotBiased oldMeta ≠ 0 ∧ metaSlotBiased oldMeta - 1 < g.poolSize then
    { u with pc := .releaseSlot d pos (metaSlotBiased oldMeta - 1) }
  else { u with pc := .commit d pos }

/-- The next access. -/
def request (g : Geometry) (u : Pub) : Option Op :=
  match u.pc with
  | .idle => none
  | .releasePending s _ p => some (p.request s)
  | .allocate p => some p.request
  | .storeLen s len => some (.store (.payloadLen s) (u32 len))
  | .presetRefcount s => some (.store (.refcount s) (u32 g.maxSubs))
  | .snapshot d => some (.load (.stateFlight d.i))
  | .admitCas d old => some (.cas true (.stateFlight d.i) old (u32 (old + inFlightOne)))
  | .claim d => some (.fetchAdd (.writePos d.i) 1)
  | .peek d pos => some (.load (.sequence d.i (g.entryIdx pos)))
  | .signalEarly _ _ => some .signal
  | .waitFirst d pos => some (.load (.sequence d.i (g.entryIdx pos)))
  | .waitLoad d pos _ _ => some (.load (.sequence d.i (g.entryIdx pos)))
  | .waitClock _ _ _ _ _ => some .clock
  | .lock d pos _ _ observed =>
    some (.cas true (.sequence d.i (g.entryIdx pos)) observed (seqLock pos))
  | .relook d pos _ _ => some (.load (.sequence d.i (g.entryIdx pos)))
  | .selfRepair d pos _ => some (.load (.sequence d.i (g.entryIdx pos)))
  | .stealCas d pos observed =>
    some (.cas false (.sequence d.i (g.entryIdx pos)) observed (seqRepair pos))
  | .stealSkip d pos => some (.store (.sequence d.i (g.entryIdx pos)) (seqSkip pos))
  | .stealCount _ => some (.fetchAdd .stealCount 1)
  | .abandonDrop d _ => some (.fetchAdd (.droppedCount d.i) 1)
  | .abandonLeave d _ => some (.fetchSub (.stateFlight d.i) inFlightOne)
  | .abandonWake d _ => some (.load (.hasWaiter d.i))
  | .abandonFutex d _ => some (.futexWake d.i)
  | .check d pos => some (.load (.sequence d.i (g.entryIdx pos)))
  | .metaLoad d pos => some (.load (.metaWord d.i (g.entryIdx pos)))
  | .metaCas d pos oldMeta =>
    some (.cas true (.metaWord d.i (g.entryIdx pos)) oldMeta (metaPack pos d.slotIdx))
  | .releaseSlot _ _ idx => some (.fetchSub (.refcount idx) 1)
  | .releasePush _ _ idx p => some (p.request idx)
  | .commit d pos =>
    some (.cas false (.sequence d.i (g.entryIdx pos)) (seqLock pos) (u64 (pos + 1)))
  | .leave d => some (.fetchSub (.stateFlight d.i) inFlightOne)
  | .wake d => some (.load (.hasWaiter d.i))
  | .wakeFutex d => some (.futexWake d.i)
  | .returnExcess d => some (.fetchSub (.refcount d.slotIdx) d.excess)
  | .excessPush d p => some (p.request d.slotIdx)
  | .signal _ => some .signal

/-- The local code between an access and the next one. -/
def resume (g : Geometry) (u : Pub) (r : Resp) : Pub :=
  match u.pc with
  | .idle => u
  | .releasePending s k p =>
    match p.resume r, k with
    | some p', _ => { u with pc := .releasePending s k p' }
    | none, .ret => { u with pending := none, pc := .idle }
    | none, .allocate =>
      { u with pending := none, reservation := u.reservation + 1, pc := .allocate .load }
  | .allocate p =>
    match p.resume g.poolSize r with
    | .busy p' => { u with pc := .allocate p' }
    | .ret slot => { u with pending := slot, pc := .idle }
  | .storeLen s _ => { u with pc := .presetRefcount s }
  | .presetRefcount s => u.ring g ⟨s, 0, 0, 0, false⟩
  | .snapshot d => u.tryAdmit g d r.val
  | .admitCas d _ => if r.ok then { u with pc := .claim d } else u.tryAdmit g d r.val
  | .claim d =>
    if r.val ≥ g.subRingCapacity then { u with pc := .peek d r.val }
    else u.tryLock g d r.val ⟨0, false⟩ 0 0
  | .peek d pos =>
    if resolved r.val (prevSeq g pos) = false ∧ d.carrier = true ∧ u.backend = true then
      { u with pc := .signalEarly d pos }
    else { u with pc := .waitFirst d pos }
  | .signalEarly d pos => { u with pc := .waitFirst { d with carrier := false } pos }
  | .waitFirst d pos =>
    if resolved r.val (prevSeq g pos) then u.tryLock g d pos ⟨r.val, false⟩ 0 r.val
    else { u with pc := .waitLoad d pos r.val 1 }
  | .waitLoad d pos first n =>
    if resolved r.val (prevSeq g pos) then u.tryLock g d pos ⟨r.val, false⟩ 0 r.val
    else if (n + 1) % 1024 = 0 then { u with pc := .waitClock d pos first r.val (n + 1) }
    else { u with pc := .waitLoad d pos first (n + 1) }
  | .waitClock d pos first seq n =>
    if r.ok then
      u.tryLock g d pos ⟨seq, seqIsLocked first && decide (seq = first)⟩ 0 seq
    else { u with pc := .waitLoad d pos first n }
  | .lock d pos wait attempt _ =>
    if r.ok then { u with pc := .check d pos } else u.tryLock g d pos wait (attempt + 1) r.val
  | .relook d pos wait attempt => u.tryLock g d pos wait (attempt + 1) r.val
  | .selfRepair d pos wait => u.repairWith g d pos wait r.val
  | .stealCas d pos _ =>
    if r.ok then { u with pc := .stealSkip d pos } else { u with pc := .abandonDrop d true }
  | .stealSkip d _ => { u with pc := .stealCount d }
  | .stealCount d => { u with pc := .abandonDrop d true }
  | .abandonDrop d exc => { u with dropped := u.dropped + 1, pc := .abandonLeave d exc }
  | .abandonLeave d exc => { u with pc := .abandonWake d exc }
  | .abandonWake d exc =>
    if r.val = waiterFutex then { u with pc := .abandonFutex d exc }
    else u.nextRing g { d with carrier := d.carrier || decide (r.val = waiterCarrier) } exc
  | .abandonFutex d exc => u.nextRing g d exc
  | .check d pos =>
    if r.val ≠ seqLock pos then { u with pc := .abandonDrop d true }
    else { u with pc := .metaLoad d pos }
  | .metaLoad d pos => u.tryTake d pos r.val
  | .metaCas d pos oldMeta =>
    if r.ok then u.releasePrev g d pos oldMeta else u.tryTake d pos r.val
  | .releaseSlot d pos idx =>
    if r.val = 1 then { u with pc := .releasePush d pos idx .load }
    else { u with pc := .commit d pos }
  | .releasePush d pos idx p =>
    match p.resume r with
    | some p' => { u with pc := .releasePush d pos idx p' }
    | none => { u with pc := .commit d pos }
  | .commit d _ =>
    if r.ok then { u with pc := .leave d } else { u with pc := .abandonDrop d false }
  | .leave d => { u with pc := .wake d }
  | .wake d =>
    if r.val = waiterFutex then { u with pc := .wakeFutex d }
    else u.nextRing g { d with carrier := d.carrier || decide (r.val = waiterCarrier),
                               delivered := d.delivered + 1 } false
  | .wakeFutex d => u.nextRing g { d with delivered := d.delivered + 1 } false
  | .returnExcess d =>
    if r.val = d.excess then { u with pc := .excessPush d .load } else u.finish d
  | .excessPush d p =>
    match p.resume r with
    | some p' => { u with pc := .excessPush d p' }
    | none => u.finish d
  | .signal delivered => { u with pc := .idle, result := delivered }

/-- `allocate()`. -/
def allocate (u : Pub) : Pub :=
  match u.pending with
  | some s => { u with pc := .releasePending s .allocate .load }
  | none => { u with reservation := u.reservation + 1, pc := .allocate .load }

/-- `release_pending()`, as the destructors of `AllocatedSlot` and `Publisher` call it. -/
def releasePending (u : Pub) : Pub :=
  match u.pending with
  | some s => { u with pc := .releasePending s .ret .load }
  | none => u

/-- `publish(len)` up to its first shared access. -/
def publish (g : Geometry) (u : Pub) (len : Nat) : Pub :=
  if len > g.slotDataSize then { u.releasePending with result := 0 }
  else match u.pending with
    | some s => { u with pending := none, pc := .storeLen s len }
    | none => { u with result := 0 }

end Pub

end Kickmsg
