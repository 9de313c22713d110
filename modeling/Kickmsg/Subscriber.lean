import Kickmsg.Publisher

/-!
# The subscriber

`Subscriber.cc` and `SampleView::release` as automata: the constructor's ring claim, `try_receive`,
`try_receive_view` and the blocking `receive` loops, `arm_wait` / `disarm_wait`, and `release_ring` with
`drain_unconsumed`.
-/

namespace Kickmsg

/-- A live `SampleView`. The ring is bookkeeping: the class keeps only the slot pointer. -/
structure View where
  ring : Nat
  ringPos : Nat
  slotIdx : Nat
  len : Nat
  deriving DecidableEq, Repr

/-- `Subscriber::Wait`. -/
inductive Wait
  | ready
  | armed
  | poll
  deriving DecidableEq, Repr

/-- The next shared access of a `Subscriber`; `k` counts the retries of the receive loop. -/
inductive SubPc
  | out
  | joinPos (i : Nat)
  | joinCas (i wp : Nat)
  | joinStart (i wp : Nat)
  | joinPid (i wp : Nat)
  | joinPos2 (i wp : Nat)
  | live
  | recvPos (k : Nat)
  | recvSkip (k wp : Nat)
  | recvSeq (k : Nat)
  | recvLost (k : Nat)
  | recvMeta (k seq1 : Nat)
  | recvRc (k seq1 slot : Nat)
  | recvPin (k seq1 slot rc : Nat)
  | recvSeq2 (k seq1 slot : Nat)
  | recvUnpin (k slot : Nat)
  | recvUnpinPush (k slot : Nat) (p : PushPc)
  | recvLen (k slot : Nat)
  | copyOut (v : View)
  | copyDone (v : View)
  | copyPush (v : View) (p : PushPc)
  | parkClock
  | parkPos
  | parkSet (cur : Nat)
  | parkWait (cur : Nat)
  | parked (cur wakes : Nat)
  | parkClear
  | armPos
  | armHead (cur : Nat)
  | armSeq (cur : Nat)
  | armSet (cur : Nat)
  | armCheck (cur : Nat)
  | armUndo
  | armHead2
  | armSeq2
  | disarm
  | leaveLoad
  | leaveCas (old : Nat)
  | leaveSpin
  | leaveClock
  | clearWaiter (quiesced : Bool)
  | clearPid (quiesced : Bool)
  | clearStart (quiesced : Bool)
  | drainPos
  | drainMeta (pos wp : Nat)
  | drainCas (pos wp word : Nat)
  | drainSub (pos wp slot : Nat)
  | drainPush (pos wp slot : Nat) (p : PushPc)
  | leaveFree
  | leaveLoad2
  | leaveCas2 (old : Nat)
  deriving DecidableEq, Repr

/-- A `Subscriber`: its process, `ring_idx_`, `start_pos_`, `read_pos_`, `lost_`, `drain_timeouts_`, the
live views it has handed out, whether it has a `Waker`, the mode of the running receive (`copy`: through
`recv_buf_`; `blocking`: inside `receive` / `receive_view`), the last `arm_wait()` answer, the sample the
last call returned, and where it is. -/
structure Sub where
  pid : Nat
  starttime : Nat
  ringIdx : Nat
  startPos : Nat
  readPos : Nat
  lost : Nat
  drainTimeouts : Nat
  views : List View
  waker : Bool
  copy : Bool
  blocking : Bool
  waitState : Wait
  returned : Option View
  pc : SubPc
  deriving DecidableEq, Repr

namespace Sub

/-- The constructor's loop over the rings; past the last one it throws. -/
def tryJoin (g : Geometry) (u : Sub) (i : Nat) : Sub :=
  if i < g.maxSubs then { u with pc := .joinPos i } else { u with pc := .out }

/-- `return std::nullopt` of the receive loop: a blocking receive goes on to its deadline check. -/
def recvNone (u : Sub) : Sub :=
  if u.blocking then { u with pc := .parkClock } else { u with pc := .live }

/-- The head of the receive loop. -/
def recvLoop (u : Sub) (k : Nat) : Sub :=
  if k < 64 then { u with pc := .recvPos k } else u.recvNone

/-- After the sequence load: take the entry, give it up as lost, or come back later. -/
def recvWith (u : Sub) (k seq1 : Nat) : Sub :=
  if seq1 ≠ u64 (u.readPos + 1) then
    if seqIsSkip seq1 = true ∧ seqPos seq1 = u64 (u.readPos + 1) then { u with pc := .recvLost k }
    else if seqIsLocked seq1 = true ∨ seqPos seq1 < u64 (u.readPos + 1) then u.recvNone
    else { u with pc := .recvLost k }
  else { u with pc := .recvMeta k seq1 }

/-- After the claim load: its tag must name this position and its slot be in range. -/
def recvClaim (g : Geometry) (u : Sub) (k seq1 word : Nat) : Sub :=
  if metaTag word ≠ (u64 (u.readPos + 1) &&& metaTagMask) ∨ metaSlotBiased word = 0 ∨
      metaSlotBiased word - 1 ≥ g.poolSize then { u with pc := .recvLost k }
  else { u with pc := .recvRc k seq1 (metaSlotBiased word - 1) }

/-- One turn of the pin loop, given the refcount observed. -/
def tryPin (u : Sub) (k seq1 slot rc : Nat) : Sub :=
  if 0 < rc ∧ rc ≠ 2 ^ 32 - 1 then { u with pc := .recvPin k seq1 slot rc }
  else { u with pc := .recvLost k }

/-- `++read_pos_; return SampleView{...}`; `try_receive` copies the payload out of it. -/
def sample (u : Sub) (slot len : Nat) : Sub :=
  let v : View := ⟨u.ringIdx, u.readPos, slot, len⟩
  if u.copy then { u with readPos := u64 (u.readPos + 1), pc := .copyOut v }
  else { u with readPos := u64 (u.readPos + 1), views := v :: u.views, returned := some v, pc := .live }

/-- `head_state` before its sequence load. -/
def headPos (g : Geometry) (u : Sub) (wp : Nat) : Option Wait :=
  if wp ≤ u.readPos then some .armed
  else if wp - u.readPos > g.subRingCapacity then some .ready
  else none

/-- `head_state` after its sequence load. -/
def headSeq (u : Sub) (seq : Nat) : Wait :=
  if seqIsLocked seq = true ∨ seqPos seq < u64 (u.readPos + 1) then .poll else .ready

/-- `arm_wait` once the head is classified. -/
def armWith (u : Sub) (cur : Nat) (w : Wait) : Sub :=
  if w = .armed ∧ u.waker = true then { u with pc := .armSet cur }
  else { u with pc := .live, waitState := w }

/-- `[max(write_pos - capacity, start_pos), write_pos)` starts here. -/
def drainOldest (g : Geometry) (u : Sub) (wp : Nat) : Nat :=
  let oldest := if wp > g.subRingCapacity then wp - g.subRingCapacity else 0
  if oldest < u.startPos then u.startPos else oldest

/-- The head of the drain loop; after it the ring is handed over. -/
def drainLoop (u : Sub) (pos wp : Nat) : Sub :=
  if pos < wp then { u with pc := .drainMeta pos wp } else { u with pc := .leaveFree }

/-- The next access. -/
def request (g : Geometry) (u : Sub) : Option Op :=
  match u.pc with
  | .out => none
  | .joinPos i => some (.load (.writePos i))
  | .joinCas i _ =>
    some (.cas false (.stateFlight i) (makePacked .free 0) (makePacked .live 0))
  | .joinStart i _ => some (.store (.ownerStarttime i) u.starttime)
  | .joinPid i _ => some (.store (.ownerPid i) u.pid)
  | .joinPos2 i _ => some (.load (.writePos i))
  | .live => none
  | .recvPos _ => some (.load (.writePos u.ringIdx))
  | .recvSkip _ wp =>
    some (.fetchAdd (.lostCount u.ringIdx) (wp - u.readPos - g.subRingCapacity))
  | .recvSeq _ => some (.load (.sequence u.ringIdx (g.entryIdx u.readPos)))
  | .recvLost _ => some (.fetchAdd (.lostCount u.ringIdx) 1)
  | .recvMeta _ _ => some (.load (.metaWord u.ringIdx (g.entryIdx u.readPos)))
  | .recvRc _ _ slot => some (.load (.refcount slot))
  | .recvPin _ _ slot rc => some (.cas true (.refcount slot) rc (u32 (rc + 1)))
  | .recvSeq2 _ _ _ => some (.load (.sequence u.ringIdx (g.entryIdx u.readPos)))
  | .recvUnpin _ slot => some (.fetchSub (.refcount slot) 1)
  | .recvUnpinPush _ slot p => some (p.request slot)
  | .recvLen _ slot => some (.load (.payloadLen slot))
  | .copyOut v => some (.copyOut v.slotIdx v.len)
  | .copyDone v => some (.fetchSub (.refcount v.slotIdx) 1)
  | .copyPush v p => some (p.request v.slotIdx)
  | .parkClock => some .clock
  | .parkPos => some (.load (.writePos u.ringIdx))
  | .parkSet _ => some (.store (.hasWaiter u.ringIdx) waiterFutex)
  | .parkWait cur => some (.futexWait u.ringIdx cur)
  | .parked _ _ => some (.load (.futexWakes u.ringIdx))
  | .parkClear => some (.store (.hasWaiter u.ringIdx) waiterNone)
  | .armPos => some (.load (.writePos u.ringIdx))
  | .armHead _ => some (.load (.writePos u.ringIdx))
  | .armSeq _ => some (.load (.sequence u.ringIdx (g.entryIdx u.readPos)))
  | .armSet _ => some (.store (.hasWaiter u.ringIdx) waiterCarrier)
  | .armCheck _ => some (.load (.writePos u.ringIdx))
  | .armUndo => some (.store (.hasWaiter u.ringIdx) waiterNone)
  | .armHead2 => some (.load (.writePos u.ringIdx))
  | .armSeq2 => some (.load (.sequence u.ringIdx (g.entryIdx u.readPos)))
  | .disarm => some (.store (.hasWaiter u.ringIdx) waiterNone)
  | .leaveLoad => some (.load (.stateFlight u.ringIdx))
  | .leaveCas old => some (.cas true (.stateFlight u.ringIdx) old (setState old .draining))
  | .leaveSpin => some (.load (.stateFlight u.ringIdx))
  | .leaveClock => some .clock
  | .clearWaiter _ => some (.store (.hasWaiter u.ringIdx) waiterNone)
  | .clearPid _ => some (.store (.ownerPid u.ringIdx) 0)
  | .clearStart _ => some (.store (.ownerStarttime u.ringIdx) 0)
  | .drainPos => some (.load (.writePos u.ringIdx))
  | .drainMeta pos _ => some (.load (.metaWord u.ringIdx (g.entryIdx pos)))
  | .drainCas pos _ word =>
    some (.cas false (.metaWord u.ringIdx (g.entryIdx pos)) word (metaClear word))
  | .drainSub _ _ slot => some (.fetchSub (.refcount slot) 1)
  | .drainPush _ _ slot p => some (p.request slot)
  | .leaveFree => some (.store (.stateFlight u.ringIdx) (makePacked .free 0))
  | .leaveLoad2 => some (.load (.stateFlight u.ringIdx))
  | .leaveCas2 old => some (.cas true (.stateFlight u.ringIdx) old (setState old .free))

/-- The local code between an access and the next one. -/
def resume (g : Geometry) (u : Sub) (r : Resp) : Sub :=
  match u.pc with
  | .out => u
  | .joinPos i => { u with pc := .joinCas i r.val }
  | .joinCas i wp => if r.ok then { u with pc := .joinStart i wp } else u.tryJoin g (i + 1)
  | .joinStart i wp => { u with pc := .joinPid i wp }
  | .joinPid i wp => { u with pc := .joinPos2 i wp }
  | .joinPos2 i wp =>
    { u with ringIdx := i, startPos := wp, readPos := if r.val > wp then r.val else wp, lost := 0,
             drainTimeouts := 0, returned := none, pc := .live }
  | .live => u
  | .recvPos k =>
    if r.val ≤ u.readPos then u.recvNone
    else if r.val - u.readPos > g.subRingCapacity then { u with pc := .recvSkip k r.val }
    else { u with pc := .recvSeq k }
  | .recvSkip k wp =>
    { u with lost := u.lost + (wp - u.readPos - g.subRingCapacity),
             readPos := wp - g.subRingCapacity, pc := .recvSeq k }
  | .recvSeq k => u.recvWith k r.val
  | .recvLost k => { u with lost := u.lost + 1, readPos := u64 (u.readPos + 1) }.recvLoop (k + 1)
  | .recvMeta k seq1 => u.recvClaim g k seq1 r.val
  | .recvRc k seq1 slot => u.tryPin k seq1 slot r.val
  | .recvPin k seq1 slot _ =>
    if r.ok then { u with pc := .recvSeq2 k seq1 slot } else u.tryPin k seq1 slot r.val
  | .recvSeq2 k seq1 slot =>
    if r.val ≠ seq1 then { u with pc := .recvUnpin k slot } else { u with pc := .recvLen k slot }
  | .recvUnpin k slot =>
    if r.val = 1 then { u with pc := .recvUnpinPush k slot .load } else { u with pc := .recvLost k }
  | .recvUnpinPush k slot p =>
    match p.resume r with
    | some p' => { u with pc := .recvUnpinPush k slot p' }
    | none => { u with pc := .recvLost k }
  | .recvLen k slot =>
    if r.val > g.slotDataSize then { u with pc := .recvUnpin k slot } else u.sample slot r.val
  | .copyOut v => { u with pc := .copyDone v }
  | .copyDone v =>
    if r.val = 1 then { u with pc := .copyPush v .load } else { u with returned := some v, pc := .live }
  | .copyPush v p =>
    match p.resume r with
    | some p' => { u with pc := .copyPush v p' }
    | none => { u with returned := some v, pc := .live }
  | .parkClock => if r.ok then { u with pc := .live } else { u with pc := .parkPos }
  | .parkPos => if r.val ≤ u.readPos then { u with pc := .parkSet r.val } else u.recvLoop 0
  | .parkSet cur => { u with pc := .parkWait cur }
  | .parkWait cur => if r.ok then { u with pc := .parked cur r.val } else { u with pc := .parkClear }
  | .parked _ wakes =>
    if r.val ≠ wakes ∨ r.ok = true then { u with pc := .parkClear } else u
  | .parkClear => u.recvLoop 0
  | .armPos => { u with pc := .armHead r.val }
  | .armHead cur =>
    match u.headPos g r.val with
    | some w => u.armWith cur w
    | none => { u with pc := .armSeq cur }
  | .armSeq cur => u.armWith cur (u.headSeq r.val)
  | .armSet cur => { u with pc := .armCheck cur }
  | .armCheck cur =>
    if r.val ≠ cur then { u with pc := .armUndo } else { u with pc := .live, waitState := .armed }
  | .armUndo => { u with pc := .armHead2 }
  | .armHead2 =>
    match u.headPos g r.val with
    | some w => { u with pc := .live, waitState := w }
    | none => { u with pc := .armSeq2 }
  | .armSeq2 => { u with pc := .live, waitState := u.headSeq r.val }
  | .disarm => { u with pc := .live }
  | .leaveLoad => { u with pc := .leaveCas r.val }
  | .leaveCas _ => if r.ok then { u with pc := .leaveSpin } else { u with pc := .leaveCas r.val }
  | .leaveSpin =>
    if getInFlight r.val > 0 then { u with pc := .leaveClock } else { u with pc := .clearWaiter true }
  | .leaveClock =>
    if r.ok then { u with drainTimeouts := u.drainTimeouts + 1, pc := .clearWaiter false }
    else { u with pc := .leaveSpin }
  | .clearWaiter q => { u with pc := .clearPid q }
  | .clearPid q => { u with pc := .clearStart q }
  | .clearStart q => if q then { u with pc := .drainPos } else { u with pc := .leaveLoad2 }
  | .drainPos =>
    if r.val = 0 then { u with pc := .leaveFree } else u.drainLoop (u.drainOldest g r.val) r.val
  | .drainMeta pos wp =>
    if metaSlotBiased r.val = 0 ∨ metaSlotBiased r.val - 1 ≥ g.poolSize then u.drainLoop (pos + 1) wp
    else { u with pc := .drainCas pos wp r.val }
  | .drainCas pos wp word =>
    if r.ok then { u with pc := .drainSub pos wp (metaSlotBiased word - 1) }
    else u.drainLoop (pos + 1) wp
  | .drainSub pos wp slot =>
    if r.val = 1 then { u with pc := .drainPush pos wp slot .load } else u.drainLoop (pos + 1) wp
  | .drainPush pos wp slot p =>
    match p.resume r with
    | some p' => { u with pc := .drainPush pos wp slot p' }
    | none => u.drainLoop (pos + 1) wp
  | .leaveFree => { u with pc := .out }
  | .leaveLoad2 => { u with pc := .leaveCas2 r.val }
  | .leaveCas2 _ => if r.ok then { u with pc := .out } else { u with pc := .leaveCas2 r.val }

/-- The constructor; `attach` is folded into it. -/
def join (g : Geometry) (u : Sub) (waker : Bool) : Sub := { u with waker := waker }.tryJoin g 0

/-- `try_receive_view()`, `try_receive()` (`copy`), `receive_view()` and `receive()` (`blocking`). -/
def receive (u : Sub) (copy blocking : Bool) : Sub :=
  { u with copy := copy, blocking := blocking, returned := none }.recvLoop 0

/-- `arm_wait()`. -/
def armWait (u : Sub) : Sub := { u with returned := none, pc := .armPos }

/-- `disarm_wait()`. -/
def disarmWait (u : Sub) : Sub := { u with returned := none, pc := .disarm }

/-- `release_ring()`, as the destructor calls it. -/
def releaseRing (u : Sub) : Sub := { u with returned := none, pc := .leaveLoad }

/-- The sample of a call that has returned. -/
def handed (u : Sub) : Option View :=
  match u.pc with
  | .live => u.returned
  | _ => none

end Sub

/-- `SampleView::release` on a view that its holder destroys. -/
inductive ViewPc
  | idle
  | sub (v : View)
  | push (v : View) (p : PushPc)
  deriving DecidableEq, Repr

def ViewPc.request : ViewPc → Option Op
  | .idle => none
  | .sub v => some (.fetchSub (.refcount v.slotIdx) 1)
  | .push v p => some (p.request v.slotIdx)

def ViewPc.resume (r : Resp) : ViewPc → ViewPc
  | .idle => .idle
  | .sub v => if r.val = 1 then .push v .load else .idle
  | .push v p =>
    match p.resume r with
    | some p' => .push v p'
    | none => .idle

end Kickmsg
