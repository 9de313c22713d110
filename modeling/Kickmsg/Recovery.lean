import Kickmsg.Subscriber

/-!
# The recovery passes

`Region.cc`: `repair_locked_entries` (the two steal passes), `reclaim_dead_rings` and
`reclaim_orphaned_slots` as automata over shared accesses.
-/

namespace Kickmsg

/-! ## `repair_locked_entries` -/

/-- A locked entry put aside for the grace pass. -/
structure Candidate where
  ring : Nat
  pos : Nat
  seq : Nat
  deriving DecidableEq, Repr

/-- The next shared access of `repair_locked_entries`: the scan of ring `i` up to the `write_pos` it
loaded, then the grace pass over the candidates. The sleep between the passes is no access. -/
inductive RepairPc
  | idle
  | ringPos (i : Nat) (cs : List Candidate)
  | entry (i wp pos : Nat) (cs : List Candidate)
  | stealCas (i wp pos observed : Nat) (cs : List Candidate)
  | stealSkip (i wp pos : Nat) (cs : List Candidate)
  | stealCount (i wp pos : Nat) (cs : List Candidate)
  | graceLoad (c : Candidate) (cs : List Candidate)
  | graceCas (c : Candidate) (cs : List Candidate)
  | graceSkip (c : Candidate) (cs : List Candidate)
  | graceCount (c : Candidate) (cs : List Candidate)
  deriving DecidableEq, Repr

structure Repair where
  repaired : Nat
  pc : RepairPc
  deriving DecidableEq, Repr

namespace Repair

/-- The grace pass from its next candidate on. -/
def grace (u : Repair) : List Candidate → Repair
  | [] => { u with pc := .idle }
  | c :: cs => { u with pc := .graceLoad c cs }

/-- The scan from ring `i` on; candidates were collected in reverse. -/
def scanRing (g : Geometry) (u : Repair) (i : Nat) (cs : List Candidate) : Repair :=
  if i < g.maxSubs then { u with pc := .ringPos i cs } else u.grace cs.reverse

/-- The scan from position `pos` of ring `i` on. -/
def scanEntry (g : Geometry) (u : Repair) (i wp pos : Nat) (cs : List Candidate) : Repair :=
  if pos < wp then { u with pc := .entry i wp pos cs } else u.scanRing g (i + 1) cs

def request (g : Geometry) (u : Repair) : Option Op :=
  match u.pc with
  | .idle => none
  | .ringPos i _ => some (.load (.writePos i))
  | .entry i _ pos _ => some (.load (.sequence i (g.entryIdx pos)))
  | .stealCas i _ pos observed _ =>
    some (.cas false (.sequence i (g.entryIdx pos)) observed (seqRepair pos))
  | .stealSkip i _ pos _ => some (.store (.sequence i (g.entryIdx pos)) (seqSkip pos))
  | .stealCount _ _ _ _ => some (.fetchAdd .stealCount 1)
  | .graceLoad c _ => some (.load (.sequence c.ring (g.entryIdx c.pos)))
  | .graceCas c _ =>
    some (.cas false (.sequence c.ring (g.entryIdx c.pos)) c.seq (seqRepair c.pos))
  | .graceSkip c _ => some (.store (.sequence c.ring (g.entryIdx c.pos)) (seqSkip c.pos))
  | .graceCount _ _ => some (.fetchAdd .stealCount 1)

def resume (g : Geometry) (u : Repair) (r : Resp) : Repair :=
  match u.pc with
  | .idle => u
  | .ringPos i cs =>
    u.scanEntry g i r.val (if r.val > g.subRingCapacity then r.val - g.subRingCapacity else 0) cs
  | .entry i wp pos cs =>
    -- Case A is deferred to the grace pass, Case B is stolen at once.
    if seqIsLocked r.val = true then u.scanEntry g i wp (pos + 1) (⟨i, pos, r.val⟩ :: cs)
    else if u64 (seqPos r.val + g.subRingCapacity) < u64 (pos + 1) then
      { u with pc := .stealCas i wp pos r.val cs }
    else u.scanEntry g i wp (pos + 1) cs
  | .stealCas i wp pos _ cs =>
    if r.ok then { u with pc := .stealSkip i wp pos cs } else u.scanEntry g i wp (pos + 1) cs
  | .stealSkip i wp pos cs => { u with pc := .stealCount i wp pos cs }
  | .stealCount i wp pos cs =>
    { u with repaired := u.repaired + 1 }.scanEntry g i wp (pos + 1) cs
  | .graceLoad c cs => if r.val ≠ c.seq then u.grace cs else { u with pc := .graceCas c cs }
  | .graceCas c cs => if r.ok then { u with pc := .graceSkip c cs } else u.grace cs
  | .graceSkip c cs => { u with pc := .graceCount c cs }
  | .graceCount _ cs => { u with repaired := u.repaired + 1 }.grace cs

/-- The call, up to its first shared access. -/
def start (g : Geometry) (u : Repair) : Repair := { u with repaired := 0 }.scanRing g 0 []

end Repair

/-! ## `reclaim_dead_rings` -/

/-- The next shared access of `reclaim_dead_rings` on ring `i`. `st` is the state first observed,
`claim` the word the pass moved the ring to. -/
inductive ReclaimPc
  | idle
  | scan (i : Nat)
  | pid1 (i : Nat) (st : RingState)
  | start1 (i : Nat) (st : RingState) (pid : Nat)
  | probe1 (i : Nat) (st : RingState) (pid starttime : Nat)
  | fresh (i : Nat) (st : RingState)
  | claim (i : Nat) (st : RingState) (old : Nat)
  | pid2 (i : Nat) (st : RingState) (claim : Nat)
  | start2 (i : Nat) (st : RingState) (claim pid : Nat)
  | probe2 (i : Nat) (st : RingState) (claim pid starttime : Nat)
  | clearWaiter (i claim : Nat)
  | clearPid (i claim : Nat)
  | clearStart (i claim : Nat)
  | free (i old : Nat)
  | restore (i : Nat) (st : RingState) (old : Nat)
  deriving DecidableEq, Repr

structure Reclaim where
  reclaimed : Nat
  pc : ReclaimPc
  deriving DecidableEq, Repr

namespace Reclaim

/-- The loop over the rings. -/
def scanRing (g : Geometry) (u : Reclaim) (i : Nat) : Reclaim :=
  if i < g.maxSubs then { u with pc := .scan i } else { u with pc := .idle }

/-- One turn of the freeing loop: only while the ring is still `Reclaiming`. -/
def tryFree (g : Geometry) (u : Reclaim) (i old : Nat) : Reclaim :=
  if getState old = .reclaiming then { u with pc := .free i old } else u.scanRing g (i + 1)

/-- One turn of the restoring loop. -/
def tryRestore (g : Geometry) (u : Reclaim) (i : Nat) (st : RingState) (old : Nat) : Reclaim :=
  if getState old = .reclaiming then { u with pc := .restore i st old } else u.scanRing g (i + 1)

def request (u : Reclaim) : Option Op :=
  match u.pc with
  | .idle => none
  | .scan i => some (.load (.stateFlight i))
  | .pid1 i _ => some (.load (.ownerPid i))
  | .start1 i _ _ => some (.load (.ownerStarttime i))
  | .probe1 _ _ pid starttime => some (.probeOwner pid starttime)
  | .fresh i _ => some (.load (.stateFlight i))
  | .claim i _ old => some (.cas false (.stateFlight i) old (setState old .reclaiming))
  | .pid2 i _ _ => some (.load (.ownerPid i))
  | .start2 i _ _ _ => some (.load (.ownerStarttime i))
  | .probe2 _ _ _ pid starttime => some (.probeOwner pid starttime)
  | .clearWaiter i _ => some (.store (.hasWaiter i) waiterNone)
  | .clearPid i _ => some (.store (.ownerPid i) 0)
  | .clearStart i _ => some (.store (.ownerStarttime i) 0)
  | .free i old => some (.cas true (.stateFlight i) old (setState old .free))
  | .restore i st old => some (.cas true (.stateFlight i) old (setState old st))

def resume (g : Geometry) (u : Reclaim) (r : Resp) : Reclaim :=
  match u.pc with
  | .idle => u
  | .scan i =>
    if getState r.val = .free then u.scanRing g (i + 1)
    else { u with pc := .pid1 i (getState r.val) }
  | .pid1 i st => { u with pc := .start1 i st r.val }
  | .start1 i st pid => { u with pc := .probe1 i st pid r.val }
  | .probe1 i st _ _ => if r.ok then { u with pc := .fresh i st } else u.scanRing g (i + 1)
  | .fresh i st =>
    if getState r.val ≠ st then u.scanRing g (i + 1) else { u with pc := .claim i st r.val }
  | .claim i st old =>
    if r.ok then { u with pc := .pid2 i st (setState old .reclaiming) } else u.scanRing g (i + 1)
  | .pid2 i st claim => { u with pc := .start2 i st claim r.val }
  | .start2 i st claim pid => { u with pc := .probe2 i st claim pid r.val }
  | .probe2 i st claim _ _ =>
    if r.ok then { u with pc := .clearWaiter i claim } else u.tryRestore g i st claim
  | .clearWaiter i claim => { u with pc := .clearPid i claim }
  | .clearPid i claim => { u with pc := .clearStart i claim }
  | .clearStart i claim => u.tryFree g i claim
  | .free i _ =>
    if r.ok then { u with reclaimed := u.reclaimed + 1 }.scanRing g (i + 1) else u.tryFree g i r.val
  | .restore i st _ => if r.ok then u.scanRing g (i + 1) else u.tryRestore g i st r.val

/-- The call, up to its first shared access. -/
def start (g : Geometry) (u : Reclaim) : Reclaim := { u with reclaimed := 0 }.scanRing g 0

end Reclaim

/-! ## `reclaim_orphaned_slots` -/

/-- The next shared access of `reclaim_orphaned_slots`: counting the claims of entry `idx` of ring `i`,
walking the free stack, then visiting slot `idx`. -/
inductive OrphanPc
  | idle
  | count (i idx : Nat) (claims : Nat → Nat)
  | top (claims : Nat → Nat)
  | walk (claims : Nat → Nat) (onStack : Nat → Bool) (idx walked : Nat)
  | reset (claims : Nat → Nat) (onStack : Nat → Bool) (idx : Nat)
  | push (claims : Nat → Nat) (onStack : Nat → Bool) (idx : Nat) (p : PushPc)

structure Orphan where
  reclaimed : Nat
  pc : OrphanPc

namespace Orphan

/-- The visit of the slots from `idx` on: slots on the stack are passed over. -/
def visit (g : Geometry) (u : Orphan) (claims : Nat → Nat) (onStack : Nat → Bool) (idx : Nat) :
    Orphan :=
  if idx < g.poolSize then
    if onStack idx = true then u.visit g claims onStack (idx + 1)
    else { u with pc := .reset claims onStack idx }
  else { u with pc := .idle }
termination_by g.poolSize - idx

/-- One turn of the walk; at its end the visit starts. -/
def walkFrom (g : Geometry) (u : Orphan) (claims : Nat → Nat) (onStack : Nat → Bool)
    (idx walked : Nat) : Orphan :=
  if idx ≠ invalidSlot ∧ idx < g.poolSize ∧ walked < g.poolSize then
    { u with pc := .walk claims (Function.update onStack idx true) idx walked }
  else u.visit g claims onStack 0

/-- The count from entry `idx` of ring `i` on. -/
def countFrom (g : Geometry) (u : Orphan) (i idx : Nat) (claims : Nat → Nat) : Orphan :=
  if idx < g.subRingCapacity then { u with pc := .count i idx claims }
  else if i + 1 < g.maxSubs then { u with pc := .count (i + 1) 0 claims }
  else { u with pc := .top claims }

def request (u : Orphan) : Option Op :=
  match u.pc with
  | .idle => none
  | .count i idx _ => some (.load (.metaWord i idx))
  | .top _ => some (.load .freeTop)
  | .walk _ _ idx _ => some (.load (.nextFree idx))
  | .reset claims _ idx => some (.store (.refcount idx) (claims idx))
  | .push _ _ idx p => some (p.request idx)

def resume (g : Geometry) (u : Orphan) (r : Resp) : Orphan :=
  match u.pc with
  | .idle => u
  | .count i idx claims =>
    let biased := metaSlotBiased r.val
    u.countFrom g i (idx + 1)
      (if biased ≠ 0 ∧ biased - 1 < g.poolSize then
        Function.update claims (biased - 1) (u32 (claims (biased - 1) + 1))
      else claims)
  | .top claims => u.walkFrom g claims (fun _ => false) (taggedIdx r.val) 0
  | .walk claims onStack _ walked => u.walkFrom g claims onStack r.val (walked + 1)
  | .reset claims onStack idx =>
    if claims idx ≠ 0 then u.visit g claims onStack (idx + 1)
    else { u with pc := .push claims onStack idx .load }
  | .push claims onStack idx p =>
    match p.resume r with
    | some p' => { u with pc := .push claims onStack idx p' }
    | none => { u with reclaimed := u.reclaimed + 1 }.visit g claims onStack (idx + 1)

/-- The call, up to its first shared access. -/
def start (g : Geometry) (u : Orphan) : Orphan :=
  { u with reclaimed := 0 }.countFrom g 0 0 (fun _ => 0)

end Orphan

end Kickmsg
