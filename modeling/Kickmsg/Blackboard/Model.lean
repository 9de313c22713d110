import Kickmsg.Hash
import Kickmsg.Lib.Actors
import Kickmsg.Lib.Bytes
import Kickmsg.Memory

/-!
# The blackboard

`Blackboard.cc` as a program over the words of a board: `declare`, `Writer::write`, `Writer::release`,
`sweep_stale`, `Reader::read` and the three listings `keys`, `read_all` and `snapshot`, with the board lock
and its recovery from a dead holder. Every field is an atomic word (a key and a value are sequences of
them) and every access to one is a step. `owner_node` is written and listed and decides nothing; it is
left out, as is the padding.

`tenancy` and `publish` are words of 64 bits, and they wrap. `change_seq` is here the count of the changes,
and its word is that modulo `2 ^ 64`; no call of this module reads it. An actor drives at most one `Writer` and
one `Reader`: a thread with more of them is several actors of one process.
-/

namespace Kickmsg.Blackboard

open Lib

/-- `blackboard::KeyState`. -/
def free : Nat := 0
def claiming : Nat := 1
def active : Nat := 2

def keyMax : Nat := 128
def keyWords : Nat := 16
def maxValueSize : Nat := 2 ^ 20
def readRetryBudget : Nat := 64

/-- The words of a `BlackboardEntry`. -/
inductive Field
  | state
  | publish
  | tenancy
  | ownerPid
  | ownerStarttime
  | keyHash
  | declaredAtNs
  | key (w : Nat)
  deriving DecidableEq

/-- The words of a `BlackboardCell` and of the payload that follows it. -/
inductive CellField
  | updatedAtNs
  | valueLen
  | payload (w : Nat)
  deriving DecidableEq

/-- The words of a board; a cell is named by its entry and its parity. -/
inductive Loc
  | changeSeq
  | waiters
  | lockToken
  | entry (i : Nat) (f : Field)
  | cell (i c : Nat) (f : CellField)
  deriving DecidableEq

/-- `blackboard::Geometry`, as `spin_open` has validated it. -/
structure Geometry where
  capacity : Nat
  maxValueSize : Nat
  value_le : maxValueSize ≤ Blackboard.maxValueSize

/-- `CELLS_PER_KEY` is 2: the cell of a write counter. -/
def cellOf (writes : Nat) : Nat := writes % 2

/-- `store_words`: how many words `len` bytes take. -/
def wordsFor (len : Nat) : Nat := (len + 7) / 8

/-- `load_words`: the first `len` bytes of a sequence of words. -/
def bytesOf (len : Nat) (words : Nat → Nat) : List UInt8 :=
  (List.range len).map fun j => UInt8.ofNat (byteIn words j)

/-- `bb_store_key`: word `w` of the key, padded with zeros. -/
def bbStoreKey (key : List UInt8) (w : Nat) : Nat := wordAt (byteOf (key.take keyMax)) w

/-- `bb_load_key`: the stored key up to the first NUL. -/
def bbLoadKey (words : Nat → Nat) : List UInt8 := (bytesOf keyMax words).takeWhile (· ≠ 0)

/-- `key_fingerprint`. -/
def keyFingerprint (key : List UInt8) : Nat :=
  let h := (Hash.fnv1a64 key Hash.fnv1aOffsetBasis).toNat
  if h = 0 then 1 else h

/-- The half of a lock token that comes from the start time. -/
def startFingerprint (starttime : Nat) : Nat :=
  let fp := (Hash.fnv1a64 (Hash.bytes64 (UInt64.ofNat starttime)) Hash.fnv1aOffsetBasis).toNat / 2 ^ 32
  if fp = 0 then 1 else fp

/-- `make_token`: `(fp << 32) | (pid & 0xFFFFFFFF)`. -/
def makeToken (pid starttime : Nat) : Nat := startFingerprint starttime * 2 ^ 32 + pid % 2 ^ 32

/-- `token_pid`. -/
def tokenPid (token : Nat) : Nat := token % 2 ^ 32

/-- `token_holder_dead`, over what the operating system knows. -/
def tokenHolderDead (procs : Nat → Option Nat) (token : Nat) : Bool :=
  if tokenPid token = 0 then false
  else match procs (tokenPid token) with
    | none => true
    | some starttime =>
      if starttime = 0 then false else makeToken (tokenPid token) starttime != token

/-- The questions to the operating system: `token_holder_dead` and `owner_is_dead`. -/
inductive Query
  | holder (token : Nat)
  | owner (pid starttime : Nat)

/-- The operating system's answers, which are exact. -/
def verdict (procs : Nat → Option Nat) : Query → Bool
  | .holder token => tokenHolderDead procs token
  | .owner pid starttime => ownerIsDead procs pid starttime

/-- The error codes that calls return. -/
inductive Errc
  | noSuchFileOrDirectory
  | noMessage
  | messageSize
  | resourceUnavailableTryAgain
  | badFileDescriptor
  | operationNotPermitted
  | stateNotRecoverable
  | deviceOrResourceBusy
  deriving DecidableEq

/-- The exceptions that calls throw; `arg` is appended to the text. -/
inductive Thrown
  | invalidArgument (text : String)
  | runtimeError (text : String) (arg : List UInt8)
  deriving DecidableEq

/-- `Blackboard::Writer`. -/
structure Writer where
  entryIdx : Nat
  tenancy : Nat
  writes : Nat
  ownerPid : Nat
  key : List UInt8
  deriving DecidableEq

/-- `Blackboard::Reader`; without an index the entry is not resolved. -/
structure Reader where
  key : List UInt8
  keyHash : Nat
  entryIdx : Option Nat
  tenancy : Nat

/-- `blackboard::ReadOutcome`. -/
structure ReadOutcome where
  ec : Option Errc
  len : Nat
  updatedAtNs : Nat
  updateCount : Nat
  deriving DecidableEq

/-- `blackboard::KeyStatus` and the value that `read_all` lists; `idx` is bookkeeping. -/
structure Row where
  idx : Nat
  key : List UInt8
  valueLen : Nat
  updatedAtNs : Nat
  updateCount : Nat
  value : List UInt8
  ownerPid : Nat
  ownerStarttime : Nat
  ownerAlive : Bool
  deriving DecidableEq

/-- The listings; `keys` and `read_all` take a filter, what the keys start with. -/
inductive Listing
  | keys (pre : List UInt8)
  | readAll (pre : List UInt8)
  | snapshot
  deriving DecidableEq

/-- What the last call returned. -/
inductive Result
  | pending
  | threw (e : Thrown)
  | declared
  | observed
  | ec (e : Option Errc)
  | swept (n : Nat)
  | read (o : ReadOutcome) (data : List UInt8)
  | listing (l : Listing) (rows : List Row)

/-- What the lock is taken for. -/
inductive Job
  | declare (key : List UInt8)
  | release (w : Writer)
  | sweep
  | snapshot

/-- The attempts `board_lock` has; none means that a clock bounds it. -/
def Job.budget : Job → Nat
  | .declare _ | .sweep => 4096
  | .snapshot => 1024
  | .release _ => 0

/-- The time `board_lock` has, in nanoseconds; none means that attempts bound it. -/
def Job.limit : Job → Nat
  | .release _ => 2000000000
  | _ => 0

/-- What follows `sweep_locked()`: the return of `sweep_stale`, or the second try of a `declare`. -/
inductive SweepFor
  | ret
  | claim (key : List UInt8)

/-- Who calls `normalize_entry`: `repair_board` or `sweep_locked`, which has freed `n` entries. -/
inductive Visit
  | repair (j : Job)
  | sweep (k : SweepFor) (n : Nat)

/-- How a locked call ends: its result, and what becomes of the `Writer`. -/
inductive Outcome
  | keep (r : Result)
  | gain (w : Writer)
  | drop (e : Option Errc)
  | probe (rows : List Row)

/-- What a reader has copied out of an entry. -/
structure Copy where
  tenancy : Nat
  key : Nat → Nat
  publish : Nat
  len : Nat
  words : Nat → Nat
  stamp : Nat
  publishAfter : Nat

def Copy.empty : Copy := ⟨0, fun _ => 0, 0, 0, fun _ => 0, 0, 0⟩

/-- `publish >> 1`: the completed writes. -/
def Copy.writes (c : Copy) : Nat := c.publish / 2

/-- `publish_after - (publish_before & ~1) >= 2 * CELLS_PER_KEY - 1`, in unsigned arithmetic. -/
def Copy.clobbered (c : Copy) : Bool :=
  decide (c.publishAfter < 2 * c.writes ∨ 2 * c.writes + 3 ≤ c.publishAfter)

/-- A running `Reader::read`: the handle, the size of the buffer, the retries, the entry it looks at. -/
structure ReadCall where
  reader : Reader
  size : Nat
  retry : Nat
  i : Nat
  c : Copy

/-- A running listing: the rows so far, and the `read_entry` it is in. -/
structure ListCall where
  listing : Listing
  rows : List Row
  retry : Nat
  i : Nat
  c : Copy
  tenancyAfter : Nat

/-- The next access of an actor. -/
inductive Pc
  | idle
  -- `board_lock`: `start` is its first clock reading, `n` counts the attempts
  | lockClock (j : Job)
  | lockLoad (j : Job) (start n : Nat)
  | lockTake (j : Job) (start n : Nat)
  | lockProbe (j : Job) (start n held : Nat)
  | lockSteal (j : Job) (start n held : Nat)
  | lockYield (j : Job) (start n : Nat)
  | lockTime (j : Job) (start n : Nat)
  -- `normalize_entry` and `publish_free`: `b` tells whether the state is cleared too
  | normState (v : Visit) (i : Nat)
  | normHash (v : Visit) (i st : Nat)
  | normPid (v : Visit) (i : Nat)
  | wipeHash (v : Visit) (i : Nat) (b : Bool)
  | wipePid (v : Visit) (i : Nat) (b : Bool)
  | wipeStart (v : Visit) (i : Nat) (b : Bool)
  | wipeState (v : Visit) (i : Nat)
  -- `sweep_locked`
  | sweepPid (k : SweepFor) (n i : Nat)
  | sweepStart (k : SweepFor) (n i pid : Nat)
  | sweepProbe (k : SweepFor) (n i pid start : Nat)
  | sweepBump (k : SweepFor) (n i : Nat)
  -- `declare`, pass 1
  | scanState (key : List UInt8) (i : Nat)
  | scanHash (key : List UInt8) (i : Nat)
  | scanKey (key : List UInt8) (i : Nat) (v : Nat → Nat) (w : Nat)
  | scanPid (key : List UInt8) (i : Nat)
  | scanStart (key : List UInt8) (i pid : Nat)
  | scanProbe (key : List UInt8) (i pid start : Nat)
  | takeStart (key : List UInt8) (i : Nat)
  | takePid (key : List UInt8) (i : Nat)
  | takeBump (key : List UInt8) (i : Nat)
  | takePublish (key : List UInt8) (i tenancy : Nat)
  -- `declare`, pass 2: `claim_free_slot`, for the second time after a sweep
  | claimState (key : List UInt8) (swept : Bool) (i : Nat)
  | claimMark (key : List UInt8) (i : Nat)
  | claimClear (key : List UInt8) (i : Nat)
  | claimKey (key : List UInt8) (i w : Nat)
  | claimClock (key : List UInt8) (i : Nat)
  | claimStamp (key : List UInt8) (i now : Nat)
  | claimStart (key : List UInt8) (i : Nat)
  | claimPid (key : List UInt8) (i : Nat)
  | claimHash (key : List UInt8) (i : Nat)
  | claimBump (key : List UInt8) (i : Nat)
  | claimActivate (key : List UInt8) (i : Nat)
  | claimTenancy (key : List UInt8) (i : Nat)
  -- `notify_change`, under the lock or not, and `board_unlock`
  | notifySeq (locked : Bool) (o : Outcome)
  | notifyWaiters (locked : Bool) (o : Outcome)
  | notifyWake (locked : Bool) (o : Outcome)
  | unlock (o : Outcome)
  -- `Writer::write`
  | writeState (w : Writer) (d : List UInt8)
  | writeTenancy (w : Writer) (d : List UInt8)
  | writeOpen (w : Writer) (d : List UInt8)
  | writeWord (w : Writer) (d : List UInt8) (k : Nat)
  | writeLen (w : Writer) (d : List UInt8)
  | writeClock (w : Writer) (d : List UInt8)
  | writeStamp (w : Writer) (d : List UInt8) (now : Nat)
  | writeClose (w : Writer) (d : List UInt8) (now : Nat)
  -- `Writer::release`
  | relState (w : Writer)
  | relTenancy (w : Writer)
  | relPid (w : Writer)
  | relStart (w : Writer)
  | relBump (w : Writer)
  -- `Reader::resolve`
  | resState (q : ReadCall)
  | resTenancy (q : ReadCall)
  | seekState (q : ReadCall)
  | seekHash (q : ReadCall)
  | seekTenancy (q : ReadCall)
  | seekKey (q : ReadCall) (w : Nat)
  -- `Reader::read`
  | readTenancy (q : ReadCall)
  | readPublish (q : ReadCall)
  | readLen (q : ReadCall)
  | readWord (q : ReadCall) (k : Nat)
  | readStamp (q : ReadCall)
  | readPublishAfter (q : ReadCall)
  | readTenancyAfter (q : ReadCall)
  -- `read_entry`
  | entState (q : ListCall)
  | entTenancy (q : ListCall)
  | entKey (q : ListCall) (w : Nat)
  | entPublish (q : ListCall)
  | entLen (q : ListCall)
  | entStamp (q : ListCall)
  | entWord (q : ListCall) (k : Nat)
  | entPublishAfter (q : ListCall)
  | entTenancyAfter (q : ListCall)
  | entStateAfter (q : ListCall)
  -- the owner fields of a snapshot, and whether the owners live
  | rowPid (q : ListCall)
  | rowStart (q : ListCall) (pid : Nat)
  | rowProbe (done : List Row) (r : Row) (todo : List Row)

/-- An actor: its process, its handles, the last answer, and where it is. -/
structure Actor where
  pid : Nat
  starttime : Nat
  writer : Option Writer
  reader : Option Reader
  result : Result
  pc : Pc

inductive Call
  | declare (key : List UInt8)
  | write (d : List UInt8)
  | release
  | sweepStale
  | observe (key : List UInt8)
  | read (size : Nat)
  | list (l : Listing)

/-- The row of the entry that has been read; only `read_all` asks for the value. -/
def ListCall.row (q : ListCall) : Row where
  idx := q.i
  key := bbLoadKey q.c.key
  valueLen := q.c.len
  updatedAtNs := q.c.stamp
  updateCount := q.c.writes
  value := match q.listing with
    | .readAll _ => bytesOf q.c.len q.c.words
    | _ => []
  ownerPid := 0
  ownerStarttime := 0
  ownerAlive := false

/-- The outcome of a `read` whose copy has passed the checks. -/
def ReadCall.outcome (q : ReadCall) : ReadOutcome where
  ec := if q.c.len ≤ q.size then none else some .messageSize
  len := q.c.len
  updatedAtNs := q.c.stamp
  updateCount := q.c.writes

/-- The bytes in the buffer of a `read`; a value that does not fit is not copied. -/
def ReadCall.data (q : ReadCall) : List UInt8 :=
  if q.c.len ≤ q.size then bytesOf q.c.len q.c.words else []

/-- The re-checks of a `read`: its entry has not changed hands and its cell has not been reused. -/
def ReadCall.accepted (q : ReadCall) (tenancyAfter : Nat) : Bool :=
  decide (tenancyAfter = q.c.tenancy) && !q.c.clobbered

/-- The re-checks of `read_entry`. -/
def ListCall.accepted (q : ListCall) (stateAfter : Nat) : Bool :=
  decide (stateAfter = active ∧ q.tenancyAfter = q.c.tenancy) &&
    !(decide (0 < q.c.writes) && q.c.clobbered)

/-- The rows with the entry that has been read. `read_all` leaves out a key without a value, and its map
keeps the first of two equal keys. -/
def ListCall.collect (q : ListCall) : List Row :=
  match q.listing with
  | .keys pre => if pre.isPrefixOf q.row.key then q.rows ++ [q.row] else q.rows
  | .readAll pre =>
    if 0 < q.c.writes ∧ pre.isPrefixOf q.row.key = true ∧ ∀ r ∈ q.rows, r.key ≠ q.row.key then
      q.rows ++ [q.row]
    else q.rows
  | .snapshot => q.rows

namespace Actor

def goto (a : Actor) (pc : Pc) : Actor := { a with pc := pc }

def ret (a : Actor) (r : Result) : Actor := { a with pc := .idle, result := r }

def busy : Thrown := .runtimeError "Blackboard is busy: could not take the board lock" []

/-- `board_lock` gives up. -/
def lockFailed (a : Actor) : Job → Actor
  | .declare _ | .snapshot => a.ret (.threw busy)
  | .sweep => a.ret (.swept 0)
  | .release _ => { a with writer := none }.ret (.ec (some .deviceOrResourceBusy))

/-- The next attempt of `board_lock`. -/
def lockRetry (a : Actor) (j : Job) (start n : Nat) : Actor :=
  if j.budget = 0 ∨ n + 1 < j.budget then a.goto (.lockYield j start (n + 1)) else a.lockFailed j

/-- The board is full. -/
def full (a : Actor) : Actor :=
  a.goto (.unlock (.keep (.threw (.runtimeError "Blackboard is at capacity" []))))

/-- `claim_free_slot` after the sweep, from entry `i` on. -/
def reclaimAt (g : Geometry) (a : Actor) (key : List UInt8) (i : Nat) : Actor :=
  if i < g.capacity then a.goto (.claimState key true i) else a.full

/-- The loop head of `sweep_locked`, and what follows the loop. -/
def sweepAt (g : Geometry) (a : Actor) (k : SweepFor) (n i : Nat) : Actor :=
  if i < g.capacity then a.goto (.normState (.sweep k n) i)
  else match k with
    | .ret =>
      if 0 < n then a.goto (.notifySeq true (.keep (.swept n)))
      else a.goto (.unlock (.keep (.swept n)))
    | .claim key => if 0 < n then a.reclaimAt g key 0 else a.full

/-- The loop head of `claim_free_slot`. -/
def claimAt (g : Geometry) (a : Actor) (key : List UInt8) (swept : Bool) (i : Nat) : Actor :=
  if swept then a.reclaimAt g key i
  else if i < g.capacity then a.goto (.claimState key false i)
  else a.sweepAt g (.claim key) 0 0

/-- The loop head of `declare`'s pass 1. -/
def scanAt (g : Geometry) (a : Actor) (key : List UInt8) (i : Nat) : Actor :=
  if i < g.capacity then a.goto (.scanState key i) else a.claimAt g key false 0

/-- The loop head of a listing. -/
def listAt (g : Geometry) (a : Actor) (l : Listing) (rows : List Row) (i : Nat) : Actor :=
  if i < g.capacity then a.goto (.entState ⟨l, rows, 0, i, .empty, 0⟩)
  else match l with
    | .snapshot => a.goto (.unlock (.probe rows))
    | _ => a.ret (.listing l rows)

/-- The lock is held and the board repaired. -/
def enter (g : Geometry) (a : Actor) : Job → Actor
  | .declare key => a.scanAt g key 0
  | .release w => a.goto (.relState w)
  | .sweep => a.sweepAt g .ret 0 0
  | .snapshot => a.listAt g .snapshot [] 0

/-- The loop head of `repair_board`. -/
def repairAt (g : Geometry) (a : Actor) (j : Job) (i : Nat) : Actor :=
  if i < g.capacity then a.goto (.normState (.repair j) i) else a.enter g j

/-- `normalize_entry` or `publish_free` has changed entry `i`. -/
def cleaned (g : Geometry) (a : Actor) (v : Visit) (i : Nat) : Actor :=
  match v with
  | .repair j => a.repairAt g j (i + 1)
  | .sweep k n => a.sweepAt g k (n + 1) (i + 1)

/-- `normalize_entry` has found entry `i` in order. -/
def inOrder (g : Geometry) (a : Actor) (v : Visit) (i : Nat) : Actor :=
  match v with
  | .repair j => a.repairAt g j (i + 1)
  | .sweep k n => a.goto (.sweepPid k n i)

/-- `snapshot` asks whether the owners live, where there is one. -/
def probeFrom (a : Actor) (done : List Row) : List Row → Actor
  | [] => a.ret (.listing .snapshot done)
  | r :: todo =>
    if r.ownerPid = 0 then a.probeFrom (done ++ [r]) todo else a.goto (.rowProbe done r todo)

/-- The end of a locked call. -/
def finish (a : Actor) : Outcome → Actor
  | .keep r => a.ret r
  | .gain w => { a with writer := some w }.ret .declared
  | .drop e => { a with writer := none }.ret (.ec e)
  | .probe rows => a.probeFrom [] rows

/-- After `notify_change`. -/
def notified (a : Actor) (locked : Bool) (o : Outcome) : Actor :=
  if locked then a.goto (.unlock o) else a.finish o

/-- The scan of `resolve`. -/
def seekAt (g : Geometry) (a : Actor) (q : ReadCall) (i : Nat) : Actor :=
  if i < g.capacity then a.goto (.seekState { q with i := i })
  else { a with reader := some { q.reader with entryIdx := none } }.ret
    (.read ⟨some .noSuchFileOrDirectory, 0, 0, 0⟩ [])

/-- `resolve`: the cached entry first. -/
def resolve (g : Geometry) (a : Actor) (q : ReadCall) : Actor :=
  match q.reader.entryIdx with
  | some i => if i < g.capacity then a.goto (.resState { q with i := i }) else a.seekAt g q 0
  | none => a.seekAt g q 0

/-- `read` starts over. -/
def readRetry (g : Geometry) (a : Actor) (q : ReadCall) : Actor :=
  if q.retry + 1 < readRetryBudget then a.resolve g { q with retry := q.retry + 1, c := .empty }
  else a.ret (.read ⟨some .resourceUnavailableTryAgain, 0, 0, 0⟩ [])

/-- `read_entry` starts over, or leaves the entry out. -/
def listRetry (g : Geometry) (a : Actor) (q : ListCall) : Actor :=
  if q.retry + 1 < readRetryBudget then
    a.goto (.entState { q with retry := q.retry + 1, c := .empty, tenancyAfter := 0 })
  else a.listAt g q.listing q.rows (q.i + 1)

/-- `read_entry` has succeeded. -/
def listed (g : Geometry) (a : Actor) (q : ListCall) : Actor :=
  match q.listing with
  | .snapshot => a.goto (.rowPid q)
  | _ => a.listAt g q.listing q.collect (q.i + 1)

/-- The words of the value, then the stamp. -/
def readWords (a : Actor) (q : ReadCall) (k : Nat) : Actor :=
  if q.c.len ≤ q.size ∧ k < wordsFor q.c.len then a.goto (.readWord q k) else a.goto (.readStamp q)

/-- The words of the value, where it is asked for, then the re-checks. -/
def listWords (a : Actor) (q : ListCall) (k : Nat) : Actor :=
  match q.listing with
  | .readAll _ =>
    if k < wordsFor q.c.len then a.goto (.entWord q k) else a.goto (.entPublishAfter q)
  | _ => a.goto (.entPublishAfter q)

/-- The words of the value, then the length. -/
def writeWords (a : Actor) (w : Writer) (d : List UInt8) (k : Nat) : Actor :=
  if k < wordsFor d.length then a.goto (.writeWord w d k) else a.goto (.writeLen w d)

def request (a : Actor) : Option (Access Loc Query) :=
  match a.pc with
  | .idle => none
  | .lockClock _ | .lockTime _ _ _ => some .clock
  | .lockLoad _ _ _ => some (.load .lockToken)
  | .lockTake _ _ _ => some (.cas .lockToken 0 (makeToken a.pid a.starttime))
  | .lockProbe _ _ _ held => some (.probe (.holder held))
  | .lockSteal _ _ _ held => some (.cas .lockToken held (makeToken a.pid a.starttime))
  | .lockYield _ _ _ => some .pause
  | .normState _ i => some (.load (.entry i .state))
  | .normHash _ i _ => some (.load (.entry i .keyHash))
  | .normPid _ i => some (.load (.entry i .ownerPid))
  | .wipeHash _ i _ => some (.store (.entry i .keyHash) 0)
  | .wipePid _ i _ => some (.store (.entry i .ownerPid) 0)
  | .wipeStart _ i _ => some (.store (.entry i .ownerStarttime) 0)
  | .wipeState _ i => some (.store (.entry i .state) free)
  | .sweepPid _ _ i => some (.load (.entry i .ownerPid))
  | .sweepStart _ _ i _ => some (.load (.entry i .ownerStarttime))
  | .sweepProbe _ _ _ pid start => some (.probe (.owner pid start))
  | .sweepBump _ _ i => some (.fetchAdd (.entry i .tenancy) 1 (some (2 ^ 64)))
  | .scanState _ i => some (.load (.entry i .state))
  | .scanHash _ i => some (.load (.entry i .keyHash))
  | .scanKey _ i _ w => some (.load (.entry i (.key w)))
  | .scanPid _ i => some (.load (.entry i .ownerPid))
  | .scanStart _ i _ => some (.load (.entry i .ownerStarttime))
  | .scanProbe _ _ pid start => some (.probe (.owner pid start))
  | .takeStart _ i => some (.store (.entry i .ownerStarttime) a.starttime)
  | .takePid _ i => some (.store (.entry i .ownerPid) a.pid)
  | .takeBump _ i => some (.fetchAdd (.entry i .tenancy) 1 (some (2 ^ 64)))
  | .takePublish _ i _ => some (.load (.entry i .publish))
  | .claimState _ _ i => some (.load (.entry i .state))
  | .claimMark _ i => some (.store (.entry i .state) claiming)
  | .claimClear _ i => some (.store (.entry i .publish) 0)
  | .claimKey key i w => some (.store (.entry i (.key w)) (bbStoreKey key w))
  | .claimClock _ _ => some .clock
  | .claimStamp _ i now => some (.store (.entry i .declaredAtNs) now)
  | .claimStart _ i => some (.store (.entry i .ownerStarttime) a.starttime)
  | .claimPid _ i => some (.store (.entry i .ownerPid) a.pid)
  | .claimHash key i => some (.store (.entry i .keyHash) (keyFingerprint key))
  | .claimBump _ i => some (.fetchAdd (.entry i .tenancy) 1 (some (2 ^ 64)))
  | .claimActivate _ i => some (.store (.entry i .state) active)
  | .claimTenancy _ i => some (.load (.entry i .tenancy))
  | .notifySeq _ _ => some (.fetchAdd .changeSeq 1 none)
  | .notifyWaiters _ _ => some (.load .waiters)
  | .notifyWake _ _ => some .pause
  | .unlock _ => some (.store .lockToken 0)
  | .writeState w _ => some (.load (.entry w.entryIdx .state))
  | .writeTenancy w _ => some (.load (.entry w.entryIdx .tenancy))
  | .writeOpen w _ => some (.store (.entry w.entryIdx .publish) (u64 (2 * (w.writes + 1) - 1)))
  | .writeWord w d k =>
    some (.store (.cell w.entryIdx (cellOf (w.writes + 1)) (.payload k)) (wordAt (byteOf d) k))
  | .writeLen w d => some (.store (.cell w.entryIdx (cellOf (w.writes + 1)) .valueLen) (u32 d.length))
  | .writeClock _ _ => some .clock
  | .writeStamp w _ now => some (.store (.cell w.entryIdx (cellOf (w.writes + 1)) .updatedAtNs) now)
  | .writeClose w _ _ => some (.store (.entry w.entryIdx .publish) (u64 (2 * (w.writes + 1))))
  | .relState w => some (.load (.entry w.entryIdx .state))
  | .relTenancy w => some (.load (.entry w.entryIdx .tenancy))
  | .relPid w => some (.store (.entry w.entryIdx .ownerPid) 0)
  | .relStart w => some (.store (.entry w.entryIdx .ownerStarttime) 0)
  | .relBump w => some (.fetchAdd (.entry w.entryIdx .tenancy) 1 (some (2 ^ 64)))
  | .resState q => some (.load (.entry q.i .state))
  | .resTenancy q => some (.load (.entry q.i .tenancy))
  | .seekState q => some (.load (.entry q.i .state))
  | .seekHash q => some (.load (.entry q.i .keyHash))
  | .seekTenancy q => some (.load (.entry q.i .tenancy))
  | .seekKey q w => some (.load (.entry q.i (.key w)))
  | .readTenancy q => some (.load (.entry q.i .tenancy))
  | .readPublish q => some (.load (.entry q.i .publish))
  | .readLen q => some (.load (.cell q.i (cellOf q.c.writes) .valueLen))
  | .readWord q k => some (.load (.cell q.i (cellOf q.c.writes) (.payload k)))
  | .readStamp q => some (.load (.cell q.i (cellOf q.c.writes) .updatedAtNs))
  | .readPublishAfter q => some (.load (.entry q.i .publish))
  | .readTenancyAfter q => some (.load (.entry q.i .tenancy))
  | .entState q => some (.load (.entry q.i .state))
  | .entTenancy q => some (.load (.entry q.i .tenancy))
  | .entKey q w => some (.load (.entry q.i (.key w)))
  | .entPublish q => some (.load (.entry q.i .publish))
  | .entLen q => some (.load (.cell q.i (cellOf q.c.writes) .valueLen))
  | .entStamp q => some (.load (.cell q.i (cellOf q.c.writes) .updatedAtNs))
  | .entWord q k => some (.load (.cell q.i (cellOf q.c.writes) (.payload k)))
  | .entPublishAfter q => some (.load (.entry q.i .publish))
  | .entTenancyAfter q => some (.load (.entry q.i .tenancy))
  | .entStateAfter q => some (.load (.entry q.i .state))
  | .rowPid q => some (.load (.entry q.i .ownerPid))
  | .rowStart q _ => some (.load (.entry q.i .ownerStarttime))
  | .rowProbe _ r _ => some (.probe (.owner r.ownerPid r.ownerStarttime))

def resume (g : Geometry) (a : Actor) (r : Answer) : Actor :=
  match a.pc with
  | .idle => a
  | .lockClock j => a.goto (.lockLoad j r.val 0)
  | .lockLoad j start n =>
    if r.val = 0 then a.goto (.lockTake j start n) else a.goto (.lockProbe j start n r.val)
  | .lockTake j start n => if r.ok then a.enter g j else a.lockRetry j start n
  | .lockProbe j start n held =>
    if r.ok then a.goto (.lockSteal j start n held) else a.lockRetry j start n
  | .lockSteal j start n _ => if r.ok then a.repairAt g j 0 else a.lockRetry j start n
  | .lockYield j start n =>
    if j.limit = 0 then a.goto (.lockLoad j start n) else a.goto (.lockTime j start n)
  | .lockTime j start n =>
    if j.limit ≤ r.val - start then a.lockFailed j else a.goto (.lockLoad j start n)
  | .normState v i =>
    if r.val = claiming then a.goto (.wipeHash v i true)
    else if r.val = active ∨ r.val = free then a.goto (.normHash v i r.val)
    else a.inOrder g v i
  | .normHash v i st =>
    if st = active then
      if r.val = 0 then a.goto (.wipeHash v i true) else a.inOrder g v i
    else if r.val ≠ 0 then a.goto (.wipeHash v i false) else a.goto (.normPid v i)
  | .normPid v i => if r.val ≠ 0 then a.goto (.wipeHash v i false) else a.inOrder g v i
  | .wipeHash v i b => a.goto (.wipePid v i b)
  | .wipePid v i b => a.goto (.wipeStart v i b)
  | .wipeStart v i b => if b then a.goto (.wipeState v i) else a.cleaned g v i
  | .wipeState v i => a.cleaned g v i
  | .sweepPid k n i =>
    if r.val = 0 then a.sweepAt g k n (i + 1) else a.goto (.sweepStart k n i r.val)
  | .sweepStart k n i pid => a.goto (.sweepProbe k n i pid r.val)
  | .sweepProbe k n i _ _ => if r.ok then a.goto (.sweepBump k n i) else a.sweepAt g k n (i + 1)
  | .sweepBump k n i => a.goto (.wipeHash (.sweep k n) i true)
  | .scanState key i => if r.val = active then a.goto (.scanHash key i) else a.scanAt g key (i + 1)
  | .scanHash key i =>
    if r.val = keyFingerprint key then a.goto (.scanKey key i (fun _ => 0) 0)
    else a.scanAt g key (i + 1)
  | .scanKey key i v w =>
    if w + 1 < keyWords then a.goto (.scanKey key i (Function.update v w r.val) (w + 1))
    else if bbLoadKey (Function.update v w r.val) = key then a.goto (.scanPid key i)
    else a.scanAt g key (i + 1)
  | .scanPid key i => a.goto (.scanStart key i r.val)
  | .scanStart key i pid =>
    if pid = 0 then a.goto (.takeStart key i) else a.goto (.scanProbe key i pid r.val)
  | .scanProbe key i _ _ =>
    if r.ok then a.goto (.takeStart key i)
    else a.goto (.unlock (.keep (.threw
      (.runtimeError "Blackboard key already owned by a live process: " key))))
  | .takeStart key i => a.goto (.takePid key i)
  | .takePid key i => a.goto (.takeBump key i)
  | .takeBump key i => a.goto (.takePublish key i (u64 (r.val + 1)))
  | .takePublish key i tenancy =>
    a.goto (.notifySeq true (.gain ⟨i, tenancy, r.val / 2, a.pid, key⟩))
  | .claimState key swept i =>
    if r.val = free then a.goto (.claimMark key i) else a.claimAt g key swept (i + 1)
  | .claimMark key i => a.goto (.claimClear key i)
  | .claimClear key i => a.goto (.claimKey key i 0)
  | .claimKey key i w =>
    if w + 1 < keyWords then a.goto (.claimKey key i (w + 1)) else a.goto (.claimClock key i)
  | .claimClock key i => a.goto (.claimStamp key i (u64 r.val))
  | .claimStamp key i _ => a.goto (.claimStart key i)
  | .claimStart key i => a.goto (.claimPid key i)
  | .claimPid key i => a.goto (.claimHash key i)
  | .claimHash key i => a.goto (.claimBump key i)
  | .claimBump key i => a.goto (.claimActivate key i)
  | .claimActivate key i => a.goto (.claimTenancy key i)
  | .claimTenancy key i => a.goto (.notifySeq true (.gain ⟨i, r.val, 0, a.pid, key⟩))
  | .notifySeq locked o => a.goto (.notifyWaiters locked o)
  | .notifyWaiters locked o =>
    if r.val = 0 then a.notified locked o else a.goto (.notifyWake locked o)
  | .notifyWake locked o => a.notified locked o
  | .unlock o => a.finish o
  | .writeState w d =>
    if r.val = active then a.goto (.writeTenancy w d) else a.ret (.ec (some .stateNotRecoverable))
  | .writeTenancy w d =>
    if r.val = w.tenancy then a.goto (.writeOpen w d) else a.ret (.ec (some .stateNotRecoverable))
  | .writeOpen w d => a.writeWords w d 0
  | .writeWord w d k => a.writeWords w d (k + 1)
  | .writeLen w d => a.goto (.writeClock w d)
  | .writeClock w d => a.goto (.writeStamp w d (u64 r.val))
  | .writeStamp w d now => a.goto (.writeClose w d now)
  | .writeClose w _ _ =>
    { a with writer := some { w with writes := u64 (w.writes + 1) } }.goto
      (.notifySeq false (.keep (.ec none)))
  | .relState w =>
    if r.val = active then a.goto (.relTenancy w)
    else a.goto (.unlock (.drop (some .stateNotRecoverable)))
  | .relTenancy w =>
    if r.val = w.tenancy then a.goto (.relPid w)
    else a.goto (.unlock (.drop (some .stateNotRecoverable)))
  | .relPid w => a.goto (.relStart w)
  | .relStart w => a.goto (.relBump w)
  | .relBump _ => a.goto (.notifySeq true (.drop none))
  | .resState q => if r.val = active then a.goto (.resTenancy q) else a.seekAt g q 0
  | .resTenancy q =>
    if r.val = q.reader.tenancy then a.goto (.readTenancy q) else a.seekAt g q 0
  | .seekState q => if r.val = active then a.goto (.seekHash q) else a.seekAt g q (q.i + 1)
  | .seekHash q =>
    if r.val = q.reader.keyHash then a.goto (.seekTenancy q) else a.seekAt g q (q.i + 1)
  | .seekTenancy q => a.goto (.seekKey { q with c := { Copy.empty with tenancy := r.val } } 0)
  | .seekKey q w =>
    let q' : ReadCall := { q with c := { q.c with key := Function.update q.c.key w r.val } }
    if w + 1 < keyWords then a.goto (.seekKey q' (w + 1))
    else if bbLoadKey q'.c.key = q.reader.key then
      let found := { q.reader with entryIdx := some q.i, tenancy := q.c.tenancy }
      { a with reader := some found }.goto (.readTenancy { q' with reader := found })
    else a.seekAt g q (q.i + 1)
  | .readTenancy q =>
    if r.val = q.reader.tenancy then
      a.goto (.readPublish { q with c := { Copy.empty with tenancy := r.val } })
    else a.readRetry g q
  | .readPublish q =>
    if r.val / 2 = 0 then a.ret (.read ⟨some .noMessage, 0, 0, 0⟩ [])
    else a.goto (.readLen { q with c := { q.c with publish := r.val } })
  | .readLen q => a.readWords { q with c := { q.c with len := min r.val g.maxValueSize } } 0
  | .readWord q k =>
    a.readWords { q with c := { q.c with words := Function.update q.c.words k r.val } } (k + 1)
  | .readStamp q => a.goto (.readPublishAfter { q with c := { q.c with stamp := r.val } })
  | .readPublishAfter q =>
    a.goto (.readTenancyAfter { q with c := { q.c with publishAfter := r.val } })
  | .readTenancyAfter q =>
    if q.accepted r.val then a.ret (.read q.outcome q.data) else a.readRetry g q
  | .entState q =>
    if r.val = active then a.goto (.entTenancy q) else a.listAt g q.listing q.rows (q.i + 1)
  | .entTenancy q => a.goto (.entKey { q with c := { Copy.empty with tenancy := r.val } } 0)
  | .entKey q w =>
    let q' : ListCall := { q with c := { q.c with key := Function.update q.c.key w r.val } }
    if w + 1 < keyWords then a.goto (.entKey q' (w + 1)) else a.goto (.entPublish q')
  | .entPublish q =>
    let q' : ListCall := { q with c := { q.c with publish := r.val } }
    if r.val / 2 = 0 then a.goto (.entPublishAfter q') else a.goto (.entLen q')
  | .entLen q => a.goto (.entStamp { q with c := { q.c with len := min r.val g.maxValueSize } })
  | .entStamp q => a.listWords { q with c := { q.c with stamp := r.val } } 0
  | .entWord q k =>
    a.listWords { q with c := { q.c with words := Function.update q.c.words k r.val } } (k + 1)
  | .entPublishAfter q =>
    a.goto (.entTenancyAfter { q with c := { q.c with publishAfter := r.val } })
  | .entTenancyAfter q => a.goto (.entStateAfter { q with tenancyAfter := r.val })
  | .entStateAfter q => if q.accepted r.val then a.listed g q else a.listRetry g q
  | .rowPid q => a.goto (.rowStart q r.val)
  | .rowStart q pid =>
    a.listAt g q.listing
      (q.rows ++ [{ q.row with ownerPid := pid, ownerStarttime := r.val }]) (q.i + 1)
  | .rowProbe done row todo => a.probeFrom (done ++ [{ row with ownerAlive := !r.ok }]) todo

/-- The C string behind a pointer. -/
def cstr (s : List UInt8) : List UInt8 := s.takeWhile (· ≠ 0)

/-- The checks of a key, by `declare` and `observe`. -/
def checkKey (key : List UInt8) : Except Thrown (List UInt8) :=
  if cstr key = [] then .error (.invalidArgument "Blackboard key must not be empty")
  else if keyMax ≤ (cstr key).length then .error (.invalidArgument "Blackboard key exceeds KEY_MAX")
  else .ok (cstr key)

/-- A call up to its first access. An actor that has a `Writer` does not declare. -/
def call (g : Geometry) (a : Actor) (c : Call) : Option Actor :=
  match a.pc with
  | .idle =>
    let a := { a with result := .pending }
    match c with
    | .declare key =>
      match a.writer, checkKey key with
      | some _, _ => none
      | none, .error e => some (a.ret (.threw e))
      | none, .ok key => some (a.goto (.lockClock (.declare key)))
    | .write d =>
      match a.writer with
      | none => some (a.ret (.ec (some .badFileDescriptor)))
      | some w =>
        if a.pid ≠ w.ownerPid then some (a.ret (.ec (some .operationNotPermitted)))
        else if g.capacity ≤ w.entryIdx then some (a.ret (.ec (some .badFileDescriptor)))
        else if g.maxValueSize < d.length then some (a.ret (.ec (some .messageSize)))
        else some (a.goto (.writeState w d))
    | .release =>
      match a.writer with
      | none => some (a.ret (.ec none))
      | some w =>
        if a.pid ≠ w.ownerPid then
          some ({ a with writer := none }.ret (.ec (some .operationNotPermitted)))
        else if g.capacity ≤ w.entryIdx then
          some ({ a with writer := none }.ret (.ec (some .badFileDescriptor)))
        else some (a.goto (.lockClock (.release w)))
    | .sweepStale => some (a.goto (.lockClock .sweep))
    | .observe key =>
      match checkKey key with
      | .error e => some (a.ret (.threw e))
      | .ok key => some ({ a with reader := some ⟨key, keyFingerprint key, none, 0⟩ }.ret .observed)
    | .read size =>
      match a.reader with
      | none => some (a.ret (.read ⟨some .noSuchFileOrDirectory, 0, 0, 0⟩ []))
      | some r => some (a.resolve g ⟨r, size, 0, 0, .empty⟩)
    | .list .snapshot => some (a.goto (.lockClock .snapshot))
    | .list l => some (a.listAt g l [] 0)
  | _ => none

/-- Where a call begins. -/
theorem call_cases {g : Geometry} {a b : Actor} {c : Call} (h : a.call g c = some b) : a.pc = .idle ∧
    (b.pc = .idle ∨ (∃ j, b.pc = .lockClock j ∧ ∀ w, j = .release w → w.entryIdx < g.capacity) ∨
      (∃ w d, b.pc = .writeState w d ∧ w.entryIdx < g.capacity ∧ d.length ≤ g.maxValueSize) ∨
      (∃ u r size, c = .read size ∧ b = resolve g u ⟨r, size, 0, 0, .empty⟩) ∨
      ∃ u l, b = listAt g u l [] 0) := by
  unfold call at h
  cases hpc : a.pc <;> rw [hpc] at h <;> simp only [reduceCtorEq] at h
  refine ⟨rfl, ?_⟩
  cases c with
  | declare key =>
    dsimp only at h
    split at h
    · cases h
    · obtain rfl := Option.some.inj h
      exact .inl rfl
    · obtain rfl := Option.some.inj h
      exact .inr (.inl ⟨_, rfl, nofun⟩)
  | write d =>
    dsimp only at h
    split at h
    · obtain rfl := Option.some.inj h
      exact .inl rfl
    · rename_i w hw
      split_ifs at h with hpid hcap hlen <;> obtain rfl := Option.some.inj h
      · exact .inl rfl
      · exact .inl rfl
      · exact .inl rfl
      · exact .inr (.inr (.inl ⟨w, d, rfl, Nat.lt_of_not_le hcap, Nat.le_of_not_lt hlen⟩))
  | release =>
    dsimp only at h
    split at h
    · obtain rfl := Option.some.inj h
      exact .inl rfl
    · rename_i w hw
      split_ifs at h with hpid hcap <;> obtain rfl := Option.some.inj h
      · exact .inl rfl
      · exact .inl rfl
      · refine .inr (.inl ⟨_, rfl, fun w' hw' => ?_⟩)
        obtain rfl := Job.release.inj hw'
        exact Nat.lt_of_not_le hcap
  | sweepStale =>
    obtain rfl := Option.some.inj h
    exact .inr (.inl ⟨_, rfl, nofun⟩)
  | observe key =>
    dsimp only at h
    split at h <;> obtain rfl := Option.some.inj h <;> exact .inl rfl
  | read size =>
    dsimp only at h
    split at h <;> obtain rfl := Option.some.inj h
    · exact .inl rfl
    · exact .inr (.inr (.inr (.inl ⟨_, _, _, rfl, rfl⟩)))
  | list l =>
    cases l with
    | snapshot =>
      obtain rfl := Option.some.inj h
      exact .inr (.inl ⟨_, rfl, nofun⟩)
    | keys pre =>
      obtain rfl := Option.some.inj h
      exact .inr (.inr (.inr (.inr ⟨_, _, rfl⟩)))
    | readAll pre =>
      obtain rfl := Option.some.inj h
      exact .inr (.inr (.inr (.inr ⟨_, _, rfl⟩)))

end Actor

/-- A completed write; `key` is that of its `Writer`. -/
structure Written where
  key : List UInt8
  data : List UInt8
  stamp : Nat
  deriving DecidableEq

/-- A successful read: the entry, which of its lives it was in, and the update count. -/
structure Fetched where
  entry : Nat
  life : Nat
  count : Nat
  deriving DecidableEq

/-- Bookkeeping of a run. `holder` took the lock last. An entry begins a new life when a claim resets its
`publish`; `born` is the tenancy at that time, `lifeKey` the key claimed and `log` the writes completed in
that life. `met` is the life in which a reader loaded `publish`, `reads` are the successes of its handle,
latest first, and `fetched` those of everybody through whatever handle. `shown` are the lives that were
active at some moment since the running call began, and `bare` those that were active without a value. -/
structure Trace (ι : Type) where
  holder : Option ι
  life : Nat → Nat
  born : Nat → Nat
  lifeKey : Nat → Nat → List UInt8
  log : Nat → Nat → List Written
  met : ι → Nat
  reads : ι → List Fetched
  fetched : List Fetched
  shown : ι → Nat → Nat → Bool
  bare : ι → Nat → Nat → Bool

namespace Trace

variable {ι : Type} [DecidableEq ι]

/-- A claim begins a life of entry `i`. -/
def begin (g : Trace ι) (i tenancy : Nat) (key : List UInt8) : Trace ι :=
  { g with
    life := Function.update g.life i (g.life i + 1)
    born := Function.update g.born i tenancy
    lifeKey := Function.update g.lifeKey i (Function.update (g.lifeKey i) (g.life i + 1) key)
    log := Function.update g.log i (Function.update (g.log i) (g.life i + 1) []) }

/-- A write of entry `i` completes. -/
def append (g : Trace ι) (i : Nat) (w : Written) : Trace ι :=
  { g with
    log := Function.update g.log i (Function.update (g.log i) (g.life i) (g.log i (g.life i) ++ [w])) }

/-- The key of entry `i` becomes active, in the sight of every running call. -/
def publish (g : Trace ι) (i : Nat) : Trace ι :=
  { g with
    shown := fun t j n => g.shown t j n || decide (j = i ∧ n = g.life i)
    bare := fun t j n => g.bare t j n || decide (j = i ∧ n = g.life i ∧ g.log i n = []) }

/-- A call of `t` begins. -/
def watch (g : Trace ι) (m : Loc → Nat) (t : ι) : Trace ι :=
  { g with
    shown := Function.update g.shown t fun j n => decide (n = g.life j ∧ m (.entry j .state) = active)
    bare := Function.update g.bare t fun j n =>
      decide (n = g.life j ∧ m (.entry j .state) = active ∧ g.log j n = []) }

def track (g : Trace ι) (m : Loc → Nat) (t : ι) (a : Actor) (r : Answer) : Trace ι :=
  match a.pc with
  | .lockTake _ _ _ | .lockSteal _ _ _ _ => if r.ok then { g with holder := some t } else g
  | .unlock _ => { g with holder := none }
  | .claimClear key i => g.begin i (m (.entry i .tenancy)) key
  | .claimActivate _ i => g.publish i
  | .writeClose w d now => g.append w.entryIdx ⟨w.key, d, now⟩
  | .readPublish q => { g with met := Function.update g.met t (g.life q.i) }
  | .readTenancyAfter q =>
    if q.accepted r.val then
      { g with
        reads := Function.update g.reads t (⟨q.i, g.met t, q.c.writes⟩ :: g.reads t)
        fetched := ⟨q.i, g.met t, q.c.writes⟩ :: g.fetched }
    else g
  | _ => g

def trackCall (g : Trace ι) (m : Loc → Nat) (t : ι) (c : Call) : Trace ι :=
  match c with
  | .observe key =>
    match Actor.checkKey key with
    | .error _ => g.watch m t
    | .ok _ => { g.watch m t with reads := Function.update g.reads t [] }
  | _ => g.watch m t

end Trace

/-- A board. -/
def program (ι : Type) [DecidableEq ι] (g : Geometry) :
    Program ι Loc Query Actor Call (Trace ι) where
  request := Actor.request
  resume := Actor.resume g
  call := Actor.call g
  verdict := verdict
  track t m u a _ r := t.track m u a r
  trackCall t m u _ c := t.trackCall m u c

/-- A zeroed region, and actors that have not called anything. A pid fits in 32 bits. -/
structure Init {ι : Type} (proc : ι → Nat × Nat) (s : Shared ι Loc Actor (Trace ι)) : Prop where
  mem : ∀ l, s.mem l = 0
  world : s.world.Sound
  gone : s.world.gone = []
  pids : ∀ t, (proc t).1 < 2 ^ 32
  th : ∀ t, s.th t = ⟨(proc t).1, (proc t).2, none, none, .pending, .idle⟩
  ghost : s.ghost = ⟨none, fun _ => 0, fun _ => 0, fun _ _ => [], fun _ _ => [], fun _ => 0,
    fun _ => [], [], fun _ _ _ => false, fun _ _ _ => false⟩

end Kickmsg.Blackboard
