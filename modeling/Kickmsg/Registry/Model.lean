import Kickmsg.Lib.Actors
import Kickmsg.Lib.Bytes
import Kickmsg.Memory
import Mathlib.Data.Finset.Basic

/-!
# The participant registry

`Registry.cc` as a program over the words of the registry's rows: `register_participant` with its bounded
retries, `deregister`, `sweep_stale` and `snapshot`. Every field is an atomic word (a name is a sequence
of them) and every access to one is a step. The row's padding is written and never read; it is left out.

A participant deregisters the rows it registered, each at most once, as `Registry.h` asks of its callers.
-/

namespace Kickmsg.Registry

open Lib

/-- The words of a row, by field. -/
inductive Field
  | state
  | channelType
  | role
  | kind
  | generation
  | pid
  | pidStarttime
  | createdAtNs
  | shmName (w : Nat)
  | topicName (w : Nat)
  | nodeName (w : Nat)
  deriving DecidableEq

abbrev Loc := Nat × Field

/-- `registry::SlotState`. -/
def free : Nat := 0
def claiming : Nat := 1
def active : Nat := 2
def reclaiming : Nat := 3

/-- `channel::Type`. -/
inductive ChannelType
  | none
  | pubSub
  | broadcast

def ChannelType.word : ChannelType → Nat
  | .none => 0
  | .pubSub => 1
  | .broadcast => 2

/-- `registry::Kind`. -/
inductive Kind
  | pubsub
  | broadcast
  | mailbox
  | blackboard

def Kind.word : Kind → Nat
  | .pubsub => 1
  | .broadcast => 2
  | .mailbox => 3
  | .blackboard => 4

/-- `registry::Role`. -/
inductive Role
  | publisher
  | subscriber
  | both

def Role.word : Role → Nat
  | .publisher => 1
  | .subscriber => 2
  | .both => 3

def shmNameMax : Nat := 128
def topicNameMax : Nat := 128
def nodeNameMax : Nat := 64

/-- `store_name`: word `w` of a field of `size` bytes; the name is cut to leave a NUL. -/
def storeName (size : Nat) (name : List UInt8) (w : Nat) : Nat := wordAt (byteOf (name.take (size - 1))) w

/-- `load_name`: the bytes of the field up to the first NUL. -/
def loadName (size : Nat) (words : Nat → Nat) : List UInt8 :=
  ((List.range size).map fun j => UInt8.ofNat (byteIn words j)).takeWhile (· ≠ 0)

/-- `struct Participant`. -/
structure Participant where
  pid : Nat
  pidStarttime : Nat
  createdAtNs : Nat
  channelType : Nat
  role : Nat
  kind : Nat
  shmName : List UInt8
  topicName : List UInt8
  nodeName : List UInt8
  deriving DecidableEq

/-- The participant that the words of a row describe. -/
def Participant.of (v : Field → Nat) : Participant where
  pid := v .pid
  pidStarttime := v .pidStarttime
  createdAtNs := v .createdAtNs
  channelType := v .channelType
  role := v .role
  kind := v .kind
  shmName := loadName shmNameMax fun w => v (.shmName w)
  topicName := loadName topicNameMax fun w => v (.topicName w)
  nodeName := loadName nodeNameMax fun w => v (.nodeName w)

/-- The arguments of `register_participant`. -/
structure Args where
  shmName : List UInt8
  topicName : List UInt8
  channelType : ChannelType
  kind : Kind
  role : Role
  nodeName : List UInt8

/-- What one `try_claim` writes in the row it wins. -/
structure Registration where
  args : Args
  pid : Nat
  pidStarttime : Nat
  createdAtNs : Nat

/-- The value `try_claim` stores in a field. -/
def Registration.value (r : Registration) : Field → Nat
  | .pid => r.pid
  | .pidStarttime => r.pidStarttime
  | .createdAtNs => r.createdAtNs
  | .channelType => r.args.channelType.word
  | .role => r.args.role.word
  | .kind => r.args.kind.word
  | .shmName w => storeName shmNameMax r.args.shmName w
  | .topicName w => storeName topicNameMax r.args.topicName w
  | .nodeName w => storeName nodeNameMax r.args.nodeName w
  | .state | .generation => 0

def nameFields : List Field :=
  (List.range 16).map .shmName ++ (List.range 16).map .topicName ++ (List.range 8).map .nodeName

/-- The fields in the order `try_claim` stores them. -/
def storeOrder : List Field :=
  [.pidStarttime, .pid, .channelType, .role, .kind, .createdAtNs] ++ nameFields

/-- The fields in the order `snapshot` loads them. -/
def loadOrder : List Field :=
  [.pid, .pidStarttime, .createdAtNs, .channelType, .role, .kind] ++ nameFields

/-- What follows `sweep_stale()`: its return, or the next attempt of `register_participant`. -/
inductive After
  | ret
  | register (a : Args) (n : Nat)

/-- The rows a snapshot has collected; the index is bookkeeping. -/
abbrev Rows := List (Nat × Participant)

/-- The next access of a thread. `n` counts the attempts of `register_participant`, `freed` the rows a
sweep has freed. -/
inductive Pc
  | idle
  | clock (a : Args) (n : Nat)
  | claim (r : Registration) (n i : Nat)
  | openLoad (r : Registration) (i : Nat)
  | openStore (r : Registration) (i g : Nat)
  | fill (r : Registration) (i : Nat) (f : Field) (todo : List Field)
  | activate (r : Registration) (i : Nat)
  | settleLoad (r : Registration) (i : Nat)
  | settleStore (r : Registration) (i g : Nat)
  | deregCas (i : Nat)
  | deregOpenLoad (i : Nat)
  | deregOpenStore (i g : Nat)
  | deregPid (i : Nat)
  | deregStart (i : Nat)
  | deregSettleLoad (i : Nat)
  | deregSettleStore (i g : Nat)
  | deregFree (i : Nat)
  | sweepState (k : After) (freed i : Nat)
  | sweepGen (k : After) (freed i : Nat)
  | sweepPid (k : After) (freed i g₁ : Nat)
  | sweepStart (k : After) (freed i g₁ pid : Nat)
  | sweepGen2 (k : After) (freed i g₁ pid start : Nat)
  | sweepProbe (k : After) (freed i g₁ pid start : Nat)
  | sweepAcquire (k : After) (freed i g₁ pid start : Nat)
  | sweepReclaim (k : After) (freed i : Nat)
  | sweepClearPid (k : After) (freed i : Nat)
  | sweepClearStart (k : After) (freed i : Nat)
  | sweepSettleLoad (k : After) (freed i : Nat)
  | sweepSettleStore (k : After) (freed i g : Nat)
  | sweepFree (k : After) (freed i : Nat)
  | snapState (out : Rows) (i : Nat)
  | snapGen (out : Rows) (i : Nat)
  | snapField (out : Rows) (i g₁ : Nat) (v : Field → Nat) (f : Field) (todo : List Field)
  | snapGen2 (out : Rows) (i g₁ : Nat) (v : Field → Nat)
  | snapState2 (out : Rows) (i g₁ g₂ : Nat) (v : Field → Nat)

/-- What the last call returned: a slot (`none` for `INVALID_SLOT`), the rows freed, the participants. -/
inductive Result
  | pending
  | slot (i : Option Nat)
  | deregistered
  | freed (n : Nat)
  | rows (out : Rows)

/-- A thread that uses the registry: its process, the rows it registered and has not deregistered, the
last answer, and where it is. -/
structure Actor where
  pid : Nat
  starttime : Nat
  held : Finset Nat
  result : Result
  pc : Pc

inductive Call
  | registerParticipant (a : Args)
  | deregister (i : Nat)
  | sweepStale
  | snapshot

/-- `(g + 1) | 1`: the generation `open_generation` stores. -/
def opened (g : Nat) : Nat := u32 (g + 1) ||| 1

/-- `(g + 2) & ~1`: the generation `settle_generation` stores. -/
def settled (g : Nat) : Nat := u32 (g + 2) &&& (2 ^ 32 - 2)

namespace Actor

def goto (a : Actor) (pc : Pc) : Actor := { a with pc := pc }

def ret (a : Actor) (r : Result) : Actor := { a with pc := .idle, result := r }

/-- The sweep's loop head; after the last row it returns, or `register_participant` tries again. -/
def sweepAt (capacity : Nat) (a : Actor) (k : After) (freed i : Nat) : Actor :=
  if i < capacity then a.goto (.sweepState k freed i)
  else match k with
    | .ret => a.ret (.freed freed)
    | .register args n => if freed = 0 then a.ret (.slot none) else a.goto (.clock args (n + 1))

/-- `try_claim`'s loop head; when no row was free, at most three more attempts follow a sweep. -/
def claimAt (capacity : Nat) (a : Actor) (r : Registration) (n i : Nat) : Actor :=
  if i < capacity then a.goto (.claim r n i)
  else if n < 3 then a.sweepAt capacity (.register r.args n) 0 0
  else a.ret (.slot none)

/-- The snapshot's loop head. -/
def snapAt (capacity : Nat) (a : Actor) (out : Rows) (i : Nat) : Actor :=
  if i < capacity then a.goto (.snapState out i) else a.ret (.rows out)

def fillFrom (a : Actor) (r : Registration) (i : Nat) : List Field → Actor
  | [] => a.goto (.activate r i)
  | f :: todo => a.goto (.fill r i f todo)

def loadFrom (a : Actor) (out : Rows) (i g₁ : Nat) (v : Field → Nat) : List Field → Actor
  | [] => a.goto (.snapGen2 out i g₁ v)
  | f :: todo => a.goto (.snapField out i g₁ v f todo)

def request (a : Actor) : Option (Access Loc (Nat × Nat)) :=
  match a.pc with
  | .idle => none
  | .clock _ _ => some .clock
  | .claim _ _ i => some (.cas (i, .state) free claiming)
  | .openLoad _ i => some (.load (i, .generation))
  | .openStore _ i g => some (.store (i, .generation) (opened g))
  | .fill r i f _ => some (.store (i, f) (r.value f))
  | .activate _ i => some (.store (i, .state) active)
  | .settleLoad _ i => some (.load (i, .generation))
  | .settleStore _ i g => some (.store (i, .generation) (settled g))
  | .deregCas i => some (.cas (i, .state) active reclaiming)
  | .deregOpenLoad i => some (.load (i, .generation))
  | .deregOpenStore i g => some (.store (i, .generation) (opened g))
  | .deregPid i => some (.store (i, .pid) 0)
  | .deregStart i => some (.store (i, .pidStarttime) 0)
  | .deregSettleLoad i => some (.load (i, .generation))
  | .deregSettleStore i g => some (.store (i, .generation) (settled g))
  | .deregFree i => some (.cas (i, .state) reclaiming free)
  | .sweepState _ _ i => some (.load (i, .state))
  | .sweepGen _ _ i => some (.load (i, .generation))
  | .sweepPid _ _ i _ => some (.load (i, .pid))
  | .sweepStart _ _ i _ _ => some (.load (i, .pidStarttime))
  | .sweepGen2 _ _ i _ _ _ => some (.load (i, .generation))
  | .sweepProbe _ _ _ _ pid start => some (.probe (pid, start))
  | .sweepAcquire _ _ i g₁ _ _ => some (.cas (i, .generation) g₁ (u32 (g₁ + 1)))
  | .sweepReclaim _ _ i => some (.store (i, .state) reclaiming)
  | .sweepClearPid _ _ i => some (.store (i, .pid) 0)
  | .sweepClearStart _ _ i => some (.store (i, .pidStarttime) 0)
  | .sweepSettleLoad _ _ i => some (.load (i, .generation))
  | .sweepSettleStore _ _ i g => some (.store (i, .generation) (settled g))
  | .sweepFree _ _ i => some (.cas (i, .state) reclaiming free)
  | .snapState _ i => some (.load (i, .state))
  | .snapGen _ i => some (.load (i, .generation))
  | .snapField _ i _ _ f _ => some (.load (i, f))
  | .snapGen2 _ i _ _ => some (.load (i, .generation))
  | .snapState2 _ i _ _ _ => some (.load (i, .state))

def resume (capacity : Nat) (a : Actor) (r : Answer) : Actor :=
  match a.pc with
  | .idle => a
  | .clock args n => a.claimAt capacity ⟨args, a.pid, a.starttime, u64 r.val⟩ n 0
  | .claim reg n i => if r.ok then a.goto (.openLoad reg i) else a.claimAt capacity reg n (i + 1)
  | .openLoad reg i => a.goto (.openStore reg i r.val)
  | .openStore reg i _ => a.fillFrom reg i storeOrder
  | .fill reg i _ todo => a.fillFrom reg i todo
  | .activate reg i => a.goto (.settleLoad reg i)
  | .settleLoad reg i => a.goto (.settleStore reg i r.val)
  | .settleStore _ i _ => { a with held := insert i a.held }.ret (.slot (some i))
  | .deregCas i => if r.ok then a.goto (.deregOpenLoad i) else a.ret .deregistered
  | .deregOpenLoad i => a.goto (.deregOpenStore i r.val)
  | .deregOpenStore i _ => a.goto (.deregPid i)
  | .deregPid i => a.goto (.deregStart i)
  | .deregStart i => a.goto (.deregSettleLoad i)
  | .deregSettleLoad i => a.goto (.deregSettleStore i r.val)
  | .deregSettleStore i _ => a.goto (.deregFree i)
  | .deregFree _ => a.ret .deregistered
  | .sweepState k freed i =>
    if r.val ≠ active ∧ r.val ≠ claiming then a.sweepAt capacity k freed (i + 1)
    else a.goto (.sweepGen k freed i)
  | .sweepGen k freed i =>
    if r.val % 2 = 1 then a.sweepAt capacity k freed (i + 1)
    else a.goto (.sweepPid k freed i r.val)
  | .sweepPid k freed i g₁ => a.goto (.sweepStart k freed i g₁ r.val)
  | .sweepStart k freed i g₁ pid => a.goto (.sweepGen2 k freed i g₁ pid r.val)
  | .sweepGen2 k freed i g₁ pid start =>
    if r.val ≠ g₁ then a.sweepAt capacity k freed (i + 1)
    else if pid = 0 then a.sweepAt capacity k freed (i + 1)
    else a.goto (.sweepProbe k freed i g₁ pid start)
  | .sweepProbe k freed i g₁ pid start =>
    if r.ok then a.goto (.sweepAcquire k freed i g₁ pid start)
    else a.sweepAt capacity k freed (i + 1)
  | .sweepAcquire k freed i _ _ _ =>
    if r.ok then a.goto (.sweepReclaim k freed i) else a.sweepAt capacity k freed (i + 1)
  | .sweepReclaim k freed i => a.goto (.sweepClearPid k freed i)
  | .sweepClearPid k freed i => a.goto (.sweepClearStart k freed i)
  | .sweepClearStart k freed i => a.goto (.sweepSettleLoad k freed i)
  | .sweepSettleLoad k freed i => a.goto (.sweepSettleStore k freed i r.val)
  | .sweepSettleStore k freed i _ => a.goto (.sweepFree k freed i)
  | .sweepFree k freed i => a.sweepAt capacity k (freed + 1) (i + 1)
  | .snapState out i =>
    if r.val ≠ active then a.snapAt capacity out (i + 1) else a.goto (.snapGen out i)
  | .snapGen out i =>
    if r.val % 2 = 1 then a.snapAt capacity out (i + 1)
    else a.loadFrom out i r.val (fun _ => 0) loadOrder
  | .snapField out i g₁ v f todo => a.loadFrom out i g₁ (Function.update v f r.val) todo
  | .snapGen2 out i g₁ v => a.goto (.snapState2 out i g₁ r.val v)
  | .snapState2 out i g₁ g₂ v =>
    if r.val ≠ active ∨ g₁ ≠ g₂ then a.snapAt capacity out (i + 1)
    else a.snapAt capacity (out ++ [(i, Participant.of v)]) (i + 1)

/-- A call up to its first access. A row is deregistered by the thread that registered it, once. -/
def call (capacity : Nat) (a : Actor) (c : Call) : Option Actor :=
  match a.pc with
  | .idle =>
    match c with
    | .registerParticipant args => some { a with result := .pending, pc := .clock args 0 }
    | .deregister i =>
      if i ∈ a.held ∧ i < capacity then
        some { a with held := a.held.erase i, result := .pending, pc := .deregCas i }
      else none
    | .sweepStale => some ({ a with result := .pending }.sweepAt capacity .ret 0 0)
    | .snapshot => some ({ a with result := .pending }.snapAt capacity [] 0)
  | _ => none

end Actor

/-- What a row was like when its visitor first loaded the generation: how often that had changed, and
the pid. -/
structure Sighting where
  ticks : Nat
  pid : Nat

/-- Bookkeeping of a run: how often a row's generation changed, what the row a thread is visiting was
like when it arrived, whose the row is, and the registrations made in it. -/
structure Trace (ι : Type) where
  ticks : Nat → Nat
  seen : ι → Sighting
  tenant : Nat → Option ι
  written : Nat → List Registration

namespace Trace

variable {ι : Type} [DecidableEq ι]

def tick (g : Trace ι) (i : Nat) : Trace ι :=
  { g with ticks := Function.update g.ticks i (g.ticks i + 1) }

def rent (g : Trace ι) (i : Nat) (t : Option ι) : Trace ι :=
  { g with tenant := Function.update g.tenant i t }

def look (g : Trace ι) (m : Loc → Nat) (t : ι) (i : Nat) : Trace ι :=
  { g with seen := Function.update g.seen t ⟨g.ticks i, m (i, .pid)⟩ }

def track (g : Trace ι) (m : Loc → Nat) (t : ι) (a : Actor) (r : Answer) : Trace ι :=
  match a.pc with
  | .claim _ _ i => if r.ok then g.rent i (some t) else g
  | .openStore _ i _ | .settleStore _ i _ | .deregOpenStore i _ | .deregSettleStore i _
  | .sweepSettleStore _ _ i _ => g.tick i
  | .activate reg i => { g with written := Function.update g.written i (reg :: g.written i) }
  | .deregFree i | .sweepFree _ _ i => if r.ok then g.rent i none else g
  | .sweepGen _ _ i | .snapGen _ i => g.look m t i
  | .sweepAcquire _ _ i _ _ _ => if r.ok then (g.tick i).rent i (some t) else g
  | _ => g

end Trace

/-- A registry of `capacity` rows. The operating system's answers are exact. -/
def program (ι : Type) [DecidableEq ι] (capacity : Nat) :
    Program ι Loc (Nat × Nat) Actor Call (Trace ι) where
  request := Actor.request
  resume := Actor.resume capacity
  call := Actor.call capacity
  verdict procs q := ownerIsDead procs q.1 q.2
  track g m t a _ r := g.track m t a r
  trackCall g _ _ _ _ := g

/-- `init_as_creator`, and threads that have not called anything. -/
structure Init {ι : Type} (proc : ι → Nat × Nat) (s : Shared ι Loc Actor (Trace ι)) : Prop where
  mem : ∀ l, s.mem l = 0
  world : s.world.Sound
  gone : s.world.gone = []
  th : ∀ t, s.th t = ⟨(proc t).1, (proc t).2, ∅, .pending, .idle⟩
  ghost : s.ghost = ⟨fun _ => 0, fun _ => ⟨0, 0⟩, fun _ => none, fun _ => []⟩

end Kickmsg.Registry
