import Kickmsg.Conservation
import Kickmsg.Inspect
import Kickmsg.Parts

/-!
# The bounds of a region

Every word of an opened region is in the hands of its peers. Here each load of a call may answer anything, and a
compare-exchange may succeed or fail as it likes; still the call stays inside the mapping and inside the part of the
region that each access is meant for, on the alignment of its word, and its walks over rings, entries and the free
stack are as long as the accepted counts.
-/

namespace Kickmsg

open Lib

/-! ## What an access touches -/

/-- Some bytes of a part, and the alignment that their type asks for. -/
structure Span where
  part : Part
  offset : Nat
  len : Nat
  align : Nat
  deriving DecidableEq, Repr

/-- The bytes are in their part, which exists, and are laid out for their type. -/
structure Span.Inside (g : Geometry64) (s : Span) : Prop where
  part : s.part.Exists g
  start : s.offset < s.part.size g
  stop : s.offset + s.len ≤ s.part.size g
  align : s.align ∣ 8
  aligned : s.align ∣ s.offset

/-- The address that an access computes in a mapping at `base`. -/
def Span.address (g : Geometry64) (base : UInt64) (s : Span) : UInt64 :=
  base + s.part.offset g + UInt64.ofNat s.offset

/-- A mapping: its base is on a cache line, and it is inside the address space. -/
structure Mapping where
  base : UInt64
  size : UInt64
  aligned : base.toNat % cacheLine = 0
  fits : base.toNat + size.toNat ≤ 2 ^ 64

/-- The bytes of an access in a mapping: inside it, where the unbounded arithmetic says, on their alignment. -/
structure Mapping.Sound (m : Mapping) (g : Geometry64) (s : Span) : Prop where
  inside : s.Inside g
  exact : (s.address g m.base).toNat = m.base.toNat + s.part.start g + s.offset
  within : s.part.start g + s.offset + s.len ≤ m.size.toNat
  aligned : (s.address g m.base).toNat % s.align = 0

theorem Geometry64.Opened.sound {g : Geometry64} {total : UInt64} (h : g.Opened total) {m : Mapping}
    (hm : total.toNat ≤ m.size.toNat) {s : Span} (hs : s.Inside g) : m.Sound g s := by
  have hend := h.start_le hs.part
  have hfits := m.fits
  have hstart := hs.start
  have hstop := hs.stop
  have hoff : (UInt64.ofNat s.offset).toNat = s.offset := UInt64.toNat_ofNat_of_lt' (by
    show s.offset < 2 ^ 64
    omega)
  have hpart := h.offset_toNat hs.part
  have hsum : (m.base + s.part.offset g).toNat = m.base.toNat + s.part.start g := by
    rw [toNat_add_of_lt (by omega), hpart]
  have hexact : (s.address g m.base).toNat = m.base.toNat + s.part.start g + s.offset := by
    rw [Span.address, toNat_add_of_lt (by omega), hsum, hoff]
  refine ⟨hs, hexact, by omega, ?_⟩
  have hbase : m.base.toNat % 8 = 0 := by
    have := m.aligned
    unfold cacheLine at this
    omega
  rw [hexact]
  have hmod := h.start_mod hs.part
  refine Nat.mod_eq_zero_of_dvd (Nat.dvd_add (hs.align.trans (Nat.dvd_of_mod_eq_zero ?_)) hs.aligned)
  omega

/-- Where a shared word lies; `futexWakes` is the kernel's. -/
def Loc.span : Loc → Option Span
  | freeTop => some ⟨.header, 768, 8, 8⟩
  | stealCount => some ⟨.header, 776, 8, 8⟩
  | stateFlight r => some ⟨.ringHeader r, 0, 4, 4⟩
  | ownerPid r => some ⟨.ringHeader r, 8, 8, 8⟩
  | ownerStarttime r => some ⟨.ringHeader r, 16, 8, 8⟩
  | writePos r => some ⟨.ringHeader r, 64, 8, 8⟩
  | hasWaiter r => some ⟨.ringHeader r, 72, 4, 4⟩
  | droppedCount r => some ⟨.ringHeader r, 80, 8, 8⟩
  | lostCount r => some ⟨.ringHeader r, 88, 8, 8⟩
  | sequence r i => some ⟨.entry r i, 0, 8, 8⟩
  | metaWord r i => some ⟨.entry r i, 8, 8, 8⟩
  | refcount s => some ⟨.slotHeader s, 0, 4, 4⟩
  | nextFree s => some ⟨.slotHeader s, 4, 4, 4⟩
  | payloadLen s => some ⟨.slotHeader s, 8, 4, 4⟩
  | futexWakes _ => none

/-- The bytes an access touches; the kernel compares the low half of `write_pos`. -/
def Op.span : Op → Option Span
  | load l | store l _ | cas _ l _ _ | fetchAdd l _ | fetchSub l _ => l.span
  | futexWait r _ | futexWake r => some ⟨.ringHeader r, 64, 4, 4⟩
  | copyOut s len => some ⟨.payload s, 0, len, 1⟩
  | probeOwner _ _ | clock | signal => none

/-- The fields of the `Header` that an inspection reads. -/
def Glance.span : Glance → Option Span
  | access op => op.span
  | version => some ⟨.header, 8, 4, 4⟩
  | channelType => some ⟨.header, 12, 4, 4⟩
  | totalSize => some ⟨.header, 16, 8, 8⟩
  | configHash => some ⟨.header, 120, 8, 8⟩
  | creatorPid => some ⟨.header, 128, 8, 8⟩
  | createdAtNs => some ⟨.header, 136, 8, 8⟩
  | creatorNameLen => some ⟨.header, 144, 2, 2⟩
  | schemaState => some ⟨.header, 192, 4, 4⟩
  | creatorName k => some ⟨.nameTail, k, 1, 1⟩

/-- The schema's words: its state, the bytes of `schema_data` and those of the blob. -/
def Schema.Loc.span : Schema.Loc → Span
  | state => ⟨.header, 192, 4, 4⟩
  | info k => ⟨.header, 256 + k, 1, 1⟩
  | blob k => ⟨.schemaBlob, k, 1, 1⟩

/-- The word of an access to the schema. -/
def Schema.accessed : Access Schema.Loc Empty → Option Schema.Loc
  | .load l | .store l _ | .cas l _ _ | .fetchAdd l _ _ => some l
  | _ => none

/-! ## Callers -/

/-- Whoever works on an opened region. -/
inductive Caller
  | actor (l : Local)
  | schema (c : Schema.Client)
  | diagnose (u : Diagnose)
  | stats (u : Stats)
  | info (u : Info)

/-- What a caller may begin; `destroy` is the release of a view by the thread that it was handed to. -/
inductive Ask
  | call (c : Call)
  | destroy (k : Nat)
  | schema (k : Schema.Call)
  | diagnose
  | stats
  | info

namespace Caller

def begin (g : Geometry) : Caller → Ask → Option Caller
  | .actor l, .call c => (l.call g c).map .actor
  | .actor (.sub u), .destroy k => u.views[k]?.map fun v => .actor (.view (.sub v))
  | .schema c, .schema k => (c.call g.schemaBlobCapacity k).map .schema
  | .diagnose u, .diagnose => if u.pc = .idle then some (.diagnose .start) else none
  | .stats u, .stats => if u.pc = .idle then some (.stats (.start g)) else none
  | .info u, .info => if u.pc = .idle then some (.info .start) else none
  | _, _ => none

/-- The caller goes on with an answer, if it waits for one. -/
def resume (g : Geometry) (r : Resp) : Caller → Option Caller
  | .actor l => (l.request g).map fun _ => .actor (l.resume g r)
  | .schema c => c.request.map fun _ => .schema (c.resume g.schemaBlobCapacity ⟨r.val, r.ok⟩)
  | .diagnose u => (u.request g).map fun _ => .diagnose (u.resume g r)
  | .stats u => u.request.map fun _ => .stats (u.resume g r)
  | .info u => u.request.map fun _ => .info (u.resume g r)

/-- The bytes of the next access. -/
def touched (g : Geometry) : Caller → Option Span
  | .actor l => (l.request g).bind Op.span
  | .schema c => (c.request.bind Schema.accessed).map Schema.Loc.span
  | .diagnose u => (u.request g).bind Glance.span
  | .stats u => u.request.bind Op.span
  | .info u => u.request.bind Glance.span

/-- The payload bytes in the application's hands: those of a reservation and those of its views. -/
def lent (g : Geometry) : Caller → List Span
  | .actor (.pub u) => u.pending.toList.map fun s => ⟨.payload s, 0, g.slotDataSize, 1⟩
  | .actor (.sub u) => u.views.map fun v => ⟨.payload v.slotIdx, 0, v.len, 1⟩
  | _ => []

/-- A caller that has not called anything. -/
def Fresh : Caller → Prop
  | .actor l => ∃ pid starttime, l.Fresh pid starttime
  | .schema c => c = ⟨.idle, .pending⟩
  | .diagnose u => u.pc = .idle
  | .stats u => u.pc = .idle
  | .info u => u.pc = .idle

end Caller

/-! ## Walks -/

/-- The turns of a walk: a ring, an entry of the ring, a link of the free stack, or a locked entry that the grace
pass comes back to. -/
inductive Turn
  | ring
  | entry
  | link
  | again
  deriving DecidableEq, Repr

/-- The turns that a call has taken; the entries are those of the ring it is at. -/
structure Turns where
  rings : Nat
  entries : Nat
  links : Nat
  again : Nat
  deriving DecidableEq, Repr

namespace Turns

def zero : Turns := ⟨0, 0, 0, 0⟩

def add (t : Turns) : Turn → Turns
  | .ring => { t with rings := t.rings + 1, entries := 0 }
  | .entry => { t with entries := t.entries + 1 }
  | .link => { t with links := t.links + 1 }
  | .again => { t with again := t.again + 1 }

/-- The walks are no longer than the accepted counts. -/
structure Bounded (g : Geometry) (t : Turns) : Prop where
  rings : t.rings ≤ g.maxSubs
  entries : t.entries ≤ g.subRingCapacity
  links : t.links ≤ g.poolSize
  again : t.again ≤ g.maxSubs * g.subRingCapacity

end Turns

namespace Caller

/-- The turn that begins with the next access. -/
def turns : Caller → List Turn
  | .actor (.pub u) =>
    match u.pc with
    | .snapshot _ => [.ring]
    | _ => []
  | .actor (.sub u) =>
    match u.pc with
    | .joinPos _ => [.ring]
    | .drainMeta _ _ => [.entry]
    | _ => []
  | .actor (.repair u) =>
    match u.pc with
    | .ringPos _ _ => [.ring]
    | .entry _ _ _ _ => [.entry]
    | .graceLoad _ _ => [.again]
    | _ => []
  | .actor (.reclaim u) =>
    match u.pc with
    | .scan _ => [.ring]
    | _ => []
  | .actor (.orphan u) =>
    match u.pc with
    | .count _ 0 _ => [.ring, .entry]
    | .count _ (_ + 1) _ => [.entry]
    | .walk _ _ _ _ => [.link]
    | _ => []
  | .diagnose u =>
    match u.pc with
    | .ringPos _ => [.ring]
    | .entry _ _ _ => [.entry]
    | _ => []
  | .stats u =>
    match u.pc with
    | .flight _ => [.ring]
    | .walk _ _ => [.link]
    | _ => []
  | _ => []

/-- The turns so far, with the one that begins. -/
def after (c : Caller) (t : Turns) : Turns := c.turns.foldl Turns.add t

end Caller

/-- A caller and the turns of its call, where every load may answer anything. -/
def hostile (g : Geometry) : LTS (Caller × Turns) (Ask ⊕ Resp) where
  init x := x.1.Fresh ∧ x.2 = .zero
  step x l y := match l with
    | .inl a => x.1.begin g a = some y.1 ∧ y.2 = y.1.after .zero
    | .inr r => x.1.resume g r = some y.1 ∧ y.2 = y.1.after x.2

/-! ## The walks of a publisher -/

/-- The rings that `publish` may have taken a turn for. -/
def PubPc.behind : PubPc → Option Nat
  | .storeLen _ _ | .presetRefcount _ => some 0
  | pc => pc.delivery.map (·.i + 1)

namespace Pub

variable {g : Geometry} {t : Turns} {u : Pub} {d : Delivery}

/-- The turns of a publisher so far. -/
structure Walks (g : Geometry) (t : Turns) (u : Pub) : Prop where
  bounded : t.Bounded g
  behind : ∀ n, u.pc.behind = some n → t.rings ≤ n

/-- The turns with the one that begins. -/
abbrev after (u : Pub) (t : Turns) : Turns := (Caller.actor (.pub u)).after t

theorem walks_finish (hb : t.Bounded g) : Walks g ((u.finish d).after t) (u.finish d) := by
  unfold finish
  split_ifs
  · exact ⟨hb, nofun⟩
  · exact ⟨hb, nofun⟩

theorem walks_ring (hb : t.Bounded g) (h : t.rings ≤ d.i) : Walks g ((u.ring g d).after t) (u.ring g d) := by
  unfold ring
  split_ifs with hi
  · refine ⟨⟨Nat.succ_le_of_lt (Nat.lt_of_le_of_lt h hi), Nat.zero_le _, hb.links, hb.again⟩, ?_⟩
    rintro n ⟨⟩
    exact Nat.succ_le_succ h
  · exact ⟨hb, nofun⟩
  · exact walks_finish hb

theorem walks_nextRing (hb : t.Bounded g) (h : t.rings ≤ d.i + 1) (exc : Bool) :
    Walks g ((u.nextRing g d exc).after t) (u.nextRing g d exc) := walks_ring hb h

/-- An access of the same ring that is no turn. -/
theorem walks_stay {pc : PubPc} (hb : t.Bounded g) (h : t.rings ≤ d.i + 1)
    (ht : (Caller.actor (.pub { u with pc := pc })).turns = []) (hd : pc.behind = some (d.i + 1)) :
    Walks g (after { u with pc := pc } t) { u with pc := pc } := by
  refine ⟨?_, fun n hn => ?_⟩
  · rw [after, Caller.after, ht]
    exact hb
  · rw [after, Caller.after, ht]
    exact Option.some.inj (hd.symm.trans hn) ▸ h

theorem walks_tryAdmit (hb : t.Bounded g) (h : t.rings ≤ d.i + 1) (old : Nat) :
    Walks g ((u.tryAdmit g d old).after t) (u.tryAdmit g d old) := by
  unfold tryAdmit
  split_ifs
  · exact walks_nextRing hb h true
  · exact walks_stay hb h rfl rfl

theorem walks_tryLock (hb : t.Bounded g) (h : t.rings ≤ d.i + 1) (pos : Nat) (wait : CommitWait)
    (attempt observed : Nat) :
    Walks g ((u.tryLock g d pos wait attempt observed).after t) (u.tryLock g d pos wait attempt observed) := by
  unfold tryLock
  split_ifs <;> exact walks_stay hb h rfl rfl

theorem walks_repairWith (hb : t.Bounded g) (h : t.rings ≤ d.i + 1) (pos : Nat) (wait : CommitWait) (seq : Nat) :
    Walks g ((u.repairWith g d pos wait seq).after t) (u.repairWith g d pos wait seq) := by
  unfold repairWith
  split_ifs <;> exact walks_stay hb h rfl rfl

theorem walks_tryTake (hb : t.Bounded g) (h : t.rings ≤ d.i + 1) (pos oldMeta : Nat) :
    Walks g ((u.tryTake d pos oldMeta).after t) (u.tryTake d pos oldMeta) := by
  unfold tryTake
  split_ifs <;> exact walks_stay hb h rfl rfl

theorem walks_releasePrev (hb : t.Bounded g) (h : t.rings ≤ d.i + 1) (pos oldMeta : Nat) :
    Walks g ((u.releasePrev g d pos oldMeta).after t) (u.releasePrev g d pos oldMeta) := by
  unfold releasePrev
  split_ifs <;> exact walks_stay hb h rfl rfl

/-- Whatever an access answers, the publisher takes no more turns than there are rings. -/
theorem Walks.resume (h : Walks g t u) (r : Resp) : Walks g ((u.resume g r).after t) (u.resume g r) := by
  obtain ⟨hb, hn⟩ := h
  cases hpc : u.pc <;> rw [hpc] at hn <;> simp only [Pub.resume, hpc]
  case idle => exact ⟨by rw [after, Caller.after, Caller.turns, hpc]; exact hb, by rw [hpc]; exact fun n e => by cases e⟩
  case releasePending s k p =>
    split
    · exact ⟨hb, fun n e => by cases e⟩
    · exact ⟨hb, fun n e => by cases e⟩
    · exact ⟨hb, fun n e => by cases e⟩
  case allocate p => split <;> exact ⟨hb, fun n e => by cases e⟩
  case storeLen s len => exact ⟨hb, fun n hn' => Option.some.inj hn' ▸ hn 0 rfl⟩
  case presetRefcount s => exact walks_ring hb (hn 0 rfl)
  case snapshot d => exact walks_tryAdmit hb (hn _ rfl) _
  case admitCas d old =>
    split_ifs
    · exact walks_stay hb (hn _ rfl) rfl rfl
    · exact walks_tryAdmit hb (hn _ rfl) _
  case claim d =>
    split_ifs
    · exact walks_stay hb (hn _ rfl) rfl rfl
    · exact walks_tryLock hb (hn _ rfl) _ _ _ _
  case peek d pos => split_ifs <;> exact walks_stay hb (hn _ rfl) rfl rfl
  case signalEarly d pos => exact walks_stay (d := { d with carrier := false }) hb (hn _ rfl) rfl rfl
  case waitFirst d pos =>
    split_ifs
    · exact walks_tryLock hb (hn _ rfl) _ _ _ _
    · exact walks_stay hb (hn _ rfl) rfl rfl
  case waitLoad d pos first n =>
    split_ifs
    · exact walks_tryLock hb (hn _ rfl) _ _ _ _
    · exact walks_stay hb (hn _ rfl) rfl rfl
    · exact walks_stay hb (hn _ rfl) rfl rfl
  case waitClock d pos first seq n =>
    split_ifs
    · exact walks_tryLock hb (hn _ rfl) _ _ _ _
    · exact walks_stay hb (hn _ rfl) rfl rfl
  case lock d pos wait attempt observed =>
    split_ifs
    · exact walks_stay hb (hn _ rfl) rfl rfl
    · exact walks_tryLock hb (hn _ rfl) _ _ _ _
  case relook d pos wait attempt => exact walks_tryLock hb (hn _ rfl) _ _ _ _
  case selfRepair d pos wait => exact walks_repairWith hb (hn _ rfl) _ _ _
  case stealCas d pos observed => split_ifs <;> exact walks_stay hb (hn _ rfl) rfl rfl
  case stealSkip d pos => exact walks_stay hb (hn _ rfl) rfl rfl
  case stealCount d => exact walks_stay hb (hn _ rfl) rfl rfl
  case abandonDrop d exc => exact ⟨hb, fun n hn' => Option.some.inj hn' ▸ hn _ rfl⟩
  case abandonLeave d exc => exact walks_stay hb (hn _ rfl) rfl rfl
  case abandonWake d exc =>
    split_ifs
    · exact walks_stay hb (hn _ rfl) rfl rfl
    · exact walks_nextRing hb (by exact hn _ rfl) _
  case abandonFutex d exc => exact walks_nextRing hb (hn _ rfl) _
  case check d pos => split_ifs <;> exact walks_stay hb (hn _ rfl) rfl rfl
  case metaLoad d pos => exact walks_tryTake hb (hn _ rfl) _ _
  case metaCas d pos oldMeta =>
    split_ifs
    · exact walks_releasePrev hb (hn _ rfl) _ _
    · exact walks_tryTake hb (hn _ rfl) _ _
  case releaseSlot d pos idx => split_ifs <;> exact walks_stay hb (hn _ rfl) rfl rfl
  case releasePush d pos idx p => split <;> exact walks_stay hb (hn _ rfl) rfl rfl
  case commit d pos => split_ifs <;> exact walks_stay hb (hn _ rfl) rfl rfl
  case leave d => exact walks_stay hb (hn _ rfl) rfl rfl
  case wake d =>
    split_ifs
    · exact walks_stay hb (hn _ rfl) rfl rfl
    · exact walks_nextRing hb (by exact hn _ rfl) _
  case wakeFutex d => exact walks_nextRing hb (by exact hn _ rfl) _
  case returnExcess d =>
    split_ifs
    · exact ⟨hb, fun n e => by cases e⟩
    · exact walks_finish hb
  case excessPush d p =>
    split
    · exact ⟨hb, fun n e => by cases e⟩
    · exact walks_finish hb
  case signal n => exact ⟨hb, fun n e => by cases e⟩

end Pub

/-! ## The walks of a subscriber -/

/-- The position that the drain is at, and where it ends. -/
def SubPc.drainAt : SubPc → Option (Nat × Nat)
  | .drainMeta pos wp | .drainCas pos wp _ | .drainSub pos wp _ | .drainPush pos wp _ _ => some (pos, wp)
  | _ => none

/-- In `release_ring`, before the drain. -/
def SubPc.beforeDrain : SubPc → Bool
  | .leaveLoad | .leaveCas _ | .leaveSpin | .leaveClock | .clearWaiter _ | .clearPid _ | .clearStart _
  | .drainPos => true
  | _ => false

namespace Sub

variable {g : Geometry} {t : Turns} {u : Sub}

/-- The turns of a subscriber so far; the entries that the drain has left fit in what is left of the ring. -/
structure Walks (g : Geometry) (t : Turns) (u : Sub) : Prop where
  bounded : t.Bounded g
  joining : ∀ i, u.pc.joining = some i → t.rings ≤ i + 1
  leaving : u.pc.beforeDrain = true → t.entries = 0
  draining : ∀ pos wp, u.pc.drainAt = some (pos, wp) → pos < wp ∧ t.entries + (wp - pos) ≤ g.subRingCapacity + 1

/-- The turns with the one that begins. -/
abbrev after (u : Sub) (t : Turns) : Turns := (Caller.actor (.sub u)).after t

/-- Outside the constructor and `release_ring`. -/
theorem walks_rest {u' : Sub} (hb : t.Bounded g) (hj : u'.pc.joining = none) (hl : u'.pc.beforeDrain = false)
    (hd : u'.pc.drainAt = none) : Walks g (u'.after t) u' := by
  refine ⟨?_, fun i hi => ?_, fun h => ?_, fun pos wp h => ?_⟩
  · have ht : (Caller.actor (.sub u')).turns = [] := by
      simp only [Caller.turns]
      split
      · rename_i hpc
        rw [hpc] at hj
        cases hj
      · rename_i hpc
        rw [hpc] at hd
        cases hd
      · rfl
    rw [after, Caller.after, ht]
    exact hb
  · rw [hj] at hi
    cases hi
  · rw [hl] at h
    cases h
  · rw [hd] at h
    cases h

theorem walks_tryJoin (hb : t.Bounded g) {i : Nat} (h : t.rings ≤ i) :
    Walks g ((u.tryJoin g i).after t) (u.tryJoin g i) := by
  unfold tryJoin
  split_ifs with hi
  · refine ⟨⟨Nat.succ_le_of_lt (Nat.lt_of_le_of_lt h hi), Nat.zero_le _, hb.links, hb.again⟩, ?_, nofun, nofun⟩
    rintro j ⟨⟩
    exact Nat.succ_le_succ h
  · exact walks_rest hb rfl rfl rfl

theorem walks_recvNone (hb : t.Bounded g) : Walks g (u.recvNone.after t) u.recvNone := by
  unfold recvNone
  split_ifs <;> exact walks_rest hb rfl rfl rfl

theorem walks_recvLoop (hb : t.Bounded g) (k : Nat) : Walks g ((u.recvLoop k).after t) (u.recvLoop k) := by
  unfold recvLoop
  split_ifs
  · exact walks_rest hb rfl rfl rfl
  · exact walks_recvNone hb

theorem walks_recvWith (hb : t.Bounded g) (k seq1 : Nat) :
    Walks g ((u.recvWith k seq1).after t) (u.recvWith k seq1) := by
  unfold recvWith
  split_ifs <;>
    first
      | exact walks_rest hb rfl rfl rfl
      | exact walks_recvNone hb

theorem walks_recvClaim (hb : t.Bounded g) (k seq1 word : Nat) :
    Walks g ((u.recvClaim g k seq1 word).after t) (u.recvClaim g k seq1 word) := by
  unfold recvClaim
  split_ifs <;> exact walks_rest hb rfl rfl rfl

theorem walks_tryPin (hb : t.Bounded g) (k seq1 slot rc : Nat) :
    Walks g ((u.tryPin k seq1 slot rc).after t) (u.tryPin k seq1 slot rc) := by
  unfold tryPin
  split_ifs <;> exact walks_rest hb rfl rfl rfl

theorem walks_sample (hb : t.Bounded g) (slot len : Nat) :
    Walks g ((u.sample slot len).after t) (u.sample slot len) := by
  unfold sample
  dsimp only
  split_ifs <;> exact walks_rest hb rfl rfl rfl

theorem walks_armWith (hb : t.Bounded g) (cur : Nat) (w : Wait) :
    Walks g ((u.armWith cur w).after t) (u.armWith cur w) := by
  unfold armWith
  split_ifs <;> exact walks_rest hb rfl rfl rfl

/-- The head of the drain loop, with an entry's turn to come. -/
theorem walks_drainLoop (hb : t.Bounded g) {pos wp : Nat}
    (h : pos < wp → t.entries + (wp - pos) ≤ g.subRingCapacity) :
    Walks g ((u.drainLoop pos wp).after t) (u.drainLoop pos wp) := by
  unfold drainLoop
  split_ifs with hlt
  · have hle := h hlt
    refine ⟨⟨hb.rings, ?_, hb.links, hb.again⟩, nofun, nofun, ?_⟩
    · show t.entries + 1 ≤ _
      omega
    · rintro pos wp ⟨⟩
      refine ⟨hlt, ?_⟩
      show t.entries + 1 + _ ≤ _
      omega
  · exact walks_rest hb rfl rfl rfl

/-- The window that is drained is no longer than the ring. -/
theorem sub_drainOldest_le (wp : Nat) : wp - u.drainOldest g wp ≤ g.subRingCapacity := by
  unfold drainOldest
  dsimp only
  split_ifs <;> omega

theorem walks_joining {u' : Sub} {i : Nat} (hb : t.Bounded g) (h : t.rings ≤ i + 1)
    (ht : (Caller.actor (.sub u')).turns = []) (hj : u'.pc.joining = some i) (hl : u'.pc.beforeDrain = false)
    (hd : u'.pc.drainAt = none) : Walks g (u'.after t) u' := by
  rw [after, Caller.after, ht]
  refine ⟨hb, fun j hj' => ?_, fun h => ?_, fun pos wp h => ?_⟩
  · obtain rfl := Option.some.inj (hj.symm.trans hj')
    exact h
  · rw [hl] at h
    cases h
  · rw [hd] at h
    cases h

theorem walks_leaving {u' : Sub} (hb : t.Bounded g) (h : t.entries = 0) (ht : (Caller.actor (.sub u')).turns = [])
    (hj : u'.pc.joining = none) (hd : u'.pc.drainAt = none) : Walks g (u'.after t) u' := by
  rw [after, Caller.after, ht]
  refine ⟨hb, fun j hj' => ?_, fun _ => h, fun pos wp h => ?_⟩
  · rw [hj] at hj'
    cases hj'
  · rw [hd] at h
    cases h

theorem walks_draining {u' : Sub} {pos wp : Nat} (hb : t.Bounded g)
    (h : pos < wp ∧ t.entries + (wp - pos) ≤ g.subRingCapacity + 1) (ht : (Caller.actor (.sub u')).turns = [])
    (hj : u'.pc.joining = none) (hl : u'.pc.beforeDrain = false) (hd : u'.pc.drainAt = some (pos, wp)) :
    Walks g (u'.after t) u' := by
  rw [after, Caller.after, ht]
  refine ⟨hb, fun j hj' => ?_, fun h => ?_, fun pos' wp' hd' => ?_⟩
  · rw [hj] at hj'
    cases hj'
  · rw [hl] at h
    cases h
  · obtain ⟨rfl, rfl⟩ := Prod.mk.inj (Option.some.inj (hd.symm.trans hd'))
    exact h

theorem walks_drainNext (hb : t.Bounded g) {pos wp : Nat}
    (h : pos < wp ∧ t.entries + (wp - pos) ≤ g.subRingCapacity + 1) :
    Walks g ((u.drainLoop (pos + 1) wp).after t) (u.drainLoop (pos + 1) wp) :=
  walks_drainLoop hb fun _ => by omega

/-- Whatever an access answers, the subscriber takes no more turns than there are rings and entries. -/
theorem Walks.resume (h : Walks g t u) (r : Resp) : Walks g ((u.resume g r).after t) (u.resume g r) := by
  obtain ⟨hb, hj, hl, hd⟩ := h
  cases hpc : u.pc <;> rw [hpc] at hj hl hd <;> simp only [Sub.resume, hpc]
  case out | live => exact walks_rest hb (by rw [hpc]; rfl) (by rw [hpc]; rfl) (by rw [hpc]; rfl)
  case joinPos i => exact walks_joining hb (hj _ rfl) rfl rfl rfl rfl
  case joinCas i wp =>
    split_ifs
    · exact walks_joining hb (hj _ rfl) rfl rfl rfl rfl
    · exact walks_tryJoin hb (hj _ rfl)
  case joinStart i wp => exact walks_joining hb (hj _ rfl) rfl rfl rfl rfl
  case joinPid i wp => exact walks_joining hb (hj _ rfl) rfl rfl rfl rfl
  case recvPos k =>
    split_ifs
    · exact walks_recvNone hb
    · exact walks_rest hb rfl rfl rfl
    · exact walks_rest hb rfl rfl rfl
  case recvSeq k => exact walks_recvWith hb _ _
  case recvLost k => exact walks_recvLoop hb _
  case recvMeta k seq1 => exact walks_recvClaim hb _ _ _
  case recvRc k seq1 slot => exact walks_tryPin hb _ _ _ _
  case recvPin k seq1 slot rc =>
    split_ifs
    · exact walks_rest hb rfl rfl rfl
    · exact walks_tryPin hb _ _ _ _
  case recvLen k slot =>
    split_ifs
    · exact walks_rest hb rfl rfl rfl
    · exact walks_sample hb _ _
  case recvUnpinPush k slot p => split <;> exact walks_rest hb rfl rfl rfl
  case copyPush v p => split <;> exact walks_rest hb rfl rfl rfl
  case parkPos =>
    split_ifs
    · exact walks_rest hb rfl rfl rfl
    · exact walks_recvLoop hb _
  case parked cur wakes =>
    split_ifs
    · exact walks_rest hb rfl rfl rfl
    · exact walks_rest hb (by rw [hpc]; rfl) (by rw [hpc]; rfl) (by rw [hpc]; rfl)
  case parkClear => exact walks_recvLoop hb _
  case armHead cur =>
    split
    · exact walks_armWith hb _ _
    · exact walks_rest hb rfl rfl rfl
  case armSeq cur => exact walks_armWith hb _ _
  case armHead2 => split <;> exact walks_rest hb rfl rfl rfl
  case leaveLoad => exact walks_leaving hb (hl rfl) rfl rfl rfl
  case leaveCas old => split_ifs <;> exact walks_leaving hb (hl rfl) rfl rfl rfl
  case leaveSpin => split_ifs <;> exact walks_leaving hb (hl rfl) rfl rfl rfl
  case leaveClock => split_ifs <;> exact walks_leaving hb (hl rfl) rfl rfl rfl
  case clearWaiter q => exact walks_leaving hb (hl rfl) rfl rfl rfl
  case clearPid q => exact walks_leaving hb (hl rfl) rfl rfl rfl
  case clearStart q =>
    split_ifs
    · exact walks_leaving hb (hl rfl) rfl rfl rfl
    · exact walks_rest hb rfl rfl rfl
  case drainPos =>
    split_ifs
    · exact walks_rest hb rfl rfl rfl
    · refine walks_drainLoop hb fun _ => ?_
      rw [hl rfl, Nat.zero_add]
      exact sub_drainOldest_le r.val
  case drainMeta pos wp =>
    split_ifs
    · exact walks_drainNext hb (hd _ _ rfl)
    · exact walks_draining hb (hd _ _ rfl) rfl rfl rfl rfl
  case drainCas pos wp word =>
    split_ifs
    · exact walks_draining hb (hd _ _ rfl) rfl rfl rfl rfl
    · exact walks_drainNext hb (hd _ _ rfl)
  case drainSub pos wp slot =>
    split_ifs
    · exact walks_draining hb (hd _ _ rfl) rfl rfl rfl rfl
    · exact walks_drainNext hb (hd _ _ rfl)
  case drainPush pos wp slot p =>
    split
    · exact walks_draining hb (hd _ _ rfl) rfl rfl rfl rfl
    · exact walks_drainNext hb (hd _ _ rfl)
  all_goals first | exact walks_rest hb rfl rfl rfl | (split_ifs <;> exact walks_rest hb rfl rfl rfl)

end Sub

/-! ## The walks of the passes -/

section Scans

variable {g : Geometry} {t : Turns}

/-- At ring `i`, with `n` of its entries behind. -/
structure AtRing (g : Geometry) (t : Turns) (i n : Nat) : Prop where
  ring : i < g.maxSubs
  rings : t.rings ≤ i + 1
  entries : t.entries = n

/-- The next entry of the window of a ring. -/
theorem AtRing.entry {i n p w : Nat} (h : AtRing g t i n) (hb : t.Bounded g)
    (hle : n + (w - p) ≤ g.subRingCapacity) (hlt : p < w) :
    (t.add .entry).Bounded g ∧ AtRing g (t.add .entry) i (n + 1) := by
  have he := h.entries
  refine ⟨⟨hb.rings, ?_, hb.links, hb.again⟩, h.ring, h.rings, ?_⟩
  · show t.entries + 1 ≤ _
    omega
  · show t.entries + 1 = _
    omega

/-- The next ring. -/
theorem AtRing.next {i : Nat} (h : t.rings ≤ i) (hb : t.Bounded g) (hi : i < g.maxSubs) :
    (t.add .ring).Bounded g ∧ AtRing g (t.add .ring) i 0 :=
  ⟨⟨Nat.succ_le_of_lt (Nat.lt_of_le_of_lt h hi), Nat.zero_le _, hb.links, hb.again⟩, hi, Nat.succ_le_succ h, rfl⟩

theorem sub_windowStart_le (g : Geometry) (wp : Nat) : wp - windowStart g wp ≤ g.subRingCapacity := by
  unfold windowStart
  split_ifs <;> omega

end Scans

namespace Repair

variable {g : Geometry} {t : Turns} {u : Repair} {cs : List Candidate}

/-- Candidates of the rings that there are, at most `n` of them. -/
structure Listed (g : Geometry) (n : Nat) (cs : List Candidate) : Prop where
  ring : ∀ c ∈ cs, c.ring < g.maxSubs
  length : cs.length ≤ n

/-- The place of a repair. -/
def At (g : Geometry) (t : Turns) : RepairPc → Prop
  | .idle => True
  | .ringPos i cs => AtRing g t i 0 ∧ Listed g (i * g.subRingCapacity) cs ∧ t.again = 0
  | .entry i wp pos cs | .stealCas i wp pos _ cs | .stealSkip i wp pos cs | .stealCount i wp pos cs =>
    ∃ n, AtRing g t i (n + 1) ∧ Listed g (i * g.subRingCapacity + n) cs ∧ t.again = 0 ∧ pos < wp ∧
      n + (wp - pos) ≤ g.subRingCapacity
  | .graceLoad c cs | .graceCas c cs | .graceSkip c cs | .graceCount c cs =>
    c.ring < g.maxSubs ∧ (∀ c ∈ cs, c.ring < g.maxSubs) ∧ t.again + cs.length ≤ g.maxSubs * g.subRingCapacity

structure Walks (g : Geometry) (t : Turns) (u : Repair) : Prop where
  bounded : t.Bounded g
  place : At g t u.pc

/-- The turns with the one that begins. -/
abbrev after (u : Repair) (t : Turns) : Turns := (Caller.actor (.repair u)).after t

theorem walks_grace (hb : t.Bounded g) (hc : ∀ c ∈ cs, c.ring < g.maxSubs)
    (hle : t.again + cs.length ≤ g.maxSubs * g.subRingCapacity) :
    Walks g ((u.grace cs).after t) (u.grace cs) := by
  cases cs with
  | nil => exact ⟨hb, trivial⟩
  | cons c cs =>
    rw [List.length_cons] at hle
    refine ⟨⟨hb.rings, hb.entries, hb.links, ?_⟩, hc c List.mem_cons_self,
      fun c' h => hc c' (List.mem_cons_of_mem _ h), ?_⟩
    · show t.again + 1 ≤ _
      omega
    · show t.again + 1 + cs.length ≤ _
      omega

theorem walks_scanRing (hb : t.Bounded g) {i : Nat} (h : t.rings ≤ i) (hi : i ≤ g.maxSubs)
    (hc : Listed g (i * g.subRingCapacity) cs) (ha : t.again = 0) :
    Walks g ((u.scanRing g i cs).after t) (u.scanRing g i cs) := by
  unfold scanRing
  split_ifs with hlt
  · obtain ⟨hb', hring⟩ := AtRing.next h hb hlt
    exact ⟨hb', hring, hc, ha⟩
  · refine walks_grace hb (fun c h => hc.ring c (List.mem_reverse.mp h)) ?_
    rw [ha, Nat.zero_add, List.length_reverse]
    exact hc.length.trans (Nat.mul_le_mul_right _ hi)

theorem walks_scanEntry (hb : t.Bounded g) {i n pos wp : Nat} (h : AtRing g t i n)
    (hc : Listed g (i * g.subRingCapacity + n) cs) (ha : t.again = 0)
    (hle : n + (wp - pos) ≤ g.subRingCapacity) :
    Walks g ((u.scanEntry g i wp pos cs).after t) (u.scanEntry g i wp pos cs) := by
  unfold scanEntry
  split_ifs with hlt
  · obtain ⟨hb', hring⟩ := h.entry hb hle hlt
    exact ⟨hb', n, hring, hc, ha, hlt, hle⟩
  · refine walks_scanRing hb h.rings h.ring ⟨hc.ring, hc.length.trans ?_⟩ ha
    rw [Nat.succ_mul]
    omega

/-- The scan goes on past an entry, with a candidate more or not. -/
theorem walks_onward (hb : t.Bounded g) {i n pos wp : Nat} (h : AtRing g t i (n + 1))
    (hc : Listed g (i * g.subRingCapacity + (n + 1)) cs) (ha : t.again = 0)
    (hle : n + (wp - pos) ≤ g.subRingCapacity) (hlt : pos < wp) :
    Walks g ((u.scanEntry g i wp (pos + 1) cs).after t) (u.scanEntry g i wp (pos + 1) cs) :=
  walks_scanEntry hb h hc ha (by omega)

theorem Listed.mono {n m : Nat} (h : Listed g n cs) (hnm : n ≤ m) : Listed g m cs :=
  ⟨h.ring, h.length.trans hnm⟩

/-- Whatever an access answers, a repair takes no more turns than there are rings and entries. -/
theorem Walks.resume (h : Walks g t u) (r : Resp) : Walks g ((u.resume g r).after t) (u.resume g r) := by
  obtain ⟨hb, hp⟩ := h
  cases hpc : u.pc <;> rw [hpc] at hp <;> simp only [Repair.resume, hpc]
  case idle => exact ⟨by rw [after, Caller.after, Caller.turns, hpc]; exact hb, by rw [hpc]; trivial⟩
  case ringPos i cs =>
    obtain ⟨hring, hc, ha⟩ := hp
    refine walks_scanEntry hb hring hc ha ?_
    rw [Nat.zero_add]
    exact sub_windowStart_le g r.val
  case entry i wp pos cs =>
    obtain ⟨n, hring, hc, ha, hlt, hle⟩ := hp
    split_ifs
    · refine walks_onward hb hring ⟨fun c h => ?_, Nat.succ_le_succ hc.length⟩ ha hle hlt
      rcases List.mem_cons.mp h with rfl | h
      · exact hring.ring
      · exact hc.ring c h
    · exact ⟨hb, n, hring, hc, ha, hlt, hle⟩
    · exact walks_onward hb hring (hc.mono (Nat.le_succ _)) ha hle hlt
  case stealCas i wp pos seq cs =>
    obtain ⟨n, hring, hc, ha, hlt, hle⟩ := hp
    split_ifs
    · exact ⟨hb, n, hring, hc, ha, hlt, hle⟩
    · exact walks_onward hb hring (hc.mono (Nat.le_succ _)) ha hle hlt
  case stealSkip i wp pos cs => exact ⟨hb, hp⟩
  case stealCount i wp pos cs =>
    obtain ⟨n, hring, hc, ha, hlt, hle⟩ := hp
    exact walks_onward hb hring (hc.mono (Nat.le_succ _)) ha hle hlt
  case graceLoad c cs =>
    split_ifs
    · exact walks_grace hb hp.2.1 hp.2.2
    · exact ⟨hb, hp⟩
  case graceCas c cs =>
    split_ifs
    · exact ⟨hb, hp⟩
    · exact walks_grace hb hp.2.1 hp.2.2
  case graceSkip c cs => exact ⟨hb, hp⟩
  case graceCount c cs => exact walks_grace hb hp.2.1 hp.2.2

end Repair

namespace Reclaim

variable {g : Geometry} {t : Turns} {u : Reclaim}

/-- The ring that the pass is at. -/
def ringOf : ReclaimPc → Option Nat
  | .idle => none
  | .scan i | .pid1 i _ | .start1 i _ _ | .probe1 i _ _ _ | .fresh i _ | .claim i _ _ | .pid2 i _ _
  | .start2 i _ _ _ | .probe2 i _ _ _ _ | .clearWaiter i _ | .clearPid i _ | .clearStart i _ | .free i _
  | .restore i _ _ => some i

structure Walks (g : Geometry) (t : Turns) (u : Reclaim) : Prop where
  bounded : t.Bounded g
  place : ∀ i, ringOf u.pc = some i → AtRing g t i 0

/-- The turns with the one that begins. -/
abbrev after (u : Reclaim) (t : Turns) : Turns := (Caller.actor (.reclaim u)).after t

theorem walks_scanRing (hb : t.Bounded g) {i : Nat} (h : t.rings ≤ i) :
    Walks g ((u.scanRing g i).after t) (u.scanRing g i) := by
  unfold scanRing
  split_ifs with hlt
  · obtain ⟨hb', hring⟩ := AtRing.next h hb hlt
    refine ⟨hb', ?_⟩
    rintro j ⟨⟩
    exact hring
  · exact ⟨hb, nofun⟩

theorem walks_stay {u' : Reclaim} {i : Nat} (hb : t.Bounded g) (h : AtRing g t i 0)
    (ht : (Caller.actor (.reclaim u')).turns = []) (hi : ringOf u'.pc = some i) : Walks g (u'.after t) u' := by
  rw [after, Caller.after, ht]
  exact ⟨hb, fun j hj => Option.some.inj (hi.symm.trans hj) ▸ h⟩

theorem walks_tryFree (hb : t.Bounded g) {i : Nat} (h : AtRing g t i 0) (old : Nat) :
    Walks g ((u.tryFree g i old).after t) (u.tryFree g i old) := by
  unfold tryFree
  split_ifs
  · exact walks_stay hb h rfl rfl
  · exact walks_scanRing hb h.rings

theorem walks_tryRestore (hb : t.Bounded g) {i : Nat} (h : AtRing g t i 0) (st : RingState) (old : Nat) :
    Walks g ((u.tryRestore g i st old).after t) (u.tryRestore g i st old) := by
  unfold tryRestore
  split_ifs
  · exact walks_stay hb h rfl rfl
  · exact walks_scanRing hb h.rings

/-- Whatever an access answers, the pass takes no more turns than there are rings. -/
theorem Walks.resume (h : Walks g t u) (r : Resp) : Walks g ((u.resume g r).after t) (u.resume g r) := by
  obtain ⟨hb, hp⟩ := h
  cases hpc : u.pc <;> rw [hpc] at hp <;> simp only [Reclaim.resume, hpc]
  case idle => exact ⟨by rw [after, Caller.after, Caller.turns, hpc]; exact hb, by rw [hpc]; nofun⟩
  case clearStart i claim => exact walks_tryFree hb (hp _ rfl) _
  case probe2 i st claim pid start =>
    split_ifs
    · exact walks_stay hb (hp _ rfl) rfl rfl
    · exact walks_tryRestore hb (hp _ rfl) _ _
  case free i old =>
    split_ifs
    · exact walks_scanRing hb (hp _ rfl).rings
    · exact walks_tryFree hb (hp _ rfl) _
  case restore i st old =>
    split_ifs
    · exact walks_scanRing hb (hp _ rfl).rings
    · exact walks_tryRestore hb (hp _ rfl) _ _
  case scan | probe1 | fresh | claim =>
    split_ifs <;>
      first
        | exact walks_stay hb (hp _ rfl) rfl rfl
        | exact walks_scanRing hb (hp _ rfl).rings
  all_goals exact walks_stay hb (hp _ rfl) rfl rfl

end Reclaim

namespace Orphan

variable {g : Geometry} {t : Turns} {u : Orphan}

/-- The place of an orphan pass. -/
def At (g : Geometry) (t : Turns) : OrphanPc → Prop
  | .idle => True
  | .count i idx _ => AtRing g t i (idx + 1) ∧ idx < g.subRingCapacity ∧ t.links = 0
  | .top _ => t.links = 0
  | .walk _ _ idx walked => idx < g.poolSize ∧ t.links ≤ walked + 1
  | .reset _ _ idx | .push _ _ idx _ => idx < g.poolSize

structure Walks (g : Geometry) (t : Turns) (u : Orphan) : Prop where
  bounded : t.Bounded g
  place : At g t u.pc

/-- The turns with the one that begins. -/
abbrev after (u : Orphan) (t : Turns) : Turns := (Caller.actor (.orphan u)).after t

theorem walks_visit (hb : t.Bounded g) (claims : Nat → Nat) (onStack : Nat → Bool) (idx : Nat) :
    Walks g ((u.visit g claims onStack idx).after t) (u.visit g claims onStack idx) := by
  induction idx using visit.induct g onStack with
  | case1 idx hlt hs ih =>
    rw [visit, if_pos hlt, if_pos hs]
    exact ih
  | case2 idx hlt hs =>
    rw [visit, if_pos hlt, if_neg hs]
    exact ⟨hb, hlt⟩
  | case3 idx hlt =>
    rw [visit, if_neg hlt]
    exact ⟨hb, trivial⟩

theorem walks_walkFrom (hb : t.Bounded g) {walked : Nat} (h : t.links ≤ walked) (claims : Nat → Nat)
    (onStack : Nat → Bool) (idx : Nat) :
    Walks g ((u.walkFrom g claims onStack idx walked).after t) (u.walkFrom g claims onStack idx walked) := by
  unfold walkFrom
  split_ifs with hlt
  · obtain ⟨-, hidx, hwalked⟩ := hlt
    exact ⟨⟨hb.rings, hb.entries, Nat.succ_le_of_lt (Nat.lt_of_le_of_lt h hwalked), hb.again⟩, hidx,
      Nat.succ_le_succ h⟩
  · exact walks_visit hb _ _ _

/-- The first entry of a ring is a turn of both walks. -/
theorem walks_first (hg : g.Valid) (hb : t.Bounded g) {i : Nat} (h : t.rings ≤ i) (hi : i < g.maxSubs)
    (hl : t.links = 0) (claims : Nat → Nat) :
    Walks g (after { u with pc := .count i 0 claims } t) { u with pc := .count i 0 claims } := by
  obtain ⟨hb', hring⟩ := AtRing.next h hb hi
  have hcap := hg.capacity_pos
  obtain ⟨hb'', hring'⟩ := hring.entry (p := 0) (w := 1) hb' (by omega) (by omega)
  exact ⟨hb'', hring', hcap, hl⟩

theorem walks_countFrom (hg : g.Valid) (hb : t.Bounded g) {i idx : Nat} (h : AtRing g t i (idx + 1))
    (hl : t.links = 0) (claims : Nat → Nat) :
    Walks g ((u.countFrom g i (idx + 1) claims).after t) (u.countFrom g i (idx + 1) claims) := by
  unfold countFrom
  split_ifs with hlt hi
  · obtain ⟨hb', hring⟩ := h.entry (p := idx) (w := idx + 1) hb (by omega) (by omega)
    exact ⟨hb', hring, hlt, hl⟩
  · exact walks_first hg hb h.rings hi hl claims
  · exact ⟨hb, hl⟩

/-- Whatever an access answers, the pass takes no more turns than there are rings, entries and slots. -/
theorem Walks.resume (hg : g.Valid) (h : Walks g t u) (r : Resp) :
    Walks g ((u.resume g r).after t) (u.resume g r) := by
  obtain ⟨hb, hp⟩ := h
  cases hpc : u.pc <;> rw [hpc] at hp <;> simp only [Orphan.resume, hpc]
  case idle => exact ⟨by rw [after, Caller.after, Caller.turns, hpc]; exact hb, by rw [hpc]; trivial⟩
  case count i idx claims => exact walks_countFrom hg hb hp.1 hp.2.2 _
  case top claims => exact walks_walkFrom hb hp.le _ _ _
  case walk claims onStack idx walked => exact walks_walkFrom hb hp.2 _ _ _
  case reset claims onStack idx =>
    split_ifs
    · exact walks_visit hb _ _ _
    · exact ⟨hb, hp⟩
  case push claims onStack idx p =>
    split
    · exact ⟨hb, hp⟩
    · exact walks_visit hb _ _ _

end Orphan

/-! ## The walks of the inspections -/

namespace Diagnose

variable {g : Geometry} {t : Turns} {u : Diagnose}

/-- The place of a diagnosis. -/
def At (g : Geometry) (t : Turns) : DiagnosePc → Prop
  | .idle => True
  | .schemaState => t.rings = 0
  | .ringPos i => AtRing g t i 0
  | .entry i wp pos => ∃ n, AtRing g t i (n + 1) ∧ pos < wp ∧ n + (wp - pos) ≤ g.subRingCapacity
  | .flight i | .pid i | .starttime i _ | .probe i _ _ => i < g.maxSubs ∧ t.rings ≤ i + 1

structure Walks (g : Geometry) (t : Turns) (u : Diagnose) : Prop where
  bounded : t.Bounded g
  place : At g t u.pc

/-- The turns with the one that begins. -/
abbrev after (u : Diagnose) (t : Turns) : Turns := (Caller.diagnose u).after t

theorem walks_scanRing (hb : t.Bounded g) {i : Nat} (h : t.rings ≤ i) :
    Walks g ((u.scanRing g i).after t) (u.scanRing g i) := by
  unfold scanRing
  split_ifs with hlt
  · exact AtRing.next h hb hlt |>.elim fun hb' hring => ⟨hb', hring⟩
  · exact ⟨hb, trivial⟩

theorem walks_scanEntry (hb : t.Bounded g) {i n pos wp : Nat} (h : AtRing g t i n)
    (hle : n + (wp - pos) ≤ g.subRingCapacity) :
    Walks g ((u.scanEntry i wp pos).after t) (u.scanEntry i wp pos) := by
  unfold scanEntry
  split_ifs with hlt
  · obtain ⟨hb', hring⟩ := h.entry hb hle hlt
    exact ⟨hb', n, hring, hlt, hle⟩
  · exact ⟨hb, h.ring, h.rings⟩

/-- Whatever a read answers, `diagnose` takes no more turns than there are rings and entries. -/
theorem Walks.resume (h : Walks g t u) (r : Resp) : Walks g ((u.resume g r).after t) (u.resume g r) := by
  obtain ⟨hb, hp⟩ := h
  cases hpc : u.pc <;> rw [hpc] at hp <;> simp only [Diagnose.resume, hpc]
  case idle => exact ⟨by rw [after, Caller.after, Caller.turns, hpc]; exact hb, by rw [hpc]; trivial⟩
  case schemaState => exact walks_scanRing hb hp.le
  case ringPos i =>
    refine walks_scanEntry hb hp ?_
    rw [Nat.zero_add]
    exact sub_windowStart_le g r.val
  case entry i wp pos =>
    obtain ⟨n, hring, hlt, hle⟩ := hp
    split_ifs <;> exact walks_scanEntry hb hring (by omega)
  case flight i =>
    split_ifs
    · exact walks_scanRing hb hp.2
    · exact ⟨hb, hp⟩
  case pid i => exact ⟨hb, hp⟩
  case starttime i pid => exact ⟨hb, hp⟩
  case probe i pid starttime => split_ifs <;> exact walks_scanRing hb hp.2

end Diagnose

namespace Stats

variable {g : Geometry} {t : Turns} {u : Stats}

/-- The place of the statistics. -/
def At (g : Geometry) (t : Turns) : StatsPc → Prop
  | .idle => True
  | .steals => t.rings = 0 ∧ t.links = 0
  | .flight i | .ringPos i _ | .dropped i _ | .lost i _ => AtRing g t i 0 ∧ t.links = 0
  | .top => t.links = 0
  | .walk idx count => idx < g.poolSize ∧ t.links ≤ count + 1

structure Walks (g : Geometry) (t : Turns) (u : Stats) : Prop where
  bounded : t.Bounded g
  place : At g t u.pc

/-- The turns with the one that begins. -/
abbrev after (u : Stats) (t : Turns) : Turns := (Caller.stats u).after t

theorem walks_scanRing (hb : t.Bounded g) {i : Nat} (h : t.rings ≤ i) (hl : t.links = 0) :
    Walks g ((u.scanRing g i).after t) (u.scanRing g i) := by
  unfold scanRing
  split_ifs with hlt
  · obtain ⟨hb', hring⟩ := AtRing.next h hb hlt
    exact ⟨hb', hring, hl⟩
  · exact ⟨hb, hl⟩

theorem walks_walkFrom (hb : t.Bounded g) {count : Nat} (h : t.links ≤ count) (idx : Nat) :
    Walks g ((u.walkFrom g idx count).after t) (u.walkFrom g idx count) := by
  unfold walkFrom
  split_ifs with hlt
  · obtain ⟨-, hcount, hidx⟩ := hlt
    exact ⟨⟨hb.rings, hb.entries, Nat.succ_le_of_lt (Nat.lt_of_le_of_lt h hcount), hb.again⟩, hidx,
      Nat.succ_le_succ h⟩
  · exact ⟨hb, trivial⟩

/-- Whatever a read answers, `stats` takes no more turns than there are rings and slots. -/
theorem Walks.resume (h : Walks g t u) (r : Resp) : Walks g ((u.resume g r).after t) (u.resume g r) := by
  obtain ⟨hb, hp⟩ := h
  cases hpc : u.pc <;> rw [hpc] at hp <;> simp only [Stats.resume, hpc]
  case idle => exact ⟨by rw [after, Caller.after, Caller.turns, hpc]; exact hb, by rw [hpc]; trivial⟩
  case steals => exact walks_scanRing hb hp.1.le hp.2
  case lost i rs => exact walks_scanRing hb hp.1.rings hp.2
  case top => exact walks_walkFrom hb hp.le _
  case walk idx count => exact walks_walkFrom hb hp.2 _
  all_goals exact ⟨hb, hp⟩

end Stats

namespace Info

variable {g : Geometry} {u : Info}

/-- The copy of the name stays before the blob. -/
def Ok (g : Geometry) (u : Info) : Prop :=
  ∀ k len, u.pc = .creatorName k len → k < len ∧ len ≤ g.schemaBlobOffset - sizeofHeader

theorem ok_copyName {k len : Nat} (h : len ≤ g.schemaBlobOffset - sizeofHeader) : (u.copyName k len).Ok g := by
  unfold copyName
  split_ifs with hlt
  · rintro k' len' ⟨⟩
    exact ⟨hlt, h⟩
  · exact nofun

theorem Ok.resume (h : u.Ok g) (r : Resp) : (u.resume g r).Ok g := by
  cases hpc : u.pc <;> simp only [Info.resume, hpc]
  case idle => exact h
  case creatorNameLen => exact ok_copyName (Nat.min_le_right _ _)
  case creatorName k len => exact ok_copyName (h k len hpc).2
  all_goals exact nofun

end Info

namespace Schema.Client

variable {capacity : Nat} {c : Client}

/-- The indices of a schema call stay in the descriptor and in the blob's area. -/
def Ok (capacity : Nat) (c : Client) : Prop :=
  match c.pc with
  | .claim _ blob => blob.length ≤ capacity
  | .copyBlob _ blob k => k < blob.length ∧ blob.length ≤ capacity
  | .copyInfo _ _ k => k < SchemaInfo.size
  | .infoCopy k _ => k < SchemaInfo.size
  | .blobSize k _ => k < 4
  | .blobCopy size k _ => k < size ∧ size ≤ capacity
  | _ => True

theorem ok_copyOut (size : Nat) : (copyOut capacity size).Ok capacity := by
  unfold copyOut
  split_ifs with hgt hz
  · trivial
  · trivial
  · exact ⟨Nat.pos_of_ne_zero hz, Nat.le_of_not_gt hgt⟩

theorem Ok.resume (h : c.Ok capacity) (r : Answer) : (c.resume capacity r).Ok capacity := by
  have h' := h
  unfold Ok at h'
  cases hpc : c.pc <;> rw [hpc] at h' <;> simp only [Client.resume, hpc]
  case idle => exact h
  case claim x blob =>
    split_ifs with hok hnil
    · exact (by decide : 0 < SchemaInfo.size)
    · exact ⟨List.length_pos_iff.mpr hnil, h'⟩
    · trivial
    · trivial
  case copyBlob x blob k =>
    split_ifs with hk
    · exact ⟨hk, h'.2⟩
    · exact (by decide : 0 < SchemaInfo.size)
  case copyInfo x blob k =>
    split_ifs with hk
    · exact hk
    · trivial
  case spin i => split_ifs <;> trivial
  case infoState =>
    split_ifs
    · exact (by decide : 0 < SchemaInfo.size)
    · trivial
  case infoCopy k out =>
    split_ifs with hk
    · exact hk
    · trivial
  case blobState =>
    split_ifs
    · exact (by decide : 0 < 4)
    · trivial
  case blobSize k out =>
    split_ifs with hk
    · exact hk
    · exact ok_copyOut _
  case blobCopy size k out =>
    split_ifs with hk
    · exact ⟨hk, h'.2⟩
    · trivial
  all_goals trivial

theorem ok_call {c' : Client} {k : Call} (h : c.call capacity k = some c') : c'.Ok capacity := by
  unfold call at h
  split at h
  · split at h
    · obtain rfl := Option.some.inj h
      trivial
    · obtain rfl := Option.some.inj h
      trivial
    · split_ifs at h with hgt
      · obtain rfl := Option.some.inj h
        trivial
      · obtain rfl := Option.some.inj h
        exact Nat.le_of_not_gt hgt
    · obtain rfl := Option.some.inj h
      trivial
  · cases h

end Schema.Client

/-! ## Everyone -/

namespace Caller

variable {g : Geometry} {t : Turns} {c c' : Caller}

/-- The bounds of a caller. -/
def Ok (g : Geometry) (t : Turns) : Caller → Prop
  | .actor (.pub u) => u.Ok g ∧ u.Walks g t
  | .actor (.sub u) => u.Ok g ∧ u.Walks g t
  | .actor (.view pc) => pc.Ok g ∧ t.Bounded g
  | .actor (.repair u) => u.Walks g t
  | .actor (.reclaim u) => u.Walks g t
  | .actor (.orphan u) => u.Walks g t
  | .schema u => u.Ok g.schemaBlobCapacity ∧ t.Bounded g
  | .diagnose u => u.Walks g t
  | .stats u => u.Walks g t
  | .info u => u.Ok g ∧ t.Bounded g

theorem Ok.bounded (h : c.Ok g t) : t.Bounded g := by
  rcases c with (u | u | pc | u | u | u) | u | u | u | u
  · exact h.2.bounded
  · exact h.2.bounded
  · exact h.2
  · exact h.bounded
  · exact h.bounded
  · exact h.bounded
  · exact h.2
  · exact h.bounded
  · exact h.bounded
  · exact h.2

theorem bounded_zero (g : Geometry) : Turns.zero.Bounded g :=
  ⟨Nat.zero_le _, Nat.zero_le _, Nat.zero_le _, Nat.zero_le _⟩

theorem ok_fresh (h : c.Fresh) : c.Ok g .zero := by
  have hb := bounded_zero g
  rcases c with l | u | u | u | u
  · obtain ⟨pid, starttime, hf⟩ := h
    have hok := (Sys.fresh_acct (g := g) hf).2.1
    cases l with
    | pub u => exact ⟨hok, hb, by rw [hf.2.2]; nofun⟩
    | sub u => exact ⟨hok, hb, by rw [hf.2.2.2]; nofun, by rw [hf.2.2.2]; nofun, by rw [hf.2.2.2]; nofun⟩
    | view pc => exact ⟨hok, hb⟩
    | repair u => exact ⟨hb, by rw [show u.pc = .idle from hf]; trivial⟩
    | reclaim u => exact ⟨hb, by rw [show u.pc = .idle from hf]; nofun⟩
    | orphan u => exact ⟨hb, by rw [show u.pc = .idle from hf]; trivial⟩
  · obtain rfl : u = ⟨.idle, .pending⟩ := h
    exact ⟨trivial, hb⟩
  · exact ⟨hb, by rw [show u.pc = .idle from h]; trivial⟩
  · exact ⟨hb, by rw [show u.pc = .idle from h]; trivial⟩
  · refine ⟨fun k len hpc => ?_, hb⟩
    rw [show u.pc = .idle from h] at hpc
    cases hpc

/-- A call begins in bounds. -/
theorem Ok.begin (hg : g.Valid) (h : c.Ok g t) {a : Ask} (hc : c.begin g a = some c') :
    c'.Ok g (c'.after .zero) := by
  have hb := bounded_zero g
  unfold Caller.begin at hc
  split at hc
  · rename_i l k
    obtain ⟨l', hl, rfl⟩ := Option.map_eq_some_iff.mp hc
    rcases Local.call_pass hl with ⟨u, rfl⟩ | ⟨u, rfl⟩ | ⟨u, rfl, -, rfl⟩ | ⟨u, rfl, -, -, rfl⟩ |
      ⟨u, rfl, -, -, rfl⟩
    · have hok := (Local.call_acct (l := .pub u) h.1 hl).2.2.2
      obtain ⟨hidle, u', rfl, hu⟩ := Local.call_pub hl
      refine ⟨hok, ?_⟩
      rcases hu with ⟨n, rfl⟩ | ⟨x, k, n, -, rfl⟩ | ⟨-, rfl⟩ | ⟨x, len, -, -, -, rfl⟩
      · exact ⟨by rw [Caller.after, Caller.turns, hidle]; exact hb, by rw [hidle]; nofun⟩
      · exact ⟨hb, nofun⟩
      · exact ⟨hb, nofun⟩
      · exact ⟨hb, fun n hn => Option.some.inj hn ▸ le_refl _⟩
    · have hok := (Local.call_acct (l := .sub u) h.1 hl).2.2.2
      obtain ⟨u', rfl, hu⟩ := Local.call_sub hl
      refine ⟨hok, ?_⟩
      rcases hu with ⟨-, waker, rfl⟩ | ⟨-, ⟨copy, blocking, rfl⟩ | rfl | rfl | rfl⟩
      · exact Sub.walks_tryJoin hb (le_refl _)
      · exact Sub.walks_recvLoop hb 0
      · exact Sub.walks_rest hb rfl rfl rfl
      · exact Sub.walks_rest hb rfl rfl rfl
      · exact Sub.walks_leaving hb rfl rfl rfl rfl
    · exact Repair.walks_scanRing hb (le_refl _) (Nat.zero_le _) ⟨nofun, Nat.zero_le _⟩ rfl
    · exact Reclaim.walks_scanRing hb (le_refl _)
    · unfold Orphan.start Orphan.countFrom
      rw [if_pos hg.capacity_pos]
      exact Orphan.walks_first hg hb (le_refl _) hg.maxSubs_pos rfl _
  · rename_i u k
    obtain ⟨v, hv, rfl⟩ := Option.map_eq_some_iff.mp hc
    exact ⟨h.1.views_ok v (List.mem_of_getElem? hv), hb⟩
  · rename_i u k
    obtain ⟨u', hu, rfl⟩ := Option.map_eq_some_iff.mp hc
    exact ⟨Schema.Client.ok_call hu, hb⟩
  · split_ifs at hc
    obtain rfl := Option.some.inj hc
    exact ⟨hb, rfl⟩
  · split_ifs at hc
    obtain rfl := Option.some.inj hc
    exact ⟨hb, rfl, rfl⟩
  · split_ifs at hc
    obtain rfl := Option.some.inj hc
    exact ⟨nofun, hb⟩
  · cases hc

/-- Whatever an access answers, the caller stays in bounds. -/
theorem Ok.resume (hg : g.Valid) (h : c.Ok g t) {r : Resp} (hc : c.resume g r = some c') :
    c'.Ok g (c'.after t) := by
  rcases c with l | u | u | u | u <;> obtain ⟨op, hop, rfl⟩ := Option.map_eq_some_iff.mp hc
  · cases l with
    | pub u => exact ⟨h.1.resume hg r, h.2.resume r⟩
    | sub u => exact ⟨(Sub.move hg h.1 hop r).2, h.2.resume r⟩
    | view pc => exact ⟨(ViewPc.move h.1 hop r).2, h.2⟩
    | repair u => exact Repair.Walks.resume h r
    | reclaim u => exact Reclaim.Walks.resume h r
    | orphan u => exact Orphan.Walks.resume hg h r
  · exact ⟨h.1.resume ⟨r.val, r.ok⟩, h.2⟩
  · exact Diagnose.Walks.resume h r
  · exact Stats.Walks.resume h r
  · exact ⟨h.1.resume r, h.2⟩

end Caller

/-! ## What everyone touches -/

/-- The indices of a word are in range. -/
def Loc.Within (g : Geometry) : Loc → Prop
  | stateFlight r | ownerPid r | ownerStarttime r | writePos r | hasWaiter r | droppedCount r | lostCount r =>
    r < g.maxSubs
  | sequence r i | metaWord r i => r < g.maxSubs ∧ i < g.subRingCapacity
  | refcount s | nextFree s | payloadLen s => s < g.poolSize
  | freeTop | stealCount | futexWakes _ => True

def Op.Within (g : Geometry) : Op → Prop
  | load l | store l _ | cas _ l _ _ | fetchAdd l _ | fetchSub l _ => l.Within g
  | futexWait r _ | futexWake r => r < g.maxSubs
  | copyOut s len => s < g.poolSize ∧ len ≤ g.slotDataSize
  | probeOwner _ _ | clock | signal => True

section Within

variable {g : Geometry} {op : Op}

theorem PushPc.within_request {s : Nat} (hs : s < g.poolSize) (p : PushPc) : (p.request s).Within g := by
  cases p with
  | load => trivial
  | link old => exact hs
  | cas old => trivial

theorem PopPc.within_request {p : PopPc} (hp : p.Ok g.poolSize) : p.request.Within g := by
  cases p with
  | load => trivial
  | next old => exact hp
  | cas old nxt => trivial

theorem Pub.within_request (hg : g.Valid) {u : Pub} (h : u.Ok g) (hop : u.request g = some op) :
    op.Within g := by
  have hd := h.delivery_ok
  have hp := h.pc_ok
  unfold Pub.request at hop
  cases hpc : u.pc <;> rw [hpc] at hop hd hp <;> simp only [Option.some.injEq, reduceCtorEq] at hop <;> subst hop
  case releasePending s k p => exact p.within_request (h.pending_lt s hp)
  case allocate p => exact PopPc.within_request hp.2
  case storeLen s len => exact hp.1
  case presetRefcount s => exact hp
  case releaseSlot d pos idx => exact hp
  case releasePush d pos idx p => exact p.within_request hp
  case returnExcess d => exact hp.1
  case excessPush d p => exact p.within_request hp
  case signal | signalEarly | waitClock | stealCount => trivial
  case snapshot d | admitCas d _ | claim d | abandonDrop d _ | abandonLeave d _ | abandonWake d _ | abandonFutex d _
    | leave d | wake d | wakeFutex d => exact (hd d rfl).ring_lt
  case peek d pos | waitFirst d pos | waitLoad d pos _ _ | lock d pos _ _ _ | relook d pos _ _ | selfRepair d pos _
    | stealCas d pos _ | stealSkip d pos | check d pos | metaLoad d pos | metaCas d pos _ | commit d pos =>
    exact ⟨(hd d rfl).ring_lt, hg.entryIdx_lt pos⟩

theorem Sub.within_request (hg : g.Valid) {u : Sub} (h : u.Ok g) (hop : u.request g = some op) :
    op.Within g := by
  have hr := h.ring_lt
  have hj := h.joining_lt
  have hs := h.slot_lt
  have hp := h.pc_ok
  unfold Sub.request at hop
  cases hpc : u.pc <;> rw [hpc] at hop hr hj hs hp <;> simp only [Option.some.injEq, reduceCtorEq] at hop <;>
    subst hop
  case joinPos i | joinCas i _ | joinStart i _ | joinPid i _ | joinPos2 i _ => exact hj i rfl
  case recvRc _ _ s | recvPin _ _ s _ | recvUnpin _ s | recvLen _ s | drainSub _ _ s => exact hs s rfl
  case recvUnpinPush k s p => exact p.within_request (hs s rfl)
  case drainPush pos wp s p => exact p.within_request (hs s rfl)
  case copyOut v => exact ⟨hs _ rfl, hp⟩
  case copyDone v => exact hs _ rfl
  case copyPush v p => exact p.within_request (hs _ rfl)
  case parkClock | leaveClock | parked => trivial
  case recvSeq | recvMeta | recvSeq2 | armSeq | armSeq2 | drainMeta | drainCas => exact ⟨hr rfl, hg.entryIdx_lt _⟩
  all_goals exact hr rfl

theorem ViewPc.within_request {pc : ViewPc} (h : pc.Ok g) (hop : pc.request = some op) : op.Within g := by
  cases pc with
  | idle => cases hop
  | sub v =>
    obtain rfl := Option.some.inj hop
    exact h.1
  | push v p =>
    obtain rfl := Option.some.inj hop
    exact p.within_request h.1

theorem Repair.within_request (hg : g.Valid) {u : Repair} {t : Turns} (h : u.Walks g t)
    (hop : u.request g = some op) : op.Within g := by
  have hp := h.place
  unfold Repair.request at hop
  cases hpc : u.pc <;> rw [hpc] at hop hp <;> simp only [Option.some.injEq, reduceCtorEq] at hop <;> subst hop
  case ringPos => exact hp.1.ring
  case entry | stealCas | stealSkip =>
    obtain ⟨n, hring, -⟩ := hp
    exact ⟨hring.ring, hg.entryIdx_lt _⟩
  case graceLoad | graceCas | graceSkip => exact ⟨hp.1, hg.entryIdx_lt _⟩
  case stealCount | graceCount => trivial

theorem Reclaim.within_request {u : Reclaim} {t : Turns} (h : u.Walks g t) (hop : u.request = some op) :
    op.Within g := by
  have hp := h.place
  unfold Reclaim.request at hop
  cases hpc : u.pc <;> rw [hpc] at hop hp <;> simp only [Option.some.injEq, reduceCtorEq] at hop <;> subst hop
  case probe1 | probe2 => trivial
  all_goals exact (hp _ rfl).ring

theorem Orphan.within_request {u : Orphan} {t : Turns} (h : u.Walks g t) (hop : u.request = some op) :
    op.Within g := by
  have hp := h.place
  unfold Orphan.request at hop
  cases hpc : u.pc <;> rw [hpc] at hop hp <;> simp only [Option.some.injEq, reduceCtorEq] at hop <;> subst hop
  case count => exact ⟨hp.1.ring, hp.2.1⟩
  case top => trivial
  case walk => exact hp.1
  case reset => exact hp
  case push claims onStack idx p => exact p.within_request hp

theorem Stats.within_request {u : Stats} {t : Turns} (h : u.Walks g t) (hop : u.request = some op) :
    op.Within g := by
  have hp := h.place
  unfold Stats.request at hop
  cases hpc : u.pc <;> rw [hpc] at hop hp <;> simp only [Option.some.injEq, reduceCtorEq] at hop <;> subst hop
  case steals | top => trivial
  case walk => exact hp.1
  all_goals exact hp.1.ring

end Within

section Inside

variable {g : Geometry64} {total : UInt64} {s : Span}

/-- A field of a struct of `n` bytes. -/
theorem Span.inside_field {part : Part} {offset len align : Nat} (n : Nat) (hp : part.Exists g)
    (hn : part.size g = n) (h : offset < n ∧ offset + len ≤ n ∧ align ∣ 8 ∧ align ∣ offset) :
    Span.Inside g ⟨part, offset, len, align⟩ := by
  subst hn
  exact ⟨hp, h.1, h.2.1, h.2.2.1, h.2.2.2⟩

/-- A word whose indices are in range is inside its part. -/
theorem Loc.Within.inside {l : Loc} (hl : l.Within g.toGeometry) (hs : l.span = some s) :
    s.Inside g := by
  cases l with
  | futexWakes r => cases hs
  | freeTop | stealCount =>
    obtain rfl := Option.some.inj hs
    exact Span.inside_field 832 trivial rfl (by decide)
  | sequence r i | metaWord r i =>
    obtain rfl := Option.some.inj hs
    exact Span.inside_field 16 hl rfl (by decide)
  | refcount x | nextFree x | payloadLen x =>
    obtain rfl := Option.some.inj hs
    exact Span.inside_field 16 hl rfl (by decide)
  | _ =>
    obtain rfl := Option.some.inj hs
    exact Span.inside_field 128 hl rfl (by decide)

/-- The payload of a slot, as the application sees it. -/
theorem inside_payload (h : g.Opened total) {x len : Nat} (hx : x < g.poolSize.toNat)
    (hl : len ≤ g.slotDataSize.toNat) :
    Span.Inside g ⟨.payload x, 0, len, 1⟩ :=
  ⟨hx, h.slotDataSize.1, (Nat.zero_add len).trans_le hl, one_dvd _, one_dvd _⟩

theorem Op.Within.inside (h : g.Opened total) {op : Op} (ho : op.Within g.toGeometry) (hs : op.span = some s) :
    s.Inside g := by
  cases op with
  | load l | store l v | fetchAdd l k | fetchSub l k => exact Loc.Within.inside ho hs
  | cas weak l e d => exact Loc.Within.inside ho hs
  | futexWait r cur | futexWake r =>
    obtain rfl := Option.some.inj hs
    exact Span.inside_field 128 ho rfl (by decide)
  | copyOut x len =>
    obtain rfl := Option.some.inj hs
    exact inside_payload h ho.1 ho.2
  | probeOwner pid start => cases hs
  | clock => cases hs
  | signal => cases hs

theorem Schema.Client.Ok.inside {c : Schema.Client} (hc : c.Ok g.schemaBlobCapacity.toNat)
    (hs : (c.request.bind Schema.accessed).map Schema.Loc.span = some s) : s.Inside g := by
  have hstate : Span.Inside g (Schema.Loc.span .state) := Span.inside_field 832 trivial rfl (by decide)
  have hinfo : ∀ {k}, k < SchemaInfo.size → Span.Inside g (Schema.Loc.span (.info k)) := fun {k} hk => by
    unfold SchemaInfo.size at hk
    exact Span.inside_field 832 trivial rfl ⟨by omega, by omega, one_dvd _, one_dvd _⟩
  have hblob : ∀ {k}, k < g.schemaBlobCapacity.toNat → Span.Inside g (Schema.Loc.span (.blob k)) := fun hk =>
    ⟨trivial, hk, hk, one_dvd _, one_dvd _⟩
  unfold Schema.Client.Ok at hc
  unfold Schema.Client.request at hs
  cases hpc : c.pc <;> rw [hpc] at hs hc <;>
    simp only [Option.bind_some, Option.bind_none, Schema.accessed, Option.map_some, Option.map_none, reduceCtorEq,
      Option.some.injEq] at hs <;> subst hs
  case claim | publish | spin | reset | infoState | blobState => exact hstate
  case copyBlob => exact hblob (hc.1.trans_le hc.2)
  case copyInfo => exact hinfo hc
  case infoCopy => exact hinfo hc
  case blobSize k out =>
    refine hinfo ?_
    unfold SchemaInfo.blobSizeOffset SchemaInfo.size
    omega
  case blobCopy => exact hblob (hc.1.trans_le hc.2)

theorem Diagnose.inside (h : g.Opened total) {u : Diagnose} {t : Turns} (hu : u.Walks g.toGeometry t)
    (hs : (u.request g.toGeometry).bind Glance.span = some s) : s.Inside g := by
  have hp := hu.place
  have hword : ∀ {l : Loc}, l.Within g.toGeometry → l.span = some s → s.Inside g := fun hl => hl.inside
  unfold Diagnose.request at hs
  cases hpc : u.pc <;> rw [hpc] at hs hp <;>
    simp only [Option.bind_some, Option.bind_none, Glance.span, Op.span, reduceCtorEq] at hs
  case schemaState =>
    obtain rfl := Option.some.inj hs
    exact Span.inside_field 832 trivial rfl (by decide)
  case ringPos i => exact hword (l := .writePos i) hp.ring hs
  case entry i wp pos =>
    obtain ⟨n, hring, -⟩ := hp
    exact hword (l := .sequence i _) ⟨hring.ring, h.valid.entryIdx_lt pos⟩ hs
  case flight i => exact hword (l := .stateFlight i) hp.1 hs
  case pid i => exact hword (l := .ownerPid i) hp.1 hs
  case starttime i pid => exact hword (l := .ownerStarttime i) hp.1 hs

theorem Info.inside {u : Info} (hu : u.Ok g.toGeometry) (hs : u.request.bind Glance.span = some s) :
    s.Inside g := by
  unfold Info.request at hs
  cases hpc : u.pc <;> rw [hpc] at hs <;>
    simp only [Option.bind_some, Option.bind_none, Glance.span, reduceCtorEq, Option.some.injEq] at hs <;> subst hs
  case creatorName k len =>
    obtain ⟨hk, hlen⟩ := hu k len hpc
    exact ⟨trivial, hk.trans_le hlen, (Nat.succ_le_of_lt hk).trans hlen, one_dvd _, one_dvd _⟩
  all_goals exact Span.inside_field 832 trivial rfl (by decide)

/-- What a caller in bounds touches is inside. -/
theorem Caller.Ok.inside (h : g.Opened total) {c : Caller} {t : Turns} (hc : c.Ok g.toGeometry t)
    (hs : c.touched g.toGeometry = some s ∨ s ∈ c.lent g.toGeometry) : s.Inside g := by
  have hop : ∀ {o : Option Op}, (∀ op, o = some op → op.Within g.toGeometry) → o.bind Op.span = some s →
      s.Inside g := fun ho hb => by
    obtain ⟨op, rfl, hspan⟩ := Option.bind_eq_some_iff.mp hb
    exact (ho op rfl).inside h hspan
  rcases hs with hs | hs
  · rcases c with (u | u | pc | u | u | u) | u | u | u | u
    · exact hop (fun op ho => Pub.within_request h.valid hc.1 ho) hs
    · exact hop (fun op ho => Sub.within_request h.valid hc.1 ho) hs
    · exact hop (fun op ho => ViewPc.within_request hc.1 ho) hs
    · exact hop (fun op ho => Repair.within_request h.valid hc ho) hs
    · exact hop (fun op ho => Reclaim.within_request hc ho) hs
    · exact hop (fun op ho => Orphan.within_request hc ho) hs
    · exact hc.1.inside hs
    · exact Diagnose.inside h hc hs
    · exact hop (fun op ho => Stats.within_request hc ho) hs
    · exact Info.inside hc.1 hs
  · rcases c with (u | u | pc | u | u | u) | u | u | u | u
    · obtain ⟨x, hx, rfl⟩ := List.mem_map.mp hs
      exact inside_payload h (hc.1.pending_lt x (Option.mem_toList.mp hx)) (le_refl _)
    · obtain ⟨v, hv, rfl⟩ := List.mem_map.mp hs
      have hok := hc.1.views_ok v hv
      exact inside_payload h hok.1 hok.2
    all_goals exact absurd hs List.not_mem_nil

end Inside

theorem ok_reach {g : Geometry} (hg : g.Valid) {x : Caller × Turns} (h : (hostile g).Reach LTS.any x) :
    x.1.Ok g x.2 := by
  refine LTS.Reach.invariant (I := fun x => x.1.Ok g x.2) (fun y hy => ?_) (fun y l y' hI hs _ => ?_) h
  · rw [hy.2]
    exact Caller.ok_fresh hy.1
  · cases l with
    | inl a =>
      obtain ⟨hb, ht⟩ := hs
      rw [ht]
      exact hI.begin hg hb
    | inr r =>
      obtain ⟨hr, ht⟩ := hs
      rw [ht]
      exact hI.resume hg hr

/-- In a mapping whose header an opener has accepted, whatever that header is and whatever every later load
answers: each byte that a caller touches or hands out lies in the mapping and in the part it is meant for, at the
address of the unbounded arithmetic, on the alignment of its word; no two parts share a byte; and the walks over rings,
entries and the free stack are no longer than the accepted counts. -/
theorem region_bounds {h : Header} {m : Mapping} {g : Geometry64} (hok : validateOpened h m.size = .ok g) :
    (∀ p : Part, p.Exists g → (p.offset g).toNat = p.start g ∧ p.start g + p.size g ≤ m.size.toNat) ∧
    (∀ p q : Part, p.Exists g → q.Exists g → p ≠ q → Disjoint (p.bytes g) (q.bytes g)) ∧
    ∀ x, (hostile g.toGeometry).Reach LTS.any x →
      (∀ s, x.1.touched g.toGeometry = some s ∨ s ∈ x.1.lent g.toGeometry → m.Sound g s) ∧
      x.2.Bounded g.toGeometry := by
  obtain ⟨total, htotal, hopen⟩ := opened_of_validateOpened hok
  refine ⟨fun p hp => ⟨hopen.offset_toNat hp, (hopen.start_le hp).trans htotal⟩,
    fun p q hp hq hpq => hopen.bytes_disjoint hp hq hpq, fun x hx => ?_⟩
  have hcaller := ok_reach hopen.valid hx
  exact ⟨fun s hs => hopen.sound htotal (hcaller.inside hopen hs), hcaller.bounded⟩

/-- A header with gaps that no creator leaves, of a region with 3 rings of 4 entries and 7 slots. -/
def gappyHeader : Header where
  magic := magic
  version := version
  channelType := 2
  totalSize := 4096
  subRingsOffset := 1024
  poolOffset := 2048
  maxSubs := 3
  subRingCapacity := 4
  subRingMask := 3
  poolSize := 7
  slotDataSize := 50
  slotStride := 192
  subRingStride := 320
  schemaBlobOffset := 896
  schemaBlobCapacity := 100
  commitTimeoutUs := 10000
  configHash := 0
  creatorPid := 0
  createdAtNs := 0
  creatorNameLen := 4
  identityHash := 0

/-- A page at `0x10000`. -/
def pageMapping : Mapping := ⟨65536, 4096, rfl, by decide⟩

/-- A publisher that pops from a free stack whose top a peer has pointed at slot 5. -/
theorem region_bounds_gappy : ∃ g, validateOpened gappyHeader pageMapping.size = .ok g ∧
    pageMapping.Sound g ⟨.slotHeader 5, 4, 4, 4⟩ := by
  have hok : validateOpened gappyHeader pageMapping.size = .ok gappyHeader.snapshot.geometry := by decide +kernel
  refine ⟨_, hok, ?_⟩
  have hstart : (hostile gappyHeader.snapshot.geometry.toGeometry).Reach LTS.any
      (.actor (.pub ⟨none, 0, 0, false, 0, .idle⟩), .zero) := .init ⟨⟨1, 1, rfl, rfl, rfl⟩, rfl⟩
  have hcall : (hostile gappyHeader.snapshot.geometry.toGeometry).Reach LTS.any
      (.actor (.pub ⟨none, 1, 0, false, 0, .allocate .load⟩), .zero) :=
    hstart.step (l := .inl (.call .allocate)) ⟨rfl, rfl⟩ trivial
  have hload : (hostile gappyHeader.snapshot.geometry.toGeometry).Reach LTS.any
      (.actor (.pub ⟨none, 1, 0, false, 0, .allocate (.next 5)⟩), .zero) :=
    hcall.step (l := .inr ⟨5, true⟩) ⟨rfl, rfl⟩ trivial
  exact ((region_bounds hok).2.2 _ hload).1 _ (.inl rfl)

end Kickmsg
