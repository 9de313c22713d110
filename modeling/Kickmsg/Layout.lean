import Kickmsg.Hash
import Kickmsg.Region
import Kickmsg.Schema
import Mathlib.Order.CompletePartialOrder

/-!
# Creating and opening a region

`validate_config`, `compute_layout` and `stamp_new_region` on the creator's side, `validate_snapshot`
and `validate_opened` on the opener's, in 64-bit arithmetic. The two sides derive and check the layout
independently of each other.

The result: a layout that is accepted is the layout over unbounded integers, its areas are disjoint,
aligned and inside the region, and the opener of the stamped header gets the creator's geometry.
-/

namespace Kickmsg

open Lib

/-- The exceptions of `Region.cc`. -/
inductive RegionError
  | runtime (what : String)
  | versionMismatch (what : String)
  deriving DecidableEq, Repr

/-- `if (bad) { throw std::runtime_error(what); }`, one after another. -/
def throwFirst : List (Bool × String) → Except RegionError Unit
  | [] => .ok ()
  | (bad, what) :: rest => if bad then .error (.runtime what) else throwFirst rest

@[simp]
theorem throwFirst_nil : throwFirst [] = .ok () := rfl

theorem throwFirst_cons_ok {bad : Bool} {what : String} {rest : List (Bool × String)} :
    throwFirst ((bad, what) :: rest) = .ok () ↔ bad = false ∧ throwFirst rest = .ok () := by
  rw [throwFirst]
  cases bad
  · simp
  · simp

theorem throwFirst_bind_ok {α : Type} {checks : List (Bool × String)} {next : Except RegionError α}
    {a : α} : (throwFirst checks >>= fun _ => next) = .ok a ↔
      throwFirst checks = .ok () ∧ next = .ok a := by
  cases h : throwFirst checks with
  | error e => simp [bind, Except.bind]
  | ok u => simp [bind, Except.bind]

/-! ## The creator's side -/

def magic : UInt64 := 0x4B49434B4D534721
def version : UInt32 := 10
def sizeMax : UInt64 := 0xFFFFFFFFFFFFFFFF
def uint32Max : UInt64 := 0xFFFFFFFF
def uint16Max : Nat := 0xFFFF

/-- `channel::Type`. -/
inductive ChannelType
  | none | pubSub | broadcast
  deriving DecidableEq, Repr

def ChannelType.code : ChannelType → UInt32
  | .none => 0
  | .pubSub => 1
  | .broadcast => 2

/-- `channel::Config`. -/
structure ChannelConfig where
  maxSubscribers : UInt64
  subRingCapacity : UInt64
  poolSize : UInt64
  maxPayloadSize : UInt64
  commitTimeout : Int64
  schema : Option SchemaInfo
  schemaCapacity : UInt64
  schemaBlob : List UInt8
  identity : UInt64

/-- The counts as unbounded integers. -/
def ChannelConfig.counts (cfg : ChannelConfig) : Config where
  maxSubscribers := cfg.maxSubscribers.toNat
  subRingCapacity := cfg.subRingCapacity.toNat
  poolSize := cfg.poolSize.toNat
  maxPayloadSize := cfg.maxPayloadSize.toNat
  commitTimeout := cfg.commitTimeout.toUInt64.toNat
  schemaCapacity := cfg.schemaCapacity.toNat

def isPowerOfTwo (n : UInt64) : Bool := 0 < n && (n &&& (n - 1)) == 0

/-- `align_up`. -/
def alignUp64 (val alignment : UInt64) : UInt64 := (val + alignment - 1) &&& ~~~(alignment - 1)

def validateConfig (type : ChannelType) (cfg : ChannelConfig) : Except RegionError Unit :=
  throwFirst
    [(type != .pubSub && type != .broadcast, "Unsupported channel type"),
     (!isPowerOfTwo cfg.subRingCapacity, "sub_ring_capacity must be a power of 2"),
     (cfg.poolSize == 0, "pool_size must be > 0"),
     (cfg.poolSize > UInt64.ofNat maxPoolSize, "pool_size exceeds MAX_POOL_SIZE"),
     (cfg.maxSubscribers == 0, "max_subscribers must be > 0"),
     (cfg.maxSubscribers > UInt64.ofNat maxSubscribers, "max_subscribers exceeds MAX_SUBSCRIBERS"),
     (cfg.maxPayloadSize == 0, "max_payload_size must be > 0"),
     (cfg.maxPayloadSize > UInt64.ofNat maxPayloadSize, "max_payload_size exceeds MAX_PAYLOAD_SIZE"),
     (cfg.schemaCapacity > uint32Max, "schema_capacity exceeds 4 GiB"),
     (cfg.schemaBlob.length > cfg.schemaCapacity.toNat, "schema_blob exceeds schema_capacity"),
     (!cfg.schemaBlob.isEmpty && !cfg.schema.isSome, "schema_blob requires schema")]

/-- `struct RegionLayout`. -/
structure RegionLayout where
  headerSize : UInt64
  ringStride : UInt64
  slotStride : UInt64
  schemaBlobOffset : UInt64
  subRingsOffset : UInt64
  poolOffset : UInt64
  totalSize : UInt64
  creatorLen : UInt16
  deriving DecidableEq, Repr

/-- The sizes of the shared structs as `std::size_t`. -/
def sizeofHeader64 : UInt64 := UInt64.ofNat sizeofHeader
def sizeofSubRingHeader64 : UInt64 := UInt64.ofNat sizeofSubRingHeader
def sizeofEntry64 : UInt64 := UInt64.ofNat sizeofEntry
def sizeofSlotHeader64 : UInt64 := UInt64.ofNat sizeofSlotHeader
def cacheLine64 : UInt64 := UInt64.ofNat cacheLine

/-- `compute_layout`; a null `creator_name` is `none`, any other is its bytes before the terminator. -/
def computeLayout (cfg : ChannelConfig) (creatorName : Option (List UInt8)) :
    Except RegionError RegionLayout := do
  let some name := creatorName | .error (.runtime "creator_name must not be null")
  let creatorLen := UInt16.ofNat name.length
  let headerSize := alignUp64 (sizeofHeader64 + creatorLen.toUInt64) cacheLine64
  let ringStride := alignUp64 (sizeofSubRingHeader64 + cfg.subRingCapacity * sizeofEntry64) cacheLine64
  let slotStride := alignUp64 (sizeofSlotHeader64 + cfg.maxPayloadSize) cacheLine64
  let subRingsOffset := alignUp64 (headerSize + cfg.schemaCapacity) cacheLine64
  let poolOffset := subRingsOffset + cfg.maxSubscribers * ringStride
  throwFirst
    [(name.length > uint16Max, "creator_name exceeds 65535 bytes"),
     (cfg.subRingCapacity > (sizeMax - sizeofSubRingHeader64 - cacheLine64) / sizeofEntry64,
      "Config too large: ring stride overflows"),
     (cfg.maxPayloadSize > sizeMax - sizeofSlotHeader64 - cacheLine64,
      "Config too large: slot stride overflows"),
     (cfg.schemaCapacity > sizeMax - headerSize - cacheLine64,
      "Config too large: schema_capacity overflows"),
     (cfg.maxSubscribers > (sizeMax - subRingsOffset) / ringStride,
      "Config too large: subscriber rings overflow"),
     (cfg.poolSize > (sizeMax - poolOffset) / slotStride, "Config too large: slot pool overflow")]
  return {
    headerSize := headerSize
    ringStride := ringStride
    slotStride := slotStride
    schemaBlobOffset := headerSize
    subRingsOffset := subRingsOffset
    poolOffset := poolOffset
    totalSize := poolOffset + cfg.poolSize * slotStride
    creatorLen := creatorLen }

/-- `struct Geometry`, at its own width. -/
structure Geometry64 where
  subRingsOffset : UInt64
  subRingStride : UInt64
  subRingCapacity : UInt64
  subRingMask : UInt64
  poolOffset : UInt64
  slotStride : UInt64
  poolSize : UInt64
  slotDataSize : UInt64
  maxSubs : UInt64
  commitTimeoutUs : UInt64
  schemaBlobOffset : UInt64
  schemaBlobCapacity : UInt64
  deriving DecidableEq, Repr

def Geometry64.toGeometry (g : Geometry64) : Geometry where
  subRingsOffset := g.subRingsOffset.toNat
  subRingStride := g.subRingStride.toNat
  subRingCapacity := g.subRingCapacity.toNat
  subRingMask := g.subRingMask.toNat
  poolOffset := g.poolOffset.toNat
  slotStride := g.slotStride.toNat
  poolSize := g.poolSize.toNat
  slotDataSize := g.slotDataSize.toNat
  maxSubs := g.maxSubs.toNat
  commitTimeoutUs := g.commitTimeoutUs.toNat
  schemaBlobOffset := g.schemaBlobOffset.toNat
  schemaBlobCapacity := g.schemaBlobCapacity.toNat

/-- The fields of `struct Header` that are written once; the schema words and the free stack are in
`Schema` and `Memory`. -/
structure Header where
  magic : UInt64
  version : UInt32
  channelType : UInt32
  totalSize : UInt64
  subRingsOffset : UInt64
  poolOffset : UInt64
  maxSubs : UInt64
  subRingCapacity : UInt64
  subRingMask : UInt64
  poolSize : UInt64
  slotDataSize : UInt64
  slotStride : UInt64
  subRingStride : UInt64
  schemaBlobOffset : UInt64
  schemaBlobCapacity : UInt64
  commitTimeoutUs : UInt64
  configHash : UInt64
  creatorPid : UInt64
  createdAtNs : UInt64
  creatorNameLen : UInt16
  identityHash : UInt64
  deriving DecidableEq, Repr

def computeConfigHash (type : ChannelType) (cfg : ChannelConfig) : UInt64 :=
  [cfg.maxSubscribers, cfg.subRingCapacity, cfg.poolSize, cfg.maxPayloadSize,
    cfg.commitTimeout.toUInt64, cfg.schemaCapacity].foldl
    (fun h v => Hash.fnv1a64 (Hash.bytes64 v) h)
    (Hash.fnv1a64 (Hash.bytes32 type.code) Hash.fnv1aOffsetBasis)

/-- A region as its creator leaves it: the geometry it keeps, and the shared memory by parts. -/
structure SharedRegion where
  geometry : Geometry64
  header : Header
  creatorName : List UInt8
  words : Mem
  schemaWords : Schema.Loc → Nat

/-- `SharedRegion::stamp_new_region`, in the process `pid` at the time `now`. -/
def SharedRegion.stampNewRegion (type : ChannelType) (cfg : ChannelConfig) (name : List UInt8)
    (layout : RegionLayout) (pid now : UInt64) : SharedRegion :=
  let geometry : Geometry64 :=
    { subRingsOffset := layout.subRingsOffset
      subRingStride := layout.ringStride
      subRingCapacity := cfg.subRingCapacity
      subRingMask := cfg.subRingCapacity - 1
      poolOffset := layout.poolOffset
      slotStride := layout.slotStride
      poolSize := cfg.poolSize
      slotDataSize := cfg.maxPayloadSize
      maxSubs := cfg.maxSubscribers
      commitTimeoutUs := cfg.commitTimeout.toUInt64
      schemaBlobOffset := layout.schemaBlobOffset
      schemaBlobCapacity := cfg.schemaCapacity }
  { geometry := geometry
    header :=
      { magic := Kickmsg.magic
        version := Kickmsg.version
        channelType := type.code
        totalSize := layout.totalSize
        subRingsOffset := layout.subRingsOffset
        poolOffset := layout.poolOffset
        maxSubs := cfg.maxSubscribers
        subRingCapacity := cfg.subRingCapacity
        subRingMask := cfg.subRingCapacity - 1
        poolSize := cfg.poolSize
        slotDataSize := cfg.maxPayloadSize
        slotStride := layout.slotStride
        subRingStride := layout.ringStride
        schemaBlobOffset := layout.schemaBlobOffset
        schemaBlobCapacity := cfg.schemaCapacity
        commitTimeoutUs := cfg.commitTimeout.toUInt64
        configHash := computeConfigHash type cfg
        creatorPid := pid
        createdAtNs := now
        creatorNameLen := layout.creatorLen
        identityHash := cfg.identity }
    creatorName := name.take layout.creatorLen.toNat
    words := Kickmsg.stampNewRegion geometry.toGeometry
    schemaWords := Schema.stampSchema (cfg.schema.map fun info => (info, cfg.schemaBlob)) }

/-! ## The opener's side -/

/-- `struct HeaderSnapshot`. -/
structure HeaderSnapshot where
  geometry : Geometry64
  channelType : UInt32
  totalSize : UInt64
  creatorNameLen : UInt16
  deriving DecidableEq, Repr

def validateSnapshot (snapshot : HeaderSnapshot) (size : UInt64) : Except RegionError Unit :=
  let g := snapshot.geometry
  throwFirst
    [(size < snapshot.totalSize, "Buffer smaller than embedded region total_size"),
     (snapshot.channelType != ChannelType.pubSub.code && snapshot.channelType != ChannelType.broadcast.code,
      "Header geometry: unsupported channel type"),
     (snapshot.totalSize < sizeofHeader64, "Header geometry: total_size smaller than Header"),
     (g.maxSubs == 0 || g.poolSize == 0 || g.slotDataSize == 0 || g.subRingCapacity == 0 ||
        g.slotStride == 0 || g.subRingStride == 0, "Header geometry: zero-cardinality field"),
     (g.poolSize > UInt64.ofNat maxPoolSize, "Header geometry: pool_size exceeds MAX_POOL_SIZE"),
     (g.slotDataSize > UInt64.ofNat maxPayloadSize,
      "Header geometry: slot_data_size exceeds MAX_PAYLOAD_SIZE"),
     (g.maxSubs > UInt64.ofNat maxSubscribers, "Header geometry: max_subs exceeds MAX_SUBSCRIBERS"),
     (!isPowerOfTwo g.subRingCapacity, "Header geometry: sub_ring_capacity not a power of 2"),
     (g.subRingMask != g.subRingCapacity - 1,
      "Header geometry: sub_ring_mask inconsistent with capacity"),
     (g.subRingsOffset < sizeofHeader64 || g.subRingsOffset >= g.poolOffset ||
        g.poolOffset >= snapshot.totalSize, "Header geometry: ring/pool offsets out of range"),
     (g.schemaBlobOffset < sizeofHeader64 || g.schemaBlobOffset > g.subRingsOffset,
      "Header geometry: schema blob offset out of range"),
     (g.schemaBlobCapacity > uint32Max || g.schemaBlobCapacity > g.subRingsOffset - g.schemaBlobOffset,
      "Header geometry: schema blob capacity out of range"),
     (snapshot.creatorNameLen.toUInt64 > g.schemaBlobOffset - sizeofHeader64,
      "Header geometry: creator_name_len exceeds tail"),
     (g.schemaBlobOffset % cacheLine64 != 0 || g.subRingsOffset % cacheLine64 != 0 ||
        g.poolOffset % cacheLine64 != 0 || g.subRingStride % cacheLine64 != 0 ||
        g.slotStride % cacheLine64 != 0, "Header geometry: offset or stride not cache-line aligned"),
     (g.subRingCapacity > snapshot.totalSize / sizeofEntry64,
      "Header geometry: sub_ring_capacity exceeds region"),
     (g.subRingStride < sizeofSubRingHeader64 + g.subRingCapacity * sizeofEntry64,
      "Header geometry: sub_ring_stride too small"),
     (g.slotDataSize > snapshot.totalSize - sizeofSlotHeader64,
      "Header geometry: slot_data_size exceeds region"),
     (g.slotStride < sizeofSlotHeader64 + g.slotDataSize, "Header geometry: slot_stride too small"),
     (g.maxSubs > (g.poolOffset - g.subRingsOffset) / g.subRingStride,
      "Header geometry: subscriber rings overflow pool_offset"),
     (g.poolSize > (snapshot.totalSize - g.poolOffset) / g.slotStride,
      "Header geometry: slot pool overflow total_size")]

/-- The single copy of the header that is checked. -/
def Header.snapshot (h : Header) : HeaderSnapshot where
  geometry :=
    { subRingsOffset := h.subRingsOffset
      subRingStride := h.subRingStride
      subRingCapacity := h.subRingCapacity
      subRingMask := h.subRingMask
      poolOffset := h.poolOffset
      slotStride := h.slotStride
      poolSize := h.poolSize
      slotDataSize := h.slotDataSize
      maxSubs := h.maxSubs
      commitTimeoutUs := h.commitTimeoutUs
      schemaBlobOffset := h.schemaBlobOffset
      schemaBlobCapacity := h.schemaBlobCapacity }
  channelType := h.channelType
  totalSize := h.totalSize
  creatorNameLen := h.creatorNameLen

/-- `validate_opened` on a mapping of `size` bytes that starts with the header `h`. -/
def validateOpened (h : Header) (size : UInt64) : Except RegionError Geometry64 := do
  throwFirst
    [(size < sizeofHeader64, "Buffer smaller than region Header"),
     (h.magic != magic, "Invalid shared memory (bad magic)")]
  if h.version != version then
    .error (.versionMismatch "Region version mismatch")
  else
    validateSnapshot h.snapshot size
    return h.snapshot.geometry

/-! ## Areas -/

/-- `sub_ring_at`, as an offset from the base. -/
def subRingAt (g : Geometry64) (idx : UInt32) : UInt64 := g.subRingsOffset + idx.toUInt64 * g.subRingStride

/-- `slot_at`, as an offset from the base. -/
def slotAt (g : Geometry64) (idx : UInt32) : UInt64 := g.poolOffset + idx.toUInt64 * g.slotStride

/-- The areas of a region. -/
inductive Area
  | header
  | creatorName
  | schemaBlob
  | subRing (idx : UInt32)
  | slot (idx : UInt32)
  deriving DecidableEq, Repr

namespace Area

/-- Where pointer arithmetic on `g` finds an area. -/
def offset (g : Geometry64) : Area → UInt64
  | header => 0
  | creatorName => sizeofHeader64
  | schemaBlob => g.schemaBlobOffset
  | subRing idx => subRingAt g idx
  | slot idx => slotAt g idx

def size (g : Geometry64) (creatorLen : UInt16) : Area → Nat
  | header => sizeofHeader
  | creatorName => creatorLen.toNat
  | schemaBlob => g.schemaBlobCapacity.toNat
  | subRing _ => sizeofSubRingHeader + g.subRingCapacity.toNat * sizeofEntry
  | slot _ => sizeofSlotHeader + g.slotDataSize.toNat

/-- The areas that exist. -/
def Exists (g : Geometry64) : Area → Prop
  | subRing idx => idx.toNat < g.maxSubs.toNat
  | slot idx => idx.toNat < g.poolSize.toNat
  | _ => True

/-- The bytes of an area. -/
def bytes (g : Geometry64) (creatorLen : UInt16) (a : Area) : Set Nat :=
  Set.Ico (a.offset g).toNat ((a.offset g).toNat + a.size g creatorLen)

end Area

/-! ## 64-bit arithmetic that does not wrap -/

section Arithmetic

theorem toNat_add_of_lt {a b : UInt64} (h : a.toNat + b.toNat < 2 ^ 64) :
    (a + b).toNat = a.toNat + b.toNat := by
  rw [UInt64.toNat_add, Nat.mod_eq_of_lt h]

theorem toNat_mul_of_lt {a b : UInt64} (h : a.toNat * b.toNat < 2 ^ 64) :
    (a * b).toNat = a.toNat * b.toNat := by
  rw [UInt64.toNat_mul, Nat.mod_eq_of_lt h]

/-- `align_up` by a cache line, away from the end of the address space. -/
theorem alignUp64_toNat {val : UInt64} (h : val.toNat + cacheLine < 2 ^ 64) :
    (alignUp64 val cacheLine64).toNat = alignUp val.toNat cacheLine := by
  unfold cacheLine at *
  have hc : cacheLine64.toNat = 64 := by decide
  have hone : (val + cacheLine64 - 1).toNat = val.toNat + 63 := by
    rw [UInt64.toNat_sub_of_le, toNat_add_of_lt (by omega), hc]
    · rfl
    · rw [UInt64.le_iff_toNat_le, toNat_add_of_lt (by omega), hc]
      exact Nat.le_add_left_of_le (by decide)
  have hmask : (~~~(cacheLine64 - 1)).toNat = 2 ^ 64 - 1 - (2 ^ 6 - 1) := by decide
  rw [alignUp64, UInt64.toNat_and, hone, hmask, and_compl_low (by decide) (by omega)]
  rfl

theorem le_alignUp (val : Nat) : val ≤ alignUp val cacheLine := by
  unfold alignUp cacheLine
  omega

theorem alignUp_lt (val : Nat) : alignUp val cacheLine < val + cacheLine := by
  unfold alignUp cacheLine
  omega

theorem alignUp_mod (val : Nat) : alignUp val cacheLine % cacheLine = 0 := by
  unfold alignUp
  exact Nat.mul_mod_left _ _

/-- A power of two at 64 bits. -/
theorem isPowerOfTwo_iff (n : UInt64) : isPowerOfTwo n = true ↔ ∃ k < 64, n.toNat = 2 ^ k := by
  have hn : n.toNat < 2 ^ 64 := n.toNat_lt
  by_cases h0 : n.toNat = 0
  · have hz : n = 0 := UInt64.toNat_inj.1 h0
    subst hz
    simp only [isPowerOfTwo, UInt64.toNat_zero]
    constructor
    · intro h
      exact absurd h (by decide)
    · rintro ⟨k, -, hk⟩
      exact absurd hk (Nat.two_pow_pos k).ne
  · have hsub : (n - 1).toNat = n.toNat - 1 :=
      UInt64.toNat_sub_of_le _ _ (UInt64.le_iff_toNat_le.2 (by simpa using Nat.one_le_iff_ne_zero.2 h0))
    have hpos : (0 : UInt64) < n := UInt64.lt_iff_toNat_lt.2 (by simpa using Nat.pos_of_ne_zero h0)
    have hand : (n &&& (n - 1)) = 0 ↔ n.toNat &&& (n.toNat - 1) = 0 := by
      rw [← UInt64.toNat_inj, UInt64.toNat_and, hsub]
      rfl
    simp only [isPowerOfTwo, hpos, decide_true, Bool.true_and, beq_iff_eq, hand,
      Nat.and_sub_one_eq_zero_iff_isPowerOfTwo h0]
    constructor
    · rintro ⟨k, hk⟩
      refine ⟨k, ?_, hk⟩
      rw [hk] at hn
      exact (Nat.pow_lt_pow_iff_right (by decide)).1 hn
    · rintro ⟨k, -, hk⟩
      exact ⟨k, hk⟩

end Arithmetic

/-! ## The layout over unbounded integers -/

/-- `struct RegionLayout` over unbounded integers. -/
structure UnboundedLayout where
  headerSize : Nat
  ringStride : Nat
  slotStride : Nat
  schemaBlobOffset : Nat
  subRingsOffset : Nat
  poolOffset : Nat
  totalSize : Nat
  creatorLen : Nat
  deriving DecidableEq, Repr

def RegionLayout.unbounded (l : RegionLayout) : UnboundedLayout where
  headerSize := l.headerSize.toNat
  ringStride := l.ringStride.toNat
  slotStride := l.slotStride.toNat
  schemaBlobOffset := l.schemaBlobOffset.toNat
  subRingsOffset := l.subRingsOffset.toNat
  poolOffset := l.poolOffset.toNat
  totalSize := l.totalSize.toNat
  creatorLen := l.creatorLen.toNat

/-- The layout for `cfg` and a name of `creatorLen` bytes, with nothing cut off. -/
def Config.layout (cfg : Config) (creatorLen : Nat) : UnboundedLayout :=
  let g := cfg.geometry creatorLen
  { headerSize := g.schemaBlobOffset
    ringStride := g.subRingStride
    slotStride := g.slotStride
    schemaBlobOffset := g.schemaBlobOffset
    subRingsOffset := g.subRingsOffset
    poolOffset := g.poolOffset
    totalSize := g.poolOffset + g.poolSize * g.slotStride
    creatorLen := creatorLen }

/-- What `validate_config` leaves of a configuration. -/
structure ChannelConfig.Checked (cfg : ChannelConfig) : Prop where
  capacity : isPowerOfTwo cfg.subRingCapacity = true
  poolSize : 0 < cfg.poolSize.toNat ∧ cfg.poolSize.toNat ≤ maxPoolSize
  maxSubscribers : 0 < cfg.maxSubscribers.toNat ∧ cfg.maxSubscribers.toNat ≤ Kickmsg.maxSubscribers
  maxPayloadSize : 0 < cfg.maxPayloadSize.toNat ∧ cfg.maxPayloadSize.toNat ≤ Kickmsg.maxPayloadSize
  schemaCapacity : cfg.schemaCapacity.toNat < 2 ^ 32

theorem beq_zero_eq_false {v : UInt64} : (v == 0) = false ↔ 0 < v.toNat := by
  rw [beq_eq_false_iff_ne, ne_eq, ← UInt64.toNat_inj, UInt64.toNat_zero]
  exact Nat.pos_iff_ne_zero.symm

theorem decide_gt_eq_false {v b : UInt64} : decide (v > b) = false ↔ v.toNat ≤ b.toNat := by
  rw [decide_eq_false_iff_not, gt_iff_lt, UInt64.lt_iff_toNat_lt, Nat.not_lt]

theorem validateConfig_checked {type : ChannelType} {cfg : ChannelConfig}
    (h : validateConfig type cfg = .ok ()) :
    (type = .pubSub ∨ type = .broadcast) ∧ cfg.Checked := by
  simp only [validateConfig, throwFirst_cons_ok, beq_zero_eq_false, decide_gt_eq_false,
    Bool.not_eq_eq_eq_not, Bool.not_false] at h
  obtain ⟨ht, hc, hp, hp', hs, hs', hd, hd', hb, -, -, -⟩ := h
  refine ⟨?_, hc, ⟨hp, hp'⟩, ⟨hs, hs'⟩, ⟨hd, hd'⟩, Nat.lt_succ_of_le hb⟩
  cases type
  · simp at ht
  · exact .inl rfl
  · exact .inr rfl

/-- What `compute_layout` leaves of a checked configuration: every sum and product fits 64 bits. -/
structure Config.Fits (cfg : Config) (creatorLen : Nat) : Prop where
  name : creatorLen ≤ uint16Max
  capacity : sizeofSubRingHeader + cfg.subRingCapacity * sizeofEntry + cacheLine < 2 ^ 64
  rings : (cfg.geometry creatorLen).poolOffset < 2 ^ 64
  pool : (cfg.layout creatorLen).totalSize < 2 ^ 64

/-- The quotient checks of `compute_layout`. -/
theorem add_mul_lt_of_le_div {off n stride : Nat} (ho : off < 2 ^ 64)
    (h : n ≤ (2 ^ 64 - 1 - off) / stride) : off + n * stride < 2 ^ 64 := by
  have hm : n * stride ≤ 2 ^ 64 - 1 - off :=
    le_trans (Nat.mul_le_mul_right _ h) (Nat.div_mul_le_self _ _)
  omega

theorem toNat_sizeMax_sub (v : UInt64) : (sizeMax - v).toNat = 2 ^ 64 - 1 - v.toNat :=
  UInt64.toNat_sub_of_le _ _ (UInt64.le_iff_toNat_le.2 (Nat.le_pred_of_lt v.toNat_lt))

/-- The header with its name, as the creator rounds it. -/
theorem headerSize_toNat (len : UInt16) : (alignUp64 (sizeofHeader64 + len.toUInt64) cacheLine64).toNat =
    alignUp (sizeofHeader + len.toNat) cacheLine := by
  have hl : len.toNat < 2 ^ 16 := len.toNat_lt
  have hh : sizeofHeader64.toNat = 832 := by decide
  have hs : (sizeofHeader64 + len.toUInt64).toNat = sizeofHeader + len.toNat := by
    rw [toNat_add_of_lt (by rw [hh, UInt16.toNat_toUInt64]; omega), UInt16.toNat_toUInt64]
    rfl
  rw [alignUp64_toNat, hs]
  rw [hs]
  unfold sizeofHeader cacheLine
  omega

theorem ringStride_toNat {cap : UInt64}
    (h : cap.toNat ≤ ((sizeMax - sizeofSubRingHeader64 - cacheLine64) / sizeofEntry64).toNat) :
    sizeofSubRingHeader + cap.toNat * sizeofEntry + cacheLine < 2 ^ 64 ∧
      (alignUp64 (sizeofSubRingHeader64 + cap * sizeofEntry64) cacheLine64).toNat =
        alignUp (sizeofSubRingHeader + cap.toNat * sizeofEntry) cacheLine := by
  have hq : ((sizeMax - sizeofSubRingHeader64 - cacheLine64) / sizeofEntry64).toNat =
      (2 ^ 64 - 193) / 16 := by decide
  have he : sizeofEntry64.toNat = sizeofEntry := by decide
  have hr : sizeofSubRingHeader64.toNat = sizeofSubRingHeader := by decide
  have hfit : sizeofSubRingHeader + cap.toNat * sizeofEntry + cacheLine < 2 ^ 64 := by
    unfold sizeofSubRingHeader sizeofEntry cacheLine
    omega
  have hm : (cap * sizeofEntry64).toNat = cap.toNat * sizeofEntry := by
    rw [toNat_mul_of_lt (by rw [he]; omega), he]
  have hs : (sizeofSubRingHeader64 + cap * sizeofEntry64).toNat =
      sizeofSubRingHeader + cap.toNat * sizeofEntry := by
    rw [toNat_add_of_lt (by rw [hm, hr]; omega), hm, hr]
  refine ⟨hfit, ?_⟩
  rw [alignUp64_toNat (by rw [hs]; exact hfit), hs]

theorem slotStride_toNat {payload : UInt64} (h : payload.toNat ≤ maxPayloadSize) :
    (alignUp64 (sizeofSlotHeader64 + payload) cacheLine64).toNat =
      alignUp (sizeofSlotHeader + payload.toNat) cacheLine := by
  unfold maxPayloadSize at h
  have hr : sizeofSlotHeader64.toNat = 16 := by decide
  have hs : (sizeofSlotHeader64 + payload).toNat = sizeofSlotHeader + payload.toNat := by
    rw [toNat_add_of_lt (by rw [hr]; omega)]
    rfl
  rw [alignUp64_toNat, hs]
  rw [hs]
  unfold sizeofSlotHeader cacheLine
  omega

/-- The check before an array of `n` elements is placed at `off`, and the end of that array. -/
theorem place_toNat {off n stride : UInt64} (h : n.toNat ≤ ((sizeMax - off) / stride).toNat) :
    off.toNat + n.toNat * stride.toNat < 2 ^ 64 ∧
      (off + n * stride).toNat = off.toNat + n.toNat * stride.toNat := by
  rw [UInt64.toNat_div, toNat_sizeMax_sub] at h
  have hfit := add_mul_lt_of_le_div off.toNat_lt h
  have hm : (n * stride).toNat = n.toNat * stride.toNat := toNat_mul_of_lt (by omega)
  exact ⟨hfit, by rw [toNat_add_of_lt (by rw [hm]; exact hfit), hm]⟩

/-- `compute_layout` computes the unbounded layout. -/
theorem computeLayout_ok {cfg : ChannelConfig} {creatorName : Option (List UInt8)}
    {layout : RegionLayout} (hc : cfg.Checked) (h : computeLayout cfg creatorName = .ok layout) :
    ∃ name, creatorName = some name ∧ cfg.counts.Fits name.length ∧
      layout.unbounded = cfg.counts.layout name.length := by
  cases creatorName with
  | none => simp [computeLayout] at h
  | some name =>
    simp only [computeLayout, throwFirst_bind_ok, throwFirst_cons_ok, decide_gt_eq_false] at h
    obtain ⟨⟨hname, hcap, -, -, hrings, hpool, -⟩, hl⟩ := h
    have hname : name.length ≤ uint16Max := Nat.not_lt.1 (of_decide_eq_false hname)
    have hlen : (UInt16.ofNat name.length).toNat = name.length := by
      unfold uint16Max at hname
      rw [UInt16.toNat_ofNat', Nat.mod_eq_of_lt (by omega)]
    obtain ⟨hcapfit, hring⟩ := ringStride_toNat hcap
    have hslot := slotStride_toNat hc.maxPayloadSize.2
    have hheader := headerSize_toNat (UInt16.ofNat name.length)
    rw [hlen] at hheader
    generalize alignUp64 (sizeofHeader64 + (UInt16.ofNat name.length).toUInt64) cacheLine64 = H at *
    generalize alignUp64 (sizeofSubRingHeader64 + cfg.subRingCapacity * sizeofEntry64) cacheLine64 = R at *
    generalize alignUp64 (sizeofSlotHeader64 + cfg.maxPayloadSize) cacheLine64 = S at *
    have hH : H.toNat < 2 ^ 17 := by
      have := alignUp_lt (sizeofHeader + name.length)
      unfold uint16Max at hname
      unfold sizeofHeader cacheLine at *
      omega
    have hblob : (H + cfg.schemaCapacity).toNat = H.toNat + cfg.schemaCapacity.toNat :=
      toNat_add_of_lt (by have := hc.schemaCapacity; omega)
    have hoff : (alignUp64 (H + cfg.schemaCapacity) cacheLine64).toNat =
        alignUp (H.toNat + cfg.schemaCapacity.toNat) cacheLine := by
      rw [alignUp64_toNat, hblob]
      rw [hblob]
      have := hc.schemaCapacity
      unfold cacheLine
      omega
    generalize alignUp64 (H + cfg.schemaCapacity) cacheLine64 = O at *
    obtain ⟨hringsfit, hP⟩ := place_toNat hrings
    generalize O + cfg.maxSubscribers * R = P at *
    obtain ⟨hpoolfit, hT⟩ := place_toNat hpool
    obtain rfl := (Except.ok.inj hl).symm
    have hgeo : (cfg.counts.geometry name.length).poolOffset = P.toNat := by
      rw [hP, hoff, hheader, hring]
      rfl
    refine ⟨name, rfl, ⟨hname, hcapfit, ?_, ?_⟩, ?_⟩
    · rw [hgeo]
      exact P.toNat_lt
    · show (cfg.counts.geometry name.length).poolOffset + cfg.poolSize.toNat * _ < _
      rw [hgeo]
      rw [hslot] at hpoolfit
      exact hpoolfit
    · simp only [RegionLayout.unbounded, hT, hP, hoff, hheader, hring, hslot, hlen]
      rfl

/-! ## The stamped region -/

/-- The offsets and strides of a region of `total` bytes with a name of `creatorLen` bytes, as the
creator lays them out: each area starts after the one before it ends, on a cache line. -/
structure Geometry64.Laid (g : Geometry64) (total : UInt64) (creatorLen : UInt16) : Prop where
  maxSubs : 0 < g.maxSubs.toNat ∧ g.maxSubs.toNat ≤ maxSubscribers
  poolSize : 0 < g.poolSize.toNat ∧ g.poolSize.toNat ≤ maxPoolSize
  slotDataSize : 0 < g.slotDataSize.toNat ∧ g.slotDataSize.toNat ≤ maxPayloadSize
  capacity : isPowerOfTwo g.subRingCapacity = true
  mask : g.subRingMask = g.subRingCapacity - 1
  blob : g.schemaBlobOffset.toNat = alignUp (sizeofHeader + creatorLen.toNat) cacheLine
  blobCapacity : g.schemaBlobCapacity.toNat < 2 ^ 32
  rings : g.subRingsOffset.toNat =
    alignUp (g.schemaBlobOffset.toNat + g.schemaBlobCapacity.toNat) cacheLine
  capacityFits : sizeofSubRingHeader + g.subRingCapacity.toNat * sizeofEntry + cacheLine < 2 ^ 64
  ringStride : g.subRingStride.toNat =
    alignUp (sizeofSubRingHeader + g.subRingCapacity.toNat * sizeofEntry) cacheLine
  slotStride : g.slotStride.toNat = alignUp (sizeofSlotHeader + g.slotDataSize.toNat) cacheLine
  pool : g.poolOffset.toNat = g.subRingsOffset.toNat + g.maxSubs.toNat * g.subRingStride.toNat
  total : total.toNat = g.poolOffset.toNat + g.poolSize.toNat * g.slotStride.toNat

/-- The geometry the creator keeps is laid out like that. -/
theorem laid_stampNewRegion (type : ChannelType) {cfg : ChannelConfig} {name : List UInt8}
    {layout : RegionLayout} (hc : cfg.Checked) (hf : cfg.counts.Fits name.length)
    (hl : layout.unbounded = cfg.counts.layout name.length) (pid now : UInt64) :
    (SharedRegion.stampNewRegion type cfg name layout pid now).geometry.Laid layout.totalSize
      layout.creatorLen := by
  have hlen : layout.creatorLen.toNat = name.length := congrArg UnboundedLayout.creatorLen hl
  have hring : layout.ringStride.toNat = (cfg.counts.geometry name.length).subRingStride :=
    congrArg UnboundedLayout.ringStride hl
  have hslot : layout.slotStride.toNat = (cfg.counts.geometry name.length).slotStride :=
    congrArg UnboundedLayout.slotStride hl
  have hblob : layout.schemaBlobOffset.toNat = (cfg.counts.geometry name.length).schemaBlobOffset :=
    congrArg UnboundedLayout.schemaBlobOffset hl
  have hrings : layout.subRingsOffset.toNat = (cfg.counts.geometry name.length).subRingsOffset :=
    congrArg UnboundedLayout.subRingsOffset hl
  have hpool : layout.poolOffset.toNat = (cfg.counts.geometry name.length).poolOffset :=
    congrArg UnboundedLayout.poolOffset hl
  have htotal : layout.totalSize.toNat = (cfg.counts.layout name.length).totalSize :=
    congrArg UnboundedLayout.totalSize hl
  refine ⟨hc.maxSubscribers, hc.poolSize, hc.maxPayloadSize, hc.capacity, rfl, ?_, hc.schemaCapacity,
    ?_, hf.capacity, hring, hslot, ?_, ?_⟩
  · show layout.schemaBlobOffset.toNat = _
    rw [hblob, hlen]
    rfl
  · show layout.subRingsOffset.toNat = alignUp (layout.schemaBlobOffset.toNat + _) _
    rw [hrings, hblob]
    rfl
  · show layout.poolOffset.toNat = layout.subRingsOffset.toNat + _ * layout.ringStride.toNat
    rw [hpool, hrings, hring]
    rfl
  · show layout.totalSize.toNat = layout.poolOffset.toNat + _ * layout.slotStride.toNat
    rw [htotal, hpool, hslot]
    rfl

/-- It is the geometry over unbounded integers. -/
theorem toGeometry_stampNewRegion {type : ChannelType} {cfg : ChannelConfig} {name : List UInt8}
    {layout : RegionLayout} (hc : cfg.Checked)
    (hl : layout.unbounded = cfg.counts.layout name.length) (pid now : UInt64) :
    (SharedRegion.stampNewRegion type cfg name layout pid now).geometry.toGeometry =
      cfg.counts.geometry name.length := by
  have hcap : 0 < cfg.subRingCapacity.toNat := by
    obtain ⟨k, -, hk⟩ := (isPowerOfTwo_iff _).1 hc.capacity
    rw [hk]
    exact Nat.two_pow_pos k
  have hmask : (cfg.subRingCapacity - 1).toNat = cfg.subRingCapacity.toNat - 1 :=
    UInt64.toNat_sub_of_le _ _ (UInt64.le_iff_toNat_le.2 hcap)
  simp only [RegionLayout.unbounded, Config.layout, UnboundedLayout.mk.injEq] at hl
  obtain ⟨-, hring, hslot, hblob, hrings, hpool, -, -⟩ := hl
  simp only [SharedRegion.stampNewRegion, Geometry64.toGeometry, hring, hslot, hblob, hrings, hpool,
    hmask]
  rfl

namespace Geometry64.Laid

variable {g : Geometry64} {total : UInt64} {creatorLen : UInt16} (h : g.Laid total creatorLen)
include h

theorem le_ringStride :
    sizeofSubRingHeader + g.subRingCapacity.toNat * sizeofEntry ≤ g.subRingStride.toNat := by
  rw [h.ringStride]
  exact le_alignUp _

theorem le_slotStride : sizeofSlotHeader + g.slotDataSize.toNat ≤ g.slotStride.toNat := by
  rw [h.slotStride]
  exact le_alignUp _

theorem name_le : sizeofHeader + creatorLen.toNat ≤ g.schemaBlobOffset.toNat := by
  rw [h.blob]
  exact le_alignUp _

theorem blob_le :
    g.schemaBlobOffset.toNat + g.schemaBlobCapacity.toNat ≤ g.subRingsOffset.toNat := by
  rw [h.rings]
  exact le_alignUp _

theorem ringStride_pos : 0 < g.subRingStride.toNat := by
  have := h.le_ringStride
  unfold sizeofSubRingHeader at this
  omega

theorem slotStride_pos : 0 < g.slotStride.toNat := by
  have := h.le_slotStride
  unfold sizeofSlotHeader at this
  omega

/-- Ring `i` ends before the pool. -/
theorem ring_le {i : Nat} (hi : i < g.maxSubs.toNat) :
    g.subRingsOffset.toNat + i * g.subRingStride.toNat + g.subRingStride.toNat ≤ g.poolOffset.toNat := by
  have hm : (i + 1) * g.subRingStride.toNat ≤ g.maxSubs.toNat * g.subRingStride.toNat :=
    Nat.mul_le_mul_right _ hi
  rw [Nat.succ_mul] at hm
  have := h.pool
  omega

/-- Slot `i` ends before the region does. -/
theorem slot_le {i : Nat} (hi : i < g.poolSize.toNat) :
    g.poolOffset.toNat + i * g.slotStride.toNat + g.slotStride.toNat ≤ total.toNat := by
  have hm : (i + 1) * g.slotStride.toNat ≤ g.poolSize.toNat * g.slotStride.toNat :=
    Nat.mul_le_mul_right _ hi
  rw [Nat.succ_mul] at hm
  have := h.total
  omega

theorem pool_lt_total : g.poolOffset.toNat < total.toNat := by
  have := h.slot_le h.poolSize.1
  have := h.slotStride_pos
  omega

theorem rings_lt_pool : g.subRingsOffset.toNat < g.poolOffset.toNat := by
  have := h.ring_le h.maxSubs.1
  have := h.ringStride_pos
  omega

theorem subRingAt_toNat {idx : UInt32} (hi : idx.toNat < g.maxSubs.toNat) :
    (subRingAt g idx).toNat = g.subRingsOffset.toNat + idx.toNat * g.subRingStride.toNat := by
  have hend := h.ring_le hi
  have hp : g.poolOffset.toNat < 2 ^ 64 := g.poolOffset.toNat_lt
  have hm : (idx.toUInt64 * g.subRingStride).toNat = idx.toNat * g.subRingStride.toNat := by
    rw [toNat_mul_of_lt, UInt32.toNat_toUInt64]
    rw [UInt32.toNat_toUInt64]
    omega
  rw [subRingAt, toNat_add_of_lt, hm]
  rw [hm]
  omega

theorem slotAt_toNat {idx : UInt32} (hi : idx.toNat < g.poolSize.toNat) :
    (slotAt g idx).toNat = g.poolOffset.toNat + idx.toNat * g.slotStride.toNat := by
  have hend := h.slot_le hi
  have hp : total.toNat < 2 ^ 64 := total.toNat_lt
  have hm : (idx.toUInt64 * g.slotStride).toNat = idx.toNat * g.slotStride.toNat := by
    rw [toNat_mul_of_lt, UInt32.toNat_toUInt64]
    rw [UInt32.toNat_toUInt64]
    omega
  rw [slotAt, toNat_add_of_lt, hm]
  rw [hm]
  omega

theorem blob_mod : g.schemaBlobOffset.toNat % cacheLine = 0 := by
  rw [h.blob]
  exact alignUp_mod _

theorem rings_mod : g.subRingsOffset.toNat % cacheLine = 0 := by
  rw [h.rings]
  exact alignUp_mod _

theorem ringStride_mod : g.subRingStride.toNat % cacheLine = 0 := by
  rw [h.ringStride]
  exact alignUp_mod _

theorem slotStride_mod : g.slotStride.toNat % cacheLine = 0 := by
  rw [h.slotStride]
  exact alignUp_mod _

theorem pool_mod : g.poolOffset.toNat % cacheLine = 0 := by
  rw [h.pool, Nat.add_mod, Nat.mul_mod, h.rings_mod, h.ringStride_mod]
  rfl

/-- Every area starts on a cache line. -/
theorem offset_mod {a : Area} (ha : a.Exists g) : (a.offset g).toNat % cacheLine = 0 := by
  cases a with
  | header => rfl
  | creatorName =>
    have hh : sizeofHeader64.toNat = 832 := by decide
    rw [Area.offset, hh]
    rfl
  | schemaBlob => exact h.blob_mod
  | subRing idx =>
    rw [Area.offset, h.subRingAt_toNat ha, Nat.add_mod, Nat.mul_mod, h.rings_mod, h.ringStride_mod]
    rfl
  | slot idx =>
    rw [Area.offset, h.slotAt_toNat ha, Nat.add_mod, Nat.mul_mod, h.pool_mod, h.slotStride_mod]
    rfl

end Geometry64.Laid

/-- The zones of a region in the order of their offsets, one for each kind of area. -/
def Area.zone : Area → Nat
  | header => 0
  | creatorName => 1
  | schemaBlob => 2
  | subRing _ => 3
  | slot _ => 4

/-- Where zone `z` starts; zone 5 is the end of the region. -/
def Geometry64.edge (g : Geometry64) (total : UInt64) : Nat → Nat
  | 0 => 0
  | 1 => sizeofHeader
  | 2 => g.schemaBlobOffset.toNat
  | 3 => g.subRingsOffset.toNat
  | 4 => g.poolOffset.toNat
  | _ => total.toNat

theorem Area.bytes_disjoint_of_le {g : Geometry64} {creatorLen : UInt16} {a b : Area} (hab : (a.offset g).toNat + a.size g creatorLen ≤
    (b.offset g).toNat) : Disjoint (a.bytes g creatorLen) (b.bytes g creatorLen) := by
  rw [Set.disjoint_left]
  rintro x ⟨-, ha⟩ ⟨hb, -⟩
  omega

/-- Two elements of one array. -/
theorem end_le_of_lt {off stride i j size : Nat} (hs : size ≤ stride) (hij : i < j) :
    off + i * stride + size ≤ off + j * stride := by
  have hm : (i + 1) * stride ≤ j * stride := Nat.mul_le_mul_right _ hij
  rw [Nat.succ_mul] at hm
  omega

namespace Geometry64.Laid

variable {g : Geometry64} {total : UInt64} {creatorLen : UInt16} (h : g.Laid total creatorLen)
include h

theorem edge_succ (z : Nat) : g.edge total z ≤ g.edge total (z + 1) := by
  have hname := h.name_le
  have hblob := h.blob_le
  match z with
  | 0 => exact Nat.zero_le _
  | 1 => exact le_trans (Nat.le_add_right _ _) hname
  | 2 => exact le_trans (Nat.le_add_right _ _) hblob
  | 3 => exact h.rings_lt_pool.le
  | 4 => exact h.pool_lt_total.le
  | _ + 5 => exact le_refl _

theorem edge_mono {y z : Nat} (hyz : y ≤ z) : g.edge total y ≤ g.edge total z :=
  monotone_nat_of_le_succ h.edge_succ hyz

/-- Every area is inside its zone. -/
theorem offset_zone {a : Area} (ha : a.Exists g) :
    g.edge total a.zone ≤ (a.offset g).toNat ∧
      (a.offset g).toNat + a.size g creatorLen ≤ g.edge total (a.zone + 1) := by
  cases a with
  | header => exact ⟨Nat.zero_le _, le_of_eq (Nat.zero_add _)⟩
  | creatorName => exact ⟨le_refl _, h.name_le⟩
  | schemaBlob => exact ⟨le_refl _, h.blob_le⟩
  | subRing idx =>
    simp only [Area.offset, Area.size, Area.zone, edge, h.subRingAt_toNat ha]
    have := h.ring_le ha
    have := h.le_ringStride
    omega
  | slot idx =>
    simp only [Area.offset, Area.size, Area.zone, edge, h.slotAt_toNat ha]
    have := h.slot_le ha
    have := h.le_slotStride
    omega

theorem offset_le_total {a : Area} (ha : a.Exists g) :
    (a.offset g).toNat + a.size g creatorLen ≤ total.toNat := by
  have hz : a.zone + 1 ≤ 5 := by cases a <;> simp [Area.zone]
  exact le_trans (h.offset_zone ha).2 (h.edge_mono hz)

theorem bytes_disjoint_of_zone {a b : Area} (ha : a.Exists g) (hb : b.Exists g)
    (hz : a.zone < b.zone) : Disjoint (a.bytes g creatorLen) (b.bytes g creatorLen) :=
  Area.bytes_disjoint_of_le
    (le_trans (h.offset_zone ha).2 (le_trans (h.edge_mono hz) (h.offset_zone hb).1))

theorem subRing_disjoint {i j : UInt32} (hi : (Area.subRing i).Exists g)
    (hj : (Area.subRing j).Exists g) (hij : i.toNat < j.toNat) :
    Disjoint ((Area.subRing i).bytes g creatorLen) ((Area.subRing j).bytes g creatorLen) := by
  apply Area.bytes_disjoint_of_le
  simp only [Area.offset, Area.size, h.subRingAt_toNat hi, h.subRingAt_toNat hj]
  exact end_le_of_lt h.le_ringStride hij

theorem slot_disjoint {i j : UInt32} (hi : (Area.slot i).Exists g) (hj : (Area.slot j).Exists g)
    (hij : i.toNat < j.toNat) :
    Disjoint ((Area.slot i).bytes g creatorLen) ((Area.slot j).bytes g creatorLen) := by
  apply Area.bytes_disjoint_of_le
  simp only [Area.offset, Area.size, h.slotAt_toNat hi, h.slotAt_toNat hj]
  exact end_le_of_lt h.le_slotStride hij

/-- No two areas share a byte. -/
theorem bytes_disjoint {a b : Area} (ha : a.Exists g) (hb : b.Exists g) (hab : a ≠ b) :
    Disjoint (a.bytes g creatorLen) (b.bytes g creatorLen) := by
  rcases Nat.lt_trichotomy a.zone b.zone with hz | hz | hz
  · exact h.bytes_disjoint_of_zone ha hb hz
  · cases a <;> cases b <;> first | exact absurd rfl hab | (simp [Area.zone] at hz; done) | skip
    case subRing.subRing i j =>
      have hij : i.toNat ≠ j.toNat := fun e => hab (congrArg _ (UInt32.toNat_inj.1 e))
      rcases Nat.lt_or_gt_of_ne hij with hlt | hlt
      · exact h.subRing_disjoint ha hb hlt
      · exact (h.subRing_disjoint hb ha hlt).symm
    case slot.slot i j =>
      have hij : i.toNat ≠ j.toNat := fun e => hab (congrArg _ (UInt32.toNat_inj.1 e))
      rcases Nat.lt_or_gt_of_ne hij with hlt | hlt
      · exact h.slot_disjoint ha hb hlt
      · exact (h.slot_disjoint hb ha hlt).symm
  · exact (h.bytes_disjoint_of_zone hb ha hz).symm

end Geometry64.Laid

/-! ## What the opener makes of it -/

theorem beq_zero_false {v : UInt64} (h : 0 < v.toNat) : (v == 0) = false := beq_zero_eq_false.2 h

theorem mod_line_false {v : UInt64} (h : v.toNat % cacheLine = 0) : (v % cacheLine64 != 0) = false := by
  have hz : v % cacheLine64 = 0 := UInt64.toNat_inj.1 (by rw [UInt64.toNat_mod]; exact h)
  rw [hz]
  rfl

theorem lt_false {v b : UInt64} (h : b.toNat ≤ v.toNat) : decide (v < b) = false :=
  decide_gt_eq_false.2 h

theorem ge_false {v b : UInt64} (h : v.toNat < b.toNat) : decide (v ≥ b) = false := by
  rw [decide_eq_false_iff_not, ge_iff_le, UInt64.le_iff_toNat_le]
  omega

theorem toNat_sub_of_le {a b : UInt64} (h : b.toNat ≤ a.toNat) : (a - b).toNat = a.toNat - b.toNat :=
  UInt64.toNat_sub_of_le _ _ (UInt64.le_iff_toNat_le.2 h)

/-- The quotient checks of `validate_snapshot` on an array that ends where it should. -/
theorem le_quotient {n stride start stop : UInt64} (hs : 0 < stride.toNat)
    (h : stop.toNat = start.toNat + n.toNat * stride.toNat) :
    n.toNat ≤ ((stop - start) / stride).toNat := by
  rw [UInt64.toNat_div, toNat_sub_of_le (by omega), h, Nat.add_sub_cancel_left,
    Nat.mul_div_cancel _ hs]

/-- A geometry that is laid out as the creator does it passes every check of the opener. -/
theorem validateSnapshot_laid {s : HeaderSnapshot} {size : UInt64}
    (h : s.geometry.Laid s.totalSize s.creatorNameLen)
    (ht : s.channelType = ChannelType.pubSub.code ∨ s.channelType = ChannelType.broadcast.code)
    (hs : s.totalSize ≤ size) : validateSnapshot s size = .ok () := by
  obtain ⟨g, type, total, len⟩ := s
  simp only at h ht hs
  have hheader : sizeofHeader64.toNat = sizeofHeader := by decide
  have hslotHeader : sizeofSlotHeader64.toNat = sizeofSlotHeader := by decide
  have hentry : sizeofEntry64.toNat = sizeofEntry := by decide
  have hringHeader : sizeofSubRingHeader64.toNat = sizeofSubRingHeader := by decide
  have hname := h.name_le
  have hblob := h.blob_le
  have hrings := h.rings_lt_pool
  have hpool := h.pool_lt_total
  have hring := h.le_ringStride
  have hslot := h.le_slotStride
  have hring0 := h.ring_le h.maxSubs.1
  have hslot0 := h.slot_le h.poolSize.1
  have htotal : total.toNat < 2 ^ 64 := total.toNat_lt
  have hcap : 0 < g.subRingCapacity.toNat := by
    obtain ⟨k, -, hk⟩ := (isPowerOfTwo_iff _).1 h.capacity
    rw [hk]
    exact Nat.two_pow_pos k
  have hentries : (g.subRingCapacity * sizeofEntry64).toNat = g.subRingCapacity.toNat * sizeofEntry := by
    rw [toNat_mul_of_lt, hentry]
    rw [hentry]
    have := h.capacityFits
    omega
  simp only [validateSnapshot, throwFirst_cons_ok, throwFirst_nil, Bool.or_eq_false_iff, and_true]
  refine ⟨lt_false (UInt64.le_iff_toNat_le.1 hs), ?_, lt_false (by omega),
    ⟨⟨⟨⟨⟨beq_zero_false h.maxSubs.1, beq_zero_false h.poolSize.1⟩, beq_zero_false h.slotDataSize.1⟩,
      beq_zero_false hcap⟩, beq_zero_false h.slotStride_pos⟩, beq_zero_false h.ringStride_pos⟩,
    lt_false h.poolSize.2, lt_false h.slotDataSize.2, lt_false h.maxSubs.2, ?_, ?_,
    ⟨⟨lt_false (by omega), ge_false hrings⟩, ge_false hpool⟩, ⟨lt_false (by omega), lt_false (by omega)⟩,
    ⟨lt_false (Nat.le_of_lt_succ h.blobCapacity), lt_false ?_⟩, lt_false ?_,
    ⟨⟨⟨⟨mod_line_false h.blob_mod, mod_line_false h.rings_mod⟩, mod_line_false h.pool_mod⟩,
      mod_line_false h.ringStride_mod⟩, mod_line_false h.slotStride_mod⟩,
    lt_false ?_, lt_false ?_, lt_false ?_, lt_false ?_, lt_false (le_quotient h.ringStride_pos h.pool),
    lt_false (le_quotient h.slotStride_pos h.total)⟩
  · rcases ht with rfl | rfl
    · decide
    · decide
  · rw [h.capacity]
    rfl
  · rw [h.mask]
    exact bne_self_eq_false _
  · rw [toNat_sub_of_le (by omega)]
    omega
  · rw [toNat_sub_of_le (by omega), UInt16.toNat_toUInt64, hheader]
    omega
  · rw [UInt64.toNat_div, hentry]
    unfold sizeofEntry at *
    omega
  · rw [toNat_add_of_lt (by rw [hentries, hringHeader]; omega), hentries, hringHeader]
    exact hring
  · rw [toNat_sub_of_le (by omega), hslotHeader]
    omega
  · rw [toNat_add_of_lt (by rw [hslotHeader]; omega), hslotHeader]
    exact hslot

/-- A region its creator lays out and stamps is the one its opener sees. -/
theorem create_open_agree {type : ChannelType} {cfg : ChannelConfig}
    {creatorName : Option (List UInt8)} {layout : RegionLayout}
    (hc : validateConfig type cfg = .ok ()) (hl : computeLayout cfg creatorName = .ok layout) :
    ∃ name, creatorName = some name ∧
      layout.unbounded = cfg.counts.layout name.length ∧
      ∀ (pid now : UInt64) (region : SharedRegion),
        region = SharedRegion.stampNewRegion type cfg name layout pid now →
        region.geometry.toGeometry = cfg.counts.geometry name.length ∧
        (∀ a : Area, a.Exists region.geometry →
          (a.offset region.geometry).toNat % cacheLine = 0 ∧
          (a.offset region.geometry).toNat + a.size region.geometry layout.creatorLen ≤
            layout.totalSize.toNat) ∧
        (∀ a b : Area, a.Exists region.geometry → b.Exists region.geometry → a ≠ b →
          Disjoint (a.bytes region.geometry layout.creatorLen)
            (b.bytes region.geometry layout.creatorLen)) ∧
        ∀ size : UInt64, layout.totalSize ≤ size →
          validateOpened region.header size = .ok region.geometry := by
  obtain ⟨ht, hchecked⟩ := validateConfig_checked hc
  obtain ⟨name, rfl, hfits, hlayout⟩ := computeLayout_ok hchecked hl
  refine ⟨name, rfl, hlayout, ?_⟩
  rintro pid now region rfl
  have hlaid := laid_stampNewRegion type hchecked hfits hlayout pid now
  refine ⟨toGeometry_stampNewRegion hchecked hlayout pid now,
    fun a ha => ⟨hlaid.offset_mod ha, hlaid.offset_le_total ha⟩,
    fun a b ha hb hab => hlaid.bytes_disjoint ha hb hab, fun size hs => ?_⟩
  have hheader : sizeofHeader64.toNat = sizeofHeader := by decide
  have hsize : sizeofHeader64.toNat ≤ size.toNat := by
    have := UInt64.le_iff_toNat_le.1 hs
    have := hlaid.offset_le_total (a := .header) trivial
    simp only [Area.offset, Area.size, UInt64.toNat_zero] at this
    omega
  have hsnapshot := validateSnapshot_laid
    (s := (SharedRegion.stampNewRegion type cfg name layout pid now).header.snapshot) hlaid
    (ht.imp (fun e => by rw [e]; rfl) (fun e => by rw [e]; rfl)) hs
  simp only [validateOpened, throwFirst_bind_ok]
  refine ⟨?_, ?_⟩
  · rw [throwFirst_cons_ok, throwFirst_cons_ok]
    exact ⟨lt_false hsize, bne_self_eq_false _, rfl⟩
  · rw [if_neg (by simp [SharedRegion.stampNewRegion]), hsnapshot]
    rfl

/-- A broadcast channel with room for a schema blob of 100 bytes, 5 of them filled at creation. -/
def blobConfig : ChannelConfig where
  maxSubscribers := 3
  subRingCapacity := 4
  poolSize := 7
  maxPayloadSize := 50
  commitTimeout := 10000
  schema := some Schema.blankInfo
  schemaCapacity := 100
  schemaBlob := [1, 2, 3, 4, 5]
  identity := 0

def blobLayout : RegionLayout where
  headerSize := 896
  ringStride := 192
  slotStride := 128
  schemaBlobOffset := 896
  subRingsOffset := 1024
  poolOffset := 1600
  totalSize := 2496
  creatorLen := 4

theorem create_open_agree_blob :
    validateConfig .broadcast blobConfig = .ok () ∧
      computeLayout blobConfig (some [110, 111, 100, 101]) = .ok blobLayout ∧
      blobLayout.unbounded = blobConfig.counts.layout 4 ∧
      validateOpened (SharedRegion.stampNewRegion .broadcast blobConfig [110, 111, 100, 101] blobLayout
          42 1000).header 4096 =
        .ok (SharedRegion.stampNewRegion .broadcast blobConfig [110, 111, 100, 101] blobLayout
          42 1000).geometry := by
  have hc : validateConfig .broadcast blobConfig = .ok () := by decide +kernel
  have hl : computeLayout blobConfig (some [110, 111, 100, 101]) = .ok blobLayout := by decide +kernel
  obtain ⟨name, hname, hlayout, hregion⟩ := create_open_agree hc hl
  obtain rfl := Option.some.inj hname
  obtain ⟨-, -, -, hopen⟩ := hregion 42 1000 _ rfl
  exact ⟨hc, hl, hlayout, hopen 4096 (by decide)⟩

end Kickmsg
