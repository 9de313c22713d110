import Kickmsg.Blackboard.Model
import Kickmsg.Identity
import Kickmsg.Layout

/-!
# Creating and opening a board

`region_size`, `make_geometry` and `init_as_creator` on the creator's side, the checks of `spin_open` on
the opener's, and the two ways to a board, `Blackboard::open_or_create` and `Node::blackboard`. Shared
memory is a map from names to regions.

The sizes that a creator stamps are exact, and an opener accepts them.
-/

namespace Kickmsg.Blackboard

open Lib Naming Identity

/-! ## The creator's side -/

def boardMagic : UInt64 := 0x214B4C424B43494B
def boardVersion : UInt32 := 2
def maxCapacity : UInt32 := 65536
def maxValueSize64 : UInt64 := 1048576
def cellsPerKey : UInt64 := 2

/-- The sizes of the shared structs. -/
def sizeofBoardHeader : UInt64 := 192
def sizeofBoardEntry : UInt64 := 384
def sizeofBoardCell : UInt64 := 16

/-- `blackboard::Config`. -/
structure BoardConfig where
  capacity : UInt32
  maxValueSize : UInt64
  identity : UInt64
  deriving DecidableEq, Repr

/-- `blackboard::Geometry`, at its own width. -/
structure Geometry64 where
  capacity : UInt32
  maxValueSize : UInt64
  valueStride : UInt64
  valuesOffset : UInt64
  deriving DecidableEq, Repr

def strideFor (maxValueSize : UInt64) : UInt64 := alignUp64 (sizeofBoardCell + maxValueSize) cacheLine64

def regionSize (capacity : UInt32) (maxValueSize : UInt64) : UInt64 :=
  sizeofBoardHeader + capacity.toUInt64 * sizeofBoardEntry +
    capacity.toUInt64 * cellsPerKey * strideFor maxValueSize

def makeGeometry (capacity : UInt32) (maxValueSize : UInt64) : Geometry64 where
  capacity := capacity
  maxValueSize := maxValueSize
  valueStride := strideFor maxValueSize
  valuesOffset := sizeofBoardHeader + capacity.toUInt64 * sizeofBoardEntry

/-- `bb_config_hash`. -/
def bbConfigHash (cfg : BoardConfig) : UInt64 :=
  Hash.fnv1a64 (Hash.bytes64 cfg.maxValueSize)
    (Hash.fnv1a64 (Hash.bytes32 cfg.capacity) Hash.fnv1aOffsetBasis)

/-- The fields of `struct BlackboardHeader` that are written once. -/
structure BoardHeader where
  magic : UInt64
  version : UInt32
  capacity : UInt32
  maxValueSize : UInt64
  totalSize : UInt64
  configHash : UInt64
  identityHash : UInt64
  creatorPid : UInt64
  createdAtNs : UInt64
  deriving DecidableEq, Repr

/-- A mapped region: its size, its header and its other words. -/
structure BoardRegion where
  size : UInt64
  header : BoardHeader
  words : Loc → Nat

/-- Shared memory, by name. -/
abbrev Shm := List UInt8 → Option BoardRegion

/-- The process that calls, and when. -/
structure Caller where
  pid : UInt64
  now : UInt64

/-- `Blackboard`, with the header of the region it has mapped. -/
structure BoardHandle where
  name : List UInt8
  ownerName : List UInt8
  size : UInt64
  geometry : Geometry64
  header : BoardHeader
  deriving DecidableEq

/-- What opening a board throws. -/
inductive OpenError
  | naming (e : Naming.Thrown)
  | invalidArgument (what : String)
  | runtimeError (before : String) (shm : List UInt8)
  | versionMismatch (before : String) (shm : List UInt8) (after : String)
  deriving DecidableEq

/-- The errors of a check, with the name of the region in their text. -/
def OpenError.on (shm : List UInt8) : RegionError → OpenError
  | .runtime what => .runtimeError what shm
  | .versionMismatch what => .versionMismatch what shm
      ": stamped by an incompatible kickmsg build; stop its users and unlink it"

/-- `Blackboard::shm_name`. -/
def shmName (ns name : List UInt8) : Except Naming.Thrown (List UInt8) := do
  let ns ← sanitizeShmComponent ns "namespace"
  let name ← sanitizeShmComponent name "blackboard"
  composeShmName ns (ascii "bb_" ++ name)

/-- `init_as_creator`: the header it leaves. -/
def stampHeader (cfg : BoardConfig) (caller : Caller) : BoardHeader where
  magic := boardMagic
  version := boardVersion
  capacity := cfg.capacity
  maxValueSize := cfg.maxValueSize
  totalSize := regionSize cfg.capacity cfg.maxValueSize
  configHash := bbConfigHash cfg
  identityHash := cfg.identity
  creatorPid := caller.pid
  createdAtNs := caller.now

/-- `init_as_creator`, in a region of the size it asked for. -/
def initAsCreator (cfg : BoardConfig) (caller : Caller) : BoardRegion where
  size := regionSize cfg.capacity cfg.maxValueSize
  header := stampHeader cfg caller
  words := fun _ => 0

/-! ## The opener's side -/

/-- The checks of `spin_open` on a header that has its magic, in a mapping of `size` bytes. -/
def checkHeader (h : BoardHeader) (size : UInt64) (cfg : BoardConfig) (checkConfig : Bool) :
    Except RegionError Geometry64 := do
  if h.version ≠ boardVersion then
    .error (.versionMismatch "Blackboard version mismatch on ")
  else
    let afterHeader := h.totalSize - sizeofBoardHeader
    let geometry := makeGeometry h.capacity h.maxValueSize
    let afterEntries := h.totalSize - geometry.valuesOffset
    throwFirst
      [(h.totalSize < sizeofBoardHeader || size < h.totalSize, "Blackboard total_size invalid on "),
       (h.capacity == 0 || maxCapacity < h.capacity || afterHeader / sizeofBoardEntry < h.capacity.toUInt64,
        "Blackboard capacity exceeds segment on "),
       (h.maxValueSize == 0 || maxValueSize64 < h.maxValueSize, "Blackboard max_value_size invalid on "),
       (afterEntries / (cellsPerKey * geometry.valueStride) < h.capacity.toUInt64,
        "Blackboard value area exceeds segment on "),
       (checkConfig && h.configHash != bbConfigHash cfg, "Blackboard config mismatch on "),
       (cfg.identity != 0 && h.identityHash != 0 && h.identityHash != cfg.identity,
        "Blackboard identity mismatch on ")]
    return geometry

/-- `spin_open`, which finds `probes` under the name, one after another. -/
def spinOpen (shm : List UInt8) (cfg : BoardConfig) (checkConfig : Bool) :
    List (Option BoardRegion) → Except OpenError (Option BoardHandle)
  | [] => .ok none
  | none :: rest => spinOpen shm cfg checkConfig rest
  | some r :: rest =>
    if r.size < sizeofBoardHeader then .error (.runtimeError "Blackboard segment too small: " shm)
    else if r.header.magic ≠ boardMagic then spinOpen shm cfg checkConfig rest
    else match checkHeader r.header r.size cfg checkConfig with
      | .error e => .error (OpenError.on shm e)
      | .ok geometry => .ok (some ⟨shm, [], r.size, geometry, r.header⟩)

/-- How often `spin_open` looks. -/
def spinAttempts : Nat := 200

/-- The configuration that `open_or_create` stamps. -/
def stampIdentity (ns name : List UInt8) (cfg : BoardConfig) : BoardConfig :=
  if cfg.identity = 0 then { cfg with identity := derivedIdentity ns name } else cfg

/-- `Blackboard::open_or_create`. Nobody else changes the region while it spins. -/
def openOrCreate (s : Shm) (ns name : List UInt8) (cfg : BoardConfig) (ownerName : List UInt8)
    (caller : Caller) : Except OpenError (Shm × BoardHandle) := do
  if cfg.capacity = 0 ∨ maxCapacity < cfg.capacity then
    .error (.invalidArgument "Blackboard capacity out of range")
  else if cfg.maxValueSize = 0 ∨ maxValueSize64 < cfg.maxValueSize then
    .error (.invalidArgument "Blackboard max_value_size out of range")
  else
    let stamped := stampIdentity ns name cfg
    let shm ← (shmName ns name).mapError .naming
    match s shm with
    | none =>
      let r := initAsCreator stamped caller
      let geometry := makeGeometry cfg.capacity cfg.maxValueSize
      .ok (Function.update s shm (some r), ⟨shm, ownerName, r.size, geometry, r.header⟩)
    | some r =>
      let opened ← spinOpen shm stamped true (List.replicate spinAttempts (some r))
      match opened with
      | some b => .ok (s, { b with ownerName := ownerName })
      | none => .error (.runtimeError "Timed out waiting for blackboard init: " shm)

/-- `Blackboard::try_open`. -/
def tryOpen (s : Shm) (ns name : List UInt8) : Except OpenError (Option BoardHandle) := do
  let shm ← (shmName ns name).mapError .naming
  match s shm with
  | none => .ok none
  | some r =>
    let expected : BoardConfig := ⟨256, 1008, derivedIdentity ns name⟩
    let opened ← spinOpen shm expected false (List.replicate spinAttempts (some r))
    match opened with
    | some b => .ok (some b)
    | none => .error (.runtimeError "Blackboard region exists but was never initialized: " shm)

/-! ## Through a node -/

/-- A `char const*`, without its terminator. -/
structure CString where
  bytes : List UInt8
  noNul : 0 ∉ bytes

/-- `Node`, without the channels. -/
structure Node where
  name : List UInt8
  ns : List UInt8
  blackboards : List (List UInt8 × BoardHandle)
  deriving DecidableEq

/-- `Node::Node`. -/
def Node.make (name ns : List UInt8) : Except Naming.Thrown Node := do
  let name ← sanitizeShmComponent name "node"
  let ns ← sanitizeShmComponent ns "namespace"
  return ⟨name, ns, []⟩

/-- `Node::blackboard`, up to the row it shows in the registry. -/
def Node.blackboard (n : Node) (s : Shm) (name : CString) (cfg : BoardConfig) (caller : Caller) :
    Except OpenError (Node × Shm × BoardHandle) :=
  match n.blackboards.lookup name.bytes with
  | none => do
    let (s', b) ← openOrCreate s n.ns name.bytes cfg n.name caller
    .ok ({ n with blackboards := (name.bytes, b) :: n.blackboards }, s', b)
  | some b =>
    if b.header.configHash ≠ bbConfigHash cfg then
      .error (.runtimeError "Blackboard config mismatch on " b.name)
    else if cfg.identity ≠ 0 ∧ b.header.identityHash ≠ 0 ∧ b.header.identityHash ≠ cfg.identity then
      .error (.runtimeError "Blackboard identity mismatch on " b.name)
    else .ok (n, s, b)

/-! ## The geometry over unbounded integers -/

/-- What `open_or_create` asks of a configuration. -/
structure BoardConfig.Valid (cfg : BoardConfig) : Prop where
  capacity_pos : 0 < cfg.capacity.toNat
  capacity_le : cfg.capacity.toNat ≤ 65536
  value_pos : 0 < cfg.maxValueSize.toNat
  value_le : cfg.maxValueSize.toNat ≤ 1048576

theorem BoardConfig.Valid.ranges {cfg : BoardConfig} (hv : cfg.Valid) :
    ¬ (cfg.capacity = 0 ∨ maxCapacity < cfg.capacity) ∧
      ¬ (cfg.maxValueSize = 0 ∨ maxValueSize64 < cfg.maxValueSize) := by
  have hcpos := hv.capacity_pos
  have hvpos := hv.value_pos
  refine ⟨?_, ?_⟩
  · rintro (h0 | hlt)
    · rw [h0] at hcpos
      exact absurd hcpos (by decide)
    · exact absurd hv.capacity_le (Nat.not_le.mpr (UInt32.lt_iff_toNat_lt.mp hlt))
  · rintro (h0 | hlt)
    · rw [h0] at hvpos
      exact absurd hvpos (by decide)
    · exact absurd hv.value_le (Nat.not_le.mpr (UInt64.lt_iff_toNat_lt.mp hlt))

/-- The layout of a board over unbounded integers. -/
def strideNat (maxValueSize : Nat) : Nat := alignUp (16 + maxValueSize) cacheLine
def valuesOffsetNat (capacity : Nat) : Nat := 192 + capacity * 384
def regionSizeNat (capacity maxValueSize : Nat) : Nat :=
  valuesOffsetNat capacity + capacity * 2 * strideNat maxValueSize

variable {cfg cfg' : BoardConfig} {caller : Caller} {size : UInt64} {check : Bool}

theorem strideNat_bounds (v : Nat) : 16 + v ≤ strideNat v ∧ strideNat v < 80 + v := by
  have h1 := le_alignUp (16 + v)
  have h2 := alignUp_lt (16 + v)
  unfold strideNat cacheLine at *
  omega

theorem strideFor_toNat {v : UInt64} (h : v.toNat ≤ 1048576) : (strideFor v).toNat = strideNat v.toNat := by
  have hc : sizeofBoardCell.toNat = 16 := rfl
  have hs : (sizeofBoardCell + v).toNat = 16 + v.toNat := by
    rw [toNat_add_of_lt (by omega), hc]
  rw [strideFor, alignUp64_toNat, hs, strideNat]
  rw [hs]
  unfold cacheLine
  omega

theorem valuesOffset_toNat (c : UInt32) (v : UInt64) :
    (makeGeometry c v).valuesOffset.toNat = valuesOffsetNat c.toNat := by
  have hc : c.toNat < 2 ^ 32 := c.toNat_lt
  have he : sizeofBoardEntry.toNat = 384 := rfl
  have hh : sizeofBoardHeader.toNat = 192 := rfl
  have hm : (c.toUInt64 * sizeofBoardEntry).toNat = c.toNat * 384 := by
    rw [toNat_mul_of_lt (by rw [UInt32.toNat_toUInt64, he]; omega), UInt32.toNat_toUInt64, he]
  rw [makeGeometry, toNat_add_of_lt (by omega), hm, hh, valuesOffsetNat]

/-- Two cells of every key. -/
theorem cells_le {c v : Nat} (hc : c ≤ 65536) (hv : v ≤ 1048576) : c * 2 * strideNat v ≤ 2 ^ 38 := by
  have hb := (strideNat_bounds v).2
  calc c * 2 * strideNat v ≤ 131072 * 1048656 := Nat.mul_le_mul (by omega) (by omega)
    _ ≤ 2 ^ 38 := by decide

theorem regionSize_toNat (hv : cfg.Valid) :
    (regionSize cfg.capacity cfg.maxValueSize).toNat =
      regionSizeNat cfg.capacity.toNat cfg.maxValueSize.toNat := by
  have hle := hv.capacity_le
  have hcells := cells_le hle hv.value_le
  have hoff := valuesOffset_toNat cfg.capacity cfg.maxValueSize
  have htwo : (cfg.capacity.toUInt64 * cellsPerKey).toNat = cfg.capacity.toNat * 2 := by
    have h2 : cellsPerKey.toNat = 2 := rfl
    rw [toNat_mul_of_lt (by rw [UInt32.toNat_toUInt64, h2]; omega), UInt32.toNat_toUInt64, h2]
  have hm : (cfg.capacity.toUInt64 * cellsPerKey * strideFor cfg.maxValueSize).toNat =
      cfg.capacity.toNat * 2 * strideNat cfg.maxValueSize.toNat := by
    rw [toNat_mul_of_lt, htwo, strideFor_toNat hv.value_le]
    rw [htwo, strideFor_toNat hv.value_le]
    omega
  have hsize : regionSize cfg.capacity cfg.maxValueSize =
      (makeGeometry cfg.capacity cfg.maxValueSize).valuesOffset +
        cfg.capacity.toUInt64 * cellsPerKey * strideFor cfg.maxValueSize := rfl
  rw [hsize, toNat_add_of_lt, hoff, hm, regionSizeNat]
  rw [hoff, hm]
  unfold valuesOffsetNat
  omega

/-- The sizes in a stamped header pass the checks on sizes. -/
structure BoardHeader.Sized (h : BoardHeader) (size : UInt64) : Prop where
  total : (decide (h.totalSize < sizeofBoardHeader) || decide (size < h.totalSize)) = false
  capacity : (h.capacity == 0 || decide (maxCapacity < h.capacity) ||
    decide ((h.totalSize - sizeofBoardHeader) / sizeofBoardEntry < h.capacity.toUInt64)) = false
  value : (h.maxValueSize == 0 || decide (maxValueSize64 < h.maxValueSize)) = false
  cells : decide ((h.totalSize - (makeGeometry h.capacity h.maxValueSize).valuesOffset) /
    (cellsPerKey * (makeGeometry h.capacity h.maxValueSize).valueStride) < h.capacity.toUInt64) = false

theorem sized_stampHeader (hv : cfg.Valid) (hsize : regionSize cfg.capacity cfg.maxValueSize ≤ size) :
    (stampHeader cfg caller).Sized size := by
  have htotal : (stampHeader cfg caller).totalSize.toNat = 192 + cfg.capacity.toNat * 384 +
    cfg.capacity.toNat * 2 * strideNat cfg.maxValueSize.toNat := regionSize_toNat hv
  have hstride : (makeGeometry (stampHeader cfg caller).capacity
    (stampHeader cfg caller).maxValueSize).valueStride.toNat = _ := strideFor_toNat hv.value_le
  have hoff : (makeGeometry (stampHeader cfg caller).capacity
    (stampHeader cfg caller).maxValueSize).valuesOffset.toNat = _ := valuesOffset_toNat _ _
  have hcap : (stampHeader cfg caller).capacity = cfg.capacity := rfl
  have hval : (stampHeader cfg caller).maxValueSize = cfg.maxValueSize := rfl
  have hle : regionSize cfg.capacity cfg.maxValueSize = (stampHeader cfg caller).totalSize := rfl
  rw [hle] at hsize
  generalize stampHeader cfg caller = h at *
  rw [valuesOffsetNat] at hoff
  have hcpos := hv.capacity_pos
  have hcle := hv.capacity_le
  have hvpos := hv.value_pos
  have hvle := hv.value_le
  have hb := strideNat_bounds cfg.maxValueSize.toNat
  rw [← hcap] at hcpos hcle htotal
  rw [← hval] at hvpos hvle htotal hb
  have hhead : sizeofBoardHeader.toNat = 192 := rfl
  refine ⟨?_, ?_, ?_, ?_⟩
  · rw [Bool.or_eq_false_iff, decide_eq_false_iff_not, decide_eq_false_iff_not, UInt64.not_lt, UInt64.not_lt]
    refine ⟨?_, hsize⟩
    rw [UInt64.le_iff_toNat_le, htotal, hhead]
    omega
  · have hsub : (h.totalSize - sizeofBoardHeader).toNat =
        h.capacity.toNat * 384 + h.capacity.toNat * 2 * strideNat h.maxValueSize.toNat := by
      rw [UInt64.toNat_sub_of_le _ _ (by rw [UInt64.le_iff_toNat_le, htotal, hhead]; omega), htotal, hhead]
      omega
    simp only [Bool.or_eq_false_iff, decide_eq_false_iff_not, beq_eq_false_iff_ne]
    rw [hcap] at hsub ⊢
    refine ⟨not_or.mp hv.ranges.1, ?_⟩
    rw [UInt64.not_lt, UInt64.le_iff_toNat_le, UInt64.toNat_div, hsub, UInt32.toNat_toUInt64]
    show _ ≤ _ / 384
    omega
  · simp only [Bool.or_eq_false_iff, decide_eq_false_iff_not, beq_eq_false_iff_ne]
    rw [hval]
    exact not_or.mp hv.ranges.2
  · have hsub : (h.totalSize - (makeGeometry h.capacity h.maxValueSize).valuesOffset).toNat =
        h.capacity.toNat * 2 * strideNat h.maxValueSize.toNat := by
      rw [UInt64.toNat_sub_of_le _ _ (by rw [UInt64.le_iff_toNat_le, htotal, hoff]; omega), htotal, hoff]
      omega
    have htwo : (cellsPerKey * (makeGeometry h.capacity h.maxValueSize).valueStride).toNat =
        2 * strideNat h.maxValueSize.toNat := by
      have h2 : cellsPerKey.toNat = 2 := rfl
      rw [toNat_mul_of_lt (by rw [h2, hstride]; omega), h2, hstride]
    rw [decide_eq_false_iff_not, UInt64.not_lt, UInt64.le_iff_toNat_le, UInt64.toNat_div, hsub, htwo,
      UInt32.toNat_toUInt64, Nat.mul_assoc, Nat.mul_div_cancel _ (by omega)]

/-- Past the sizes, the opener asks for the configuration and the fingerprint. -/
theorem checkHeader_sized {h : BoardHeader} (hver : h.version = boardVersion) (hs : h.Sized size)
    (hc : check = true → h.configHash = bbConfigHash cfg') :
    checkHeader h size cfg' check =
      if cfg'.identity != 0 && h.identityHash != 0 && h.identityHash != cfg'.identity then
        .error (.runtime "Blackboard identity mismatch on ")
      else .ok (makeGeometry h.capacity h.maxValueSize) := by
  have hconfig : (check && h.configHash != bbConfigHash cfg') = false := by
    cases check with
    | false => rfl
    | true => rw [hc rfl, bne_self_eq_false, Bool.and_false]
  rw [checkHeader, if_neg (not_not_intro hver)]
  simp only [throwFirst, hs.total, hs.capacity, hs.value, hs.cells, hconfig, Bool.false_eq_true, ↓reduceIte]
  split_ifs
  · rfl
  · rfl

end Kickmsg.Blackboard
