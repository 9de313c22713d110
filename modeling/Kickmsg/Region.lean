import Kickmsg.Ledger

/-!
# A new region

The geometry that `compute_layout` and `stamp_new_region` derive from a channel configuration, and the
shared words as `stamp_new_region` leaves them: everything is zeroed, then the slots are pushed on the
free stack in order. The ledger of a new region is balanced.
-/

namespace Kickmsg

open Lib

def sizeofHeader : Nat := 832
def sizeofSubRingHeader : Nat := 128
def sizeofEntry : Nat := 16
def sizeofSlotHeader : Nat := 16

/-- `align_up`, on values whose rounding does not wrap. -/
def alignUp (val alignment : Nat) : Nat := (val + alignment - 1) / alignment * alignment

/-- `channel::Config`, without the schema descriptor and the identity. -/
structure Config where
  maxSubscribers : Nat
  subRingCapacity : Nat
  poolSize : Nat
  maxPayloadSize : Nat
  commitTimeout : Nat
  schemaCapacity : Nat
  deriving DecidableEq, Repr

/-- The geometry of a region created for `cfg` under a name of `creatorLen` bytes. -/
def Config.geometry (cfg : Config) (creatorLen : Nat) : Geometry :=
  let headerSize := alignUp (sizeofHeader + creatorLen) cacheLine
  let ringStride := alignUp (sizeofSubRingHeader + cfg.subRingCapacity * sizeofEntry) cacheLine
  let slotStride := alignUp (sizeofSlotHeader + cfg.maxPayloadSize) cacheLine
  let subRingsOffset := alignUp (headerSize + cfg.schemaCapacity) cacheLine
  { subRingsOffset := subRingsOffset
    subRingStride := ringStride
    subRingCapacity := cfg.subRingCapacity
    subRingMask := cfg.subRingCapacity - 1
    poolOffset := subRingsOffset + cfg.maxSubscribers * ringStride
    slotStride := slotStride
    poolSize := cfg.poolSize
    slotDataSize := cfg.maxPayloadSize
    maxSubs := cfg.maxSubscribers
    commitTimeoutUs := cfg.commitTimeout
    schemaBlobOffset := headerSize
    schemaBlobCapacity := cfg.schemaCapacity }

/-- What `validate_config` and `compute_layout` accept of the counts. -/
structure Config.Accepted (cfg : Config) : Prop where
  capacity : ∃ k < 60, cfg.subRingCapacity = 2 ^ k
  poolSize : 0 < cfg.poolSize ∧ cfg.poolSize ≤ maxPoolSize
  maxSubscribers : 0 < cfg.maxSubscribers ∧ cfg.maxSubscribers ≤ Kickmsg.maxSubscribers
  maxPayloadSize : 0 < cfg.maxPayloadSize ∧ cfg.maxPayloadSize ≤ Kickmsg.maxPayloadSize

theorem Config.Accepted.valid {cfg : Config} (h : cfg.Accepted) (creatorLen : Nat) :
    (cfg.geometry creatorLen).Valid where
  maxSubs_pos := h.maxSubscribers.1
  maxSubs_le := h.maxSubscribers.2
  poolSize_pos := h.poolSize.1
  poolSize_le := h.poolSize.2
  slotDataSize_le := h.maxPayloadSize.2
  capacity := h.capacity
  mask := rfl

/-- `treiber_push` with nobody else around. -/
def pushSlot (m : Mem) (slotIdx : Nat) : Mem :=
  Function.update (Function.update m (.nextFree slotIdx) (taggedIdx (m .freeTop))) .freeTop
    (taggedPack (u32 (taggedGen (m .freeTop) + 1)) slotIdx)

/-- The region before its slots are pushed. -/
def blankRegion : Mem := Function.update (fun _ => 0) .freeTop (taggedPack 0 invalidSlot)

/-- `stamp_new_region`. -/
def stampNewRegion (g : Geometry) : Mem := (List.range g.poolSize).foldl pushSlot blankRegion

/-- The free stack of a region with its first `k` slots pushed. -/
structure Stamped (m : Mem) (k : Nat) : Prop where
  linked : Linked (fun s => m (.nextFree s)) invalidSlot (taggedIdx (m .freeTop))
    (List.range k).reverse
  gen : taggedGen (m .freeTop) = k % 2 ^ 32
  word : m .freeTop < 2 ^ 64
  zero : ∀ l, l ≠ .freeTop → (∀ s, l ≠ .nextFree s) → m l = 0

theorem stamped_blank : Stamped blankRegion 0 where
  linked := Linked.nil
  gen := by decide
  word := by decide
  zero l hl _ := by simp [blankRegion, hl]

theorem Stamped.push {m : Mem} {k : Nat} (h : Stamped m k) (hk : k < invalidSlot) :
    Stamped (pushSlot m k) (k + 1) := by
  have hk32 : k < 2 ^ 32 := by
    unfold invalidSlot at hk
    omega
  have htop : pushSlot m k .freeTop = taggedPack (u32 (taggedGen (m .freeTop) + 1)) k := by
    simp [pushSlot]
  have hnext : (fun s => pushSlot m k (.nextFree s)) =
      Function.update (fun s => m (.nextFree s)) k (taggedIdx (m .freeTop)) := by
    funext s
    by_cases hs : s = k
    · simp [pushSlot, hs]
    · simp [pushSlot, hs]
  refine ⟨?_, ?_, ?_, fun l hl hn => ?_⟩
  · rw [htop, taggedIdx_pack hk32, hnext, List.range_succ, List.reverse_append]
    refine Linked.cons (by omega) ?_
    rw [Function.update_self]
    exact h.linked.update_of_notMem (by simp) _
  · rw [htop, taggedGen_pack hk32, h.gen]
    unfold u32
    omega
  · rw [htop, taggedPack_eq hk32]
    unfold u32
    omega
  · rw [pushSlot, Function.update_of_ne hl, Function.update_of_ne (hn k)]
    exact h.zero l hl hn

theorem stamped_foldl (k : Nat) (hk : k < invalidSlot) :
    Stamped ((List.range k).foldl pushSlot blankRegion) k := by
  induction k with
  | zero => exact stamped_blank
  | succ k ih =>
    rw [List.range_succ, List.foldl_append]
    exact (ih (by omega)).push (by omega)

theorem stamped_stampNewRegion {g : Geometry} (hg : g.Valid) :
    Stamped (stampNewRegion g) g.poolSize :=
  stamped_foldl _ (by have := hg.poolSize_le; unfold maxPoolSize at this; unfold invalidSlot; omega)

/-- Every word but the free stack's starts at zero. -/
theorem stampNewRegion_zero {g : Geometry} (hg : g.Valid) {l : Loc} (hl : l ≠ .freeTop)
    (hn : ∀ s, l ≠ .nextFree s) : stampNewRegion g l = 0 :=
  (stamped_stampNewRegion hg).zero l hl hn

section Ledger

variable {ι : Type} [Fintype ι] {g : Geometry}

theorem names_stampNewRegion (hg : g.Valid) (s : Nat) : names g (stampNewRegion g) s = 0 := by
  have hz : ∀ r i, stampNewRegion g (.metaWord r i) = 0 := fun r i =>
    stampNewRegion_zero hg (by simp) (by simp)
  simp [names, hz, metaSlotBiased_eq]

/-- With empty accounts a new region has every slot on the free stack. -/
theorem poolSafe_stampNewRegion (hg : g.Valid) (seen : ι → Nat) (acct : ι → Acct)
    (he : ∀ t s, (acct t).excl s = 0) (hh : ∀ t s, (acct t).holds s = 0)
    (hs : ∀ t, (acct t).stack = .away) :
    PoolSafe g (stampNewRegion g) g.poolSize seen acct (List.range g.poolSize).reverse ∧
      PoolExact g (stampNewRegion g) acct (List.range g.poolSize).reverse := by
  have hst := stamped_stampNewRegion hg
  have hrc : ∀ s, stampNewRegion g (.refcount s) = 0 := fun s =>
    stampNewRegion_zero hg (by simp) (by simp)
  have hcount : ∀ s < g.poolSize, (List.range g.poolSize).reverse.count s = 1 := fun s hs => by
    rw [List.count_reverse]
    exact List.count_eq_one_of_mem List.nodup_range (List.mem_range.mpr hs)
  refine ⟨⟨hst.linked, hst.gen, hst.word, fun s hs => by simpa using hs,
    fun t => Acct.good_of_away (hs t), fun s hs => ?_, fun s _ => ?_, fun s _ => ?_⟩,
    fun s hs => ?_, fun s _ => ?_⟩
  · simp [hcount s hs, he, inUse, hrc]
  · simp [names_stampNewRegion hg, hh]
  · rw [hrc]
    decide
  · simp [hcount s hs, he, inUse, hrc]
  · simp [names_stampNewRegion hg, hh, hrc]

end Ledger

end Kickmsg
