import Kickmsg.Layout

/-!
# The parts of an opened region

What an opener has accepted is a header that anyone may have written. This much is true of it all the same: the
parts of the region that the calls work on are inside it and apart, no address of one wraps, and each lies as its
words need it to.
-/

namespace Kickmsg

open Lib

/-! ## What an opener has checked -/

/-- The geometry that an opener goes on with, in a region of `total` bytes. -/
structure Geometry64.Opened (g : Geometry64) (total : UInt64) : Prop where
  maxSubs : 0 < g.maxSubs.toNat ∧ g.maxSubs.toNat ≤ maxSubscribers
  poolSize : 0 < g.poolSize.toNat ∧ g.poolSize.toNat ≤ maxPoolSize
  slotDataSize : 0 < g.slotDataSize.toNat ∧ g.slotDataSize.toNat ≤ maxPayloadSize
  capacity : ∃ k < 60, g.subRingCapacity.toNat = 2 ^ k
  mask : g.subRingMask.toNat = g.subRingCapacity.toNat - 1
  header_le : sizeofHeader ≤ g.schemaBlobOffset.toNat
  blob_le : g.schemaBlobOffset.toNat + g.schemaBlobCapacity.toNat ≤ g.subRingsOffset.toNat
  rings_le : g.subRingsOffset.toNat + g.maxSubs.toNat * g.subRingStride.toNat ≤ g.poolOffset.toNat
  pool_le : g.poolOffset.toNat + g.poolSize.toNat * g.slotStride.toNat ≤ total.toNat
  ring_fits : sizeofSubRingHeader + g.subRingCapacity.toNat * sizeofEntry ≤ g.subRingStride.toNat
  slot_fits : sizeofSlotHeader + g.slotDataSize.toNat ≤ g.slotStride.toNat
  blob_mod : g.schemaBlobOffset.toNat % cacheLine = 0
  rings_mod : g.subRingsOffset.toNat % cacheLine = 0
  pool_mod : g.poolOffset.toNat % cacheLine = 0
  ringStride_mod : g.subRingStride.toNat % cacheLine = 0
  slotStride_mod : g.slotStride.toNat % cacheLine = 0

section Checks

theorem decide_ge_eq_false {v b : UInt64} : decide (v ≥ b) = false ↔ v.toNat < b.toNat := by
  rw [decide_eq_false_iff_not, ge_iff_le, UInt64.not_le, UInt64.lt_iff_toNat_lt]

theorem mod_line_of_eq {v : UInt64} (h : v % cacheLine64 = 0) : v.toNat % cacheLine = 0 := by
  rw [← UInt64.toNat_inj, UInt64.toNat_mod] at h
  exact h

/-- A quotient check leaves an array that fits. -/
theorem mul_le_of_le_quotient {n stride start stop : UInt64} (hle : start.toNat ≤ stop.toNat)
    (h : n.toNat ≤ ((stop - start) / stride).toNat) :
    start.toNat + n.toNat * stride.toNat ≤ stop.toNat := by
  rw [UInt64.toNat_div, toNat_sub_of_le hle] at h
  have := (Nat.mul_le_mul_right _ h).trans (Nat.div_mul_le_self _ _)
  omega

/-- A ring whose entries fit a region is short enough for its size to be exact. -/
theorem capacity_of_checks {cap total : UInt64} (hpow : isPowerOfTwo cap = true)
    (h : cap.toNat ≤ (total / sizeofEntry64).toNat) : ∃ k < 60, cap.toNat = 2 ^ k := by
  obtain ⟨k, -, hk⟩ := (isPowerOfTwo_iff _).mp hpow
  refine ⟨k, ?_, hk⟩
  have he : sizeofEntry64.toNat = 16 := rfl
  rw [UInt64.toNat_div, he, hk] at h
  have ht : total.toNat < 2 ^ 64 := total.toNat_lt
  have h60 : (2 : Nat) ^ k < 2 ^ 60 := by omega
  exact (Nat.pow_lt_pow_iff_right (by decide)).mp h60

/-- Whatever the header says, this much is true of it once it is accepted. -/
theorem opened_of_validateSnapshot {s : HeaderSnapshot} {size : UInt64} (h : validateSnapshot s size = .ok ()) :
    s.geometry.Opened s.totalSize ∧ s.totalSize.toNat ≤ size.toNat ∧
      sizeofHeader + s.creatorNameLen.toNat ≤ s.geometry.schemaBlobOffset.toNat := by
  obtain ⟨g, type, total, len⟩ := s
  have hheader : sizeofHeader64.toNat = sizeofHeader := rfl
  have hslotHeader : sizeofSlotHeader64.toNat = sizeofSlotHeader := rfl
  have hringHeader : sizeofSubRingHeader64.toNat = sizeofSubRingHeader := rfl
  have hentry : sizeofEntry64.toNat = sizeofEntry := rfl
  simp only [validateSnapshot, throwFirst_cons_ok, Bool.or_eq_false_iff, beq_zero_eq_false, decide_gt_eq_false,
    decide_ge_eq_false, Bool.not_eq_false', bne_eq_false_iff_eq, throwFirst_nil, and_true] at h
  obtain ⟨hsize, -, -, ⟨⟨⟨⟨⟨hsubs, hpool⟩, hdata0⟩, -⟩, -⟩, -⟩, hpool', hdata, hsubs', hpow, hmask,
    ⟨⟨-, hrings⟩, htotal⟩, ⟨hblob, hblob'⟩, ⟨-, hcap⟩, hname,
    ⟨⟨⟨⟨hm1, hm2⟩, hm3⟩, hm4⟩, hm5⟩, hentries, hring, -, hslot, hall, hall'⟩ := h
  obtain ⟨k, hk, hcapk⟩ := capacity_of_checks hpow hentries
  have hpos : 0 < g.subRingCapacity.toNat := hcapk ▸ Nat.two_pow_pos k
  have hlt : g.subRingCapacity.toNat ≤ 2 ^ 59 := hcapk ▸ Nat.pow_le_pow_right (by decide) (Nat.le_of_lt_succ hk)
  have hmul : (g.subRingCapacity * sizeofEntry64).toNat = g.subRingCapacity.toNat * sizeofEntry := by
    rw [toNat_mul_of_lt, hentry]
    rw [hentry, sizeofEntry]
    omega
  rw [toNat_sub_of_le hblob'] at hcap
  rw [toNat_sub_of_le hblob, UInt16.toNat_toUInt64] at hname
  rw [toNat_add_of_lt (by rw [hmul, hringHeader, sizeofEntry, sizeofSubRingHeader]; omega), hmul, hringHeader] at hring
  rw [toNat_add_of_lt, hslotHeader] at hslot
  · show g.Opened total ∧ total.toNat ≤ size.toNat ∧ sizeofHeader + len.toNat ≤ g.schemaBlobOffset.toNat
    rw [hheader] at hblob hname
    refine ⟨⟨⟨hsubs, hsubs'⟩, ⟨hpool, hpool'⟩, ⟨hdata0, hdata⟩, ⟨k, hk, hcapk⟩, ?_, hblob, by omega,
      mul_le_of_le_quotient hrings.le hall, mul_le_of_le_quotient htotal.le hall', hring, hslot, mod_line_of_eq hm1,
      mod_line_of_eq hm2, mod_line_of_eq hm3, mod_line_of_eq hm4, mod_line_of_eq hm5⟩, hsize, by omega⟩
    rw [hmask]
    exact toNat_sub_of_le (Nat.succ_le_of_lt hpos)
  · have hmax : (UInt64.ofNat maxPayloadSize).toNat = 2 ^ 31 - 1 := rfl
    rw [hslotHeader, sizeofSlotHeader]
    omega

theorem opened_of_validateOpened {h : Header} {size : UInt64} {g : Geometry64}
    (hok : validateOpened h size = .ok g) :
    ∃ total : UInt64, total.toNat ≤ size.toNat ∧ g.Opened total := by
  rw [validateOpened, throwFirst_bind_ok] at hok
  obtain ⟨-, hok⟩ := hok
  split_ifs at hok with hv
  cases hs : validateSnapshot h.snapshot size with
  | error e =>
    rw [hs] at hok
    cases hok
  | ok u =>
    rw [hs] at hok
    obtain rfl := Except.ok.inj hok
    obtain ⟨hopen, hle, -⟩ := opened_of_validateSnapshot hs
    exact ⟨_, hle, hopen⟩

end Checks

/-! ## The parts of a region -/

/-- What an access is meant for. -/
inductive Part
  | header
  | nameTail
  | schemaBlob
  | ringHeader (r : Nat)
  | entry (r i : Nat)
  | slotHeader (s : Nat)
  | payload (s : Nat)
  deriving DecidableEq, Repr

namespace Part

/-- Where pointer arithmetic finds a part, from the base on: `header_creator_name`, `sub_ring_at`, `ring_entries`,
`slot_at` and `slot_data`. -/
def offset (g : Geometry64) : Part → UInt64
  | header => 0
  | nameTail => sizeofHeader64
  | schemaBlob => g.schemaBlobOffset
  | ringHeader r => subRingAt g (UInt32.ofNat r)
  | entry r i => subRingAt g (UInt32.ofNat r) + sizeofSubRingHeader64 + UInt64.ofNat i * sizeofEntry64
  | slotHeader s => slotAt g (UInt32.ofNat s)
  | payload s => slotAt g (UInt32.ofNat s) + sizeofSlotHeader64

/-- The same over unbounded integers. -/
def start (g : Geometry64) : Part → Nat
  | header => 0
  | nameTail => sizeofHeader
  | schemaBlob => g.schemaBlobOffset.toNat
  | ringHeader r => g.subRingsOffset.toNat + r * g.subRingStride.toNat
  | entry r i => g.subRingsOffset.toNat + r * g.subRingStride.toNat + sizeofSubRingHeader + i * sizeofEntry
  | slotHeader s => g.poolOffset.toNat + s * g.slotStride.toNat
  | payload s => g.poolOffset.toNat + s * g.slotStride.toNat + sizeofSlotHeader

/-- The name may take what the blob leaves after the header. -/
def size (g : Geometry64) : Part → Nat
  | header => sizeofHeader
  | nameTail => g.schemaBlobOffset.toNat - sizeofHeader
  | schemaBlob => g.schemaBlobCapacity.toNat
  | ringHeader _ => sizeofSubRingHeader
  | entry _ _ => sizeofEntry
  | slotHeader _ => sizeofSlotHeader
  | payload _ => g.slotDataSize.toNat

/-- The parts that exist. -/
def Exists (g : Geometry64) : Part → Prop
  | ringHeader r => r < g.maxSubs.toNat
  | entry r i => r < g.maxSubs.toNat ∧ i < g.subRingCapacity.toNat
  | slotHeader s | payload s => s < g.poolSize.toNat
  | _ => True

/-- The bytes of a part. -/
def bytes (g : Geometry64) (p : Part) : Set Nat := Set.Ico (p.offset g).toNat ((p.offset g).toNat + p.size g)

end Part

namespace Geometry64.Opened

variable {g : Geometry64} {total : UInt64} (h : g.Opened total)
include h

/-- The counts are those that the calls rely on. -/
theorem valid : g.toGeometry.Valid :=
  ⟨h.maxSubs.1, h.maxSubs.2, h.poolSize.1, h.poolSize.2, h.slotDataSize.2, h.capacity, h.mask⟩

/-- Ring `i` ends before the pool. -/
theorem ring_le {i : Nat} (hi : i < g.maxSubs.toNat) :
    g.subRingsOffset.toNat + i * g.subRingStride.toNat + g.subRingStride.toNat ≤ g.poolOffset.toNat := by
  have hm : (i + 1) * g.subRingStride.toNat ≤ g.maxSubs.toNat * g.subRingStride.toNat :=
    Nat.mul_le_mul_right _ hi
  rw [Nat.succ_mul] at hm
  have := h.rings_le
  omega

/-- Slot `i` ends before the region does. -/
theorem slot_le {i : Nat} (hi : i < g.poolSize.toNat) :
    g.poolOffset.toNat + i * g.slotStride.toNat + g.slotStride.toNat ≤ total.toNat := by
  have hm : (i + 1) * g.slotStride.toNat ≤ g.poolSize.toNat * g.slotStride.toNat :=
    Nat.mul_le_mul_right _ hi
  rw [Nat.succ_mul] at hm
  have := h.pool_le
  omega

theorem pool_le_total : g.poolOffset.toNat ≤ total.toNat := (Nat.le_add_right _ _).trans h.pool_le

theorem rings_le_pool : g.subRingsOffset.toNat ≤ g.poolOffset.toNat := (Nat.le_add_right _ _).trans h.rings_le

/-- `sub_ring_at` does not wrap. -/
theorem subRingAt_toNat {r : Nat} (hr : r < g.maxSubs.toNat) :
    (subRingAt g (UInt32.ofNat r)).toNat = g.subRingsOffset.toNat + r * g.subRingStride.toNat := by
  have hend := h.ring_le hr
  have hp : g.poolOffset.toNat < 2 ^ 64 := g.poolOffset.toNat_lt
  have hmax := h.maxSubs.2
  have hidx : (UInt32.ofNat r).toNat = r := UInt32.toNat_ofNat_of_lt' (by
    show r < 2 ^ 32
    unfold maxSubscribers at hmax
    omega)
  have hm : ((UInt32.ofNat r).toUInt64 * g.subRingStride).toNat = r * g.subRingStride.toNat := by
    rw [toNat_mul_of_lt, UInt32.toNat_toUInt64, hidx]
    rw [UInt32.toNat_toUInt64, hidx]
    omega
  rw [subRingAt, toNat_add_of_lt, hm]
  rw [hm]
  omega

/-- `slot_at` does not wrap. -/
theorem slotAt_toNat {s : Nat} (hs : s < g.poolSize.toNat) :
    (slotAt g (UInt32.ofNat s)).toNat = g.poolOffset.toNat + s * g.slotStride.toNat := by
  have hend := h.slot_le hs
  have ht : total.toNat < 2 ^ 64 := total.toNat_lt
  have hmax := h.poolSize.2
  have hidx : (UInt32.ofNat s).toNat = s := UInt32.toNat_ofNat_of_lt' (by
    show s < 2 ^ 32
    unfold maxPoolSize at hmax
    omega)
  have hm : ((UInt32.ofNat s).toUInt64 * g.slotStride).toNat = s * g.slotStride.toNat := by
    rw [toNat_mul_of_lt, UInt32.toNat_toUInt64, hidx]
    rw [UInt32.toNat_toUInt64, hidx]
    omega
  rw [slotAt, toNat_add_of_lt, hm]
  rw [hm]
  omega

/-- An entry is within its ring. -/
theorem entry_le {i : Nat} (hi : i < g.subRingCapacity.toNat) :
    sizeofSubRingHeader + i * sizeofEntry + sizeofEntry ≤ g.subRingStride.toNat := by
  have hm : (i + 1) * sizeofEntry ≤ g.subRingCapacity.toNat * sizeofEntry := Nat.mul_le_mul_right _ hi
  rw [Nat.succ_mul] at hm
  have := h.ring_fits
  omega

/-- No address arithmetic wraps. -/
theorem offset_toNat {p : Part} (hp : p.Exists g) : (p.offset g).toNat = p.start g := by
  have hpool : g.poolOffset.toNat < 2 ^ 64 := g.poolOffset.toNat_lt
  have ht : total.toNat < 2 ^ 64 := total.toNat_lt
  cases p with
  | header => rfl
  | nameTail => rfl
  | schemaBlob => rfl
  | ringHeader r => exact h.subRingAt_toNat hp
  | entry r i =>
    obtain ⟨hr, hi⟩ := hp
    have hring := h.ring_le hr
    have hentry := h.entry_le hi
    have hheader : sizeofSubRingHeader64.toNat = sizeofSubRingHeader := rfl
    have hsize : sizeofEntry64.toNat = sizeofEntry := rfl
    have hidx : (UInt64.ofNat i).toNat = i := UInt64.toNat_ofNat_of_lt' (hi.trans g.subRingCapacity.toNat_lt)
    have hm : (UInt64.ofNat i * sizeofEntry64).toNat = i * sizeofEntry := by
      rw [toNat_mul_of_lt, hidx, hsize]
      rw [hidx, hsize]
      omega
    have ha : (subRingAt g (UInt32.ofNat r) + sizeofSubRingHeader64).toNat =
        g.subRingsOffset.toNat + r * g.subRingStride.toNat + sizeofSubRingHeader := by
      rw [toNat_add_of_lt, h.subRingAt_toNat hr, hheader]
      rw [h.subRingAt_toNat hr, hheader]
      omega
    rw [Part.offset, toNat_add_of_lt, ha, hm]
    · rfl
    · rw [ha, hm]
      omega
  | slotHeader s => exact h.slotAt_toNat hp
  | payload s =>
    have hend := h.slot_le hp
    have hfits := h.slot_fits
    have hheader : sizeofSlotHeader64.toNat = sizeofSlotHeader := rfl
    rw [Part.offset, toNat_add_of_lt, h.slotAt_toNat hp, hheader]
    · rfl
    · rw [h.slotAt_toNat hp, hheader]
      omega

/-- Every part starts where a 64-bit word may. -/
theorem start_mod {p : Part} (hp : p.Exists g) : p.start g % 8 = 0 := by
  have hline : ∀ {x}, x % cacheLine = 0 → x % 8 = 0 := fun hx => by
    unfold cacheLine at hx
    omega
  have hblob := hline h.blob_mod
  have hrings := hline h.rings_mod
  have hpool := hline h.pool_mod
  have hring : ∀ r, (r * g.subRingStride.toNat) % 8 = 0 := fun r => by
    rw [Nat.mul_mod, hline h.ringStride_mod, Nat.mul_zero]
  have hslot : ∀ s, (s * g.slotStride.toNat) % 8 = 0 := fun s => by
    rw [Nat.mul_mod, hline h.slotStride_mod, Nat.mul_zero]
  cases p with
  | header => rfl
  | nameTail => exact (rfl : 832 % 8 = 0)
  | schemaBlob => exact hblob
  | ringHeader r =>
    have := hring r
    show (_ + _) % 8 = 0
    omega
  | entry r i =>
    have := hring r
    show (_ + _ + 128 + i * 16) % 8 = 0
    omega
  | slotHeader s =>
    have := hslot s
    show (_ + _) % 8 = 0
    omega
  | payload s =>
    have := hslot s
    show (_ + _ + 16) % 8 = 0
    omega

theorem edge_succ (z : Nat) : g.edge total z ≤ g.edge total (z + 1) := by
  match z with
  | 0 => exact Nat.zero_le _
  | 1 => exact h.header_le
  | 2 => exact (Nat.le_add_right _ _).trans h.blob_le
  | 3 => exact h.rings_le_pool
  | 4 => exact h.pool_le_total
  | _ + 5 => exact le_refl _

theorem edge_mono {y z : Nat} (hyz : y ≤ z) : g.edge total y ≤ g.edge total z :=
  monotone_nat_of_le_succ h.edge_succ hyz

end Geometry64.Opened

/-- The zone of the region that a part is in. -/
def Part.zone : Part → Nat
  | header => 0
  | nameTail => 1
  | schemaBlob => 2
  | ringHeader _ | entry _ _ => 3
  | slotHeader _ | payload _ => 4

/-- The ring or the slot that a part is of. -/
def Part.elem : Part → Nat
  | ringHeader r | entry r _ => r
  | slotHeader s | payload s => s
  | _ => 0

theorem Part.bytes_disjoint_of_le {g : Geometry64} {p q : Part}
    (hle : (p.offset g).toNat + p.size g ≤ (q.offset g).toNat) : Disjoint (p.bytes g) (q.bytes g) :=
  Set.disjoint_left.mpr fun x hp hq => by
    have h1 := hp.2
    have h2 := hq.1
    omega

namespace Geometry64.Opened

variable {g : Geometry64} {total : UInt64} (h : g.Opened total)
include h

/-- A part of a ring or of a slot is within it, every other part within its zone. -/
theorem start_zone {p : Part} (hp : p.Exists g) :
    (p.zone = 3 → g.subRingsOffset.toNat + p.elem * g.subRingStride.toNat ≤ p.start g ∧
      p.start g + p.size g ≤ g.subRingsOffset.toNat + p.elem * g.subRingStride.toNat + g.subRingStride.toNat) ∧
    (p.zone = 4 → g.poolOffset.toNat + p.elem * g.slotStride.toNat ≤ p.start g ∧
      p.start g + p.size g ≤ g.poolOffset.toNat + p.elem * g.slotStride.toNat + g.slotStride.toNat) ∧
    g.edge total p.zone ≤ p.start g ∧ p.start g + p.size g ≤ g.edge total (p.zone + 1) := by
  have hring := h.ring_fits
  have hslot := h.slot_fits
  cases p with
  | header => exact ⟨fun e => (by cases e), fun e => (by cases e), Nat.zero_le _, (Nat.zero_add _).le⟩
  | nameTail =>
    exact ⟨fun e => (by cases e), fun e => (by cases e), le_refl _, (Nat.add_sub_of_le h.header_le).le⟩
  | schemaBlob => exact ⟨fun e => (by cases e), fun e => (by cases e), le_refl _, h.blob_le⟩
  | ringHeader r =>
    have hend := h.ring_le hp
    simp only [Part.start, Part.size, Part.zone, Part.elem, edge]
    refine ⟨fun _ => ⟨le_refl _, ?_⟩, fun e => (by cases e), ?_, ?_⟩ <;> omega
  | entry r i =>
    have hend := h.ring_le hp.1
    have hentry := h.entry_le hp.2
    simp only [Part.start, Part.size, Part.zone, Part.elem, edge]
    refine ⟨fun _ => ⟨?_, ?_⟩, fun e => (by cases e), ?_, ?_⟩ <;> omega
  | slotHeader s =>
    have hend := h.slot_le hp
    simp only [Part.start, Part.size, Part.zone, Part.elem, edge]
    refine ⟨fun e => (by cases e), fun _ => ⟨le_refl _, ?_⟩, ?_, ?_⟩ <;> omega
  | payload s =>
    have hend := h.slot_le hp
    simp only [Part.start, Part.size, Part.zone, Part.elem, edge]
    refine ⟨fun e => (by cases e), fun _ => ⟨?_, ?_⟩, ?_, ?_⟩ <;> omega

/-- Every part is in the region. -/
theorem start_le {p : Part} (hp : p.Exists g) : p.start g + p.size g ≤ total.toNat := by
  have hz : p.zone + 1 ≤ 5 := by cases p <;> simp [Part.zone]
  exact (h.start_zone hp).2.2.2.trans (h.edge_mono hz)

theorem bytes_disjoint_of_start {p q : Part} (hp : p.Exists g) (hq : q.Exists g)
    (hle : p.start g + p.size g ≤ q.start g) : Disjoint (p.bytes g) (q.bytes g) :=
  Part.bytes_disjoint_of_le (by rw [h.offset_toNat hp, h.offset_toNat hq]; exact hle)

theorem bytes_disjoint_of_zone {p q : Part} (hp : p.Exists g) (hq : q.Exists g) (hz : p.zone < q.zone) :
    Disjoint (p.bytes g) (q.bytes g) :=
  h.bytes_disjoint_of_start hp hq
    ((h.start_zone hp).2.2.2.trans ((h.edge_mono hz).trans (h.start_zone hq).2.2.1))

/-- Parts of different rings, and of different slots. -/
theorem bytes_disjoint_of_elem {p q : Part} (hp : p.Exists g) (hq : q.Exists g) (hz : p.zone = q.zone)
    (he : p.elem < q.elem) : Disjoint (p.bytes g) (q.bytes g) := by
  obtain ⟨hp3, hp4, -, -⟩ := h.start_zone hp
  obtain ⟨hq3, hq4, -, -⟩ := h.start_zone hq
  have hz34 : q.zone = 3 ∨ q.zone = 4 := by
    cases q with
    | header | nameTail | schemaBlob => exact absurd he (Nat.not_lt_zero _)
    | ringHeader | entry => exact .inl rfl
    | slotHeader | payload => exact .inr rfl
  refine h.bytes_disjoint_of_start hp hq ?_
  rcases hz34 with h3 | h4
  · exact (hp3 (hz.trans h3)).2.trans ((end_le_of_lt (le_refl _) he).trans (hq3 h3).1)
  · exact (hp4 (hz.trans h4)).2.trans ((end_le_of_lt (le_refl _) he).trans (hq4 h4).1)

omit h in
/-- Two parts of one ring or of one slot. -/
theorem start_apart {p q : Part} (hz : p.zone = q.zone) (he : p.elem = q.elem) (hpq : p ≠ q) :
    p.start g + p.size g ≤ q.start g ∨ q.start g + q.size g ≤ p.start g := by
  cases p <;> cases q <;> simp only [Part.zone, Part.elem, reduceCtorEq, Nat.reduceEqDiff] at hz he <;>
    first
      | exact absurd rfl hpq
      | (subst he
         simp only [Part.start, Part.size, sizeofSlotHeader, sizeofSubRingHeader, sizeofEntry])
  case entry.entry r i j =>
    have hij : i ≠ j := fun e => hpq (by rw [e])
    omega
  all_goals first | exact absurd rfl hpq | omega

/-- No two parts share a byte. -/
theorem bytes_disjoint {p q : Part} (hp : p.Exists g) (hq : q.Exists g) (hpq : p ≠ q) :
    Disjoint (p.bytes g) (q.bytes g) := by
  rcases Nat.lt_trichotomy p.zone q.zone with hz | hz | hz
  · exact h.bytes_disjoint_of_zone hp hq hz
  · rcases Nat.lt_trichotomy p.elem q.elem with he | he | he
    · exact h.bytes_disjoint_of_elem hp hq hz he
    · rcases start_apart (g := g) hz he hpq with hle | hle
      · exact h.bytes_disjoint_of_start hp hq hle
      · exact (h.bytes_disjoint_of_start hq hp hle).symm
    · exact (h.bytes_disjoint_of_elem hq hp hz.symm he).symm
  · exact (h.bytes_disjoint_of_zone hq hp hz).symm

end Geometry64.Opened

end Kickmsg
