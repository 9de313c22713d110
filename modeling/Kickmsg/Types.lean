import Mathlib.Data.Nat.Bitwise

/-!
# The words of a region

`types.h`: the encodings of the shared 64- and 32-bit words. A machine word is a `Nat` below `2 ^ 64`
(or `2 ^ 32`); where the code's arithmetic can wrap the model reduces with `u64` or `u32`. The
bit-level definitions follow the source; the lemmas after them turn each one into `/`, `%` and `+`, and
no later module unfolds a bit operation.
-/

namespace Kickmsg

/-- Reduction to `uint64_t`. -/
def u64 (x : Nat) : Nat := x % 2 ^ 64

/-- Reduction to `uint32_t`. -/
def u32 (x : Nat) : Nat := x % 2 ^ 32

def invalidSlot : Nat := 2 ^ 32 - 1
def cacheLine : Nat := 64
def maxPoolSize : Nat := 2 ^ 24 - 2
def maxPayloadSize : Nat := 2 ^ 31 - 1
def maxSubscribers : Nat := 65535

/-! ## The sequence word

`[tag:2 | pos:62]`: committed (`pos + 1`), skip marker (`pos + 1`), publisher lock (`pos`), repairer
lock (`pos`). -/

def seqLockBit : Nat := 1 <<< 63
def seqRepairBit : Nat := 1 <<< 62

def seqIsLocked (seq : Nat) : Bool := (seq &&& seqLockBit) != 0
def seqLock (pos : Nat) : Nat := seqLockBit ||| pos
def seqRepair (pos : Nat) : Nat := seqLockBit ||| seqRepairBit ||| pos
def seqIsSkip (seq : Nat) : Bool := (seq &&& (seqLockBit ||| seqRepairBit)) == seqRepairBit
def seqSkip (pos : Nat) : Nat := seqRepairBit ||| u64 (pos + 1)
def seqPos (seq : Nat) : Nat := seq &&& (seqRepairBit - 1)

/-! ## The meta word

`[tag:40 | slot + 1:24]`, the tag being the low 40 bits of `pos + 1`; zero in the slot field means
that the entry names no slot. -/

def metaSlotBits : Nat := 24
def metaSlotMask : Nat := (1 <<< metaSlotBits) - 1
def metaTagMask : Nat := (1 <<< 40) - 1

def metaTag (m : Nat) : Nat := m >>> metaSlotBits
def metaSlotBiased (m : Nat) : Nat := u32 (m &&& metaSlotMask)

def metaPack (pos slotIdx : Nat) : Nat :=
  let tag := u64 (pos + 1) &&& metaTagMask
  (tag <<< metaSlotBits) ||| ((slotIdx + 1) &&& metaSlotMask)

/-- `m & ~META_SLOT_MASK`, the word `drain_unconsumed` leaves behind. -/
def metaClear (m : Nat) : Nat := m &&& (2 ^ 64 - 1 - metaSlotMask)

/-- True if `m` precedes `pos` under 40-bit serial-number ordering. -/
def metaPrecedes (m pos : Nat) : Bool :=
  let diff := u64 (metaTag m + 2 ^ 64 - (u64 (pos + 1) &&& metaTagMask)) &&& metaTagMask
  diff != 0 && (diff &&& (1 <<< 39)) != 0

/-! ## The ring state word: `[in_flight:30 | state:2]` -/

/-- `ring::State`. -/
inductive RingState
  | free
  | live
  | draining
  | reclaiming
  deriving DecidableEq, Repr

def RingState.code : RingState → Nat
  | .free => 0
  | .live => 1
  | .draining => 2
  | .reclaiming => 3

def stateMask : Nat := 3
def inFlightOne : Nat := 4

def getState (packed : Nat) : RingState :=
  match packed &&& stateMask with
  | 0 => .free
  | 1 => .live
  | 2 => .draining
  | _ => .reclaiming

def getInFlight (packed : Nat) : Nat := packed >>> 2
def makePacked (s : RingState) (inFlight : Nat) : Nat := u32 (inFlight <<< 2) ||| s.code

/-- `(packed & ~STATE_MASK) | s`, the word of every state transition that keeps `in_flight`. -/
def setState (packed : Nat) (s : RingState) : Nat := (packed &&& (2 ^ 32 - 1 - stateMask)) ||| s.code

/-- `ring::Waiter`. -/
def waiterNone : Nat := 0
def waiterFutex : Nat := 1
def waiterCarrier : Nat := 2

/-! ## The tagged head of the free stack: `[gen:32 | idx:32]` -/

def taggedPack (gen idx : Nat) : Nat := (gen <<< 32) ||| idx
def taggedIdx (tagged : Nat) : Nat := u32 tagged
def taggedGen (tagged : Nat) : Nat := u32 (tagged >>> 32)

/-! ## The encodings as arithmetic -/

section Bits

theorem and_two_pow_ne_zero (x k : Nat) : ((x &&& 2 ^ k) != 0) = decide (x / 2 ^ k % 2 = 1) := by
  rw [Nat.and_two_pow, Nat.testBit_eq_decide_div_mod_eq]
  by_cases h : x / 2 ^ k % 2 = 1
  · simp [h]
  · simp [h]

theorem two_pow_or {x k : Nat} (h : x < 2 ^ k) : 2 ^ k ||| x = 2 ^ k + x := by
  have := Nat.two_pow_add_eq_or_of_lt h 1
  simpa using this.symm

theorem shiftLeft_or {a x k : Nat} (h : x < 2 ^ k) : a <<< k ||| x = a * 2 ^ k + x := by
  rw [Nat.shiftLeft_eq, Nat.mul_comm, ← Nat.two_pow_add_eq_or_of_lt h]

/-- Masking a `w`-bit word with the complement of its low `k` bits. -/
theorem and_compl_low {x k w : Nat} (hk : k ≤ w) (hx : x < 2 ^ w) :
    x &&& (2 ^ w - 1 - (2 ^ k - 1)) = x / 2 ^ k * 2 ^ k := by
  apply Nat.eq_of_testBit_eq
  intro i
  have e : 2 ^ w - 1 - (2 ^ k - 1) = 2 ^ w - ((2 ^ k - 1) + 1) := by omega
  have hlt : 2 ^ k - 1 < 2 ^ w := by
    have := Nat.pow_le_pow_right (show 0 < 2 by decide) hk
    have := Nat.two_pow_pos k
    omega
  rw [Nat.testBit_and, e, Nat.testBit_two_pow_sub_succ hlt, Nat.testBit_two_pow_sub_one,
    ← Nat.shiftRight_eq_div_pow, ← Nat.shiftLeft_eq, Nat.testBit_shiftLeft, Nat.testBit_shiftRight]
  by_cases hik : i < k
  · have hw : i < w := by omega
    have hge : ¬ i ≥ k := by omega
    simp [hik, hge]
  · have hge : i ≥ k := by omega
    have hki : k + (i - k) = i := by omega
    simp only [hik, decide_false, Bool.not_false, Bool.and_true, hge, decide_true, Bool.true_and, hki]
    by_cases hw : i < w
    · simp [hw]
    · have hb : x.testBit i = false :=
        Nat.testBit_lt_two_pow (lt_of_lt_of_le hx (Nat.pow_le_pow_right (by decide) (by omega)))
      simp [hb]

end Bits

theorem seqIsLocked_eq {w : Nat} (h : w < 2 ^ 64) : seqIsLocked w = decide (2 ^ 63 ≤ w) := by
  unfold seqIsLocked seqLockBit
  rw [Nat.one_shiftLeft, and_two_pow_ne_zero]
  congr 1
  simp only [eq_iff_iff]
  omega

theorem seqPos_eq (w : Nat) : seqPos w = w % 2 ^ 62 := by
  unfold seqPos seqRepairBit
  rw [Nat.one_shiftLeft, Nat.and_two_pow_sub_one_eq_mod]

theorem seqLock_eq {p : Nat} (h : p < 2 ^ 63) : seqLock p = 2 ^ 63 + p := by
  unfold seqLock seqLockBit
  rw [Nat.one_shiftLeft, two_pow_or h]

theorem seqRepair_eq {p : Nat} (h : p < 2 ^ 62) : seqRepair p = 2 ^ 63 + 2 ^ 62 + p := by
  unfold seqRepair seqLockBit seqRepairBit
  rw [Nat.one_shiftLeft, Nat.one_shiftLeft, Nat.or_assoc, two_pow_or h, two_pow_or (by omega)]
  omega

theorem seqSkip_eq {p : Nat} (h : p + 1 < 2 ^ 62) : seqSkip p = 2 ^ 62 + (p + 1) := by
  unfold seqSkip seqRepairBit u64
  rw [Nat.mod_eq_of_lt (by omega), Nat.one_shiftLeft, two_pow_or h]

theorem seqIsSkip_eq {w : Nat} (h : w < 2 ^ 64) :
    seqIsSkip w = decide (2 ^ 62 ≤ w ∧ w < 2 ^ 63) := by
  unfold seqIsSkip seqLockBit seqRepairBit
  have e : (1 <<< 63 ||| 1 <<< 62 : Nat) = 2 ^ 64 - 1 - (2 ^ 62 - 1) := by decide
  rw [e, and_compl_low (by decide) h, Nat.one_shiftLeft, Bool.eq_iff_iff]
  simp only [beq_iff_eq, decide_eq_true_eq]
  omega

theorem metaTag_eq (m : Nat) : metaTag m = m / 2 ^ 24 := by
  unfold metaTag metaSlotBits
  rw [Nat.shiftRight_eq_div_pow]

theorem metaSlotBiased_eq (m : Nat) : metaSlotBiased m = m % 2 ^ 24 := by
  unfold metaSlotBiased metaSlotMask metaSlotBits u32
  rw [Nat.one_shiftLeft, Nat.and_two_pow_sub_one_eq_mod]
  omega

theorem tagOf_eq (pos : Nat) : (u64 (pos + 1) &&& metaTagMask) = (pos + 1) % 2 ^ 40 := by
  unfold metaTagMask u64
  rw [Nat.one_shiftLeft, Nat.and_two_pow_sub_one_eq_mod]
  omega

theorem metaPack_eq {pos slotIdx : Nat} (h : slotIdx + 1 < 2 ^ 24) :
    metaPack pos slotIdx = (pos + 1) % 2 ^ 40 * 2 ^ 24 + (slotIdx + 1) := by
  unfold metaPack
  simp only [tagOf_eq]
  unfold metaSlotMask metaSlotBits
  rw [Nat.one_shiftLeft, Nat.and_two_pow_sub_one_eq_mod, Nat.mod_eq_of_lt h, shiftLeft_or h]

theorem metaClear_eq {m : Nat} (h : m < 2 ^ 64) : metaClear m = m / 2 ^ 24 * 2 ^ 24 := by
  unfold metaClear metaSlotMask metaSlotBits
  rw [Nat.one_shiftLeft, and_compl_low (by decide) h]

theorem metaPrecedes_eq {m pos : Nat} (h : m < 2 ^ 64) : metaPrecedes m pos =
    decide (2 ^ 39 ≤ (m / 2 ^ 24 + 2 ^ 40 - (pos + 1) % 2 ^ 40) % 2 ^ 40) := by
  unfold metaPrecedes
  simp only [tagOf_eq, metaTag_eq]
  unfold u64 metaTagMask
  rw [Nat.one_shiftLeft, Nat.one_shiftLeft, Nat.and_two_pow_sub_one_eq_mod, and_two_pow_ne_zero,
    Bool.eq_iff_iff]
  simp only [Bool.and_eq_true, bne_iff_ne, ne_eq, decide_eq_true_eq]
  omega

theorem getState_eq (p : Nat) : getState p =
    if p % 4 = 0 then .free else if p % 4 = 1 then .live else if p % 4 = 2 then .draining
    else .reclaiming := by
  unfold getState stateMask
  have e : p &&& 3 = p % 4 := Nat.and_two_pow_sub_one_eq_mod p 2
  rw [e]
  have : p % 4 < 4 := Nat.mod_lt _ (by decide)
  generalize p % 4 = k at this
  match k, this with
  | 0, _ => rfl
  | 1, _ => rfl
  | 2, _ => rfl
  | 3, _ => rfl

theorem getInFlight_eq (p : Nat) : getInFlight p = p / 4 := by
  unfold getInFlight
  rw [Nat.shiftRight_eq_div_pow]

theorem RingState.code_lt (s : RingState) : s.code < 4 := by
  cases s <;> decide

theorem setState_eq {p : Nat} (h : p < 2 ^ 32) (s : RingState) :
    setState p s = p / 4 * 4 + s.code := by
  unfold setState stateMask
  have e : 2 ^ 32 - 1 - 3 = 2 ^ 32 - 1 - (2 ^ 2 - 1) := rfl
  rw [e, and_compl_low (by decide) h, ← Nat.shiftLeft_eq, shiftLeft_or s.code_lt]
  rfl

theorem getState_code (q : Nat) (s : RingState) : getState (q * 4 + s.code) = s := by
  rw [getState_eq]
  cases s <;> simp [RingState.code]

theorem getState_setState {p : Nat} (h : p < 2 ^ 32) (s : RingState) :
    getState (setState p s) = s := by
  rw [setState_eq h, getState_code]

theorem getInFlight_setState {p : Nat} (h : p < 2 ^ 32) (s : RingState) :
    getInFlight (setState p s) = getInFlight p := by
  rw [setState_eq h, getInFlight_eq, getInFlight_eq]
  have := s.code_lt
  omega

theorem setState_lt {p : Nat} (h : p < 2 ^ 32) (s : RingState) : setState p s < 2 ^ 32 := by
  rw [setState_eq h]
  have := s.code_lt
  omega

theorem makePacked_zero (s : RingState) : makePacked s 0 = s.code := by
  simp [makePacked, u32]

theorem taggedPack_eq {gen idx : Nat} (h : idx < 2 ^ 32) : taggedPack gen idx = gen * 2 ^ 32 + idx := by
  unfold taggedPack
  rw [shiftLeft_or h]

theorem taggedIdx_pack {gen idx : Nat} (h : idx < 2 ^ 32) : taggedIdx (taggedPack gen idx) = idx := by
  rw [taggedPack_eq h]
  unfold taggedIdx u32
  omega

theorem taggedGen_pack {gen idx : Nat} (h : idx < 2 ^ 32) :
    taggedGen (taggedPack gen idx) = u32 gen := by
  rw [taggedPack_eq h]
  unfold taggedGen u32
  rw [Nat.shiftRight_eq_div_pow]
  omega

end Kickmsg
