import Mathlib.Algebra.Order.Ring.Nat
import Mathlib.Data.List.GetD

/-!
# Bytes and little-endian words

A byte string in shared memory is a sequence of 64-bit words, moved one word at a time. `wordAt b w` is
the word that holds bytes `8 w .. 8 w + 7` of `b`, and `byteIn m j` is byte `j` of a sequence of words.
-/

namespace Kickmsg.Lib

/-- The little-endian value of the first `n` bytes of `f`. -/
def ofBytes : Nat → (Nat → Nat) → Nat
  | 0, _ => 0
  | n + 1, f => f 0 + 256 * ofBytes n fun i => f (i + 1)

/-- Byte `k` of a value. -/
def byteAt (v k : Nat) : Nat := v / 256 ^ k % 256

theorem byteAt_lt (v k : Nat) : byteAt v k < 256 := Nat.mod_lt _ (by decide)

/-- The bytes of a value give the value back, up to its width. -/
theorem ofBytes_byteAt (n v : Nat) : ofBytes n (byteAt v) = v % 256 ^ n := by
  induction n generalizing v with
  | zero => simp [ofBytes, Nat.mod_one]
  | succ n ih =>
    have htail : (fun i => byteAt v (i + 1)) = byteAt (v / 256) := by
      funext i
      rw [byteAt, byteAt, Nat.pow_succ', Nat.div_div_eq_div_mul]
    rw [ofBytes, htail, ih, Nat.pow_succ', Nat.mod_mul, byteAt]
    simp

/-- A value made of bytes has these bytes. -/
theorem byteAt_ofBytes {n k : Nat} {f : Nat → Nat} (hf : ∀ i, f i < 256) (hk : k < n) :
    byteAt (ofBytes n f) k = f k := by
  induction n generalizing f k with
  | zero => omega
  | succ n ih =>
    have h0 := hf 0
    cases k with
    | zero =>
      rw [byteAt, ofBytes]
      omega
    | succ k =>
      have hdiv : (f 0 + 256 * ofBytes n fun i => f (i + 1)) / 256 = ofBytes n fun i => f (i + 1) := by
        omega
      rw [byteAt, ofBytes, Nat.pow_succ', ← Nat.div_div_eq_div_mul, hdiv]
      exact ih (fun i => hf (i + 1)) (by omega)

/-- Word `w` of the byte string `b`, as `store_words` stores it. -/
def wordAt (b : Nat → Nat) (w : Nat) : Nat := ofBytes 8 fun k => b (8 * w + k)

/-- Byte `j` of the words `m`, as `load_words` copies it out. -/
def byteIn (m : Nat → Nat) (j : Nat) : Nat := byteAt (m (j / 8)) (j % 8)

/-- What `store_words` stored is what `load_words` reads. -/
theorem byteIn_wordAt {b : Nat → Nat} (hb : ∀ j, b j < 256) (j : Nat) :
    byteIn (wordAt b) j = b j := by
  rw [byteIn, wordAt, byteAt_ofBytes (fun k => hb _) (Nat.mod_lt _ (by decide))]
  congr 1
  omega

/-- Byte `j` of a list, zero past its end. -/
def byteOf (bytes : List UInt8) (j : Nat) : Nat := (bytes.getD j 0).toNat

theorem byteOf_lt (bytes : List UInt8) (j : Nat) : byteOf bytes j < 256 := UInt8.toNat_lt _

theorem map_byteOf (l : List UInt8) (n : Nat) :
    (List.range (l.length + n)).map (fun j => UInt8.ofNat (byteOf l j)) = l ++ List.replicate n 0 := by
  apply List.ext_getElem
  · simp
  · intro j h₁ h₂
    simp only [List.getElem_map, List.getElem_range, byteOf, UInt8.ofNat_toNat]
    by_cases hj : j < l.length
    · rw [List.getElem_append_left hj, List.getD_eq_getElem _ _ hj]
    · rw [List.getElem_append_right (by omega), List.getD_eq_default _ _ (by omega)]
      simp

end Kickmsg.Lib
