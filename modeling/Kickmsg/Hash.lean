import Mathlib.Data.List.Basic

/-!
# FNV-1a

`hash::fnv1a_64` of `Hash.cc`, over a range of bytes and over the bytes of a scalar, least significant
byte first.
-/

namespace Kickmsg.Hash

def fnv1aOffsetBasis : UInt64 := 14695981039346656037
def fnv1aPrime : UInt64 := 1099511628211

/-- `fnv1a_64` of a byte range. -/
def fnv1a64 (data : List UInt8) (seed : UInt64) : UInt64 :=
  data.foldl (fun h b => (h ^^^ b.toUInt64) * fnv1aPrime) seed

/-- The bytes of a 64-bit scalar in memory. -/
def bytes64 (v : UInt64) : List UInt8 :=
  (List.range 8).map fun k => (v >>> UInt64.ofNat (8 * k)).toUInt8

/-- The bytes of a 32-bit scalar in memory. -/
def bytes32 (v : UInt32) : List UInt8 :=
  (List.range 4).map fun k => (v >>> UInt32.ofNat (8 * k)).toUInt8

end Kickmsg.Hash
