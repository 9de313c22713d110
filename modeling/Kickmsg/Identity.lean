import Kickmsg.Hash
import Kickmsg.Lib.Bytes
import Kickmsg.Naming

/-!
# Channel identities

The fingerprints that `Node` and `Blackboard` stamp into a region. Each chains its components through the
seed of FNV-1a, every component followed by its length. The chain is FNV-1a of one byte string, and that
string can be read back from its end; so two channels with one identity are two byte strings with one hash.
-/

namespace Kickmsg.Identity

open Lib Hash Naming

/-- `fnv1a_64(component.size(), identity)` hashes these. -/
def sizeBytes (component : List UInt8) : List UInt8 := bytes64 (UInt64.ofNat component.length)

/-- `identity_chain`. -/
def identityChain (component : List UInt8) (identity : UInt64) : UInt64 :=
  let identity := fnv1a64 component identity
  fnv1a64 (sizeBytes component) identity

/-- `Node::topic_identity`. -/
def topicIdentity (ns topic : List UInt8) : UInt64 :=
  let identity := identityChain (ascii "topic") fnv1aOffsetBasis
  let identity := identityChain ns identity
  identityChain topic identity

/-- `Node::broadcast_identity`. -/
def broadcastIdentity (ns channel : List UInt8) : UInt64 :=
  let identity := identityChain (ascii "broadcast") fnv1aOffsetBasis
  let identity := identityChain ns identity
  identityChain channel identity

/-- `Node::mailbox_identity`. -/
def mailboxIdentity (ns owner tag : List UInt8) : Except Thrown UInt64 :=
  let identity := identityChain (ascii "mailbox") fnv1aOffsetBasis
  let identity := identityChain ns identity
  (sanitizeShmComponent owner "mailbox owner").map fun owner =>
    identityChain tag (identityChain owner identity)

/-- `derived_identity` of a blackboard, before it replaces 0. -/
def derivedHash (ns name : List UInt8) : UInt64 :=
  let header := fnv1a64 (ascii "blackboard") fnv1aOffsetBasis
  let header := fnv1a64 (bytes64 10) header
  let header := fnv1a64 ns header
  let header := fnv1a64 (sizeBytes ns) header
  let header := fnv1a64 name header
  fnv1a64 (sizeBytes name) header

/-- `derived_identity`. -/
def derivedIdentity (ns name : List UInt8) : UInt64 :=
  if derivedHash ns name = 0 then 1 else derivedHash ns name

/-- A channel, by what is hashed of it: the owner of a mailbox is sanitized. -/
inductive Channel
  | topic (ns topic : List UInt8)
  | broadcast (ns channel : List UInt8)
  | mailbox (ns owner tag : List UInt8)
  | blackboard (ns name : List UInt8)
  deriving DecidableEq

/-- The components of a channel, its kind first. -/
def Channel.components : Channel → List (List UInt8)
  | .topic ns t => [ascii "topic", ns, t]
  | .broadcast ns ch => [ascii "broadcast", ns, ch]
  | .mailbox ns o t => [ascii "mailbox", ns, o, t]
  | .blackboard ns n => [ascii "blackboard", ns, n]

/-- `h` is what the source computes for channel `c`. -/
def Channel.Identifies : Channel → UInt64 → Prop
  | .topic ns t, h => h = topicIdentity ns t
  | .broadcast ns ch, h => h = broadcastIdentity ns ch
  | .mailbox ns o t, h => ∃ raw, sanitizeShmComponent raw "mailbox owner" = .ok o ∧
      mailboxIdentity ns raw t = .ok h
  | .blackboard ns n, h => h = derivedHash ns n

/-- The bytes that are hashed. -/
def encode (components : List (List UInt8)) : List UInt8 :=
  components.flatMap fun c => c ++ sizeBytes c

variable {a b : List UInt8} {xs ys : List (List UInt8)}

theorem fnv1a64_append (seed : UInt64) : fnv1a64 (a ++ b) seed = fnv1a64 b (fnv1a64 a seed) :=
  List.foldl_append

/-! ## A chain hashes one string -/

theorem encode_cons (c : List UInt8) : encode (c :: xs) = c ++ sizeBytes c ++ encode xs := List.flatMap_cons

theorem encode_append : encode (xs ++ ys) = encode xs ++ encode ys := List.flatMap_append

theorem chain_eq (seed : UInt64) :
    xs.foldl (fun h c => identityChain c h) seed = fnv1a64 (encode xs) seed := by
  induction xs generalizing seed with
  | nil => rfl
  | cons c xs ih => rw [List.foldl_cons, ih, encode_cons, fnv1a64_append, fnv1a64_append, identityChain]

/-- The length that `derived_identity` hashes after its tag is the length of the tag. -/
theorem sizeBytes_blackboard : sizeBytes (ascii "blackboard") = bytes64 10 := by decide

theorem derivedHash_eq (ns name : List UInt8) :
    derivedHash ns name =
      identityChain name (identityChain ns (identityChain (ascii "blackboard") fnv1aOffsetBasis)) := by
  rw [derivedHash, identityChain, identityChain, identityChain, sizeBytes_blackboard]

/-- Whatever the kind, the identity is FNV-1a of the encoded components. -/
theorem Channel.Identifies.eq {c : Channel} {h : UInt64} (hc : c.Identifies h) :
    h = fnv1a64 (encode c.components) fnv1aOffsetBasis := by
  rw [← chain_eq]
  cases c with
  | topic ns t =>
    simp only [Channel.components, List.foldl_cons, List.foldl_nil]
    rwa [Channel.Identifies, topicIdentity] at hc
  | broadcast ns ch =>
    simp only [Channel.components, List.foldl_cons, List.foldl_nil]
    rwa [Channel.Identifies, broadcastIdentity] at hc
  | mailbox ns o t =>
    obtain ⟨raw, hraw, hid⟩ := hc
    rw [mailboxIdentity, hraw] at hid
    simp only [Channel.components, List.foldl_cons, List.foldl_nil]
    exact (Except.ok.inj hid).symm
  | blackboard ns n =>
    simp only [Channel.components, List.foldl_cons, List.foldl_nil]
    rwa [Channel.Identifies, derivedHash_eq] at hc

/-! ## The string is read back from its end -/

theorem length_sizeBytes : (sizeBytes a).length = 8 := by simp [sizeBytes, bytes64]

theorem ofBytes_congr {n : Nat} {f g : Nat → Nat} (h : ∀ k < n, f k = g k) : ofBytes n f = ofBytes n g := by
  induction n generalizing f g with
  | zero => rfl
  | succ n ih => rw [ofBytes, ofBytes, h 0 (Nat.succ_pos n), ih fun k hk => h (k + 1) (by omega)]

/-- Byte `k` of a scalar in memory. -/
theorem bytes64_eq (v : UInt64) : bytes64 v = (List.range 8).map fun k => UInt8.ofNat (byteAt v.toNat k) := by
  refine List.map_congr_left fun k hk => ?_
  rw [List.mem_range] at hk
  apply UInt8.toNat.inj
  rw [UInt64.toNat_toUInt8, UInt64.toNat_shiftRight, UInt8.toNat_ofNat', byteAt]
  have h8 : (UInt64.ofNat (8 * k)).toNat % 64 = 8 * k := by
    rw [UInt64.toNat_ofNat', Nat.mod_eq_of_lt (by omega), Nat.mod_eq_of_lt (by omega)]
  rw [h8, Nat.shiftRight_eq_div_pow, Nat.pow_mul]
  exact (Nat.mod_mod _ _).symm

theorem bytes64_inj {v w : UInt64} (h : bytes64 v = bytes64 w) : v = w := by
  have hbyte : ∀ k < 8, byteAt v.toNat k = byteAt w.toNat k := by
    intro k hk
    rw [bytes64_eq, bytes64_eq] at h
    have hk' := List.map_inj_left.mp h k (List.mem_range.mpr hk)
    have hto := congrArg UInt8.toNat hk'
    rwa [UInt8.toNat_ofNat', UInt8.toNat_ofNat', Nat.mod_eq_of_lt (byteAt_lt ..),
      Nat.mod_eq_of_lt (byteAt_lt ..)] at hto
  have hval := ofBytes_congr hbyte
  have hv : v.toNat < 256 ^ 8 := v.toNat_lt
  have hw : w.toNat < 256 ^ 8 := w.toNat_lt
  rw [ofBytes_byteAt, ofBytes_byteAt, Nat.mod_eq_of_lt hv, Nat.mod_eq_of_lt hw] at hval
  exact UInt64.toNat.inj hval

theorem sizeBytes_inj (ha : a.length < 2 ^ 64) (hb : b.length < 2 ^ 64) (h : sizeBytes a = sizeBytes b) :
    a.length = b.length := by
  have hlen := congrArg UInt64.toNat (bytes64_inj h)
  rwa [UInt64.toNat_ofNat', UInt64.toNat_ofNat', Nat.mod_eq_of_lt ha, Nat.mod_eq_of_lt hb] at hlen

/-- The last component, and what comes before it. -/
theorem encode_concat (c : List UInt8) : encode (xs ++ [c]) = (encode xs ++ c) ++ sizeBytes c := by
  rw [encode_append, encode_cons, List.append_assoc, List.append_assoc]
  simp [encode]

theorem encode_injective (hx : ∀ x ∈ xs, x.length < 2 ^ 64) (hy : ∀ y ∈ ys, y.length < 2 ^ 64)
    (h : encode xs = encode ys) : xs = ys := by
  have hne : ∀ (zs : List (List UInt8)) z, encode (zs ++ [z]) ≠ encode [] := by
    intro zs z he
    have hlen := congrArg List.length he
    rw [encode_concat, List.length_append, length_sizeBytes] at hlen
    simp [encode] at hlen
  induction xs using List.reverseRecOn generalizing ys with
  | nil =>
    cases ys using List.reverseRecOn with
    | nil => rfl
    | append_singleton ys y => exact absurd h.symm (hne ys y)
  | append_singleton xs x ih =>
    cases ys using List.reverseRecOn with
    | nil => exact absurd h (hne xs x)
    | append_singleton ys y =>
      rw [encode_concat, encode_concat] at h
      obtain ⟨hbody, hsize⟩ := List.append_inj' h (by rw [length_sizeBytes, length_sizeBytes])
      have hlen := sizeBytes_inj (hx x (by simp)) (hy y (by simp)) hsize
      obtain ⟨hrest, rfl⟩ := List.append_inj' hbody hlen
      rw [ih (fun z hz => hx z (by simp [hz])) (fun z hz => hy z (by simp [hz])) hrest]

/-- The kind and the components of a channel determine it. -/
theorem components_injective {c d : Channel} (h : c.components = d.components) : c = d := by
  cases c <;> cases d <;> simp only [Channel.components, List.cons.injEq, and_true] at h
  case topic.topic | broadcast.broadcast | blackboard.blackboard => rw [h.2.1, h.2.2]
  case mailbox.mailbox => rw [h.2.1, h.2.2.1, h.2.2.2]
  all_goals exact absurd h.1 (by decide)

/-- `derived_identity` never is the 0 that stands for "none given", and otherwise is the hash. -/
theorem derivedIdentity_eq (ns name : List UInt8) :
    derivedIdentity ns name ≠ 0 ∧
      (derivedHash ns name ≠ 0 → derivedIdentity ns name = derivedHash ns name) := by
  unfold derivedIdentity
  by_cases hz : derivedHash ns name = 0
  · rw [if_pos hz]
    exact ⟨by decide, fun h => absurd hz h⟩
  · rw [if_neg hz]
    exact ⟨hz, fun _ => rfl⟩

/-- Channel identities collide only if FNV-1a does: each is FNV-1a of one byte string, the string determines
the components, and so the identities of two channels are equal just when two different strings have one
hash. -/
theorem identities_collide_only_with_fnv1a :
    (∀ c : Channel, ∀ h, c.Identifies h → h = fnv1a64 (encode c.components) fnv1aOffsetBasis) ∧
    (∀ xs ys : List (List UInt8), (∀ x ∈ xs, x.length < 2 ^ 64) → (∀ y ∈ ys, y.length < 2 ^ 64) →
      encode xs = encode ys → xs = ys) ∧
    ∀ c d : Channel, c ≠ d → (∀ x ∈ c.components, x.length < 2 ^ 64) →
      (∀ y ∈ d.components, y.length < 2 ^ 64) → ∀ h h', c.Identifies h → d.Identifies h' →
        encode c.components ≠ encode d.components ∧
          (h = h' ↔ fnv1a64 (encode c.components) fnv1aOffsetBasis =
            fnv1a64 (encode d.components) fnv1aOffsetBasis) := by
  refine ⟨fun c h hc => hc.eq, fun xs ys hx hy h => encode_injective hx hy h, ?_⟩
  intro c d hne hc hd h h' hch hdh
  refine ⟨fun he => hne (components_injective (encode_injective hc hd he)), ?_⟩
  rw [← hch.eq, ← hdh.eq]

/-- The topic "b" of the namespace "a" and the blackboard "b" of the namespace "a". -/
theorem identities_collide_only_with_fnv1a_topic_blackboard :
    encode (Channel.topic (ascii "a") (ascii "b")).components ≠
      encode (Channel.blackboard (ascii "a") (ascii "b")).components :=
  (identities_collide_only_with_fnv1a.2.2 (.topic (ascii "a") (ascii "b")) (.blackboard (ascii "a") (ascii "b"))
    (by decide) (by decide) (by decide) _ _ rfl rfl).1

end Kickmsg.Identity
