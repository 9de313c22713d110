import Kickmsg.Blackboard.Lock
import Kickmsg.Registry.Model

/-!
# Copies word by word

`store_words` and `load_words`, and what goes through them: the key of a blackboard entry and the names of
a registry row. A field is a sequence of words with anything in it. `store_words` fills the words its bytes
take, and no other; so what is loaded is what was stored last, whatever was there before.
-/

namespace Kickmsg.Words

open Lib Blackboard Registry

/-- `store_words`: the full words, then the rest in a word of its own. `wordAt` pads with zeros. -/
def storeWords (shared : Nat → Nat) (src : List UInt8) : Nat → Nat :=
  let full := src.length / 8
  let stored := (List.range full).foldl (fun m w => Function.update m w (wordAt (byteOf src) w)) shared
  if src.length % 8 ≠ 0 then Function.update stored full (wordAt (byteOf src) full) else stored

/-- The first `n` bytes of a word, as `memcpy` copies them out. -/
def bytesOfWord (n word : Nat) : List UInt8 := (List.range n).map fun k => UInt8.ofNat (byteAt word k)

/-- `load_words`. -/
def loadWords (shared : Nat → Nat) (len : Nat) : List UInt8 :=
  let full := len / 8
  let loaded := (List.range full).flatMap fun w => bytesOfWord 8 (shared w)
  if len % 8 ≠ 0 then loaded ++ bytesOfWord (len % 8) (shared full) else loaded

/-- A zeroed buffer of `size` bytes that `bytes` have been copied to. -/
def buffer (size : Nat) (bytes : List UInt8) : List UInt8 :=
  bytes ++ List.replicate (size - bytes.length) 0

/-- The bytes of a buffer up to its first NUL: `strnlen` is the length of this. -/
def cut (copy : List UInt8) : List UInt8 := copy.takeWhile (· ≠ 0)

/-- `bb_store_key`. -/
def bbStoreKey (field : Nat → Nat) (key : List UInt8) : Nat → Nat :=
  storeWords field (buffer keyMax (key.take keyMax))

/-- `bb_load_key`. -/
def bbLoadKey (field : Nat → Nat) : List UInt8 := cut (loadWords field keyMax)

/-- `key_equals`. -/
def keyEquals (field : Nat → Nat) (key : List UInt8) : Bool :=
  let copy := loadWords field keyMax
  (cut copy).length == key.length && copy.take key.length == key

/-- `store_name`. -/
def storeName (field : Nat → Nat) (size : Nat) (name : List UInt8) : Nat → Nat :=
  storeWords field (buffer size (name.take (size - 1)))

/-- `load_name`. -/
def loadName (field : Nat → Nat) (size : Nat) : List UInt8 := cut (loadWords field size)

variable {field shared m m' : Nat → Nat} {src bytes key : List UInt8} {len size w : Nat}

/-! ## The words of a copy -/

/-- The words that a copy fills, and those it leaves alone. -/
theorem storeWords_apply : storeWords shared src w =
    if w < wordsFor src.length then wordAt (byteOf src) w else shared w := by
  have hfull : ∀ n, (List.range n).foldl (fun m w => Function.update m w (wordAt (byteOf src) w)) shared w =
      if w < n then wordAt (byteOf src) w else shared w := by
    intro n
    induction n with
    | zero => rfl
    | succ n ih =>
      rw [List.range_succ, List.foldl_append, List.foldl_cons, List.foldl_nil]
      by_cases hw : w = n
      · subst hw
        rw [Function.update_self, if_pos (Nat.lt_succ_self w)]
      · rw [Function.update_of_ne hw, ih]
        exact if_congr (by omega) rfl rfl
  unfold storeWords wordsFor
  by_cases hrest : src.length % 8 = 0
  · rw [if_neg (not_not.mpr hrest), hfull]
    exact if_congr (by omega) rfl rfl
  · rw [if_pos hrest]
    by_cases hw : w = src.length / 8
    · subst hw
      rw [Function.update_self, if_pos (by omega)]
    · rw [Function.update_of_ne hw, hfull]
      exact if_congr (by omega) rfl rfl

/-- The bytes of consecutive words. -/
theorem flatMap_bytesOfWord (n : Nat) : (List.range n).flatMap (fun w => bytesOfWord 8 (shared w)) =
    bytesOf (8 * n) shared := by
  induction n with
  | zero => rfl
  | succ n ih =>
    rw [List.range_succ, List.flatMap_append, ih, Nat.mul_succ, bytesOf, bytesOf, List.range_add,
      List.map_append, List.flatMap_singleton, List.map_map, bytesOfWord]
    congr 1
    refine List.map_congr_left fun k hk => ?_
    rw [List.mem_range] at hk
    rw [Function.comp_apply, byteIn, show (8 * n + k) / 8 = n by omega, show (8 * n + k) % 8 = k by omega]

theorem loadWords_eq : loadWords shared len = bytesOf len shared := by
  unfold loadWords
  dsimp only
  rw [flatMap_bytesOfWord]
  by_cases hrest : len % 8 = 0
  · rw [if_neg (not_not.mpr hrest), show 8 * (len / 8) = len by omega]
  · rw [if_pos hrest]
    conv_rhs => rw [← Nat.div_add_mod len 8]
    rw [bytesOf, bytesOf, List.range_add, List.map_append, List.map_map, bytesOfWord]
    congr 1
    refine List.map_congr_left fun k hk => ?_
    rw [List.mem_range] at hk
    rw [Function.comp_apply, byteIn, show (8 * (len / 8) + k) / 8 = len / 8 by omega,
      show (8 * (len / 8) + k) % 8 = k by omega]

variable (shared src) in
/-- What was stored is loaded, and zeros after it up to the last word. -/
theorem loadWords_storeWords {n : Nat} (hn : src.length + n ≤ 8 * wordsFor src.length) :
    loadWords (storeWords shared src) (src.length + n) = src ++ List.replicate n 0 := by
  rw [loadWords_eq, bytesOf_congr (w := wordAt (byteOf src)), bytesOf_wordAt]
  intro k hk
  rw [storeWords_apply, if_pos]
  unfold wordsFor at hk hn ⊢
  omega

/-- A load reads the words its bytes lie in. -/
theorem loadWords_congr (h : ∀ w < wordsFor len, m w = m' w) : loadWords m len = loadWords m' len := by
  rw [loadWords_eq, loadWords_eq, bytesOf_congr h]

theorem length_buffer (h : bytes.length ≤ size) : (buffer size bytes).length = size := by
  rw [buffer, List.length_append, List.length_replicate]
  omega

/-- A field that a buffer of its size has been stored to holds the buffer. -/
theorem loadWords_buffer (h : bytes.length ≤ size) :
    loadWords (storeWords field (buffer size bytes)) size = buffer size bytes := by
  have hlen := length_buffer h
  have hload := loadWords_storeWords field (buffer size bytes) (n := 0)
    (by unfold wordsFor; omega)
  rwa [hlen, Nat.add_zero, List.replicate_zero, List.append_nil] at hload

/-- A buffer that is longer than its bytes is cut where they are. -/
theorem cut_buffer (h : bytes.length < size) : cut (buffer size bytes) = cut bytes := by
  obtain ⟨n, hn⟩ := Nat.exists_eq_add_of_lt h
  rw [cut, buffer, hn, Nat.add_assoc, Nat.add_sub_cancel_left, List.takeWhile_append]
  split_ifs with hall
  · have hcut : cut bytes = bytes := List.takeWhile_prefix _ |>.eq_of_length hall
    rw [hcut, List.replicate_succ, List.takeWhile_cons_of_neg (by simp), List.append_nil]
  · rfl

theorem cut_eq_self (h : ∀ b ∈ bytes, b ≠ 0) : cut bytes = bytes := by
  rw [cut, List.takeWhile_eq_self_iff]
  intro b hb
  simpa using h b hb

/-! ## The models of the board and of the registry store and load so -/

theorem byteOf_buffer (j : Nat) : byteOf (buffer size bytes) j = byteOf bytes j := by
  rw [byteOf, byteOf, buffer]
  by_cases hj : j < bytes.length
  · rw [List.getD_append _ _ _ _ hj]
  · rw [List.getD_append_right _ _ _ _ (by omega), List.getD_eq_default bytes _ (by omega)]
    by_cases hr : j - bytes.length < (List.replicate (size - bytes.length) (0 : UInt8)).length
    · rw [List.getD_eq_getElem _ _ hr, List.getElem_replicate]
    · rw [List.getD_eq_default _ _ (by omega)]

theorem storeWords_buffer (h : bytes.length ≤ size) : storeWords field (buffer size bytes) w =
    if w < wordsFor size then wordAt (byteOf bytes) w else field w := by
  rw [storeWords_apply, length_buffer h, funext byteOf_buffer]

theorem bbStoreKey_eq :
    bbStoreKey field key w = if w < keyWords then Blackboard.bbStoreKey key w else field w :=
  storeWords_buffer (List.length_take_le ..)

theorem bbLoadKey_eq : bbLoadKey field = Blackboard.bbLoadKey field := by
  rw [bbLoadKey, loadWords_eq]
  rfl

theorem storeName_eq : storeName field size key w =
    if w < wordsFor size then Registry.storeName size key w else field w :=
  storeWords_buffer ((List.length_take_le ..).trans (Nat.sub_le ..))

theorem loadName_eq : loadName field size = Registry.loadName size field := by
  rw [loadName, loadWords_eq]
  rfl

/-! ## What is stored is loaded -/

theorem bbLoadKey_bbStoreKey (hlt : key.length < keyMax) (hnul : ∀ b ∈ key, b ≠ 0) :
    bbLoadKey (bbStoreKey field key) = key := by
  have htake : key.take keyMax = key := List.take_of_length_le hlt.le
  rw [bbLoadKey, bbStoreKey, htake, loadWords_buffer hlt.le, cut_buffer hlt, cut_eq_self hnul]

theorem keyEquals_bbStoreKey (hlt : key.length < keyMax) (hnul : ∀ b ∈ key, b ≠ 0) (other : List UInt8) :
    keyEquals (bbStoreKey field key) other = true ↔ other = key := by
  have htake : key.take keyMax = key := List.take_of_length_le hlt.le
  have hcopy : loadWords (bbStoreKey field key) keyMax = buffer keyMax key := by
    rw [bbStoreKey, htake, loadWords_buffer hlt.le]
  rw [keyEquals, hcopy, cut_buffer hlt, cut_eq_self hnul, Bool.and_eq_true, beq_iff_eq, beq_iff_eq]
  constructor
  · rintro ⟨hlen, heq⟩
    rw [← heq, ← hlen, buffer, List.take_left']
    rfl
  · rintro rfl
    exact ⟨rfl, by rw [buffer, List.take_left' rfl]⟩

theorem loadName_storeName (hsize : 0 < size) (name : List UInt8) :
    loadName (storeName field size name) size = cut (name.take (size - 1)) := by
  have hlen : (name.take (size - 1)).length < size := by
    have := List.length_take_le (size - 1) name
    omega
  rw [loadName, storeName, loadWords_buffer hlen.le, cut_buffer hlen]

/-- A copy out after a copy in gives the bytes back, whatever the field held; it has changed the words the
bytes take, the last padded with zeros, and reads no other. So keys and names are read as they were
stored, a name cut to fit its field. -/
theorem copies_lossless :
    (∀ shared src, loadWords (storeWords shared src) src.length = src) ∧
    (∀ shared src w, w < wordsFor src.length →
      storeWords shared src w = ofBytes 8 fun k => byteOf src (8 * w + k)) ∧
    (∀ shared src w, wordsFor src.length ≤ w → storeWords shared src w = shared w) ∧
    (∀ m m' len, (∀ w < wordsFor len, m w = m' w) → loadWords m len = loadWords m' len) ∧
    (∀ field key, key.length < keyMax → (∀ b ∈ key, b ≠ 0) →
      bbLoadKey (bbStoreKey field key) = key ∧
      ∀ other, keyEquals (bbStoreKey field key) other = true ↔ other = key) ∧
    ∀ size ∈ [shmNameMax, topicNameMax, nodeNameMax], ∀ field name,
      loadName (storeName field size name) size = cut (name.take (size - 1)) := by
  refine ⟨fun shared src => ?_, fun shared src w hw => ?_, fun shared src w hw => ?_,
    fun m m' len => loadWords_congr, fun field key hlt hnul =>
      ⟨bbLoadKey_bbStoreKey hlt hnul, keyEquals_bbStoreKey hlt hnul⟩, fun size hsize field name => ?_⟩
  · have hload := loadWords_storeWords shared src (n := 0)
      (by unfold wordsFor; omega)
    rwa [Nat.add_zero, List.replicate_zero, List.append_nil] at hload
  · rw [storeWords_apply, if_pos hw]
    rfl
  · rw [storeWords_apply, if_neg (Nat.not_lt.mpr hw)]
  · refine loadName_storeName ?_ name
    rcases List.mem_cons.mp hsize with rfl | hsize
    · decide
    rcases List.mem_cons.mp hsize with rfl | hsize
    · decide
    · rw [List.mem_singleton.mp hsize]
      decide

/-- A key of three bytes over a field of ones. -/
theorem copies_lossless_key : bbLoadKey (bbStoreKey (fun _ => 2 ^ 64 - 1) [107, 101, 121]) = [107, 101, 121] :=
  (copies_lossless.2.2.2.2.1 _ _ (by decide) (by decide +kernel)).1

end Kickmsg.Words
