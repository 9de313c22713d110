import Mathlib.Data.List.TakeWhile
import Mathlib.Data.UInt

/-!
# Shared-memory names

`sanitize_shm_component` and `compose_shm_name` of `Naming.cc`, for Linux and the "C" locale. Names are
byte strings.
-/

namespace Kickmsg.Naming

/-- The bytes of a literal. -/
def ascii (s : String) : List UInt8 := s.toList.map fun c => UInt8.ofNat c.toNat

/-- What naming throws: `std::invalid_argument` with a text around the input, and `ENAMETOOLONG`. -/
inductive Thrown
  | invalidArgument (before : String) (input : List UInt8) (after : String)
  | nameTooLong (text : String)
  deriving DecidableEq

def slash : UInt8 := 47
def dot : UInt8 := 46
def dash : UInt8 := 45
def underscore : UInt8 := 95

/-- `NAME_MAX`. -/
def nameMax : Nat := 255

/-- `std::isalnum`. -/
def isAlnum (c : UInt8) : Bool :=
  (48 ≤ c && c ≤ 57) || (65 ≤ c && c ≤ 90) || (97 ≤ c && c ≤ 122)

/-- The bytes that sanitizing keeps. -/
def keeps (c : UInt8) : Bool := isAlnum c || c = underscore || c = dash || c = dot

def sanitizeByte (c : UInt8) : UInt8 :=
  if c = slash then dot
  else if keeps c then c
  else underscore

/-- `sanitize_shm_component`. -/
def sanitizeShmComponent (s : List UInt8) (what : String) : Except Thrown (List UInt8) :=
  let out := (s.dropWhile (· = slash)).map sanitizeByte
  if out = [] then
    .error (.invalidArgument ("kickmsg::sanitize_shm_component: " ++ what ++
      " name is empty after sanitization (input: '") s "')")
  else .ok out

/-- `compose_shm_name`. -/
def composeShmName (ns suffix : List UInt8) : Except Thrown (List UInt8) :=
  let out := slash :: ns ++ underscore :: suffix
  if nameMax < out.length - 1 then
    .error (.nameTooLong "kickmsg::compose_shm_name: shm name exceeds platform limit")
  else .ok out

variable {s t : List UInt8} {what what' : String}

theorem sanitizeByte_ne_slash (c : UInt8) : sanitizeByte c ≠ slash := by
  unfold sanitizeByte
  split_ifs with h₁ h₂
  · decide
  · exact h₁
  · decide

/-- A byte that has been sanitized stays as it is. -/
theorem sanitizeByte_idem (c : UInt8) : sanitizeByte (sanitizeByte c) = sanitizeByte c := by
  by_cases hs : c = slash
  · rw [hs]
    decide
  by_cases hk : keeps c = true
  · have hc : sanitizeByte c = c := by rw [sanitizeByte, if_neg hs, if_pos hk]
    rw [hc, hc]
  · have hc : sanitizeByte c = underscore := by rw [sanitizeByte, if_neg hs, if_neg hk]
    rw [hc]
    decide

/-- A component that has been sanitized is its own sanitization. -/
theorem sanitize_idem (h : sanitizeShmComponent s what = .ok t) : sanitizeShmComponent t what' = .ok t := by
  unfold sanitizeShmComponent at h ⊢
  dsimp only at h ⊢
  split_ifs at h with hne
  obtain rfl := Except.ok.inj h
  have hdrop : ((s.dropWhile (· = slash)).map sanitizeByte).dropWhile (· = slash) =
      (s.dropWhile (· = slash)).map sanitizeByte := by
    rw [List.dropWhile_eq_self_iff]
    intro hpos
    rw [List.getElem_map]
    simpa using sanitizeByte_ne_slash _
  have hmap : ((s.dropWhile (· = slash)).map sanitizeByte).map sanitizeByte =
      (s.dropWhile (· = slash)).map sanitizeByte := by
    rw [List.map_map]
    exact List.map_congr_left fun c _ => sanitizeByte_idem c
  rw [hdrop, hmap, if_neg hne]

theorem keeps_sanitizeByte (c : UInt8) : keeps (sanitizeByte c) = true := by
  by_cases hs : c = slash
  · rw [hs]
    decide
  by_cases hk : keeps c = true
  · rwa [sanitizeByte, if_neg hs, if_pos hk]
  · rw [sanitizeByte, if_neg hs, if_neg hk]
    decide

theorem sanitizeByte_of_keeps {c : UInt8} (h : keeps c = true) : sanitizeByte c = c := by
  have hs : c ≠ slash := by
    rintro rfl
    exact absurd h (by decide)
  rw [sanitizeByte, if_neg hs, if_pos h]

/-- Sanitizing leaves a component alone just when it keeps each of its bytes. -/
theorem sanitize_eq_self_iff (h : sanitizeShmComponent s what = .ok t) : t = s ↔ s.all keeps = true := by
  unfold sanitizeShmComponent at h
  dsimp only at h
  split_ifs at h with hne
  obtain rfl := Except.ok.inj h
  rw [List.all_eq_true]
  constructor
  · intro he c hc
    rw [← he] at hc
    obtain ⟨b, -, rfl⟩ := List.mem_map.mp hc
    exact keeps_sanitizeByte b
  · intro hall
    have hdrop : s.dropWhile (· = slash) = s := by
      rw [List.dropWhile_eq_self_iff]
      intro hpos
      have hk := hall _ (List.getElem_mem hpos)
      intro hslash
      rw [of_decide_eq_true hslash] at hk
      exact absurd hk (by decide)
    rw [hdrop]
    exact (List.map_congr_left fun c hc => sanitizeByte_of_keeps (hall c hc)).trans (List.map_id s)

end Kickmsg.Naming
