import Kickmsg.System

/-!
# `head_state` and `try_receive_view`

Both decide what the entry at `read_pos` is. On a ring that nobody else touches, whatever its words are,
the class `head_state` gives and what `try_receive_view` does agree: it moves on exactly when the head is
`Ready`, and leaves everything alone when it is `Poll`.
-/

namespace Kickmsg

open Lib

namespace Sub

/-- `head_state(ring)` on words that nobody changes. -/
def headState (g : Geometry) (u : Sub) (m : Mem) : Wait :=
  match u.headPos g (m (.writePos u.ringIdx)) with
  | some w => w
  | none => u.headSeq (m (.sequence u.ringIdx (g.entryIdx u.readPos)))

/-- A subscriber alone with the region. -/
def alone (g : Geometry) (procs : Procs) : Mem × Sub → Bool → Option (Mem × Sub) :=
  Kickmsg.alone procs (request g) (resume g)

variable {g : Geometry} {procs : Procs} {m : Mem} {u : Sub}

theorem headState_armed : u.headState g m = .armed ↔ m (.writePos u.ringIdx) ≤ u.readPos := by
  unfold headState headPos headSeq
  split_ifs <;> simp_all

/-- The class of a head that is neither ahead of `write_pos` nor overrun. -/
theorem headState_inside (h1 : u.readPos < m (.writePos u.ringIdx))
    (h2 : m (.writePos u.ringIdx) - u.readPos ≤ g.subRingCapacity) :
    u.headState g m = u.headSeq (m (.sequence u.ringIdx (g.entryIdx u.readPos))) := by
  unfold headState headPos
  rw [if_neg (by omega), if_neg (by omega)]

theorem headState_overrun (h : g.subRingCapacity < m (.writePos u.ringIdx) - u.readPos) :
    u.headState g m = .ready := by
  unfold headState headPos
  rw [if_neg (by omega), if_pos h]

/-- The sequence tests of `try_receive_view` give up exactly on what `head_state` calls `Poll`. -/
theorem recvWith_eq {k seq : Nat} (hr : u.readPos + 1 < 2 ^ 62) (hs : seq < 2 ^ 64) :
    (u.headSeq seq = .poll ∧ u.recvWith k seq = u.recvNone) ∨
      (u.headSeq seq = .ready ∧ (u.recvWith k seq = { u with pc := .recvLost k } ∨
        u.recvWith k seq = { u with pc := .recvMeta k seq })) := by
  have hu : u64 (u.readPos + 1) = u.readPos + 1 := Nat.mod_eq_of_lt (by omega)
  unfold headSeq recvWith
  rw [hu]
  by_cases he : seq = u.readPos + 1
  · have h1 : ¬(seqIsLocked seq = true ∨ seqPos seq < u.readPos + 1) := by
      rw [seqIsLocked_eq hs, seqPos_eq, decide_eq_true_eq]
      omega
    rw [if_neg h1, if_neg (by simpa using he)]
    exact .inr ⟨rfl, .inr rfl⟩
  · rw [if_pos he]
    by_cases hskip : seqIsSkip seq = true ∧ seqPos seq = u.readPos + 1
    · have h1 : ¬(seqIsLocked seq = true ∨ seqPos seq < u.readPos + 1) := by
        obtain ⟨hk, hp⟩ := hskip
        rw [seqIsSkip_eq hs, decide_eq_true_eq] at hk
        rw [hp, seqIsLocked_eq hs, decide_eq_true_eq]
        omega
      rw [if_neg h1, if_pos hskip]
      exact .inr ⟨rfl, .inl rfl⟩
    · rw [if_neg hskip]
      by_cases hl : seqIsLocked seq = true ∨ seqPos seq < u.readPos + 1
      · rw [if_pos hl, if_pos hl]
        exact .inl ⟨rfl, rfl⟩
      · rw [if_neg hl, if_neg hl]
        exact .inr ⟨rfl, .inl rfl⟩

/-! ## A receive on a ring that nobody else touches -/

/-- Nothing has happened to the words or to what the subscriber keeps. -/
structure Untouched (m : Mem) (u : Sub) (m' : Mem) (u' : Sub) : Prop where
  mem : m' = m
  readPos : u'.readPos = u.readPos
  lost : u'.lost = u.lost
  views : u'.views = u.views

/-- The read position has moved past a head that was ready. -/
structure Moved (g : Geometry) (m : Mem) (u u' : Sub) : Prop where
  ready : u.headState g m = .ready
  past : u.readPos < u'.readPos

/-- What a receive that began as `u` on the words `m` knows at each access. -/
def Stage (g : Geometry) (m : Mem) (u : Sub) (m' : Mem) (u' : Sub) : Prop :=
  let wp := m (.writePos u.ringIdx)
  let seq := m (.sequence u.ringIdx (g.entryIdx u'.readPos))
  match u'.pc with
  | .live => Moved g m u u' ∨ (u.headState g m ≠ .ready ∧ Untouched m u m' u')
  | .recvPos k => k < 64 ∧ (Moved g m u u' ∨ (k = 0 ∧ Untouched m u m' u'))
  | .recvSkip k cur => k < 64 ∧ cur = wp ∧ g.subRingCapacity < wp - u'.readPos ∧
      u.headState g m = .ready
  | .recvSeq k => k < 64 ∧ u'.readPos < wp ∧ (Moved g m u u' ∨
      (Untouched m u m' u' ∧ wp - u.readPos ≤ g.subRingCapacity))
  | .recvLost k => k < 64 ∧ u'.readPos < wp ∧ u.headState g m = .ready
  | .recvMeta k seq1 | .recvRc k seq1 _ =>
    k < 64 ∧ u'.readPos < wp ∧ u.headState g m = .ready ∧ seq1 = seq
  | .recvPin k seq1 slot rc => k < 64 ∧ u'.readPos < wp ∧ u.headState g m = .ready ∧ seq1 = seq ∧
      m' (.refcount slot) = rc ∧ 0 < rc ∧ rc ≠ 2 ^ 32 - 1
  | .recvSeq2 k seq1 slot => k < 64 ∧ u'.readPos < wp ∧ u.headState g m = .ready ∧ seq1 = seq ∧
      1 < m' (.refcount slot)
  | .recvLen k slot | .recvUnpin k slot => k < 64 ∧ u'.readPos < wp ∧ u.headState g m = .ready ∧
      1 < m' (.refcount slot)
  | _ => False

/-- What holds all along such a receive. -/
structure Receiving (g : Geometry) (m : Mem) (u : Sub) (x : Mem × Sub) : Prop where
  ring : x.2.ringIdx = u.ringIdx
  copy : x.2.copy = false
  blocking : x.2.blocking = false
  words : ∀ l, l ≠ .lostCount u.ringIdx → (∀ s, l ≠ .refcount s) → x.1 l = m l
  range : x.1.InRange
  sum : x.2.readPos + u.lost + u.views.length = u.readPos + x.2.lost + x.2.views.length
  mono : u.readPos ≤ x.2.readPos
  below : x.2.readPos ≤ max u.readPos (m (.writePos u.ringIdx))
  stage : Stage g m u x.1 x.2

/-- The accesses left, at most, when no compare-exchange fails spuriously. -/
def left (u : Sub) : Nat :=
  match u.pc with
  | .recvPos k => 10 * (64 - k)
  | .recvSkip k _ => 10 * (64 - k) - 1
  | .recvSeq k => 10 * (64 - k) - 2
  | .recvMeta k _ => 10 * (64 - k) - 3
  | .recvRc k _ _ => 10 * (64 - k) - 4
  | .recvPin k _ _ _ => 10 * (64 - k) - 5
  | .recvSeq2 k _ _ => 10 * (64 - k) - 6
  | .recvLen k _ => 10 * (64 - k) - 7
  | .recvUnpin k _ => 10 * (64 - k) - 8
  | .recvLost k => 10 * (64 - k) - 9
  | _ => 0

namespace Receiving

variable {x x' : Mem × Sub} {c : Bool} (h : Receiving g m u x)

include h

theorem readPos_lt (hrp : u.readPos < 2 ^ 62) (hwp : m (.writePos u.ringIdx) < 2 ^ 62) :
    x.2.readPos < 2 ^ 62 := by
  have := h.below
  omega

/-- The next access, when the receive only learns something. -/
theorem onward {pc : SubPc} (hst : Stage g m u x.1 { x.2 with pc := pc }) :
    Receiving g m u (x.1, { x.2 with pc := pc }) :=
  ⟨h.ring, h.copy, h.blocking, h.words, h.range, h.sum, h.mono, h.below, hst⟩

/-- The counter of a slot has been written. -/
theorem counted {pc : SubPc} {slot v : Nat} (hv : v < 2 ^ 32)
    (hst : Stage g m u (Function.update x.1 (.refcount slot) v) { x.2 with pc := pc }) :
    Receiving g m u (Function.update x.1 (.refcount slot) v, { x.2 with pc := pc }) where
  ring := h.ring
  copy := h.copy
  blocking := h.blocking
  words l hl hr := (Function.update_of_ne (hr slot) ..).trans (h.words l hl hr)
  range := h.range.update hv
  sum := h.sum
  mono := h.mono
  below := h.below
  stage := hst

/-- Some losses have been counted and the position has moved on. -/
theorem skipped {pc : SubPc} {n : Nat} {v : Nat} (hv : v < 2 ^ 64)
    (hn : x.2.readPos + n ≤ m (.writePos u.ringIdx))
    (hst : Stage g m u (Function.update x.1 (.lostCount x.2.ringIdx) v)
      { x.2 with lost := x.2.lost + n, readPos := x.2.readPos + n, pc := pc }) :
    Receiving g m u (Function.update x.1 (.lostCount x.2.ringIdx) v,
      { x.2 with lost := x.2.lost + n, readPos := x.2.readPos + n, pc := pc }) where
  ring := h.ring
  copy := h.copy
  blocking := h.blocking
  words l hl hr := (Function.update_of_ne (by rw [h.ring]; exact hl) ..).trans (h.words l hl hr)
  range := h.range.update hv
  sum := by
    have := h.sum
    dsimp only
    omega
  mono := h.mono.trans (Nat.le_add_right _ _)
  below := hn.trans (le_max_right _ _)
  stage := hst

/-- One access keeps the invariant, and brings the end nearer unless a compare-exchange failed. -/
theorem step (hg : g.Valid) (hm : m.InRange) (hrp : u.readPos < 2 ^ 62)
    (hwp : m (.writePos u.ringIdx) < 2 ^ 62) (hs : alone g procs x c = some x') :
    Receiving g m u x' ∧ left x'.2 + 1 ≤ left x.2 + c.toNat := by
  obtain ⟨m', u'⟩ := x
  have hst := h.stage
  have hlt := h.readPos_lt hrp hwp
  have hring := h.ring
  have hcap := hg.capacity_pos
  have hu64 : u64 (u'.readPos + 1) = u'.readPos + 1 := Nat.mod_eq_of_lt (by dsimp only at hlt; omega)
  have hw : m' (.writePos u'.ringIdx) = m (.writePos u.ringIdx) :=
    hring ▸ h.words _ (by simp) (by simp)
  have hseq : ∀ i, m' (.sequence u'.ringIdx i) = m (.sequence u.ringIdx i) := fun i =>
    hring ▸ h.words _ (by simp) (by simp)
  dsimp only at hst hlt
  cases hpc : u'.pc <;> simp only [Stage, hpc] at hst <;>
    simp only [alone, Kickmsg.alone, request, hpc, Option.map_none, Option.map_some,
      Option.some.injEq, reduceCtorEq] at hs <;> subst hs <;>
    simp only [Op.exec] <;> simp only [resume, hpc]
  case recvPos k =>
    obtain ⟨hk, hst⟩ := hst
    rw [hw]
    split_ifs with h1 h2
    · rw [recvNone, if_neg (by simpa using h.blocking)]
      refine ⟨h.onward ?_, by simp [left, hpc]; omega⟩
      rcases hst with hmv | ⟨-, hun⟩
      · exact .inl ⟨hmv.ready, hmv.past⟩
      · refine .inr ⟨fun hr => ?_, hun.mem, hun.readPos, hun.lost, hun.views⟩
        rw [hun.readPos, ← headState_armed (g := g), hr] at h1
        cases h1
    · refine ⟨h.onward ⟨hk, rfl, h2, ?_⟩, by simp [left, hpc]; omega⟩
      rcases hst with hmv | ⟨-, hun⟩
      · exact hmv.ready
      · exact headState_overrun (hun.readPos ▸ h2)
    · refine ⟨h.onward ⟨hk, by dsimp only; omega, ?_⟩, by simp [left, hpc]; omega⟩
      rcases hst with hmv | ⟨-, hun⟩
      · exact .inl ⟨hmv.ready, hmv.past⟩
      · exact .inr ⟨⟨hun.mem, hun.readPos, hun.lost, hun.views⟩, by
          have := hun.readPos
          omega⟩
  case recvSkip k wp =>
    obtain ⟨hk, rfl, hov, hready⟩ := hst
    have hpos : u'.readPos + (m (.writePos u.ringIdx) - u'.readPos - g.subRingCapacity) =
        m (.writePos u.ringIdx) - g.subRingCapacity := by omega
    have hmono := h.mono
    refine ⟨?_, by simp [left, hpc]; omega⟩
    rw [← hpos]
    refine h.skipped (Nat.mod_lt _ (Loc.modulus_pos _)) (by dsimp only; omega) ⟨hk, ?_, .inl ⟨hready, ?_⟩⟩
    · dsimp only
      omega
    · dsimp only at hmono ⊢
      omega
  case recvSeq k =>
    obtain ⟨hk, hlt', hst⟩ := hst
    rw [hseq]
    have hr62 : u'.readPos + 1 < 2 ^ 62 := by omega
    have hs64 : m (.sequence u.ringIdx (g.entryIdx u'.readPos)) < 2 ^ 64 := hm _
    -- the class of this entry is the one `head_state` gave if nothing has moved yet
    have hclass : Untouched m u m' u' → m (.writePos u.ringIdx) - u.readPos ≤ g.subRingCapacity →
        u.headState g m = u'.headSeq (m (.sequence u.ringIdx (g.entryIdx u'.readPos))) := by
      intro hun hle
      rw [headState_inside (hun.readPos ▸ hlt') hle, hun.readPos]
      simp only [headSeq, hun.readPos]
    rcases recvWith_eq (k := k) hr62 hs64 with ⟨hpoll, he⟩ | ⟨hready, he⟩
    · rw [he, recvNone, if_neg (by simpa using h.blocking)]
      refine ⟨h.onward ?_, by simp [left, hpc]; omega⟩
      rcases hst with hmv | ⟨hun, hle⟩
      · exact .inl ⟨hmv.ready, hmv.past⟩
      · refine .inr ⟨?_, hun.mem, hun.readPos, hun.lost, hun.views⟩
        rw [hclass hun hle, hpoll]
        simp
    · have hr : u.headState g m = .ready := by
        rcases hst with hmv | ⟨hun, hle⟩
        · exact hmv.ready
        · rw [hclass hun hle, hready]
      rcases he with he | he <;> rw [he]
      · exact ⟨h.onward ⟨hk, hlt', hr⟩, by simp [left, hpc]; omega⟩
      · exact ⟨h.onward ⟨hk, hlt', hr, rfl⟩, by simp [left, hpc]; omega⟩
  case recvLost k =>
    obtain ⟨hk, hlt', hr⟩ := hst
    have hmono := h.mono
    have hpast : u.readPos < u'.readPos + 1 := by
      dsimp only at hmono
      omega
    rw [hu64, recvLoop]
    split_ifs with hk'
    · exact ⟨h.skipped (Nat.mod_lt _ (Loc.modulus_pos _)) hlt' ⟨hk', .inl ⟨hr, hpast⟩⟩, by
        simp [left, hpc]; omega⟩
    · rw [recvNone, if_neg (by simpa using h.blocking)]
      exact ⟨h.skipped (Nat.mod_lt _ (Loc.modulus_pos _)) hlt' (.inl ⟨hr, hpast⟩), by
        simp [left, hpc]; omega⟩
  case recvMeta k seq1 =>
    obtain ⟨hk, hlt', hr, rfl⟩ := hst
    rw [recvClaim]
    split_ifs
    · exact ⟨h.onward ⟨hk, hlt', hr⟩, by simp [left, hpc]; omega⟩
    · exact ⟨h.onward ⟨hk, hlt', hr, rfl⟩, by simp [left, hpc]; omega⟩
  case recvRc k seq1 slot =>
    obtain ⟨hk, hlt', hr, rfl⟩ := hst
    rw [tryPin]
    split_ifs with hrc
    · exact ⟨h.onward ⟨hk, hlt', hr, rfl, rfl, hrc.1, hrc.2⟩, by simp [left, hpc]; omega⟩
    · exact ⟨h.onward ⟨hk, hlt', hr⟩, by simp [left, hpc]; omega⟩
  case recvPin k seq1 slot rc =>
    obtain ⟨hk, hlt', hr, rfl, rfl, hpos, hmax⟩ := hst
    have hrange : m' (.refcount slot) < 2 ^ 32 := h.range (.refcount slot)
    have hu : u32 (m' (.refcount slot) + 1) = m' (.refcount slot) + 1 := Nat.mod_eq_of_lt (by omega)
    cases c with
    | false =>
      simp only [Bool.false_eq_true, and_false, not_false_eq_true, and_self, if_true, hu]
      exact ⟨h.counted (by omega) ⟨hk, hlt', hr, rfl, by rw [Function.update_self]; omega⟩, by
        simp [left, hpc]; omega⟩
    | true =>
      simp only [and_self, not_true_eq_false, and_false, if_false, Bool.false_eq_true]
      rw [tryPin, if_pos ⟨hpos, hmax⟩]
      exact ⟨h.onward ⟨hk, hlt', hr, rfl, rfl, hpos, hmax⟩, by simp [left, hpc]⟩
  case recvSeq2 k seq1 slot =>
    obtain ⟨hk, hlt', hr, rfl, hrc⟩ := hst
    rw [hseq, if_neg (by simp)]
    exact ⟨h.onward ⟨hk, hlt', hr, hrc⟩, by simp [left, hpc]; omega⟩
  case recvUnpin k slot =>
    obtain ⟨hk, hlt', hr, hrc⟩ := hst
    rw [if_neg (by omega)]
    exact ⟨h.counted (Nat.mod_lt _ (Loc.modulus_pos _)) ⟨hk, hlt', hr⟩, by simp [left, hpc]; omega⟩
  case recvLen k slot =>
    obtain ⟨hk, hlt', hr, hrc⟩ := hst
    have hmono := h.mono
    split_ifs
    · exact ⟨h.onward ⟨hk, hlt', hr, hrc⟩, by simp [left, hpc]; omega⟩
    · have hcopy : u'.copy = false := h.copy
      rw [sample, if_neg (by simp [hcopy]), hu64]
      refine ⟨⟨h.ring, h.copy, h.blocking, h.words, h.range, ?_, hmono.trans (Nat.le_succ _),
        Nat.succ_le_of_lt (lt_of_lt_of_le hlt' (le_max_right _ _)), .inl ⟨hr, ?_⟩⟩, by
          simp [left, hpc]; omega⟩
      · have := h.sum
        simp only [List.length_cons] at this ⊢
        omega
      · dsimp only at hmono ⊢
        omega

/-- It comes to rest at its return only. -/
theorem live_of_rest (hs : alone g procs x c = none) : x.2.pc = .live := by
  obtain ⟨m', u'⟩ := x
  have hst := h.stage
  cases hpc : u'.pc <;> simp only [Stage, hpc] at hst <;>
    simp only [alone, Kickmsg.alone, request, hpc, Option.map_some, reduceCtorEq] at hs
  rfl

end Receiving

theorem receiving_start (hm : m.InRange) : Receiving g m u (m, u.receive false false) where
  ring := rfl
  copy := rfl
  blocking := rfl
  words _ _ _ := rfl
  range := hm
  sum := by simp [receive, recvLoop]
  mono := le_refl _
  below := le_max_left _ _
  stage := ⟨by decide, .inr ⟨rfl, rfl, rfl, rfl, rfl⟩⟩

/-! ## `arm_wait` on such a ring -/

/-- What holds all along an `arm_wait()` that began as `u` on the words `m`. -/
structure Looking (g : Geometry) (m : Mem) (u : Sub) (x : Mem × Sub) : Prop where
  ring : x.2.ringIdx = u.ringIdx
  readPos : x.2.readPos = u.readPos
  words : ∀ l, l ≠ .hasWaiter u.ringIdx → x.1 l = m l
  stage : match x.2.pc with
    | .live => x.2.waitState = u.headState g m
    | .armPos => True
    | .armHead cur => cur = m (.writePos u.ringIdx)
    | .armSeq cur => cur = m (.writePos u.ringIdx) ∧ u.headPos g cur = none
    | .armSet cur | .armCheck cur => cur = m (.writePos u.ringIdx) ∧ u.headState g m = .armed
    | _ => False

theorem Looking.step {x x' : Mem × Sub} {c : Bool} (h : Looking g m u x)
    (hs : alone g procs x c = some x') : Looking g m u x' := by
  obtain ⟨m', u'⟩ := x
  have hst := h.stage
  have hring := h.ring
  have hrp := h.readPos
  have hw : m' (.writePos u'.ringIdx) = m (.writePos u.ringIdx) := hring ▸ h.words _ (by simp)
  have hseq : m' (.sequence u'.ringIdx (g.entryIdx u'.readPos)) =
      m (.sequence u.ringIdx (g.entryIdx u.readPos)) := hring ▸ hrp ▸ h.words _ (by simp)
  have harm : ∀ cur, cur = m (.writePos u.ringIdx) →
      Looking g m u (m', u'.armWith cur (u.headState g m)) := by
    intro cur hcur
    unfold armWith
    split_ifs with hc
    · exact ⟨hring, hrp, h.words, hcur, hc.1⟩
    · exact ⟨hring, hrp, h.words, rfl⟩
  dsimp only at hst hring hrp
  cases hpc : u'.pc <;> simp only [hpc] at hst <;>
    simp only [alone, Kickmsg.alone, request, hpc, Option.map_none, Option.map_some,
      Option.some.injEq, reduceCtorEq] at hs <;> subst hs <;>
    simp only [Op.exec] <;> simp only [resume, hpc]
  case armPos => exact ⟨hring, hrp, h.words, hw⟩
  case armHead cur =>
    have hpos : u'.headPos g (m' (.writePos u'.ringIdx)) = u.headPos g (m (.writePos u.ringIdx)) := by
      rw [hw]
      simp only [headPos, hrp]
    rw [hpos]
    cases hp : u.headPos g (m (.writePos u.ringIdx)) with
    | some w =>
      have key := harm cur hst
      rw [headState, hp] at key
      exact key
    | none => exact ⟨hring, hrp, h.words, hst, hst ▸ hp⟩
  case armSeq cur =>
    have hclass : u'.headSeq (m' (.sequence u'.ringIdx (g.entryIdx u'.readPos))) = u.headState g m := by
      rw [hseq, headState, ← hst.1, hst.2]
      simp only [headSeq, hrp]
    rw [hclass]
    exact harm cur hst.1
  case armSet cur =>
    refine ⟨hring, hrp, fun l hl => ?_, hst⟩
    exact (Function.update_of_ne (by rw [hring]; exact hl) ..).trans (h.words l hl)
  case armCheck cur =>
    rw [hw, if_neg (by simp [hst.1])]
    exact ⟨hring, hrp, h.words, hst.2.symm⟩

/-! ## The agreement -/

/-- `n` calls of `try_receive_view()`, each made when `head_state` answers `Ready`. -/
inductive Polls (g : Geometry) (procs : Procs) : Nat → Mem × Sub → Mem × Sub → Prop
  | done (x : Mem × Sub) : Polls g procs 0 x x
  | call {n : Nat} {x y z : Mem × Sub} {es : List Bool} (hr : x.2.headState g x.1 = .ready)
      (hrun : solo (alone g procs) (x.1, x.2.receive false false) es = some y) (hy : y.2.pc = .live)
      (h : Polls g procs n y z) : Polls g procs (n + 1) x z

/-- The head state is the class of what `try_receive_view()` does, call by call. -/
theorem receive_alone (hg : g.Valid) (hm : m.InRange) (hrp : u.readPos < 2 ^ 62)
    (hwp : m (.writePos u.ringIdx) < 2 ^ 62) {es : List Bool} {x : Mem × Sub}
    (hrun : solo (alone g procs) (m, u.receive false false) es = some x) :
    Receiving g m u x ∧ es.length ≤ 640 + es.countP id := by
  refine ⟨solo_invariant (fun _ _ _ h hs => (h.step hg hm hrp hwp hs).1) (receiving_start hm) hrun, ?_⟩
  exact solo_length (I := Receiving g m u) (fun _ _ _ h hs => (h.step hg hm hrp hwp hs).1) id
    (fun x => left x.2) (fun _ _ _ h hs => (h.step hg hm hrp hwp hs).2) (receiving_start hm) hrun

/-- A loop on `Ready` takes at most one turn a position. -/
theorem Polls.le (hg : g.Valid) {n : Nat} {x z : Mem × Sub} (h : Polls g procs n x z) (hm : x.1.InRange)
    (hrp : x.2.readPos < 2 ^ 62) (hwp : x.1 (.writePos x.2.ringIdx) < 2 ^ 62) :
    n ≤ x.1 (.writePos x.2.ringIdx) - x.2.readPos := by
  induction h with
  | done x => exact Nat.zero_le _
  | @call n x y z es hr hrun hy h ih =>
    obtain ⟨hrec, -⟩ := receive_alone hg hm hrp hwp hrun
    have hst := hrec.stage
    have hw : y.1 (.writePos y.2.ringIdx) = x.1 (.writePos x.2.ringIdx) :=
      hrec.ring ▸ hrec.words _ (by simp) (by simp)
    have hbelow := hrec.below
    simp only [Stage, hy, hr, ne_eq, not_true_eq_false, false_and, or_false] at hst
    have hpast := hst.past
    have := ih hrec.range (hrec.readPos_lt hrp hwp) (hw ▸ hwp)
    rw [hw] at this
    omega

/-- On a ring that nobody else touches, whatever its words: `head_state` is `Armed` exactly when nothing
is published past `read_pos`; `try_receive_view` moves `read_pos` exactly when the state is `Ready`, by
one for each loss and for the sample, and otherwise returns nothing and changes nothing; it returns,
within a bound; `arm_wait` answers what `head_state` says; and a loop that receives on `Ready` ends. -/
theorem head_state_agrees (hg : g.Valid) (m : Mem) (u : Sub) (hm : m.InRange)
    (hrp : u.readPos < 2 ^ 62) (hwp : m (.writePos u.ringIdx) < 2 ^ 62) :
    (u.headState g m = .armed ↔ m (.writePos u.ringIdx) ≤ u.readPos) ∧
    (∀ es m' u', solo (alone g procs) (m, u.receive false false) es = some (m', u') →
      es.length ≤ 640 + es.countP id ∧ (∀ c, alone g procs (m', u') c = none → u'.pc = .live) ∧
      (u'.pc = .live →
        (u.headState g m = .ready ↔ u.readPos < u'.readPos) ∧
        (u.headState g m ≠ .ready →
          m' = m ∧ u'.readPos = u.readPos ∧ u'.lost = u.lost ∧ u'.views = u.views) ∧
        u'.readPos + u.lost + u.views.length = u.readPos + u'.lost + u'.views.length)) ∧
    (∀ es m' u', solo (alone g procs) (m, u.armWait) es = some (m', u') → u'.pc = .live →
      u'.waitState = u.headState g m ∧ u'.readPos = u.readPos ∧
        ∀ l, l ≠ .hasWaiter u.ringIdx → m' l = m l) ∧
    ∀ n x, Polls g procs n (m, u) x → n ≤ m (.writePos u.ringIdx) - u.readPos := by
  refine ⟨headState_armed, fun es m' u' hrun => ?_, fun es m' u' hrun hlive => ?_,
    fun n x h => h.le hg hm hrp hwp⟩
  · obtain ⟨h, hlen⟩ := receive_alone hg hm hrp hwp hrun
    refine ⟨hlen, fun c hc => h.live_of_rest hc, fun hlive => ?_⟩
    have hst := h.stage
    simp only [Stage, hlive] at hst
    rcases hst with hmv | ⟨hne, hun⟩
    · exact ⟨⟨fun _ => hmv.past, fun _ => hmv.ready⟩, fun hn => absurd hmv.ready hn, h.sum⟩
    · have hrp' : u'.readPos = u.readPos := hun.readPos
      refine ⟨⟨fun hr => absurd hr hne, fun hlt => ?_⟩, fun _ => ⟨hun.mem, hrp', hun.lost, hun.views⟩,
        h.sum⟩
      omega
  · have h : Looking g m u (m', u') :=
      solo_invariant (fun _ _ _ h hs => h.step hs) ⟨rfl, rfl, fun _ _ => rfl, trivial⟩ hrun
    have hst := h.stage
    simp only [hlive] at hst
    exact ⟨hst, h.readPos, h.words⟩

/-- A ring of two entries that three publications went through, a skip marker at its head. -/
def overrunRing : Mem :=
  Function.update (Function.update (fun _ => 0) (.writePos 0) 3) (.sequence 0 1) (seqSkip 1)

/-- A subscriber that has received nothing yet. -/
def lateSub : Sub := ⟨4, 1, 0, 0, 0, 0, 0, [], false, false, false, .ready, none, .live⟩

theorem head_state_agrees_overrun : lateSub.headState Sys.smallGeometry overrunRing = .ready ∧
    ∀ n x, Polls Sys.smallGeometry (fun _ => none) n (overrunRing, lateSub) x → n ≤ 3 := by
  have hm : overrunRing.InRange :=
    Mem.InRange.update (Mem.InRange.update (fun l => l.modulus_pos) (by decide)) (by decide)
  exact ⟨by decide, (head_state_agrees Sys.valid_smallGeometry overrunRing lateSub hm (by decide)
    (by decide)).2.2.2⟩

end Sub

end Kickmsg
