import Kickmsg.Conservation

/-!
# The wrap of the free stack's generation

`allocate()` on a publisher that holds a reservation pushes the slot and pops it again: two changes of
`free_top`, and every word but the generation is as before. After `2 ^ 31` such rounds the generation is
the old one, and a pop that stalled between its load and its CAS succeeds on a stale successor.
-/

namespace Kickmsg

open Lib

namespace Sys

variable {ι : Type} [DecidableEq ι] {g : Geometry} {proc : ι → Nat × Nat}

/-- `s` with the parts that `allocate()` of actor `t` touches replaced. -/
def patch (s : Sys ι) (t : ι) (m : Mem) (l : Local) (changes n : Nat) : Sys ι :=
  { s with
    mem := m
    th := Function.update s.th t l
    ghost := { s.ghost with changes := changes, seen := Function.update s.ghost.seen t n } }

/-- The free stack's accesses. -/
def stackOp : Op → Bool
  | .load .freeTop | .cas _ .freeTop _ _ | .load (.nextFree _) | .store (.nextFree _) _ => true
  | _ => false

/-- One access of a publisher to the free stack. -/
theorem next_patch {s : Sys ι} {t : ι} {m : Mem} {u : Pub} {changes n : Nat} {op : Op}
    (ha : s.alive proc t = true) (hop : u.request g = some op) (hst : stackOp op = true) :
    (s.patch t m (.pub u) changes n).next g proc (.run t false) =
      some (s.patch t (op.exec s.procs m false).1 (.pub (u.resume g (op.exec s.procs m false).2))
        (op.changesAfter (op.exec s.procs m false).2 changes)
        (if op.seesTop then changes else n)) := by
  have halive : (s.patch t m (.pub u) changes n).alive proc t = true := ha
  have hreq : ((s.patch t m (.pub u) changes n).th t).request g = some op := by
    simpa [patch, Local.request] using hop
  simp only [next, halive, hreq, if_true, Option.some.injEq]
  have hlog : ∀ gh : Ghost ι, ∀ r, gh.logAfter t op r = gh.log := fun gh r => by
    cases op with
    | fetchAdd l k => simp [stackOp] at hst
    | _ => rfl
  have hten : ∀ gh : Ghost ι, ∀ m m', gh.tenantAfter t op m m' = gh.tenant := fun gh m m' => by
    unfold Ghost.tenantAfter
    cases op with
    | store l v => cases l <;> simp_all [stackOp, Op.target]
    | cas w l e d => cases l <;> simp_all [stackOp, Op.target]
    | _ => simp_all [stackOp, Op.target]
  have hbuf : ∀ gh : Ghost ι, gh.bufAfter s.data t op = gh.buf := fun gh => by
    cases op with
    | copyOut slot len => simp [stackOp] at hst
    | _ => rfl
  simp only [patch, Ghost.after, hlog, hten, hbuf, Function.update_self, Local.resume, Function.update_idem,
    Ghost.joined, Ghost.handed]
  congr 2
  rw [Op.seenAfter_eq, Function.update_idem, Function.update_self]

/-- `free_top` with its generation advanced by `k`. -/
def bump (top k : Nat) : Nat := taggedPack (u32 (taggedGen top + k)) (taggedIdx top)

theorem taggedIdx_bump (top k : Nat) : taggedIdx (bump top k) = taggedIdx top :=
  taggedIdx_pack (Nat.mod_lt _ (by decide))

theorem taggedGen_bump (top k : Nat) : taggedGen (bump top k) = u32 (taggedGen top + k) := by
  have hidx : taggedIdx top < 2 ^ 32 := Nat.mod_lt _ (by decide)
  rw [bump, taggedGen_pack hidx]
  unfold u32
  omega

theorem bump_bump (top a b : Nat) : bump (bump top a) b = bump top (a + b) := by
  rw [bump, taggedIdx_bump, taggedGen_bump, bump]
  unfold u32
  congr 1
  omega

/-- Inside `allocate()`. -/
def PubPc.allocating : PubPc → Bool
  | .idle | .releasePending _ _ _ | .allocate _ => true
  | _ => false

section Round

variable {s : Sys ι} {t : ι} {ok : Sys ι → Label ι → Bool}

/-- Which labels a run may use; `allocate()` of actor `t` is always among them. -/
def Allows (ok : Sys ι → Label ι → Bool) (t : ι) : Prop :=
  ∀ s u, s.th t = .pub u → PubPc.allocating u.pc = true →
    ok s (.run t false) = true ∧ ok s (.call t .allocate) = true

theorem play_run {m : Mem} {u : Pub} {changes n : Nat} {op : Op} {ls : List (Label ι)}
    (hok : Allows ok t) (ha : s.alive proc t = true) (hpc : PubPc.allocating u.pc = true)
    (hop : u.request g = some op) (hst : stackOp op = true) :
    LTS.play (next g proc) ok (s.patch t m (.pub u) changes n) (.run t false :: ls) =
      LTS.play (next g proc) ok (s.patch t (op.exec s.procs m false).1
        (.pub (u.resume g (op.exec s.procs m false).2))
        (op.changesAfter (op.exec s.procs m false).2 changes)
        (if op.seesTop then changes else n)) ls := by
  rw [LTS.play, (hok _ u (by simp [patch]) hpc).1, if_pos rfl, next_patch ha hop hst]
  rfl

/-- One round of `allocate()` advances the generation by two and changes nothing else. -/
theorem play_round (hv : g.Valid) {m : Mem} {u : Pub} {x changes n : Nat} (hok : Allows ok t)
    (ha : s.alive proc t = true) (hidle : u.pc = .idle) (hpend : u.pending = some x)
    (hlt : x < g.poolSize) (hnext : m (.nextFree x) = taggedIdx (m .freeTop)) :
    LTS.play (next g proc) ok (s.patch t m (.pub u) changes n)
        (.call t .allocate :: List.replicate 6 (.run t false)) =
      some (s.patch t (Function.update m .freeTop (bump (m .freeTop) 2))
        (.pub { u with reservation := u.reservation + 1 }) (changes + 2) (changes + 1)) := by
  have hx : x < 2 ^ 32 := by
    have := hv.slot_lt hlt
    omega
  obtain ⟨pending, reservation, dropped, backend, result, pc⟩ := u
  subst hidle hpend
  have hcall : (s.patch t m (.pub ⟨some x, reservation, dropped, backend, result, .idle⟩) changes n).next
      g proc (.call t .allocate) = some (s.patch t m
        (.pub ⟨some x, reservation, dropped, backend, result, .releasePending x .allocate .load⟩)
        changes n) := by
    have halive : (s.patch t m (.pub ⟨some x, reservation, dropped, backend, result, .idle⟩)
      changes n).alive proc t = true := ha
    simp only [next, halive, if_true]
    simp [patch, Local.call, Pub.allocate, Ghost.published]
  rw [LTS.play, (hok _ _ (by simp [patch]; rfl) rfl).2, if_pos rfl, hcall]
  simp only [Option.bind_some, List.replicate]
  -- the push
  rw [play_run hok ha rfl rfl rfl]
  simp only [PushPc.request, Op.exec, Pub.resume, PushPc.resume, Op.changesAfter, Op.movesTop,
    Op.seesTop, if_true, Bool.false_eq_true, if_false]
  rw [play_run hok ha rfl rfl rfl]
  simp only [PushPc.request, Op.exec, Pub.resume, PushPc.resume, Op.changesAfter, Op.movesTop,
    Op.seesTop, Bool.false_eq_true, if_false]
  rw [← hnext, Function.update_eq_self, play_run hok ha rfl rfl rfl]
  simp only [PushPc.request, Op.exec, Pub.resume, PushPc.resume, Op.changesAfter, Op.movesTop,
    Op.seesTop, if_true, Bool.false_eq_true, and_false, not_false_eq_true, and_self]
  -- the pop
  have hlook : PopPc.look g.poolSize (taggedPack (u32 (taggedGen (m .freeTop) + 1)) x) =
      .busy (.next (taggedPack (u32 (taggedGen (m .freeTop) + 1)) x)) := by
    simp [PopPc.look, taggedIdx_pack hx, hv.ne_invalidSlot hlt, hlt]
  rw [play_run hok ha rfl rfl rfl]
  simp only [PopPc.request, Op.exec, Pub.resume, PopPc.resume, Op.changesAfter, Op.movesTop,
    Op.seesTop, if_true, Bool.false_eq_true, if_false, Function.update_self, hlook]
  rw [play_run hok ha rfl rfl rfl]
  simp only [PopPc.request, Op.exec, Pub.resume, PopPc.resume, Op.changesAfter, Op.movesTop,
    Op.seesTop, Bool.false_eq_true, if_false, taggedIdx_pack hx]
  rw [play_run hok ha rfl rfl rfl]
  simp only [PopPc.request, Op.exec, Pub.resume, PopPc.resume, Op.changesAfter, Op.movesTop,
    Op.seesTop, if_true, Bool.false_eq_true, and_false, not_false_eq_true, and_self,
    Function.update_self, taggedIdx_pack hx, LTS.play]
  have hgen : u32 (taggedGen (taggedPack (u32 (taggedGen (m .freeTop) + 1)) x) + 1) =
      u32 (taggedGen (m .freeTop) + 2) := by
    rw [taggedGen_pack hx]
    unfold u32
    omega
  rw [Function.update_idem, hgen, Function.update_of_ne (by simp), hnext]
  rfl

/-- Any number of rounds. -/
theorem reach_rounds (hv : g.Valid) {m : Mem} {u : Pub} {x changes n : Nat} (hok : Allows ok t)
    (ha : s.alive proc t = true) (hidle : u.pc = .idle) (hpend : u.pending = some x)
    (hlt : x < g.poolSize) (hnext : m (.nextFree x) = taggedIdx (m .freeTop))
    (h : (machine g proc).Reach (fun s l _ => ok s l = true) (s.patch t m (.pub u) changes n))
    (k : Nat) :
    (machine g proc).Reach (fun s l _ => ok s l = true)
      (s.patch t (Function.update m .freeTop (bump (m .freeTop) (2 * (k + 1))))
        (.pub { u with reservation := u.reservation + (k + 1) }) (changes + 2 * (k + 1))
        (changes + 2 * k + 1)) := by
  induction k with
  | zero => exact h.play (play_round hv hok ha hidle hpend hlt hnext)
  | succ k ih =>
    have key := ih.play (play_round (s := s) hv hok ha hidle hpend hlt (by
      rw [Function.update_of_ne (by simp), Function.update_self, taggedIdx_bump, hnext]))
    rw [Function.update_self, bump_bump, Function.update_idem] at key
    exact key

/-- The publisher `t` is at rest and holds a slot whose `next_free` is the current top. -/
def canSpin (g : Geometry) (proc : ι → Nat × Nat) (s : Sys ι) (t : ι) : Bool :=
  match s.th t with
  | .pub u =>
    match u.pending with
    | some x => s.alive proc t && decide (u.pc = .idle ∧ x < g.poolSize ∧
        s.mem (.nextFree x) = taggedIdx (s.mem .freeTop))
    | none => false
  | _ => false

/-- `s` after `k + 1` rounds of `allocate()` by publisher `t`. -/
def spun (s : Sys ι) (t : ι) (k : Nat) : Sys ι :=
  match s.th t with
  | .pub u => s.patch t (Function.update s.mem .freeTop (bump (s.mem .freeTop) (2 * (k + 1))))
      (.pub { u with reservation := u.reservation + (k + 1) }) (s.ghost.changes + 2 * (k + 1))
      (s.ghost.changes + 2 * k + 1)
  | _ => s

theorem reach_spun (hv : g.Valid) (hok : Allows ok t)
    (h : (machine g proc).Reach (fun s l _ => ok s l = true) s) (hs : s.canSpin g proc t = true)
    (k : Nat) : (machine g proc).Reach (fun s l _ => ok s l = true) (s.spun t k) := by
  unfold canSpin at hs
  split at hs
  · rename_i u hu
    split at hs
    · rename_i x hx
      simp only [Bool.and_eq_true, decide_eq_true_eq] at hs
      have e : s = s.patch t s.mem (.pub u) s.ghost.changes (s.ghost.seen t) := by
        simp only [patch, ← hu, Function.update_eq_self]
      rw [e] at h
      have key := reach_rounds hv hok hs.1 hs.2.1 hx hs.2.2.1 hs.2.2.2 h k
      simpa only [spun, hu] using key
    · simp at hs
  · simp at hs

/-- A run with `k + 1` rounds of `allocate()` by publisher `t` in the middle. -/
def playSpin (g : Geometry) (proc : ι → Nat × Nat) (ok : Sys ι → Label ι → Bool) (s : Sys ι) (t : ι)
    (before : List (Label ι)) (k : Nat) (after : List (Label ι)) : Option (Sys ι) :=
  (LTS.play (next g proc) ok s before).bind fun s' =>
    if s'.canSpin g proc t then LTS.play (next g proc) ok (s'.spun t k) after else none

theorem reach_playSpin (hv : g.Valid) (ok : Sys ι → Label ι → Bool) (hok : Allows ok t)
    (h : (machine g proc).Reach (fun s l _ => ok s l = true) s) (before after : List (Label ι))
    (k : Nat) (P : Sys ι → Bool) (hp : (playSpin g proc ok s t before k after).any P = true) :
    ∃ s', (machine g proc).Reach (fun s l _ => ok s l = true) s' ∧ P s' = true := by
  obtain ⟨s', hs', hP⟩ := (Option.any_eq_true _ _).mp hp
  refine ⟨s', ?_, hP⟩
  obtain ⟨s₁, hs₁, hs'⟩ := Option.bind_eq_some_iff.mp hs'
  split_ifs at hs' with hspin
  exact (reach_spun hv hok (h.play hs₁) hspin k).play hs'

end Round

/-! ## The stale pop

In `smallGeometry`, three slots and one ring of two entries. Publisher 0 stalls in its pop of slot 2 with slot 1 as the
successor. Publisher 1 gets slot 2, publisher 2 publishes slot 1 to the subscriber and then takes slot
0. Publisher 1 now runs the generation around and releases slot 2, and the stalled pop succeeds: slot 1
is on the free stack while the ring names it. -/

/-- Up to the rounds: the subscriber joins, publisher 0 stalls in its pop, publisher 1 takes slot 2,
publisher 2 publishes slot 1 and takes slot 0, publisher 1 makes a first round. -/
def beforeSpin : List (Label (Fin 9)) :=
  .call 3 (.join false) :: runs 3 5 ++ .call 0 .allocate :: runs 0 2 ++
    .call 1 .allocate :: runs 1 3 ++ .call 2 .allocate :: runs 2 3 ++
    .write 2 0 7 :: .call 2 (.publish 1) :: runs 2 12 ++ .call 2 .allocate :: runs 2 3 ++
    .call 1 .allocate :: runs 1 6

/-- After the rounds: publisher 1 releases slot 2 and the stalled pop of publisher 0 succeeds. -/
def afterSpin : List (Label (Fin 9)) := .call 1 .releasePending :: runs 1 3 ++ runs 0 1

/-- The number of rounds, less one, that bring generation 8 back to 2. -/
def spins : Nat := 2 ^ 31 - 4

instance (g : Geometry) (s : Sys (Fin 9)) (x : Nat) : Decidable (s.Conserved g x) :=
  inferInstanceAs (Decidable (_ = _))

/-- Publisher 1 is handed slot 1 and presets its count, which the ring's reference is part of. -/
theorem not_conserved_of_wrap : ∃ s : Sys (Fin 9),
    (machine smallGeometry crewProc).Reach (fun _ l _ => noOrphanPass l = true) s ∧
      1 < smallGeometry.poolSize ∧ ¬ s.Conserved smallGeometry 1 := by
  obtain ⟨s, hs, hP⟩ := reach_playSpin (t := 1) valid_smallGeometry (fun _ l => noOrphanPass l)
    (fun _ _ _ _ => ⟨rfl, rfl⟩) (.init (init_crew smallGeometry)) beforeSpin
    (afterSpin ++ .call 1 .allocate :: runs 1 3 ++ .call 1 (.publish 0) :: runs 1 2) spins
    (fun s => decide (¬ s.Conserved smallGeometry 1)) (by decide +kernel)
  exact ⟨s, hs, by decide, by simpa using hP⟩

end Sys

end Kickmsg
