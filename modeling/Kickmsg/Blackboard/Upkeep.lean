import Kickmsg.Blackboard.Exclusivity
import Kickmsg.Lib.Pass
import Kickmsg.Lib.Solo

/-!
# Repair and sweep

`normalize_entry`, `repair_board` and `sweep_locked` as functions of the words of a board. The holder of
the lock whom nobody disturbs computes them (`ends_repair`, `ends_sweep`), and as a visit reads and writes
its own entry only, a pass does to each entry what one visit of it does.
-/

namespace Kickmsg.Blackboard

open Lib

/-- One access of an actor with nobody else about; the environment chooses what a clock shows. -/
def alone (g : Geometry) (procs : Nat → Option Nat) (x : (Loc → Nat) × Actor) (now : Nat) :
    Option ((Loc → Nat) × Actor) :=
  x.2.request.map fun op =>
    ((op.exec verdict procs x.1 now).1, x.2.resume g (op.exec verdict procs x.1 now).2)

/-- `clear_identity`. -/
def clearIdentity (m : Loc → Nat) (i : Nat) : Loc → Nat :=
  Function.update (Function.update (Function.update m (.entry i .keyHash) 0) (.entry i .ownerPid) 0)
    (.entry i .ownerStarttime) 0

/-- `publish_free`. -/
def publishFree (m : Loc → Nat) (i : Nat) : Loc → Nat :=
  Function.update (clearIdentity m i) (.entry i .state) free

/-- `normalize_entry`: the words it leaves, and whether anything changed. -/
def normalizeEntry (m : Loc → Nat) (i : Nat) : (Loc → Nat) × Bool :=
  if m (.entry i .state) = claiming then (publishFree m i, true)
  else if m (.entry i .state) = active ∧ m (.entry i .keyHash) = 0 then (publishFree m i, true)
  else if m (.entry i .state) = free ∧ (m (.entry i .keyHash) ≠ 0 ∨ m (.entry i .ownerPid) ≠ 0) then
    (clearIdentity m i, true)
  else (m, false)

/-- `repair_board`. -/
def repairBoard (capacity : Nat) (m : Loc → Nat) : Loc → Nat :=
  (List.range capacity).foldl (fun m i => (normalizeEntry m i).1) m

/-- `owner_is_dead` of the owner of entry `i`. -/
def deadOwned (procs : Nat → Option Nat) (m : Loc → Nat) (i : Nat) : Bool :=
  ownerIsDead procs (m (.entry i .ownerPid)) (m (.entry i .ownerStarttime))

/-- `entry->tenancy.fetch_add(1)`. -/
def bumpTenancy (m : Loc → Nat) (i : Nat) : Loc → Nat :=
  Function.update m (.entry i .tenancy) (u64 (m (.entry i .tenancy) + 1))

/-- One round of `sweep_locked`: the words, and whether the entry is counted. -/
def sweepEntry (procs : Nat → Option Nat) (m : Loc → Nat) (i : Nat) : (Loc → Nat) × Bool :=
  if (normalizeEntry m i).2 then normalizeEntry m i
  else if m (.entry i .ownerPid) = 0 then (m, false)
  else if deadOwned procs m i then (publishFree (bumpTenancy m i) i, true)
  else (m, false)

/-- `sweep_locked`. -/
def sweepLocked (capacity : Nat) (procs : Nat → Option Nat) (m : Loc → Nat) : (Loc → Nat) × Nat :=
  (List.range capacity).foldl
    (passStep (fun m i => (sweepEntry procs m i).1) fun m i => (sweepEntry procs m i).2) (m, 0)

/-- `notify_change`: what it stores. -/
def notifyChange (m : Loc → Nat) : Loc → Nat := Function.update m .changeSeq (m .changeSeq + 1)

/-- `board_unlock`. -/
def boardUnlock (m : Loc → Nat) : Loc → Nat := Function.update m .lockToken 0

/-- `sweep_stale`, once it has the lock: the words, and what it returns. -/
def sweepStale (capacity : Nat) (procs : Nat → Option Nat) (m : Loc → Nat) : (Loc → Nat) × Nat :=
  let x := sweepLocked capacity procs m
  (boardUnlock (if 0 < x.2 then notifyChange x.1 else x.1), x.2)

variable {g : Geometry} {procs : Nat → Option Nat} {m m' : Loc → Nat} {a : Actor} {i : Nat}

/-! ## A visit and its entry -/

section Visit

theorem entryOf_ne {f : Field} {l : Loc} (h : l.entryOf ≠ some i) : l ≠ .entry i f := by
  rintro rfl
  exact h rfl

theorem clearIdentity_frame {l : Loc} (h : l.entryOf ≠ some i) : clearIdentity m i l = m l := by
  rw [clearIdentity, Function.update_of_ne (entryOf_ne h), Function.update_of_ne (entryOf_ne h),
    Function.update_of_ne (entryOf_ne h)]

theorem publishFree_frame {l : Loc} (h : l.entryOf ≠ some i) : publishFree m i l = m l := by
  rw [publishFree, Function.update_of_ne (entryOf_ne h), clearIdentity_frame h]

/-- A word that is stored, or was the same, is the same. -/
theorem update_agree {l l' : Loc} {x y : Nat} (hxy : x = y) (h : m l = m' l) :
    Function.update m l' x l = Function.update m' l' y l := by
  subst hxy
  by_cases he : l = l'
  · rw [he, Function.update_self, Function.update_self]
  · rw [Function.update_of_ne he, Function.update_of_ne he, h]

theorem clearIdentity_agree {l : Loc} (h : m l = m' l) : clearIdentity m i l = clearIdentity m' i l :=
  update_agree rfl (update_agree rfl (update_agree rfl h))

theorem publishFree_agree {l : Loc} (h : m l = m' l) : publishFree m i l = publishFree m' i l :=
  update_agree rfl (clearIdentity_agree h)

theorem local_normalize :
    Local Loc.entryOf (fun m i => (normalizeEntry m i).1) fun m i => (normalizeEntry m i).2 where
  frame m i l hl := by
    unfold normalizeEntry
    split_ifs
    · exact publishFree_frame hl
    · exact publishFree_frame hl
    · exact clearIdentity_frame hl
    · rfl
  reads m m' i h l hl := by
    unfold normalizeEntry
    rw [h (.entry i .state) rfl, h (.entry i .keyHash) rfl, h (.entry i .ownerPid) rfl]
    split_ifs
    · exact publishFree_agree (h l hl)
    · exact publishFree_agree (h l hl)
    · exact clearIdentity_agree (h l hl)
    · exact h l hl
  hears m m' i h := by
    unfold normalizeEntry
    rw [h (.entry i .state) rfl, h (.entry i .keyHash) rfl, h (.entry i .ownerPid) rfl]
    split_ifs <;> rfl

theorem local_sweep (procs : Nat → Option Nat) :
    Local Loc.entryOf (fun m i => (sweepEntry procs m i).1) fun m i => (sweepEntry procs m i).2 where
  frame m i l hl := by
    unfold sweepEntry
    split_ifs
    · exact local_normalize.frame m i l hl
    · rfl
    · exact (publishFree_frame hl).trans (Function.update_of_ne (entryOf_ne hl) ..)
    · rfl
  reads m m' i h l hl := by
    unfold sweepEntry
    rw [local_normalize.hears m m' i h, deadOwned, h (.entry i .ownerPid) rfl,
      h (.entry i .ownerStarttime) rfl, ← deadOwned]
    split_ifs
    · exact local_normalize.reads m m' i h l hl
    · exact h l hl
    · exact publishFree_agree (update_agree (by rw [h (.entry i .tenancy) rfl]) (h l hl))
    · exact h l hl
  hears m m' i h := by
    unfold sweepEntry
    rw [local_normalize.hears m m' i h, deadOwned, h (.entry i .ownerPid) rfl,
      h (.entry i .ownerStarttime) rfl, ← deadOwned]
    split_ifs
    · exact local_normalize.hears m m' i h
    · rfl
    · rfl
    · rfl

/-- The pass of a repair does to each entry what one visit does. -/
theorem repairBoard_apply {n : Nat} {l : Loc} (hi : i < n) (hl : l.entryOf = some i) :
    repairBoard n m l = (normalizeEntry m i).1 l :=
  local_normalize.foldl_of_mem List.nodup_range (List.mem_range.mpr hi) hl

theorem sweepLocked_eq {n : Nat} : sweepLocked n procs m =
    ((List.range n).foldl (fun m i => (sweepEntry procs m i).1) m,
      (List.range n).countP fun i => (sweepEntry procs m i).2) := by
  rw [sweepLocked, (local_sweep procs).foldl_passStep List.nodup_range, Nat.zero_add]

theorem sweepLocked_apply {n : Nat} {l : Loc} (hi : i < n) (hl : l.entryOf = some i) :
    (sweepLocked n procs m).1 l = (sweepEntry procs m i).1 l := by
  rw [sweepLocked_eq]
  exact (local_sweep procs).foldl_of_mem List.nodup_range (List.mem_range.mpr hi) hl

/-- The pass of a sweep leaves the words beside the entries alone. -/
theorem sweepLocked_frame {n : Nat} {l : Loc} (hl : ∀ i < n, l.entryOf ≠ some i) :
    (sweepLocked n procs m).1 l = m l := by
  rw [sweepLocked_eq]
  exact (local_sweep procs).foldl_of_notMem fun i hi => hl i (List.mem_range.mp hi)

end Visit

/-! ## The program computes them -/

section Runs

variable {I : (Loc → Nat) → Prop} {P : (Loc → Nat) × Actor → Prop}

theorem normalizeEntry_tells : (normalizeEntry m i).2 = true ↔
    m (.entry i .state) = claiming ∨ (m (.entry i .state) = active ∧ m (.entry i .keyHash) = 0) ∨
      m (.entry i .state) = free ∧ (m (.entry i .keyHash) ≠ 0 ∨ m (.entry i .ownerPid) ≠ 0) := by
  unfold normalizeEntry
  split_ifs <;> simp only [true_iff, false_iff] <;> tauto

theorem normalizeEntry_quiet (h : (normalizeEntry m i).2 = false) : (normalizeEntry m i).1 = m := by
  revert h
  unfold normalizeEntry
  split_ifs <;> simp

/-- The words before each store of `clear_identity`, and after the last. -/
def wiping (m : Loc → Nat) (i : Nat) : List (Loc → Nat) :=
  [m, Function.update m (.entry i .keyHash) 0,
    Function.update (Function.update m (.entry i .keyHash) 0) (.entry i .ownerPid) 0, clearIdentity m i]

/-- The words before each store of a visit by `sweep_locked`. -/
inductive Sweeping (procs : Nat → Option Nat) (m : Loc → Nat) (i : Nat) : (Loc → Nat) → Prop
  | before : Sweeping procs m i m
  | normalize {x : Loc → Nat} (h : (normalizeEntry m i).2 = true) (hx : x ∈ wiping m i) :
    Sweeping procs m i x
  | sweep {x : Loc → Nat} (h : (normalizeEntry m i).2 = false)
    (hd : deadOwned procs m i = true)
    (hx : x ∈ wiping (bumpTenancy m i) i) : Sweeping procs m i x

theorem through_wipe {v : Visit} {b : Bool} (hI : ∀ x ∈ wiping m i, I x)
    (h : Through (alone g procs) (fun x => I x.1) P
      (if b then publishFree m i else clearIdentity m i, a.cleaned g v i)) :
    Through (alone g procs) (fun x => I x.1) P (m, a.goto (.wipeHash v i b)) := by
  simp only [wiping, List.forall_mem_cons] at hI
  obtain ⟨h₀, h₁, h₂, h₃, -⟩ := hI
  refine .step_eq (t := (_, a.goto (.wipePid v i b))) h₀ (fun _ => rfl) ?_
  refine .step_eq (t := (_, a.goto (.wipeStart v i b))) h₁ (fun _ => rfl) ?_
  cases b with
  | false => exact .step_eq (t := (clearIdentity m i, a.cleaned g v i)) h₂ (fun _ => rfl) h
  | true =>
    refine .step_eq (t := (clearIdentity m i, a.goto (.wipeState v i))) h₂ (fun _ => rfl) ?_
    exact .step_eq (t := (publishFree m i, a.cleaned g v i)) h₃ (fun _ => rfl) h

theorem through_normalize {v : Visit} (hm : I m)
    (hI : (normalizeEntry m i).2 = true → ∀ x ∈ wiping m i, I x)
    (h : Through (alone g procs) (fun x => I x.1) P ((normalizeEntry m i).1,
      if (normalizeEntry m i).2 then a.cleaned g v i else a.inOrder g v i)) :
    Through (alone g procs) (fun x => I x.1) P (m, a.goto (.normState v i)) := by
  rw [normalizeEntry_tells] at hI
  unfold normalizeEntry at h
  by_cases hc : m (.entry i .state) = claiming
  · rw [if_pos hc] at h
    refine .step_eq (t := (m, a.goto (.wipeHash v i true))) hm (fun _ => ?_)
      (through_wipe (hI (.inl hc)) h)
    exact congrArg (fun x => some (m, x)) (if_pos hc)
  rw [if_neg hc] at h
  by_cases hs : m (.entry i .state) = active ∨ m (.entry i .state) = free
  · refine .step_eq (t := (m, a.goto (.normHash v i (m (.entry i .state))))) hm (fun _ => ?_) ?_
    · exact congrArg (fun x => some (m, x)) ((if_neg hc).trans (if_pos hs))
    rcases hs with hs | hs
    · by_cases hh : m (.entry i .keyHash) = 0
      · rw [if_pos ⟨hs, hh⟩] at h
        refine .step_eq (t := (m, a.goto (.wipeHash v i true))) hm (fun _ => ?_)
          (through_wipe (hI (.inr (.inl ⟨hs, hh⟩))) h)
        exact congrArg (fun x => some (m, x)) ((if_pos hs).trans (if_pos hh))
      · rw [if_neg (by tauto), if_neg (by rw [hs]; rintro ⟨h, -⟩; cases h)] at h
        refine .step_eq (t := (m, a.inOrder g v i)) hm (fun _ => ?_) h
        exact congrArg (fun x => some (m, x)) ((if_pos hs).trans (if_neg hh))
    · have hna : m (.entry i .state) ≠ active := by rw [hs]; decide
      rw [if_neg (by tauto)] at h
      by_cases hh : m (.entry i .keyHash) = 0
      · refine .step_eq (t := (m, a.goto (.normPid v i))) hm (fun _ => ?_) ?_
        · exact congrArg (fun x => some (m, x)) ((if_neg hna).trans (if_neg (not_not.mpr hh)))
        by_cases hp : m (.entry i .ownerPid) = 0
        · rw [if_neg (by tauto)] at h
          refine .step_eq (t := (m, a.inOrder g v i)) hm (fun _ => ?_) h
          exact congrArg (fun x => some (m, x)) (if_neg (not_not.mpr hp))
        · rw [if_pos ⟨hs, .inr hp⟩] at h
          refine .step_eq (t := (m, a.goto (.wipeHash v i false))) hm (fun _ => ?_)
            (through_wipe (hI (.inr (.inr ⟨hs, .inr hp⟩))) h)
          exact congrArg (fun x => some (m, x)) (if_pos hp)
      · rw [if_pos ⟨hs, .inl hh⟩] at h
        refine .step_eq (t := (m, a.goto (.wipeHash v i false))) hm (fun _ => ?_)
          (through_wipe (hI (.inr (.inr ⟨hs, .inl hh⟩))) h)
        exact congrArg (fun x => some (m, x)) ((if_neg hna).trans (if_pos hh))
  · rw [if_neg (by tauto), if_neg (by tauto)] at h
    refine .step_eq (t := (m, a.inOrder g v i)) hm (fun _ => ?_) h
    exact congrArg (fun x => some (m, x)) ((if_neg hc).trans (if_neg hs))

theorem ends_repairAt {j : Job} {d : Nat} (hd : i + d = g.capacity)
    (h : Ends (alone g procs) P
      ((List.range' i d).foldl (fun m i => (normalizeEntry m i).1) m, a.enter g j)) :
    Ends (alone g procs) P (m, a.repairAt g j i) := by
  induction d generalizing m i with
  | zero =>
    rw [Actor.repairAt, if_neg (by omega)]
    exact h
  | succ d ih =>
    rw [Actor.repairAt, if_pos (by omega)]
    refine through_normalize (I := fun _ => True) trivial (fun _ _ _ => trivial) ?_
    have hnext := ih (by omega) h
    split <;> exact hnext

/-- The recoverer of the lock repairs the board, and goes on with what it took the lock for. -/
theorem ends_repair {j : Job}
    (h : Ends (alone g procs) P (repairBoard g.capacity m, a.enter g j)) :
    Ends (alone g procs) P (m, a.repairAt g j 0) := by
  refine ends_repairAt (Nat.zero_add _) ?_
  rwa [repairBoard, List.range_eq_range'] at h

theorem through_sweepEntry {k : SweepFor} {n : Nat} (hI : ∀ x, Sweeping procs m i x → I x)
    (h : Through (alone g procs) (fun x => I x.1) P ((sweepEntry procs m i).1,
      a.sweepAt g k (n + (sweepEntry procs m i).2.toNat) (i + 1))) :
    Through (alone g procs) (fun x => I x.1) P (m, a.goto (.normState (.sweep k n) i)) := by
  have hm : I m := hI m .before
  refine through_normalize hm (fun ht x hx => hI x (.normalize ht hx)) ?_
  unfold sweepEntry at h
  cases hn : (normalizeEntry m i).2 with
  | true =>
    rw [if_pos hn, hn] at h
    exact h
  | false =>
    rw [hn, if_neg (by simp)] at h
    rw [normalizeEntry_quiet hn, if_neg (by simp)]
    change Through (alone g procs) (fun x => I x.1) P (m, a.goto (.sweepPid k n i))
    by_cases hp : m (.entry i .ownerPid) = 0
    · rw [if_pos hp] at h
      refine .step_eq (t := (m, a.sweepAt g k n (i + 1))) hm (fun _ => ?_) h
      exact congrArg (fun x => some (m, x)) (if_pos hp)
    · rw [if_neg hp] at h
      refine .step_eq (t := (m, a.goto (.sweepStart k n i (m (.entry i .ownerPid))))) hm
        (fun _ => ?_) ?_
      · exact congrArg (fun x => some (m, x)) (if_neg hp)
      refine .step_eq (t := (m, a.goto (.sweepProbe k n i (m (.entry i .ownerPid))
        (m (.entry i .ownerStarttime))))) hm (fun _ => rfl) ?_
      cases hd : deadOwned procs m i with
      | true =>
        rw [if_pos hd] at h
        refine .step_eq (t := (m, a.goto (.sweepBump k n i))) hm (fun _ => ?_) ?_
        · exact congrArg (fun x => some (m, x)) (if_pos hd)
        exact .step_eq (t := (_, a.goto (.wipeHash (.sweep k n) i true))) hm (fun _ => rfl)
          (through_wipe (fun x hx => hI x (.sweep hn hd hx)) h)
      | false =>
        rw [if_neg (by simp [hd])] at h
        refine .step_eq (t := (m, a.sweepAt g k n (i + 1))) hm (fun _ => ?_) h
        exact congrArg (fun x => some (m, x)) (if_neg (c := deadOwned procs m i = true) (by simp [hd]))

theorem sweepLocked_succ : sweepLocked (i + 1) procs m =
    ((sweepEntry procs (sweepLocked i procs m).1 i).1,
      (sweepLocked i procs m).2 + (sweepEntry procs (sweepLocked i procs m).1 i).2.toNat) := by
  rw [sweepLocked, List.range_succ, List.foldl_append]
  rfl

theorem through_sweepAt {k : SweepFor} {d : Nat} (hd : i + d = g.capacity)
    (hI : ∀ j < g.capacity, ∀ x, Sweeping procs (sweepLocked j procs m).1 j x → I x)
    (h : Through (alone g procs) (fun x => I x.1) P ((sweepLocked g.capacity procs m).1,
      a.sweepAt g k (sweepLocked g.capacity procs m).2 g.capacity)) :
    Through (alone g procs) (fun x => I x.1) P ((sweepLocked i procs m).1,
      a.sweepAt g k (sweepLocked i procs m).2 i) := by
  induction d generalizing i with
  | zero =>
    obtain rfl : i = g.capacity := hd
    exact h
  | succ d ih =>
    have hloop : a.sweepAt g k (sweepLocked i procs m).2 i =
        a.goto (.normState (.sweep k (sweepLocked i procs m).2) i) := if_pos (by omega)
    have hnext := ih (i := i + 1) (by omega)
    rw [sweepLocked_succ] at hnext
    rw [hloop]
    exact through_sweepEntry (hI i (by omega)) hnext

/-- `sweep_locked`, and what follows its loop. -/
theorem through_sweepLocked {k : SweepFor}
    (hI : ∀ j < g.capacity, ∀ x, Sweeping procs (sweepLocked j procs m).1 j x → I x)
    (h : Through (alone g procs) (fun x => I x.1) P ((sweepLocked g.capacity procs m).1,
      a.sweepAt g k (sweepLocked g.capacity procs m).2 g.capacity)) :
    Through (alone g procs) (fun x => I x.1) P (m, a.sweepAt g k 0 0) :=
  through_sweepAt (Nat.zero_add _) hI h

theorem probeFrom_goto (pc : Pc) (done todo : List Row) :
    (a.goto pc).probeFrom done todo = a.probeFrom done todo := by
  induction todo generalizing done with
  | nil => rfl
  | cons r todo ih =>
    unfold Actor.probeFrom
    rw [ih]
    rfl

theorem finish_goto (pc : Pc) (o : Outcome) : (a.goto pc).finish o = a.finish o := by
  cases o with
  | probe rows => exact probeFrom_goto pc [] rows
  | keep | gain | drop => rfl

theorem through_unlock {o : Outcome} (hm : I m)
    (h : Through (alone g procs) (fun x => I x.1) P (boardUnlock m, a.finish o)) :
    Through (alone g procs) (fun x => I x.1) P (m, a.goto (.unlock o)) :=
  .step_eq (t := (boardUnlock m, a.finish o)) hm
    (fun _ => congrArg (fun x => some (boardUnlock m, x)) (finish_goto _ o)) h

/-- `notify_change` under the lock, and the unlock. -/
theorem through_notify {o : Outcome} (hm : I m) (hn : I (notifyChange m))
    (h : Through (alone g procs) (fun x => I x.1) P (boardUnlock (notifyChange m), a.finish o)) :
    Through (alone g procs) (fun x => I x.1) P (m, a.goto (.notifySeq true o)) := by
  refine .step_eq (t := (notifyChange m, a.goto (.notifyWaiters true o))) hm (fun _ => rfl) ?_
  by_cases hw : notifyChange m .waiters = 0
  · refine .step_eq (t := (notifyChange m, a.goto (.unlock o))) hn (fun _ => ?_) (through_unlock hn h)
    exact congrArg (fun x => some (notifyChange m, x)) (if_pos hw)
  · refine .step_eq (t := (notifyChange m, a.goto (.notifyWake true o))) hn (fun _ => ?_) ?_
    · exact congrArg (fun x => some (notifyChange m, x)) (if_neg hw)
    exact .step_eq (t := (notifyChange m, a.goto (.unlock o))) hn (fun _ => rfl) (through_unlock hn h)

variable (procs) in
/-- `sweep_stale` that has the lock; `I` holds of the words at each of its accesses. -/
theorem through_sweepStale
    (hI : ∀ j < g.capacity, ∀ x, Sweeping procs (sweepLocked j procs m).1 j x → I x)
    (hd : I (sweepLocked g.capacity procs m).1) (hn : I (notifyChange (sweepLocked g.capacity procs m).1))
    (h : P ((sweepStale g.capacity procs m).1, a.ret (.swept (sweepStale g.capacity procs m).2))) :
    Through (alone g procs) (fun x => I x.1) P (m, a.sweepAt g .ret 0 0) := by
  refine through_sweepLocked hI ?_
  unfold sweepStale at h
  dsimp only at h
  rw [Actor.sweepAt, if_neg (Nat.lt_irrefl _)]
  by_cases hc : 0 < (sweepLocked g.capacity procs m).2
  · rw [if_pos hc] at h ⊢
    exact through_notify hd hn (.here h)
  · rw [if_neg hc] at h ⊢
    exact through_unlock hd (.here h)

end Runs

end Kickmsg.Blackboard
