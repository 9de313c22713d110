import Kickmsg.Blackboard.Upkeep
import Mathlib.Data.Set.Card

/-!
# What repair and sweep leave

An entry is in order when it is `Settled`. A visit of a repair settles every entry whose state word is one
of the three the protocol has, and leaves a settled one alone; a visit of a sweep also frees an entry whose
owner is dead. A sweep that stops halfway leaves entries that the next repair and sweep finish.
-/

namespace Kickmsg.Blackboard

open Lib

variable {g : Geometry} {procs : Nat → Option Nat} {m m' x : Loc → Nat} {i n : Nat}

/-- Entry `i` is free and names nobody. -/
structure Cleared (m : Loc → Nat) (i : Nat) : Prop where
  state : m (.entry i .state) = free
  keyHash : m (.entry i .keyHash) = 0
  ownerPid : m (.entry i .ownerPid) = 0

/-- The words that housekeeping may change. -/
def Field.upkeep : Field → Bool
  | .state | .keyHash | .ownerPid | .ownerStarttime | .tenancy => true
  | _ => false

/-! ## One entry -/

section Entry

theorem Cleared.settled (h : Cleared m i) : Settled m i := .inl ⟨h.state, h.keyHash, h.ownerPid⟩

theorem cleared_publishFree : Cleared (publishFree m i) i where
  state := by simp [publishFree]
  keyHash := by simp [publishFree, clearIdentity]
  ownerPid := by simp [publishFree, clearIdentity]

theorem cleared_clearIdentity (h : m (.entry i .state) = free) : Cleared (clearIdentity m i) i where
  state := by simpa [clearIdentity] using h
  keyHash := by simp [clearIdentity]
  ownerPid := by simp [clearIdentity]

theorem normalizeEntry_of_settled (h : Settled m i) : normalizeEntry m i = (m, false) := by
  have hq : (normalizeEntry m i).2 = false := by
    rw [Bool.eq_false_iff, ne_eq, normalizeEntry_tells]
    rcases h with ⟨hs, hh, hp⟩ | ⟨hs, hh⟩
    · simp [hs, hh, hp, free, claiming, active]
    · simp [hs, hh, free, claiming, active]
  exact Prod.ext (normalizeEntry_quiet hq) hq

/-- An entry that a repair changes is free afterwards. -/
theorem cleared_normalize (h : (normalizeEntry m i).2 = true) : Cleared (normalizeEntry m i).1 i := by
  revert h
  unfold normalizeEntry
  split_ifs with h₁ h₂ h₃
  · exact fun _ => cleared_publishFree
  · exact fun _ => cleared_publishFree
  · exact fun _ => cleared_clearIdentity h₃.1
  · intro h
    cases h

/-- A repair leaves an entry in order exactly when its state word is one the protocol has. -/
theorem settled_normalize : Settled (normalizeEntry m i).1 i ↔ m (.entry i .state) ≤ active := by
  by_cases h : (normalizeEntry m i).2 = true
  · refine iff_of_true (cleared_normalize h).settled ?_
    rcases normalizeEntry_tells.mp h with hs | ⟨hs, -⟩ | ⟨hs, -⟩ <;> simp [hs, free, claiming, active]
  · rw [normalizeEntry_quiet (by simpa using h)]
    rw [normalizeEntry_tells] at h
    unfold Settled
    simp only [free, claiming, active] at h ⊢
    omega

/-- An entry that a sweep changes is free afterwards. -/
theorem cleared_sweepEntry (h : (sweepEntry procs m i).2 = true) : Cleared (sweepEntry procs m i).1 i := by
  revert h
  unfold sweepEntry
  split_ifs with h₁
  · exact cleared_normalize
  · intro h
    cases h
  · exact fun _ => cleared_publishFree
  · intro h
    cases h

theorem sweepEntry_quiet (h : (sweepEntry procs m i).2 = false) : (sweepEntry procs m i).1 = m := by
  revert h
  unfold sweepEntry
  split_ifs with h₁
  · simp [h₁]
  · simp
  · simp
  · simp

variable (procs) in
theorem sweepEntry_tells : (sweepEntry procs m i).2 = true ↔
    (normalizeEntry m i).2 = true ∨ deadOwned procs m i = true := by
  have h0 : m (.entry i .ownerPid) = 0 → deadOwned procs m i = false := by
    intro h
    simp [deadOwned, ownerIsDead, h]
  unfold sweepEntry
  split_ifs with h₁ h₂ h₃
  · simp [h₁]
  · simp [h₁, h0 h₂]
  · simp [h₃]
  · simp [h₁, h₃]

theorem clearIdentity_keeps {f : Field} (hf : f.upkeep = false) :
    clearIdentity m i (.entry i f) = m (.entry i f) := by
  unfold clearIdentity
  rw [Function.update_of_ne, Function.update_of_ne, Function.update_of_ne] <;>
    (intro h; cases h; cases hf)

theorem publishFree_keeps {f : Field} (hf : f.upkeep = false) :
    publishFree m i (.entry i f) = m (.entry i f) := by
  unfold publishFree
  rw [Function.update_of_ne, clearIdentity_keeps hf]
  intro h
  cases h
  cases hf

theorem normalizeEntry_keeps {f : Field} (hf : f.upkeep = false) :
    (normalizeEntry m i).1 (.entry i f) = m (.entry i f) := by
  unfold normalizeEntry
  split_ifs
  · exact publishFree_keeps hf
  · exact publishFree_keeps hf
  · exact clearIdentity_keeps hf
  · rfl

/-- Neither a repair nor a sweep touches the key and the write counter of an entry. -/
theorem sweepEntry_keeps {f : Field} (hf : f.upkeep = false) :
    (sweepEntry procs m i).1 (.entry i f) = m (.entry i f) := by
  unfold sweepEntry
  split_ifs
  · exact normalizeEntry_keeps hf
  · rfl
  · refine (publishFree_keeps hf).trans (Function.update_of_ne ?_ ..)
    intro h
    cases h
    cases hf
  · rfl

end Entry

/-! ## Recovery -/

section Recovery

/-- What is asked of recovery: after `repair_board`, and after `sweep_stale`, every entry is in order;
`repair_board` leaves those that were as they are, and has nothing to do a second time. -/
structure Recovers (n : Nat) (procs : Nat → Option Nat) (m : Loc → Nat) : Prop where
  repaired : ∀ i < n, Settled (repairBoard n m) i
  swept : ∀ i < n, Settled (sweepStale n procs m).1 i
  untouched : ∀ i < n, Settled m i → ∀ l, l.entryOf = some i → repairBoard n m l = m l
  again : repairBoard n (repairBoard n m) = repairBoard n m

theorem Settled.congr (h : Settled m i) (hst : m' (.entry i .state) = m (.entry i .state))
    (hh : m' (.entry i .keyHash) = m (.entry i .keyHash))
    (hp : m' (.entry i .ownerPid) = m (.entry i .ownerPid)) : Settled m' i := by
  unfold Settled
  rw [hst, hh, hp]
  exact h

theorem settled_repairBoard (hi : i < n) :
    Settled (repairBoard n m) i ↔ m (.entry i .state) ≤ active := by
  rw [← settled_normalize]
  constructor
  · exact fun h => h.congr (repairBoard_apply hi rfl).symm (repairBoard_apply hi rfl).symm
      (repairBoard_apply hi rfl).symm
  · exact fun h => h.congr (repairBoard_apply hi rfl) (repairBoard_apply hi rfl) (repairBoard_apply hi rfl)

theorem sweepStale_apply {l : Loc} (hi : i < n) (hl : l.entryOf = some i) :
    (sweepStale n procs m).1 l = (sweepEntry procs m i).1 l := by
  have hlock : l ≠ .lockToken := by
    rintro rfl
    cases hl
  have hseq : l ≠ .changeSeq := by
    rintro rfl
    cases hl
  unfold sweepStale boardUnlock notifyChange
  dsimp only
  rw [Function.update_of_ne hlock]
  split_ifs
  · rw [Function.update_of_ne hseq, sweepLocked_apply hi hl]
  · exact sweepLocked_apply hi hl

theorem settled_sweepStale (hi : i < n) : Settled (sweepStale n procs m).1 i ↔
    m (.entry i .state) ≤ active ∨ deadOwned procs m i = true := by
  have hcongr : Settled (sweepStale n procs m).1 i ↔ Settled (sweepEntry procs m i).1 i :=
    ⟨fun h => h.congr (sweepStale_apply hi rfl).symm (sweepStale_apply hi rfl).symm
      (sweepStale_apply hi rfl).symm, fun h => h.congr (sweepStale_apply hi rfl)
      (sweepStale_apply hi rfl) (sweepStale_apply hi rfl)⟩
  rw [hcongr]
  cases ht : (sweepEntry procs m i).2 with
  | true =>
    refine iff_of_true (cleared_sweepEntry ht).settled ?_
    rcases (sweepEntry_tells procs).mp ht with h | h
    · exact .inl (settled_normalize.mp (cleared_normalize h).settled)
    · exact .inr h
  | false =>
    rw [sweepEntry_quiet ht]
    rw [Bool.eq_false_iff, ne_eq, sweepEntry_tells, not_or] at ht
    have hm := settled_normalize (m := m) (i := i)
    rw [normalizeEntry_quiet (by simpa using ht.1)] at hm
    rw [hm]
    exact (or_iff_left ht.2).symm

theorem repairBoard_untouched (hi : i < n) (h : Settled m i) {l : Loc} (hl : l.entryOf = some i) :
    repairBoard n m l = m l := by
  rw [repairBoard_apply hi hl, normalizeEntry_of_settled h]

theorem normalizeEntry_again {l : Loc} :
    (normalizeEntry (normalizeEntry m i).1 i).1 l = (normalizeEntry m i).1 l := by
  cases h : (normalizeEntry m i).2 with
  | true => rw [normalizeEntry_of_settled (cleared_normalize h).settled]
  | false => rw [normalizeEntry_quiet h, normalizeEntry_quiet h]

theorem repairBoard_again : repairBoard n (repairBoard n m) = repairBoard n m := by
  funext l
  by_cases hl : ∃ i < n, l.entryOf = some i
  · obtain ⟨i, hi, hl⟩ := hl
    rw [repairBoard_apply hi hl, local_normalize.reads _ (normalizeEntry m i).1 i
      (fun _ hl' => repairBoard_apply hi hl') l hl, normalizeEntry_again, repairBoard_apply hi hl]
  · exact local_normalize.foldl_of_notMem fun i hi hl' => hl ⟨i, List.mem_range.mp hi, hl'⟩

/-- Both computations of the program are the functions above, and recovery does what is asked of it exactly
on the boards whose state words are those of the protocol: `normalize_entry` has no case for another. -/
theorem recovery_total_iff :
    (∀ a j, Ends (alone g procs) (· = (repairBoard g.capacity m, Actor.enter g a j))
      (m, Actor.repairAt g a j 0)) ∧
    (∀ a, Ends (alone g procs) (· = ((sweepStale g.capacity procs m).1,
      Actor.ret a (.swept (sweepStale g.capacity procs m).2))) (m, Actor.sweepAt g a .ret 0 0)) ∧
    (Recovers g.capacity procs m ↔ ∀ i < g.capacity, m (.entry i .state) ≤ active) := by
  refine ⟨fun a j => ends_repair (.here rfl), fun a => through_sweepStale procs (I := fun _ => True)
    (fun _ _ _ _ => trivial) trivial trivial rfl, fun h i hi => ?_, fun h => ?_⟩
  · exact (settled_repairBoard hi).mp (h.repaired i hi)
  · exact ⟨fun i hi => (settled_repairBoard hi).mpr (h i hi),
      fun i hi => (settled_sweepStale hi).mpr (.inl (h i hi)),
      fun i hi hs l hl => repairBoard_untouched hi hs hl, repairBoard_again⟩

/-- A board of one entry whose state word a peer has forged. -/
def forged : Loc → Nat := Function.update (fun _ => 0) (.entry 0 .state) 7

theorem forged_not_recovered : ¬ Recovers 1 (fun _ => none) forged := by
  intro h
  have hs := (settled_repairBoard Nat.zero_lt_one).mp (h.repaired 0 Nat.zero_lt_one)
  exact absurd hs (by decide)

end Recovery

/-! ## A whole sweep -/

section Sweep

/-- What is asked of `sweep_stale` on a board `m`, when it leaves `m'` and returns `k`. -/
structure Sweeps (n : Nat) (procs : Nat → Option Nat) (m m' : Loc → Nat) (k : Nat) : Prop where
  kept : ∀ i < n, Published m i → deadOwned procs m i = false → ∀ l, l.entryOf = some i → m' l = m l
  dead : ∀ i < n, Published m i → deadOwned procs m i = true → Cleared m' i ∧
    m' (.entry i .ownerStarttime) = 0 ∧ m' (.entry i .tenancy) = u64 (m (.entry i .tenancy) + 1)
  residue : ∀ i < n, m (.entry i .state) = claiming ∨
    (m (.entry i .state) = active ∧ m (.entry i .keyHash) = 0) → Cleared m' i ∧
    m' (.entry i .ownerStarttime) = 0
  cleared : ∀ i < n, m (.entry i .state) = free → Cleared m' i ∧
    (m (.entry i .keyHash) ≠ 0 ∨ m (.entry i .ownerPid) ≠ 0 → m' (.entry i .ownerStarttime) = 0)
  values : ∀ l, (∀ i f, l = .entry i f → f.upkeep = false) → l ≠ .changeSeq → l ≠ .lockToken →
    m' l = m l
  count : k = {i | i < n ∧ ∃ l, l.entryOf = some i ∧ m' l ≠ m l}.ncard
  notified : m' .changeSeq = m .changeSeq + if 0 < k then 1 else 0
  again : sweepStale n procs m' = (m', 0)

theorem sweepEntry_of_cleared (h : Cleared m i) : (sweepEntry procs m i).2 = false := by
  rw [Bool.eq_false_iff, ne_eq, sweepEntry_tells, normalizeEntry_of_settled h.settled]
  simp [deadOwned, ownerIsDead, h.ownerPid]

/-- A visit has nothing to do a second time. -/
theorem sweepEntry_again : (sweepEntry procs (sweepEntry procs m i).1 i).2 = false := by
  cases h : (sweepEntry procs m i).2 with
  | true => exact sweepEntry_of_cleared (cleared_sweepEntry h)
  | false => rwa [sweepEntry_quiet h]

/-- An entry that is counted has changed. -/
theorem sweepEntry_changes (h : (sweepEntry procs m i).2 = true) :
    ∃ f, (sweepEntry procs m i).1 (.entry i f) ≠ m (.entry i f) := by
  have hc := cleared_sweepEntry h
  rcases (sweepEntry_tells procs).mp h with hn | hd
  · rcases normalizeEntry_tells.mp hn with hs | ⟨hs, -⟩ | ⟨-, hh | hp⟩
    · exact ⟨.state, by rw [hc.state, hs]; decide⟩
    · exact ⟨.state, by rw [hc.state, hs]; decide⟩
    · exact ⟨.keyHash, by rw [hc.keyHash]; exact hh.symm⟩
    · exact ⟨.ownerPid, by rw [hc.ownerPid]; exact hp.symm⟩
  · refine ⟨.ownerPid, ?_⟩
    rw [hc.ownerPid]
    intro h0
    simp [deadOwned, ownerIsDead, ← h0] at hd

theorem sweepLocked_quiet (h : ∀ i < n, (sweepEntry procs m i).2 = false) :
    sweepLocked n procs m = (m, 0) := by
  rw [sweepLocked_eq, Prod.mk.injEq, List.countP_eq_zero]
  refine ⟨?_, fun i hi => by simp [h i (List.mem_range.mp hi)]⟩
  funext l
  by_cases hl : ∃ i < n, l.entryOf = some i
  · obtain ⟨i, hi, hl⟩ := hl
    rw [(local_sweep procs).foldl_of_mem List.nodup_range (List.mem_range.mpr hi) hl,
      sweepEntry_quiet (h i hi)]
  · exact (local_sweep procs).foldl_of_notMem fun i hi hl' => hl ⟨i, List.mem_range.mp hi, hl'⟩

/-- The words a sweep leaves beside the entries. -/
theorem sweepStale_frame {l : Loc} (hl : ∀ i < n, l.entryOf ≠ some i) (hseq : l ≠ .changeSeq)
    (hlock : l ≠ .lockToken) : (sweepStale n procs m).1 l = m l := by
  unfold sweepStale boardUnlock notifyChange
  dsimp only
  rw [Function.update_of_ne hlock]
  split_ifs
  · rw [Function.update_of_ne hseq, sweepLocked_frame hl]
  · exact sweepLocked_frame hl

theorem sweepEntry_cell {j c : Nat} {f : CellField} :
    (sweepEntry procs m i).1 (.cell j c f) = m (.cell j c f) := by
  unfold sweepEntry normalizeEntry publishFree clearIdentity bumpTenancy
  split_ifs <;> simp

/-- What the sweep of one entry does, by the state it finds. -/
theorem sweeps_sweepStale : Sweeps n procs m (sweepStale n procs m).1 (sweepStale n procs m).2 where
  kept i hi hpub hd l hl := by
    have hq : (sweepEntry procs m i).2 = false := by
      rw [Bool.eq_false_iff, ne_eq, sweepEntry_tells, normalizeEntry_of_settled (.inr hpub)]
      simp [hd]
    rw [sweepStale_apply hi hl, sweepEntry_quiet hq]
  dead i hi hpub hd := by
    have hq := normalizeEntry_of_settled (.inr hpub)
    have hp : m (.entry i .ownerPid) ≠ 0 := by
      intro h0
      simp [deadOwned, ownerIsDead, h0] at hd
    have he : (sweepEntry procs m i).1 = publishFree (bumpTenancy m i) i := by
      unfold sweepEntry
      rw [hq, if_neg (by simp), if_neg hp, if_pos hd]
    have hc := cleared_publishFree (m := bumpTenancy m i) (i := i)
    rw [← he] at hc
    refine ⟨⟨?_, ?_, ?_⟩, ?_, ?_⟩ <;> rw [sweepStale_apply hi rfl]
    · exact hc.state
    · exact hc.keyHash
    · exact hc.ownerPid
    · rw [he]
      simp [publishFree, clearIdentity]
    · rw [he]
      simp [publishFree, clearIdentity, bumpTenancy]
  residue i hi hres := by
    have he : (sweepEntry procs m i).1 = publishFree m i := by
      have hn : normalizeEntry m i = (publishFree m i, true) := by
        unfold normalizeEntry
        split_ifs with h₁ h₂ h₃
        · rfl
        · rfl
        · exact absurd hres (by tauto)
        · exact absurd hres (by tauto)
      rw [sweepEntry, hn, if_pos rfl]
    have hc := cleared_publishFree (m := m) (i := i)
    rw [← he] at hc
    refine ⟨⟨?_, ?_, ?_⟩, ?_⟩ <;> rw [sweepStale_apply hi rfl]
    · exact hc.state
    · exact hc.keyHash
    · exact hc.ownerPid
    · rw [he]
      simp [publishFree, clearIdentity]
  cleared i hi hst := by
    have hc : Cleared (sweepEntry procs m i).1 i := by
      cases ht : (sweepEntry procs m i).2 with
      | true => exact cleared_sweepEntry ht
      | false =>
        rw [sweepEntry_quiet ht]
        rw [Bool.eq_false_iff, ne_eq, sweepEntry_tells, normalizeEntry_tells] at ht
        exact ⟨hst, by tauto, by tauto⟩
    refine ⟨⟨?_, ?_, ?_⟩, fun hid => ?_⟩ <;> rw [sweepStale_apply hi rfl]
    · exact hc.state
    · exact hc.keyHash
    · exact hc.ownerPid
    · have hn : normalizeEntry m i = (clearIdentity m i, true) := by
        unfold normalizeEntry
        rw [if_neg (by rw [hst]; decide), if_neg (by rw [hst]; simp [free, active]), if_pos ⟨hst, hid⟩]
      rw [sweepEntry, hn, if_pos rfl]
      simp [clearIdentity]
  values l hl hseq hlock := by
    by_cases hi : ∃ i < n, l.entryOf = some i
    · obtain ⟨i, hi, hli⟩ := hi
      rw [sweepStale_apply hi hli]
      cases l with
      | entry j f =>
        obtain rfl := Option.some.inj hli
        exact sweepEntry_keeps (hl j f rfl)
      | cell j c f => exact sweepEntry_cell
      | _ => cases hli
    · exact sweepStale_frame (fun i hi' hl' => hi ⟨i, hi', hl'⟩) hseq hlock
  count := by
    have hset : {i | i < n ∧ ∃ l, l.entryOf = some i ∧ (sweepStale n procs m).1 l ≠ m l} =
        (((List.range n).filter fun i => (sweepEntry procs m i).2).toFinset : Set Nat) := by
      ext i
      simp only [Set.mem_ofPred_eq, List.coe_toFinset, List.mem_filter, List.mem_range]
      refine and_congr_right fun hi => ⟨fun hex => ?_, fun ht => ?_⟩
      · obtain ⟨l, hl, hne⟩ := hex
        by_contra hq
        rw [sweepStale_apply hi hl, sweepEntry_quiet (by simpa using hq)] at hne
        exact hne rfl
      · obtain ⟨f, hf⟩ := sweepEntry_changes ht
        exact ⟨.entry i f, rfl, by rwa [sweepStale_apply hi rfl]⟩
    rw [hset, Set.ncard_coe_finset, List.toFinset_card_of_nodup (List.nodup_range.filter _),
      ← List.countP_eq_length_filter]
    exact congrArg Prod.snd sweepLocked_eq
  notified := by
    unfold sweepStale boardUnlock notifyChange
    dsimp only
    rw [Function.update_of_ne (by decide)]
    split_ifs
    · rw [Function.update_self, sweepLocked_frame (by simp [Loc.entryOf])]
    · rw [sweepLocked_frame (by simp [Loc.entryOf])]
      rfl
  again := by
    have hq : sweepLocked n procs (sweepStale n procs m).1 = ((sweepStale n procs m).1, 0) := by
      refine sweepLocked_quiet fun i hi => ?_
      rw [(local_sweep procs).hears _ (sweepEntry procs m i).1 i fun l hl => sweepStale_apply hi hl]
      exact sweepEntry_again
    have h0 : (sweepStale n procs m).1 .lockToken = 0 := by
      simp [sweepStale, boardUnlock]
    rw [sweepStale, hq]
    exact Prod.ext (Function.update_eq_self_iff.mpr h0.symm) rfl

/-! ## A sweep that stops halfway -/

/-- Entry `i` of `x` is as a sweep of `m` that stopped somewhere has left it: as it was where the sweep
has nothing to do, and else in a state that a repair or a sweep frees. -/
structure Halfway (procs : Nat → Option Nat) (m x : Loc → Nat) (i : Nat) : Prop where
  keys : ∀ w, x (.entry i (.key w)) = m (.entry i (.key w))
  spared : (sweepEntry procs m i).2 = false → ∀ l, l.entryOf = some i → x l = m l
  doomed : (sweepEntry procs m i).2 = true → x (.entry i .state) = free ∨
    x (.entry i .state) = claiming ∨ (x (.entry i .state) = active ∧ x (.entry i .keyHash) = 0) ∨
    (x (.entry i .state) = active ∧ x (.entry i .ownerPid) = m (.entry i .ownerPid) ∧
      x (.entry i .ownerStarttime) = m (.entry i .ownerStarttime) ∧ deadOwned procs m i = true)

theorem Halfway.congr {x' : Loc → Nat} (h : Halfway procs m x i)
    (hm : ∀ l, l.entryOf = some i → m' l = m l) (hx : ∀ l, l.entryOf = some i → x' l = x l) :
    Halfway procs m' x' i := by
  have hd : deadOwned procs m' i = deadOwned procs m i := by
    rw [deadOwned, hm _ rfl, hm _ rfl, ← deadOwned]
  constructor
  · intro w
    rw [hx _ rfl, hm _ rfl, h.keys]
  · intro ht l hl
    rw [hx l hl, hm l hl]
    exact h.spared (by rwa [← (local_sweep procs).hears m' m i hm]) l hl
  · intro ht
    rw [hx _ rfl, hx _ rfl, hx _ rfl, hx _ rfl, hm _ rfl, hm _ rfl, hd]
    exact h.doomed (by rwa [← (local_sweep procs).hears m' m i hm])

/-- An entry that the sweep has not come to. -/
theorem halfway_refl (hst : m (.entry i .state) ≤ active) : Halfway procs m m i where
  keys _ := rfl
  spared _ _ _ := rfl
  doomed ht := by
    rcases (sweepEntry_tells procs).mp ht with hn | hd
    · rcases normalizeEntry_tells.mp hn with hs | hs | ⟨hs, -⟩
      · exact .inr (.inl hs)
      · exact .inr (.inr (.inl hs))
      · exact .inl hs
    · have hs : m (.entry i .state) = free ∨ m (.entry i .state) = claiming ∨
          m (.entry i .state) = active := by
        simp only [free, claiming, active] at hst ⊢
        omega
      rcases hs with hs | hs | hs
      · exact .inl hs
      · exact .inr (.inl hs)
      · exact .inr (.inr (.inr ⟨hs, rfl, rfl, hd⟩))

/-- An entry that the sweep has done. -/
theorem halfway_done : Halfway procs m (sweepEntry procs m i).1 i where
  keys _ := sweepEntry_keeps rfl
  spared ht _ _ := by rw [sweepEntry_quiet ht]
  doomed ht := .inl (cleared_sweepEntry ht).state

/-- Clearing an identity word by word leaves a state that a repair or a sweep frees. -/
theorem wiping_cases (hx : x ∈ wiping m i) : x = m ∨
    (x (.entry i .keyHash) = 0 ∧ ∀ f, f ≠ .keyHash → f ≠ .ownerPid → f ≠ .ownerStarttime →
      x (.entry i f) = m (.entry i f)) := by
  simp only [wiping, List.mem_cons, List.not_mem_nil, or_false] at hx
  rcases hx with rfl | rfl | rfl | rfl
  · exact .inl rfl
  all_goals
    refine .inr ⟨by simp [clearIdentity], fun f h₁ h₂ h₃ => ?_⟩
    simp [clearIdentity, h₁, h₂, h₃]

theorem wiping_frame (hx : x ∈ wiping m i) {l : Loc} (hl : l.entryOf ≠ some i) : x l = m l := by
  simp only [wiping, List.mem_cons, List.not_mem_nil, or_false] at hx
  rcases hx with rfl | rfl | rfl | rfl
  · rfl
  · exact Function.update_of_ne (entryOf_ne hl) ..
  · rw [Function.update_of_ne (entryOf_ne hl), Function.update_of_ne (entryOf_ne hl)]
  · exact clearIdentity_frame hl

theorem Sweeping.frame (hx : Sweeping procs m i x) {l : Loc} (hl : l.entryOf ≠ some i) : x l = m l := by
  cases hx with
  | before => rfl
  | normalize _ hx => exact wiping_frame hx hl
  | sweep _ _ hx => rw [wiping_frame hx hl, bumpTenancy, Function.update_of_ne (entryOf_ne hl)]

/-- An entry that the sweep stops at. -/
theorem Sweeping.halfway (hst : m (.entry i .state) ≤ active) (hx : Sweeping procs m i x) :
    Halfway procs m x i := by
  cases hx with
  | before => exact halfway_refl hst
  | normalize hn hx =>
    have ht := (sweepEntry_tells procs).mpr (.inl hn)
    rcases wiping_cases hx with rfl | ⟨hh, hx⟩
    · exact halfway_refl hst
    · refine ⟨fun w => hx _ (by simp) (by simp) (by simp), fun hq => ?_, fun _ => ?_⟩
      · rw [ht] at hq
        cases hq
      · rw [hx .state (by simp) (by simp) (by simp)]
        simp only [free, claiming, active] at hst ⊢
        omega
  | sweep hn hd hx =>
    have ht := (sweepEntry_tells procs).mpr (.inr hd)
    have hup : ∀ f, f ≠ .tenancy → bumpTenancy m i (.entry i f) = m (.entry i f) := by
      intro f hf
      exact Function.update_of_ne (by simpa using hf) ..
    refine ⟨fun w => ?_, fun hq => ?_, fun _ => ?_⟩
    · rcases wiping_cases hx with rfl | ⟨-, hx⟩
      · exact hup _ (by simp)
      · rw [hx _ (by simp) (by simp) (by simp), hup _ (by simp)]
    · rw [ht] at hq
      cases hq
    · rcases wiping_cases hx with rfl | ⟨hh, hx⟩
      · rw [hup _ (by simp), hup _ (by simp), hup _ (by simp), hup _ (by simp)]
        exact (halfway_refl hst).doomed ht
      · rw [hx .state (by simp) (by simp) (by simp), hup _ (by simp)]
        simp only [free, claiming, active] at hst ⊢
        omega

/-- Every entry of a sweep that has stopped somewhere is one it has done, the one it is at, or one it has
not come to. -/
theorem halfway_sweepLocked {j : Nat} (hst : ∀ i < n, m (.entry i .state) ≤ active) (hj : j < n)
    (hx : Sweeping procs (sweepLocked j procs m).1 j x) : ∀ i < n, Halfway procs m x i := by
  have hrest : ∀ i, j ≤ i → ∀ l, l.entryOf = some i → (sweepLocked j procs m).1 l = m l :=
    fun i hi l hl => sweepLocked_frame fun k hk hk' => by
      rw [hl, Option.some.injEq] at hk'
      omega
  intro i hi
  rcases lt_trichotomy i j with hij | rfl | hij
  · refine halfway_done.congr (fun _ _ => rfl) fun l hl => ?_
    rw [hx.frame (by rw [hl]; simp; omega), sweepLocked_apply hij hl]
  · have hj := hx.halfway (by rw [hrest i le_rfl _ rfl]; exact hst i hi)
    exact hj.congr (fun l hl => (hrest i le_rfl l hl).symm) fun _ _ => rfl
  · refine (halfway_refl (hst i hi)).congr (fun _ _ => rfl) fun l hl => ?_
    rw [hx.frame (by rw [hl]; simp; omega), hrest i hij.le l hl]

/-- The states and the keys of two boards are the same. -/
def SameKeys (n : Nat) (m m' : Loc → Nat) : Prop :=
  ∀ i < n, m (.entry i .state) = m' (.entry i .state) ∧
    m (.entry i .keyHash) = m' (.entry i .keyHash) ∧
    ∀ w, m (.entry i (.key w)) = m' (.entry i (.key w))

/-- Of an owner that has run and left its start time, a verdict of death is final. -/
theorem deadOwned_le {w w' : World} (hw' : w'.Sound) (hle : w.Le w')
    (hk : w.Known (m (.entry i .ownerPid), m (.entry i .ownerStarttime)))
    (hst : m (.entry i .ownerStarttime) ≠ 0) (hd : deadOwned w.procs m i = true) :
    deadOwned w'.procs m i = true := by
  have hgone : (m (.entry i .ownerPid), m (.entry i .ownerStarttime)) ∈ w.gone := by
    refine hk.gone (Bool.eq_false_iff.mpr fun ha => ?_)
    simp only [World.alive, decide_eq_true_eq] at ha
    simp [deadOwned, ownerIsDead, ha, hst] at hd
  have hpid : m (.entry i .ownerPid) ≠ 0 := by
    intro h0
    simp [deadOwned, ownerIsDead, h0] at hd
  have hdown := hw'.gone _ (hle.gone _ hgone)
  simp only [World.alive, decide_eq_false_iff_not] at hdown
  rw [deadOwned, ownerIsDead, if_neg hpid]
  split
  · rfl
  · rename_i st hp
    have h0 := (hw'.nonzero (m (.entry i .ownerPid), st) (decide_eq_true hp)).2
    rw [if_neg (by simp [hst, h0])]
    simpa using fun he : m (.entry i .ownerStarttime) = st => hdown (by rw [he]; exact hp)

/-- A repair and a sweep finish what the first sweep began, where none of the dead has come back. -/
theorem Halfway.finish {procs' : Nat → Option Nat} (h : ∀ i < n, Halfway procs m x i)
    (hd : ∀ i < n, deadOwned procs m i = true → deadOwned procs' m i = true) :
    SameKeys n (sweepStale n procs' (repairBoard n x)).1 (sweepStale n procs' m).1 := by
  intro i hi
  have hrep : ∀ l, l.entryOf = some i → (sweepStale n procs' (repairBoard n x)).1 l =
      (sweepEntry procs' (normalizeEntry x i).1 i).1 l := fun l hl => by
    rw [sweepStale_apply hi hl]
    exact (local_sweep procs').reads _ _ i (fun l' hl' => repairBoard_apply hi hl') l hl
  rw [hrep _ rfl, hrep _ rfl, sweepStale_apply hi rfl, sweepStale_apply hi rfl]
  have hkeys : ∀ w, (sweepStale n procs' (repairBoard n x)).1 (.entry i (.key w)) =
      (sweepStale n procs' m).1 (.entry i (.key w)) := by
    intro w
    rw [hrep _ rfl, sweepStale_apply hi rfl, sweepEntry_keeps rfl, sweepEntry_keeps rfl,
      normalizeEntry_keeps rfl, (h i hi).keys]
  suffices hcore : (sweepEntry procs' (normalizeEntry x i).1 i).1 (.entry i .state) =
      (sweepEntry procs' m i).1 (.entry i .state) ∧
      (sweepEntry procs' (normalizeEntry x i).1 i).1 (.entry i .keyHash) =
      (sweepEntry procs' m i).1 (.entry i .keyHash) from ⟨hcore.1, hcore.2, hkeys⟩
  cases ht : (sweepEntry procs m i).2 with
  | false =>
    have hx := (h i hi).spared ht
    have hnx : (normalizeEntry x i).2 = (normalizeEntry m i).2 := local_normalize.hears x m i hx
    rw [Bool.eq_false_iff, ne_eq, sweepEntry_tells, ← hnx, not_or, Bool.not_eq_true] at ht
    rw [normalizeEntry_quiet ht.1]
    exact ⟨(local_sweep procs').reads _ _ i hx _ rfl, (local_sweep procs').reads _ _ i hx _ rfl⟩
  | true =>
    have hc : Cleared (sweepEntry procs' (normalizeEntry x i).1 i).1 i := by
      cases hn : (normalizeEntry x i).2 with
      | true =>
        have hc := cleared_normalize hn
        rwa [sweepEntry_quiet (sweepEntry_of_cleared hc)]
      | false =>
        rw [normalizeEntry_quiet hn]
        rw [Bool.eq_false_iff, ne_eq, normalizeEntry_tells] at hn
        rcases (h i hi).doomed ht with hs | hs | hs | ⟨hs, hp, hst, hdead⟩
        · have hc : Cleared x i := ⟨hs, by tauto, by tauto⟩
          rwa [sweepEntry_quiet (sweepEntry_of_cleared hc)]
        · exact absurd (.inl hs) hn
        · exact absurd (.inr (.inl hs)) hn
        · refine cleared_sweepEntry ((sweepEntry_tells procs').mpr (.inr ?_))
          rw [deadOwned, hp, hst, ← deadOwned]
          exact hd i hi hdead
    have hc' := cleared_sweepEntry ((sweepEntry_tells procs').mpr
      (((sweepEntry_tells procs).mp ht).imp_right (hd i hi)))
    exact ⟨hc.state.trans hc'.state.symm, hc.keyHash.trans hc'.keyHash.symm⟩

/-- The protocol stores no other state word. -/
theorem Actor.stores_state {b : Actor} {o : Access Loc Query} (hreq : b.request = some o)
    (ht : o.target = some (.entry i .state)) : ∃ v ≤ active, o = .store (.entry i .state) v := by
  unfold Actor.request at hreq
  cases hpc : b.pc <;> rw [hpc] at hreq <;> simp only [Option.some.injEq, reduceCtorEq] at hreq <;>
    subst hreq <;> simp only [Access.target, Option.some.injEq, Loc.entry.injEq, reduceCtorEq,
      and_false, and_true] at ht <;> subst ht
  · exact ⟨free, by decide, rfl⟩
  · exact ⟨claiming, by decide, rfl⟩
  · exact ⟨active, by decide, rfl⟩

/-- In every run of a board, whatever dies and steals, the state words are those of the protocol. -/
theorem state_reach {ι : Type} [DecidableEq ι] {proc : ι → Nat × Nat}
    {s : Shared ι Loc Actor (Trace ι)}
    (h : ((program ι g).machine proc (Init proc)).Reach LTS.any s) : s.mem (.entry i .state) ≤ active := by
  refine (Program.invariant (I := fun s : Shared ι Loc Actor (Trace ι) => s.mem (.entry i .state) ≤ active)
    (fun s h0 => ⟨by rw [h0.mem]; decide, h0.world⟩) (fun s t now o hI _ _ hreq _ => ?_)
    (fun _ _ _ _ hI _ _ _ => hI) (fun _ _ hI _ _ _ => hI) h).1
  by_cases ht : o.target = some (.entry i .state)
  · obtain ⟨v, hv, rfl⟩ := Actor.stores_state hreq ht
    simpa [Program.ran, Access.exec] using hv
  · exact (Access.exec_frame ht).trans_le hI

/-- A sweep that holds the lock, on a board whose state words are those of the protocol: it comes to its
end and does what is asked of it. Where its process dies before one of its accesses, the recovery of the
next holder and a sweep leave the same free and active entries, with the same keys, as a sweep that runs
through at the time of the second one: by then more owners may be dead, the first sweeper among them, and
none of the dead has come back. -/
theorem sweep_frees_the_dead (hst : ∀ i < g.capacity, m (.entry i .state) ≤ active) (a : Actor) :
    Ends (alone g procs) (· = ((sweepStale g.capacity procs m).1,
      a.ret (.swept (sweepStale g.capacity procs m).2))) (m, a.sweepAt g .ret 0 0) ∧
    Sweeps g.capacity procs m (sweepStale g.capacity procs m).1 (sweepStale g.capacity procs m).2 ∧
    ∀ es x, solo (alone g procs) (m, a.sweepAt g .ret 0 0) es = some x → ∀ procs' (b : Actor),
      (∀ i < g.capacity, deadOwned procs m i = true → deadOwned procs' m i = true) →
      Ends (alone g procs') (fun y => y.2.pc = .idle ∧
        SameKeys g.capacity y.1 (sweepStale g.capacity procs' m).1) (x.1, b.repairAt g .sweep 0) := by
  have hhalf : ∀ j < g.capacity, ∀ x, Sweeping procs (sweepLocked j procs m).1 j x →
      ∀ i < g.capacity, Halfway procs m x i := fun j hj x hx => halfway_sweepLocked hst hj hx
  have hdone : ∀ i < g.capacity, Halfway procs m (sweepLocked g.capacity procs m).1 i :=
    fun i hi => halfway_done.congr (fun _ _ => rfl) fun l hl => sweepLocked_apply hi hl
  have hafter : ∀ x, (∀ l, l ≠ .changeSeq → l ≠ .lockToken → x l = (sweepLocked g.capacity procs m).1 l) →
      ∀ i < g.capacity, Halfway procs m x i := fun x hx i hi => (hdone i hi).congr (fun _ _ => rfl)
    fun l hl => hx l (by rintro rfl; cases hl) (by rintro rfl; cases hl)
  have hrun := through_sweepStale procs (g := g) (m := m) (a := a)
    (I := fun x => ∀ i < g.capacity, Halfway procs m x i)
    (P := (· = ((sweepStale g.capacity procs m).1, a.ret (.swept (sweepStale g.capacity procs m).2))))
    hhalf hdone (hafter _ fun l hl _ => Function.update_of_ne hl ..) rfl
  refine ⟨through_sweepStale procs (I := fun _ => True) (fun _ _ _ _ => trivial) trivial trivial rfl,
    sweeps_sweepStale, fun es x hx procs' b hd => ?_⟩
  have hx := hrun.along (fun y hy => ?_) hx
  · refine ends_repair (j := .sweep) ?_
    exact through_sweepStale procs' (I := fun _ => True) (fun _ _ _ _ => trivial) trivial trivial
      ⟨rfl, Halfway.finish hx hd⟩
  · subst hy
    refine ⟨fun i hi => (hdone i hi).congr (fun _ _ => rfl) fun l hl => ?_, fun _ => rfl⟩
    rw [sweepStale_apply hi hl, sweepLocked_apply hi hl]

/-- Two active entries: the owner of the first is gone, the sweeper owns the second. -/
def orphaned : Loc → Nat
  | .entry i .state => if i < 2 then active else free
  | .entry i .keyHash => if i < 2 then 5 + i else 0
  | .entry 0 .ownerPid | .entry 0 .ownerStarttime => 7
  | .entry 1 .ownerPid => 9
  | .entry 1 .ownerStarttime => 3
  | _ => 0

def twoEntries : Geometry := ⟨2, 16, small.value_le⟩

/-- The sweeper runs, and the first owner does not any more. -/
def sweeping : World := ⟨fun pid => if pid = 9 then some 3 else none, [(7, 7)]⟩

/-- The sweeper has exited too. -/
def deserted : World := ⟨Function.update sweeping.procs 9 none, [(9, 3), (7, 7)]⟩

theorem sound_sweeping : sweeping.Sound := by
  refine ⟨by decide, fun p hp => ?_⟩
  simp only [World.alive, sweeping, decide_eq_true_eq, Option.ite_none_right_eq_some,
    Option.some.injEq] at hp
  omega

theorem deserted_exit : sweeping.exit 9 = some deserted := rfl

/-- The sweeper dies when it has cleared the key hash and the owner of the first entry. -/
theorem sweep_frees_the_dead_orphaned :
    Sweeps 2 sweeping.procs orphaned (sweepStale 2 sweeping.procs orphaned).1 1 ∧
    ∃ x, solo (alone twoEntries sweeping.procs)
        (orphaned, (⟨9, 3, none, none, .pending, .idle⟩ : Actor).sweepAt twoEntries .ret 0 0)
        (List.replicate 8 0) = some x ∧
      (x.1 (.entry 0 .state) = active ∧ x.1 (.entry 0 .ownerPid) = 0) ∧
      (sweepStale 2 deserted.procs orphaned).1 (.entry 1 .state) = free ∧
      Ends (alone twoEntries deserted.procs) (fun y => y.2.pc = .idle ∧
        SameKeys 2 y.1 (sweepStale 2 deserted.procs orphaned).1)
        (x.1, (⟨5, 1, none, none, .pending, .idle⟩ : Actor).repairAt twoEntries .sweep 0) := by
  have hall := @sweep_frees_the_dead twoEntries sweeping.procs orphaned (by decide)
    ⟨9, 3, none, none, .pending, .idle⟩
  refine ⟨hall.2.1, ?_⟩
  obtain ⟨x, hx, hP⟩ := (Option.any_eq_true
    (fun x : (Loc → Nat) × Actor => decide (x.1 (.entry 0 .state) = active ∧ x.1 (.entry 0 .ownerPid) = 0))
    (solo (alone twoEntries sweeping.procs)
      (orphaned, (⟨9, 3, none, none, .pending, .idle⟩ : Actor).sweepAt twoEntries .ret 0 0)
      (List.replicate 8 0))).mp (by decide +kernel)
  refine ⟨x, hx, of_decide_eq_true hP, by decide, hall.2.2 _ x hx _ _ fun i hi hd => ?_⟩
  refine deadOwned_le (sound_sweeping.exit deserted_exit) (World.exit_le deserted_exit) ?_ ?_ hd
  · have hk : ∀ i < 2,
        sweeping.alive (orphaned (.entry i .ownerPid), orphaned (.entry i .ownerStarttime)) = true ∨
        (orphaned (.entry i .ownerPid), orphaned (.entry i .ownerStarttime)) ∈ sweeping.gone := by decide
    exact hk i hi
  · have hst : ∀ i < 2, orphaned (.entry i .ownerStarttime) ≠ 0 := by decide
    exact hst i hi

end Sweep

end Kickmsg.Blackboard
