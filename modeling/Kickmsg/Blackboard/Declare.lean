import Kickmsg.Blackboard.Sweep

/-!
# One declare

`declare` with the board lock held, on a board in order: the scan for the key, the take-over, the claim of
the first free entry, the sweep and the second try, and the two errors. The scan stops at the entry of the
key, if there is one, because an active entry carries the fingerprint of the key it stores.
-/

namespace Kickmsg.Blackboard

open Lib

variable {g : Geometry} {procs : Nat → Option Nat} {m m' : Loc → Nat} {a : Actor} {i n : Nat}
  {key : List UInt8} {P : (Loc → Nat) × Actor → Prop}

/-- A board in order: every entry is free and names nobody, or is active under the key it stores, and no
key is there twice. -/
structure Board (n : Nat) (m : Loc → Nat) : Prop where
  entries : ∀ i < n, Cleared m i ∨
    (Published m i ∧ m (.entry i .keyHash) = keyFingerprint (keyOf m i))
  unique : ∀ i < n, ∀ j < n, m (.entry i .state) = active → m (.entry j .state) = active →
    keyOf m i = keyOf m j → i = j

/-- Entry `i` is active and holds `key`. -/
def Holds (m : Loc → Nat) (key : List UInt8) (i : Nat) : Prop :=
  m (.entry i .state) = active ∧ keyOf m i = key

/-- `entry_takeable` of the owner of entry `i`. -/
def entryTakeable (procs : Nat → Option Nat) (m : Loc → Nat) (i : Nat) : Bool :=
  decide (m (.entry i .ownerPid) = 0) || deadOwned procs m i

/-- The stores of the owner of entry `i`, the start time first. -/
def storeOwner (m : Loc → Nat) (a : Actor) (i : Nat) : Loc → Nat :=
  Function.update (Function.update m (.entry i .ownerStarttime) a.starttime) (.entry i .ownerPid) a.pid

/-- The take-over of entry `i`. -/
def takeEntry (m : Loc → Nat) (a : Actor) (i : Nat) : Loc → Nat := bumpTenancy (storeOwner m a i) i

/-- `bb_store_key`. -/
def storeKey (m : Loc → Nat) (key : List UInt8) (i : Nat) : Loc → Nat :=
  (List.range keyWords).foldl (fun m w => Function.update m (.entry i (.key w)) (bbStoreKey key w)) m

/-- `claim_free_slot` on entry `i`, when the clock shows `now`. -/
def claimEntry (m : Loc → Nat) (a : Actor) (key : List UInt8) (i now : Nat) : Loc → Nat :=
  let m := Function.update (Function.update m (.entry i .state) claiming) (.entry i .publish) 0
  let m := Function.update (storeKey m key i) (.entry i .declaredAtNs) (u64 now)
  let m := Function.update (storeOwner m a i) (.entry i .keyHash) (keyFingerprint key)
  Function.update (bumpTenancy m i) (.entry i .state) active

/-- What the scan of `declare` compares. -/
def Match (m : Loc → Nat) (key : List UInt8) (i : Nat) : Prop :=
  m (.entry i .state) = active ∧ m (.entry i .keyHash) = keyFingerprint key ∧ keyOf m i = key

theorem Board.match_iff (hb : Board n m) (hi : i < n) : Match m key i ↔ Holds m key i := by
  refine ⟨fun h => ⟨h.1, h.2.2⟩, fun h => ⟨h.1, ?_, h.2⟩⟩
  rcases hb.entries i hi with hc | ⟨-, hh⟩
  · exact absurd (hc.state.symm.trans h.1) (by decide)
  · rw [hh, h.2]

/-! ## The program computes them -/

section Runs

theorem ends_scanKey {v : Nat → Nat} {w d : Nat} (hd : w + 1 + d = keyWords)
    (hv : ∀ k < w, v k = m (.entry i (.key k)))
    (h : Ends (alone g procs) P
      (m, if keyOf m i = key then a.goto (.scanPid key i) else a.scanAt g key (i + 1))) :
    Ends (alone g procs) P (m, a.goto (.scanKey key i v w)) := by
  induction d generalizing v w with
  | zero =>
    have hkey : bbLoadKey (Function.update v w (m (.entry i (.key w)))) = keyOf m i := by
      refine bbLoadKey_congr fun k hk => ?_
      rcases Nat.lt_or_eq_of_le (show k ≤ w by omega) with hlt | rfl
      · rw [Function.update_of_ne hlt.ne, hv k hlt]
      · rw [Function.update_self]
    rw [← hkey] at h
    refine .step_eq trivial (fun _ => ?_) h
    exact congrArg (fun x => some (m, x)) (if_neg (by omega))
  | succ d ih =>
    refine .step_eq (t := (m, a.goto (.scanKey key i
      (Function.update v w (m (.entry i (.key w)))) (w + 1)))) trivial (fun _ => ?_) ?_
    · exact congrArg (fun x => some (m, x)) (if_pos (by omega))
    · refine ih (by omega) fun k hk => ?_
      rcases Nat.lt_or_eq_of_le (show k ≤ w by omega) with hlt | rfl
      · rw [Function.update_of_ne hlt.ne, hv k hlt]
      · rw [Function.update_self]

/-- The scan of one entry. -/
theorem ends_scanEntry (hi : i < g.capacity)
    (hyes : Match m key i → Ends (alone g procs) P (m, a.goto (.scanPid key i)))
    (hno : ¬Match m key i → Ends (alone g procs) P (m, a.scanAt g key (i + 1))) :
    Ends (alone g procs) P (m, a.scanAt g key i) := by
  have hloop : a.scanAt g key i = a.goto (.scanState key i) := if_pos hi
  rw [hloop]
  by_cases hs : m (.entry i .state) = active
  · refine .step_eq (t := (m, a.goto (.scanHash key i))) trivial (fun _ => ?_) ?_
    · exact congrArg (fun x => some (m, x)) (if_pos hs)
    by_cases hh : m (.entry i .keyHash) = keyFingerprint key
    · refine .step_eq (t := (m, a.goto (.scanKey key i (fun _ => 0) 0))) trivial (fun _ => ?_) ?_
      · exact congrArg (fun x => some (m, x)) (if_pos hh)
      refine ends_scanKey (d := 15) rfl (fun _ hk => absurd hk (Nat.not_lt_zero _)) ?_
      split_ifs with hk
      · exact hyes ⟨hs, hh, hk⟩
      · exact hno fun hm => hk hm.2.2
    · refine .step_eq (t := (m, a.scanAt g key (i + 1))) trivial (fun _ => ?_) (hno fun hm => hh hm.2.1)
      exact congrArg (fun x => some (m, x)) (if_neg hh)
  · refine .step_eq (t := (m, a.scanAt g key (i + 1))) trivial (fun _ => ?_) (hno fun hm => hs hm.1)
    exact congrArg (fun x => some (m, x)) (if_neg hs)

/-- The scan passes the entries without the key. -/
theorem ends_scanAt {k d : Nat} (hd : i + d = k) (hk : k ≤ g.capacity)
    (hno : ∀ j, i ≤ j → j < k → ¬Match m key j)
    (h : Ends (alone g procs) P (m, a.scanAt g key k)) : Ends (alone g procs) P (m, a.scanAt g key i) := by
  induction d generalizing i with
  | zero =>
    obtain rfl : i = k := hd
    exact h
  | succ d ih =>
    refine ends_scanEntry (by omega) (fun hm => absurd hm (hno i le_rfl (by omega))) fun _ => ?_
    exact ih (by omega) fun j hj => hno j (by omega)

theorem Actor.claimAt_of_lt {swept : Bool} (hi : i < g.capacity) :
    a.claimAt g key swept i = a.goto (.claimState key swept i) := by
  cases swept <;> exact if_pos hi

/-- The claim passes the entries that are not free. -/
theorem ends_claimAt {swept : Bool} {k d : Nat} (hd : i + d = k) (hk : k ≤ g.capacity)
    (hno : ∀ j, i ≤ j → j < k → m (.entry j .state) ≠ free)
    (h : Ends (alone g procs) P (m, a.claimAt g key swept k)) :
    Ends (alone g procs) P (m, a.claimAt g key swept i) := by
  induction d generalizing i with
  | zero =>
    obtain rfl : i = k := hd
    exact h
  | succ d ih =>
    rw [Actor.claimAt_of_lt (by omega)]
    refine .step_eq (t := (m, a.claimAt g key swept (i + 1))) trivial (fun _ => ?_)
      (ih (by omega) fun j hj => hno j (by omega))
    exact congrArg (fun x => some (m, x)) (if_neg (hno i le_rfl (by omega)))

theorem ends_claimKey {w d : Nat} (hd : w + 1 + d = keyWords)
    (h : Ends (alone g procs) P ((List.range' w (d + 1)).foldl
      (fun m w => Function.update m (.entry i (.key w)) (bbStoreKey key w)) m, a.goto (.claimClock key i))) :
    Ends (alone g procs) P (m, a.goto (.claimKey key i w)) := by
  induction d generalizing m w with
  | zero =>
    refine .step_eq trivial (fun _ => ?_) h
    exact congrArg (fun x => some (_, x)) (if_neg (by omega))
  | succ d ih =>
    refine .step_eq (t := (Function.update m (.entry i (.key w)) (bbStoreKey key w),
      a.goto (.claimKey key i (w + 1)))) trivial (fun _ => ?_) (ih (by omega) h)
    exact congrArg (fun x => some (_, x)) (if_pos (by omega))

theorem ends_storeKey (h : Ends (alone g procs) P (storeKey m key i, a.goto (.claimClock key i))) :
    Ends (alone g procs) P (m, a.goto (.claimKey key i 0)) := by
  refine ends_claimKey (d := 15) rfl ?_
  rwa [storeKey, List.range_eq_range'] at h

theorem storeKey_of_ne {l : Loc} (hl : ∀ w, l ≠ .entry i (.key w)) : storeKey m key i l = m l := by
  unfold storeKey
  induction List.range keyWords generalizing m with
  | nil => rfl
  | cons w ws ih => rw [List.foldl_cons, ih, Function.update_of_ne (hl w)]

theorem storeKey_key {w : Nat} (hw : w < keyWords) :
    storeKey m key i (.entry i (.key w)) = bbStoreKey key w := by
  have hrange : ∀ (ws : List Nat) (m : Loc → Nat), (w ∈ ws ∨ m (.entry i (.key w)) = bbStoreKey key w) →
      ws.foldl (fun m w => Function.update m (.entry i (.key w)) (bbStoreKey key w)) m
        (.entry i (.key w)) = bbStoreKey key w := by
    intro ws
    induction ws with
    | nil =>
      rintro m (h | h)
      · cases h
      · exact h
    | cons k ws ih =>
      intro m h
      refine ih _ ?_
      by_cases hk : w = k
      · subst hk
        exact .inr (Function.update_self ..)
      · rcases h with h | h
        · exact .inl ((List.mem_cons.mp h).resolve_left hk)
        · refine .inr ?_
          exact (Function.update_of_ne (by simpa using hk) ..).trans h
  exact hrange _ _ (.inl (List.mem_range.mpr hw))

/-- The claim of a free entry. -/
theorem ends_claimEntry {swept : Bool} (hi : i < g.capacity) (hs : m (.entry i .state) = free)
    (h : ∀ now, P (boardUnlock (notifyChange (claimEntry m a key i now)),
      a.finish (.gain ⟨i, claimEntry m a key i now (.entry i .tenancy), 0, a.pid, key⟩))) :
    Ends (alone g procs) P (m, a.claimAt g key swept i) := by
  rw [Actor.claimAt_of_lt hi]
  refine .step_eq (t := (m, a.goto (.claimMark key i))) trivial (fun _ => ?_) ?_
  · exact congrArg (fun x => some (m, x)) (if_pos hs)
  refine .step_eq (t := (_, a.goto (.claimClear key i))) trivial (fun _ => rfl) ?_
  refine .step_eq (t := (_, a.goto (.claimKey key i 0))) trivial (fun _ => rfl) (ends_storeKey ?_)
  refine .advance (fun now => (_, a.goto (.claimStamp key i (u64 now)))) trivial (fun _ => rfl)
    fun now => ?_
  refine .step_eq (t := (_, a.goto (.claimStart key i))) trivial (fun _ => rfl) ?_
  refine .step_eq (t := (_, a.goto (.claimPid key i))) trivial (fun _ => rfl) ?_
  refine .step_eq (t := (_, a.goto (.claimHash key i))) trivial (fun _ => rfl) ?_
  refine .step_eq (t := (_, a.goto (.claimBump key i))) trivial (fun _ => rfl) ?_
  refine .step_eq (t := (_, a.goto (.claimActivate key i))) trivial (fun _ => rfl) ?_
  refine .step_eq (t := (claimEntry m a key i now, a.goto (.claimTenancy key i))) trivial
    (fun _ => rfl) ?_
  refine .step_eq (t := (claimEntry m a key i now, a.goto (.notifySeq true
    (.gain ⟨i, claimEntry m a key i now (.entry i .tenancy), 0, a.pid, key⟩)))) trivial (fun _ => rfl) ?_
  exact through_notify (I := fun _ => True) trivial trivial (.here (h now))

/-- The entry of the key: a live owner is an error, any other is taken over. -/
theorem ends_takeEntry
    (hlive : entryTakeable procs m i = false → P (boardUnlock m, a.ret (.threw
      (.runtimeError "Blackboard key already owned by a live process: " key))))
    (htake : entryTakeable procs m i = true → P (boardUnlock (notifyChange (takeEntry m a i)),
      a.finish (.gain ⟨i, u64 (storeOwner m a i (.entry i .tenancy) + 1),
        takeEntry m a i (.entry i .publish) / 2, a.pid, key⟩))) :
    Ends (alone g procs) P (m, a.goto (.scanPid key i)) := by
  have hgo : entryTakeable procs m i = true → Ends (alone g procs) P (m, a.goto (.takeStart key i)) := by
    intro ht
    refine .step_eq (t := (_, a.goto (.takePid key i))) trivial (fun _ => rfl) ?_
    refine .step_eq (t := (_, a.goto (.takeBump key i))) trivial (fun _ => rfl) ?_
    refine .step_eq (t := (takeEntry m a i, a.goto (.takePublish key i
      (u64 (storeOwner m a i (.entry i .tenancy) + 1))))) trivial (fun _ => rfl) ?_
    refine .step_eq (t := (takeEntry m a i, a.goto (.notifySeq true (.gain ⟨i,
      u64 (storeOwner m a i (.entry i .tenancy) + 1), takeEntry m a i (.entry i .publish) / 2, a.pid,
      key⟩)))) trivial (fun _ => rfl) ?_
    exact through_notify (I := fun _ => True) trivial trivial (.here (htake ht))
  refine .step_eq (t := (m, a.goto (.scanStart key i (m (.entry i .ownerPid))))) trivial (fun _ => rfl) ?_
  by_cases hp : m (.entry i .ownerPid) = 0
  · refine .step_eq (t := (m, a.goto (.takeStart key i))) trivial (fun _ => ?_)
      (hgo (by simp [entryTakeable, hp]))
    exact congrArg (fun x => some (m, x)) (if_pos hp)
  · refine .step_eq (t := (m, a.goto (.scanProbe key i (m (.entry i .ownerPid))
      (m (.entry i .ownerStarttime))))) trivial (fun _ => ?_) ?_
    · exact congrArg (fun x => some (m, x)) (if_neg hp)
    cases hd : deadOwned procs m i with
    | true =>
      refine .step_eq (t := (m, a.goto (.takeStart key i))) trivial (fun _ => ?_)
        (hgo (by simp [entryTakeable, hd]))
      exact congrArg (fun x => some (m, x)) (if_pos hd)
    | false =>
      refine .step_eq (t := (m, a.goto (.unlock (.keep (.threw
        (.runtimeError "Blackboard key already owned by a live process: " key)))))) trivial (fun _ => ?_)
        (through_unlock (I := fun _ => True) trivial (.here (hlive (by simp [entryTakeable, hp, hd]))))
      exact congrArg (fun x => some (m, x)) (if_neg (c := deadOwned procs m i = true) (by simp [hd]))

/-- The second try, when the sweep has freed something, or the error. -/
theorem ends_sweepClaim
    (hsome : 0 < (sweepLocked g.capacity procs m).2 →
      Ends (alone g procs) P ((sweepLocked g.capacity procs m).1, a.claimAt g key true 0))
    (hnone : (sweepLocked g.capacity procs m).2 = 0 → P (boardUnlock (sweepLocked g.capacity procs m).1,
      a.ret (.threw (.runtimeError "Blackboard is at capacity" [])))) :
    Ends (alone g procs) P (m, a.claimAt g key false g.capacity) := by
  have hhead : a.claimAt g key false g.capacity = a.sweepAt g (.claim key) 0 0 := if_neg (Nat.lt_irrefl _)
  rw [hhead]
  refine through_sweepLocked (I := fun _ => True) (fun _ _ _ _ => trivial) ?_
  rw [Actor.sweepAt, if_neg (Nat.lt_irrefl _)]
  by_cases hc : 0 < (sweepLocked g.capacity procs m).2
  · rw [if_pos hc]
    exact hsome hc
  · rw [if_neg hc]
    exact through_unlock (I := fun _ => True) trivial (.here (hnone (by omega)))

end Runs

/-! ## The words of an entry -/

section Words

variable {l : Loc}

theorem boardUnlock_entry (hl : l.entryOf = some i) : boardUnlock m l = m l :=
  Function.update_of_ne (by rintro rfl; cases hl) ..

theorem notifyChange_entry (hl : l.entryOf = some i) : notifyChange m l = m l :=
  Function.update_of_ne (by rintro rfl; cases hl) ..

theorem keyOf_congr (h : ∀ w < keyWords, m' (.entry i (.key w)) = m (.entry i (.key w))) :
    keyOf m' i = keyOf m i := bbLoadKey_congr h

theorem Board.congr (h : Board n m) (hm : ∀ i < n, ∀ l, l.entryOf = some i → m' l = m l) :
    Board n m' where
  entries i hi := by
    rw [keyOf_congr fun w _ => hm i hi _ rfl, hm i hi _ rfl]
    rcases h.entries i hi with hc | ⟨hp, hh⟩
    · exact .inl ⟨(hm i hi _ rfl).trans hc.state, (hm i hi _ rfl).trans hc.keyHash,
        (hm i hi _ rfl).trans hc.ownerPid⟩
    · exact .inr ⟨⟨(hm i hi _ rfl).trans hp.1, by rw [hm i hi _ rfl]; exact hp.2⟩, hh⟩
  unique i hi j hj := by
    rw [keyOf_congr fun w _ => hm i hi _ rfl, keyOf_congr fun w _ => hm j hj _ rfl, hm i hi _ rfl,
      hm j hj _ rfl]
    exact h.unique i hi j hj

theorem takeEntry_apply (hp : l ≠ .entry i .ownerPid) (hs : l ≠ .entry i .ownerStarttime)
    (ht : l ≠ .entry i .tenancy) : takeEntry m a i l = m l := by
  rw [takeEntry, bumpTenancy, Function.update_of_ne ht, storeOwner, Function.update_of_ne hp,
    Function.update_of_ne hs]

theorem storeOwner_tenancy : storeOwner m a i (.entry i .tenancy) = m (.entry i .tenancy) := by
  simp [storeOwner]

/-- A claim stores in its own entry only. -/
theorem claimEntry_frame {now : Nat} (hl : l.entryOf ≠ some i) : claimEntry m a key i now l = m l := by
  unfold claimEntry bumpTenancy storeOwner
  rw [Function.update_of_ne (entryOf_ne hl), Function.update_of_ne (entryOf_ne hl),
    Function.update_of_ne (entryOf_ne hl), Function.update_of_ne (entryOf_ne hl),
    Function.update_of_ne (entryOf_ne hl), Function.update_of_ne (entryOf_ne hl),
    storeKey_of_ne fun w => entryOf_ne hl, Function.update_of_ne (entryOf_ne hl),
    Function.update_of_ne (entryOf_ne hl)]

/-- What a claim of entry `i` leaves there, when the call has moved the tenancy on `k` times. -/
structure Claimed (m m' : Loc → Nat) (a : Actor) (key : List UInt8) (i k : Nat) : Prop where
  keyed : Keyed m' i key
  publish : m' (.entry i .publish) = 0
  ownerPid : m' (.entry i .ownerPid) = a.pid
  ownerStarttime : m' (.entry i .ownerStarttime) = a.starttime
  tenancy : m' (.entry i .tenancy) = u64 (m (.entry i .tenancy) + k)
  higher : m (.entry i .tenancy) + k < 2 ^ 64 → m (.entry i .tenancy) < m' (.entry i .tenancy)
  cells : ∀ c f, m' (.cell i c f) = m (.cell i c f)

/-- Only the wrap of the word keeps a tenancy that has moved on from being higher. -/
theorem lt_u64_add {t k : Nat} (hk : 0 < k) (h : t + k < 2 ^ 64) : t < u64 (t + k) := by
  rw [u64, Nat.mod_eq_of_lt h]
  omega

theorem claimEntry_tenancy {now : Nat} :
    claimEntry m a key i now (.entry i .tenancy) = u64 (m (.entry i .tenancy) + 1) := by
  simp [claimEntry, bumpTenancy, storeOwner, storeKey_of_ne]

theorem claimed_claimEntry {now : Nat} : Claimed m (claimEntry m a key i now) a key i 1 where
  keyed := by
    refine ⟨by simp [claimEntry], by simp [claimEntry, bumpTenancy], fun w hw => ?_⟩
    simp [claimEntry, bumpTenancy, storeOwner, storeKey_key hw]
  publish := by
    simp [claimEntry, bumpTenancy, storeOwner, storeKey_of_ne]
  ownerPid := by simp [claimEntry, bumpTenancy, storeOwner]
  ownerStarttime := by simp [claimEntry, bumpTenancy, storeOwner]
  tenancy := claimEntry_tenancy
  higher h := claimEntry_tenancy ▸ lt_u64_add Nat.one_pos h
  cells c f := by simp [claimEntry, bumpTenancy, storeOwner, storeKey_of_ne]

end Words

/-! ## The five ends of a declare -/

section Spec

/-- Entry `i` and its cells are as they were. -/
def Unchanged (m m' : Loc → Nat) (i : Nat) : Prop := ∀ l, l.entryOf = some i → m' l = m l

def keyOwned (key : List UInt8) : Thrown :=
  .runtimeError "Blackboard key already owned by a live process: " key

def atCapacity : Thrown := .runtimeError "Blackboard is at capacity" []

/-- What is asked of one `declare` of `key` by `a` that finds the board `m`, holding its lock, and leaves
`m'` and the actor `a'`. -/
structure DeclareSpec (n : Nat) (procs : Nat → Option Nat) (m : Loc → Nat) (key : List UInt8) (a : Actor)
    (m' : Loc → Nat) (a' : Actor) : Prop where
  owned : ∀ i < n, Holds m key i → entryTakeable procs m i = false →
    a' = a.ret (.threw (keyOwned key)) ∧ ∀ j < n, Unchanged m m' j
  taken : ∀ i < n, Holds m key i → entryTakeable procs m i = true →
    a' = a.finish (.gain ⟨i, u64 (m (.entry i .tenancy) + 1), m (.entry i .publish) / 2, a.pid, key⟩) ∧
    m' (.entry i .ownerPid) = a.pid ∧ m' (.entry i .ownerStarttime) = a.starttime ∧
    m' (.entry i .tenancy) = u64 (m (.entry i .tenancy) + 1) ∧
    (∀ l, l.entryOf = some i → l ≠ .entry i .ownerPid → l ≠ .entry i .ownerStarttime →
      l ≠ .entry i .tenancy → m' l = m l) ∧
    ∀ j < n, j ≠ i → Unchanged m m' j
  claimed : (∀ i < n, ¬Holds m key i) →
    ((∃ i < n, m (.entry i .state) = free) ∨ ∃ i < n, deadOwned procs m i = true) →
    ∃ i < n, (m (.entry i .state) = free ∧ Claimed m m' a key i 1 ∨
        ((∀ j < n, m (.entry j .state) ≠ free) ∧ deadOwned procs m i = true) ∧
          Claimed m m' a key i 2) ∧
      a' = a.finish (.gain ⟨i, m' (.entry i .tenancy), 0, a.pid, key⟩) ∧
      ∀ j < n, j ≠ i → if (∀ k < n, m (.entry k .state) ≠ free) ∧ deadOwned procs m j = true then
          Cleared m' j ∧ m' (.entry j .tenancy) = u64 (m (.entry j .tenancy) + 1)
        else Unchanged m m' j
  full : a'.result = .threw atCapacity ↔
    ∀ i < n, m (.entry i .state) = active ∧ keyOf m i ≠ key ∧ deadOwned procs m i = false
  fullKeeps : a'.result = .threw atCapacity → ∀ j < n, Unchanged m m' j
  board : Board n m'

/-- A claim keeps the board in order, where no entry has the key yet. -/
theorem Board.claim {now : Nat} (hb : Board n m) (hk : ValidKey key) (hno : ∀ j < n, ¬Holds m key j) :
    Board n (claimEntry m a key i now) := by
  have hc : Claimed m (claimEntry m a key i now) a key i 1 := claimed_claimEntry
  have hkey : keyOf (claimEntry m a key i now) i = key := hc.keyed.load hk
  have hother : ∀ j, j ≠ i → ∀ l, l.entryOf = some j → claimEntry m a key i now l = m l :=
    fun j hj l hl => claimEntry_frame (by rw [hl]; simpa using hj)
  have hkeyj : ∀ j, j ≠ i → keyOf (claimEntry m a key i now) j = keyOf m j :=
    fun j hj => keyOf_congr fun w _ => hother j hj _ rfl
  have hnew : ∀ j < n, j ≠ i → claimEntry m a key i now (.entry j .state) = active →
      keyOf (claimEntry m a key i now) j ≠ key := fun j hj hji hst he => by
    rw [hother j hji _ rfl] at hst
    exact hno j hj ⟨hst, by rw [← hkeyj j hji, he]⟩
  constructor
  · intro j hj
    by_cases hji : j = i
    · subst hji
      rw [hkey]
      exact .inr ⟨⟨hc.keyed.state, by rw [hc.keyed.hash]; exact keyFingerprint_ne key⟩, hc.keyed.hash⟩
    · rw [hkeyj j hji, hother j hji _ rfl]
      rcases hb.entries j hj with hcl | ⟨hp, hh⟩
      · exact .inl ⟨(hother j hji _ rfl).trans hcl.state, (hother j hji _ rfl).trans hcl.keyHash,
          (hother j hji _ rfl).trans hcl.ownerPid⟩
      · exact .inr ⟨⟨(hother j hji _ rfl).trans hp.1, by rw [hother j hji _ rfl]; exact hp.2⟩, hh⟩
  · intro j hj k hk' hsj hsk he
    by_cases hji : j = i <;> by_cases hki : k = i
    · rw [hji, hki]
    · rw [hji, hkey] at he
      exact absurd he.symm (hnew k hk' hki hsk)
    · rw [hki, hkey] at he
      exact absurd he (hnew j hj hji hsj)
    · rw [hkeyj j hji, hkeyj k hki] at he
      rw [hother j hji _ rfl] at hsj
      rw [hother k hki _ rfl] at hsk
      exact hb.unique j hj k hk' hsj hsk he

/-- A take-over keeps the board in order. -/
theorem Board.take (hb : Board n m) (hs : m (.entry i .state) = active) : Board n (takeEntry m a i) := by
  have hkey : ∀ j, keyOf (takeEntry m a i) j = keyOf m j := fun j => keyOf_congr fun w _ =>
    takeEntry_apply (by simp) (by simp) (by simp)
  have hword : ∀ j f, f ≠ .ownerPid → f ≠ .ownerStarttime → f ≠ .tenancy →
      takeEntry m a i (.entry j f) = m (.entry j f) := fun j f h₁ h₂ h₃ =>
    takeEntry_apply (by simp [h₁]) (by simp [h₂]) (by simp [h₃])
  constructor
  · intro j hj
    rw [hkey, hword j _ (by simp) (by simp) (by simp)]
    rcases hb.entries j hj with hc | ⟨hp, hh⟩
    · refine .inl ⟨?_, ?_, ?_⟩
      · rw [hword j _ (by simp) (by simp) (by simp), hc.state]
      · rw [hword j _ (by simp) (by simp) (by simp), hc.keyHash]
      · have hji : j ≠ i := by
          rintro rfl
          rw [hc.state] at hs
          cases hs
        rw [takeEntry_apply (by simpa using hji) (by simp) (by simp), hc.ownerPid]
    · refine .inr ⟨⟨?_, ?_⟩, hh⟩
      · rw [hword j _ (by simp) (by simp) (by simp), hp.1]
      · rw [hword j _ (by simp) (by simp) (by simp)]
        exact hp.2
  · intro j hj k hk
    rw [hkey, hkey, hword j _ (by simp) (by simp) (by simp), hword k _ (by simp) (by simp) (by simp)]
    exact hb.unique j hj k hk

theorem Claimed.congr {x x' : Loc → Nat} {k k' : Nat} (h : Claimed m x a key i k)
    (hx : ∀ l, l.entryOf = some i → x' l = x l) (hk : 0 < k')
    (ht : u64 (m (.entry i .tenancy) + k) = u64 (m' (.entry i .tenancy) + k'))
    (hc : ∀ c f, m (.cell i c f) = m' (.cell i c f)) : Claimed m' x' a key i k' where
  keyed := ⟨(hx _ rfl).trans h.keyed.state, (hx _ rfl).trans h.keyed.hash,
    fun w hw => (hx _ rfl).trans (h.keyed.words w hw)⟩
  publish := (hx _ rfl).trans h.publish
  ownerPid := (hx _ rfl).trans h.ownerPid
  ownerStarttime := (hx _ rfl).trans h.ownerStarttime
  tenancy := by rw [hx _ rfl, h.tenancy, ht]
  higher hlt := by
    rw [hx _ rfl, h.tenancy, ht]
    exact lt_u64_add hk hlt
  cells c f := by rw [hx _ rfl, h.cells, hc]

theorem keyOwned_ne (key : List UInt8) : keyOwned key ≠ atCapacity := by
  simp [keyOwned, atCapacity]

/-- A live owner is an error, and nothing changes. -/
theorem DeclareSpec.of_owned (hb : Board n m) (hi : i < n) (hh : Holds m key i)
    (hl : entryTakeable procs m i = false) :
    DeclareSpec n procs m key a (boardUnlock m) (a.ret (.threw (keyOwned key))) where
  owned _ _ _ _ := ⟨rfl, fun _ _ _ hl => boardUnlock_entry hl⟩
  taken j hj hhj ht := by
    obtain rfl := hb.unique j hj i hi hhj.1 hh.1 (hhj.2.trans hh.2.symm)
    rw [hl] at ht
    cases ht
  claimed hno := absurd hh (hno i hi)
  full := by
    refine iff_of_false (fun he => ?_) fun hall => (hall i hi).2.1 hh.2
    exact keyOwned_ne key (Result.threw.inj he)
  fullKeeps _ _ _ _ hl := boardUnlock_entry hl
  board := hb.congr fun _ _ _ hl => boardUnlock_entry hl

/-- An entry without a live owner is taken over. -/
theorem DeclareSpec.of_taken (hb : Board n m) (hi : i < n) (hh : Holds m key i)
    (ht : entryTakeable procs m i = true) :
    DeclareSpec n procs m key a (boardUnlock (notifyChange (takeEntry m a i)))
      (a.finish (.gain ⟨i, u64 (storeOwner m a i (.entry i .tenancy) + 1),
        takeEntry m a i (.entry i .publish) / 2, a.pid, key⟩)) := by
  have hentry : ∀ j, ∀ l, l.entryOf = some j →
      boardUnlock (notifyChange (takeEntry m a i)) l = takeEntry m a i l := fun j l hl => by
    rw [boardUnlock_entry hl, notifyChange_entry hl]
  have hone : ∀ j < n, Holds m key j → j = i := fun j hj hhj =>
    hb.unique j hj i hi hhj.1 hh.1 (hhj.2.trans hh.2.symm)
  refine ⟨fun j hj hhj hl => ?_, fun j hj hhj _ => ?_, fun hno => absurd hh (hno i hi), ?_, fun he => ?_,
    (hb.take hh.1).congr fun j _ l hl => hentry j l hl⟩
  · obtain rfl := hone j hj hhj
    rw [hl] at ht
    cases ht
  · obtain rfl := hone j hj hhj
    rw [storeOwner_tenancy, takeEntry_apply (by simp) (by simp) (by simp), hentry j _ rfl, hentry j _ rfl,
      hentry j _ rfl]
    refine ⟨rfl, by simp [takeEntry, bumpTenancy, storeOwner], by simp [takeEntry, bumpTenancy, storeOwner],
      by simp [takeEntry, bumpTenancy, storeOwner], fun l hl h₁ h₂ h₃ => ?_, fun k _ hkj l hl => ?_⟩
    · rw [hentry j l hl, takeEntry_apply h₁ h₂ h₃]
    · rw [hentry k l hl, takeEntry_apply] <;> (rintro rfl; exact hkj (Option.some.inj hl).symm)
  · refine iff_of_false (fun he => ?_) fun hall => (hall i hi).2.1 hh.2
    cases he
  · cases he

/-- The board is full. -/
theorem DeclareSpec.of_full (hb : Board n m)
    (hfull : ∀ i < n, m (.entry i .state) = active ∧ keyOf m i ≠ key ∧ deadOwned procs m i = false)
    (hm : ∀ i < n, Unchanged m m' i) :
    DeclareSpec n procs m key a m' (a.ret (.threw atCapacity)) where
  owned j hj hh := absurd hh.2 (hfull j hj).2.1
  taken j hj hh := absurd hh.2 (hfull j hj).2.1
  claimed _ h := by
    rcases h with ⟨i, hi, hf⟩ | ⟨i, hi, hd⟩
    · rw [(hfull i hi).1] at hf
      cases hf
    · rw [(hfull i hi).2.2] at hd
      cases hd
  full := iff_of_true rfl hfull
  fullKeeps _ := hm
  board := hb.congr hm

/-- A claim on `x`, which is the board itself or the board after a sweep. -/
theorem DeclareSpec.of_claimed {x : Loc → Nat} {now : Nat} (hb : Board n x) (hk : ValidKey key)
    (hno : ∀ j < n, ¬Holds m key j) (hnox : ∀ j < n, ¬Holds x key j) (hi : i < n)
    (hfree : (m (.entry i .state) = free ∧ x (.entry i .tenancy) = m (.entry i .tenancy)) ∨
      ((∀ j < n, m (.entry j .state) ≠ free) ∧ deadOwned procs m i = true) ∧
        x (.entry i .tenancy) = u64 (m (.entry i .tenancy) + 1))
    (hc : ∀ c f, x (.cell i c f) = m (.cell i c f))
    (hx : ∀ j < n, j ≠ i → if (∀ k < n, m (.entry k .state) ≠ free) ∧ deadOwned procs m j = true then
        Cleared x j ∧ x (.entry j .tenancy) = u64 (m (.entry j .tenancy) + 1)
      else Unchanged m x j) :
    DeclareSpec n procs m key a (boardUnlock (notifyChange (claimEntry x a key i now)))
      (a.finish (.gain ⟨i, claimEntry x a key i now (.entry i .tenancy), 0, a.pid, key⟩)) := by
  have hentry : ∀ j, ∀ l, l.entryOf = some j →
      boardUnlock (notifyChange (claimEntry x a key i now)) l = claimEntry x a key i now l :=
    fun j l hl => by rw [boardUnlock_entry hl, notifyChange_entry hl]
  have hother : ∀ j, j ≠ i → ∀ l, l.entryOf = some j →
      boardUnlock (notifyChange (claimEntry x a key i now)) l = x l := fun j hj l hl => by
    rw [hentry j l hl, claimEntry_frame (by rw [hl]; simpa using hj)]
  refine ⟨fun j hj hh => absurd hh (hno j hj), fun j hj hh => absurd hh (hno j hj), fun _ _ => ?_, ?_,
    fun he => ?_, (hb.claim hk hnox).congr fun j _ l hl => hentry j l hl⟩
  · have hclaimed : ∀ {k}, 0 < k → u64 (x (.entry i .tenancy) + 1) = u64 (m (.entry i .tenancy) + k) →
        Claimed m (boardUnlock (notifyChange (claimEntry x a key i now))) a key i k := fun hk ht =>
      claimed_claimEntry.congr (fun l hl => hentry i l hl) hk ht hc
    refine ⟨i, hi, ?_, by rw [hentry i _ rfl], fun j hj hji => ?_⟩
    · refine hfree.imp (fun h => ⟨h.1, hclaimed Nat.one_pos (by rw [h.2])⟩)
        fun h => ⟨h.1, hclaimed Nat.two_pos ?_⟩
      rw [h.2]
      exact Nat.mod_add_mod ..
    have hxj := hx j hj hji
    split_ifs at hxj ⊢
    · exact ⟨⟨(hother j hji _ rfl).trans hxj.1.state, (hother j hji _ rfl).trans hxj.1.keyHash,
        (hother j hji _ rfl).trans hxj.1.ownerPid⟩, (hother j hji _ rfl).trans hxj.2⟩
    · exact fun l hl => (hother j hji l hl).trans (hxj l hl)
  · refine iff_of_false (fun he => ?_) fun hall => ?_
    · cases he
    · rcases hfree with ⟨hf, -⟩ | ⟨⟨-, hd⟩, -⟩
      · rw [(hall i hi).1] at hf
        cases hf
      · rw [(hall i hi).2.2] at hd
        cases hd
  · cases he

/-! ### The sweep of a full board -/

section Full

variable (hb : Board n m) (hfull : ∀ j < n, m (.entry j .state) ≠ free)

include hb hfull

theorem Board.published (hi : i < n) : Published m i := by
  rcases hb.entries i hi with hc | ⟨hp, -⟩
  · exact absurd hc.state (hfull i hi)
  · exact hp

theorem Board.swept_dead (hi : i < n) (hd : deadOwned procs m i = true) :
    Cleared (sweepLocked n procs m).1 i ∧
      (sweepLocked n procs m).1 (.entry i .tenancy) = u64 (m (.entry i .tenancy) + 1) := by
  have heq : ∀ l, l.entryOf = some i → (sweepLocked n procs m).1 l = (sweepStale n procs m).1 l :=
    fun l hl => (sweepLocked_apply hi hl).trans (sweepStale_apply hi hl).symm
  obtain ⟨hc, -, ht⟩ := sweeps_sweepStale.dead i hi (hb.published hfull hi) hd
  exact ⟨⟨(heq _ rfl).trans hc.state, (heq _ rfl).trans hc.keyHash, (heq _ rfl).trans hc.ownerPid⟩,
    (heq _ rfl).trans ht⟩

theorem Board.swept_live (hi : i < n) (hd : deadOwned procs m i = false) :
    Unchanged m (sweepLocked n procs m).1 i := by
  intro l hl
  rw [sweepLocked_apply hi hl, ← sweepStale_apply hi hl]
  exact sweeps_sweepStale.kept i hi (hb.published hfull hi) hd l hl

theorem Board.swept_pos : 0 < (sweepLocked n procs m).2 ↔ ∃ i < n, deadOwned procs m i = true := by
  rw [sweepLocked_eq, List.countP_pos_iff]
  constructor
  · rintro ⟨i, hi, ht⟩
    rw [List.mem_range] at hi
    rcases (sweepEntry_tells procs).mp ht with hn | hd
    · rw [normalizeEntry_of_settled (.inr (hb.published hfull hi))] at hn
      cases hn
    · exact ⟨i, hi, hd⟩
  · rintro ⟨i, hi, hd⟩
    exact ⟨i, List.mem_range.mpr hi, (sweepEntry_tells procs).mpr (.inr hd)⟩

theorem Board.swept : Board n (sweepLocked n procs m).1 := by
  have hactive : ∀ j < n, (sweepLocked n procs m).1 (.entry j .state) = active →
      Unchanged m (sweepLocked n procs m).1 j := fun j hj hs => by
    cases hd : deadOwned procs m j with
    | true =>
      rw [(hb.swept_dead hfull hj hd).1.state] at hs
      cases hs
    | false => exact hb.swept_live hfull hj hd
  constructor
  · intro j hj
    cases hd : deadOwned procs m j with
    | true => exact .inl (hb.swept_dead hfull hj hd).1
    | false =>
      have hu := hb.swept_live hfull hj hd
      rw [keyOf_congr fun w _ => hu _ rfl, hu _ rfl]
      rcases hb.entries j hj with hc | ⟨hp, hh⟩
      · exact absurd hc.state (hfull j hj)
      · exact .inr ⟨⟨(hu _ rfl).trans hp.1, by rw [hu _ rfl]; exact hp.2⟩, hh⟩
  · intro j hj k hk hsj hsk he
    have hj' := hactive j hj hsj
    have hk' := hactive k hk hsk
    rw [keyOf_congr fun w _ => hj' _ rfl, keyOf_congr fun w _ => hk' _ rfl] at he
    rw [hj' _ rfl] at hsj
    rw [hk' _ rfl] at hsk
    exact hb.unique j hj k hk hsj hsk he

theorem Board.swept_holds (hno : ∀ j < n, ¬Holds m key j) :
    ∀ j < n, ¬Holds (sweepLocked n procs m).1 key j := by
  rintro j hj ⟨hs, he⟩
  cases hd : deadOwned procs m j with
  | true =>
    rw [(hb.swept_dead hfull hj hd).1.state] at hs
    cases hs
  | false =>
    have hu := hb.swept_live hfull hj hd
    exact hno j hj ⟨by rw [← hu _ rfl, hs], by rw [← he]; exact (keyOf_congr fun w _ => hu _ rfl).symm⟩

end Full

theorem sweepLocked_cell {j c : Nat} {f : CellField} :
    (sweepLocked n procs m).1 (.cell j c f) = m (.cell j c f) := by
  by_cases hj : j < n
  · rw [sweepLocked_apply hj rfl, sweepEntry_cell]
  · exact sweepLocked_frame fun i hi hl => hj ((Option.some.inj hl) ▸ hi)

/-- The first free entry. -/
theorem exists_first_free (h : ∃ i < n, m (.entry i .state) = free) :
    ∃ i < n, m (.entry i .state) = free ∧ ∀ j < i, m (.entry j .state) ≠ free := by
  classical
  have hspec := Nat.find_spec h
  refine ⟨Nat.find h, hspec.1, hspec.2, fun j hj hf => ?_⟩
  exact Nat.find_min h hj ⟨hj.trans hspec.1, hf⟩

/-- One `declare` that holds the board lock, on a board in order and with any answers about the owners. -/
theorem declare_spec (hb : Board g.capacity m) (hk : ValidKey key) :
    Ends (alone g procs) (fun x => x.2.pc = .idle ∧ DeclareSpec g.capacity procs m key a x.1 x.2)
      (m, a.enter g (.declare key)) := by
  change Ends _ _ (m, a.scanAt g key 0)
  by_cases hh : ∃ i < g.capacity, Holds m key i
  · obtain ⟨i, hi, hh⟩ := hh
    have hno : ∀ j, 0 ≤ j → j < i → ¬Match m key j := fun j _ hji hm => by
      have hhj := (hb.match_iff (hji.trans hi)).mp hm
      exact hji.ne (hb.unique j (hji.trans hi) i hi hhj.1 hh.1 (hhj.2.trans hh.2.symm))
    refine ends_scanAt (Nat.zero_add _) hi.le hno (ends_scanEntry hi (fun _ => ?_) fun hm => ?_)
    · exact ends_takeEntry (fun hl => ⟨rfl, .of_owned hb hi hh hl⟩)
        fun ht => ⟨rfl, .of_taken hb hi hh ht⟩
    · exact absurd ((hb.match_iff hi).mpr hh) hm
  have hno : ∀ j < g.capacity, ¬Holds m key j := fun j hj hhj => hh ⟨j, hj, hhj⟩
  refine ends_scanAt (Nat.zero_add _) le_rfl (fun j _ hj hm => hno j hj ((hb.match_iff hj).mp hm)) ?_
  have hhead : a.scanAt g key g.capacity = a.claimAt g key false 0 := if_neg (Nat.lt_irrefl _)
  rw [hhead]
  by_cases hfree : ∃ i < g.capacity, m (.entry i .state) = free
  · obtain ⟨i, hi, hs, hfirst⟩ := exists_first_free hfree
    refine ends_claimAt (Nat.zero_add _) hi.le (fun j _ hj => hfirst j hj) ?_
    refine ends_claimEntry hi hs fun now => ⟨rfl, ?_⟩
    refine .of_claimed hb hk hno hno hi (.inl ⟨hs, rfl⟩) (fun _ _ => rfl) fun j hj hji => ?_
    rw [if_neg (fun h => h.1 i hi hs)]
    exact fun _ _ => rfl
  · have hfull : ∀ j < g.capacity, m (.entry j .state) ≠ free := fun j hj hs => hfree ⟨j, hj, hs⟩
    refine ends_claimAt (Nat.zero_add _) le_rfl (fun j _ hj => hfull j hj) (ends_sweepClaim (fun hc => ?_)
      fun hc => ⟨rfl, ?_⟩)
    · obtain ⟨d, hd, hdead⟩ := (hb.swept_pos hfull).mp hc
      obtain ⟨i, hi, hs, hfirst⟩ := exists_first_free
        ⟨d, hd, (hb.swept_dead hfull hd hdead).1.state⟩
      have hidead : deadOwned procs m i = true := by
        by_contra hn
        rw [hb.swept_live hfull hi (by simpa using hn) _ rfl] at hs
        exact hfull i hi hs
      refine ends_claimAt (Nat.zero_add _) hi.le (fun j _ hj => hfirst j hj) ?_
      refine ends_claimEntry hi hs fun now => ⟨rfl, ?_⟩
      refine .of_claimed (hb.swept hfull) hk hno (hb.swept_holds hfull hno) hi
        (.inr ⟨⟨hfull, hidead⟩, (hb.swept_dead hfull hi hidead).2⟩) (fun _ _ => sweepLocked_cell)
        fun j hj _ => ?_
      split_ifs with hc
      · exact hb.swept_dead hfull hj hc.2
      · refine hb.swept_live hfull hj ?_
        by_contra hn
        exact hc ⟨hfull, by simpa using hn⟩
    · have hnd : ∀ j < g.capacity, deadOwned procs m j = false := fun j hj => by
        by_contra hn
        have hpos := (hb.swept_pos hfull).mpr ⟨j, hj, by simpa using hn⟩
        omega
      refine .of_full hb (fun i hi => ?_) fun j hj l hl => ?_
      · have hp := hb.published hfull hi
        exact ⟨hp.1, fun he => hno i hi ⟨hp.1, he⟩, hnd i hi⟩
      · exact (boardUnlock_entry hl).trans (hb.swept_live hfull hj (hnd j hj) l hl)

/-- A process that declared key `a` and is gone. -/
def departed : Actor := ⟨7, 1, none, none, .pending, .idle⟩

theorem validKey_departed : ValidKey [97] := ⟨by decide, by decide, by decide +kernel⟩

theorem declare_spec_departed : Ends (alone small fun _ => none)
    (fun x => x.2.pc = .idle ∧ DeclareSpec small.capacity (fun _ => none)
      (claimEntry (fun _ => 0) departed [97] 0 0) [97] departed x.1 x.2)
    (claimEntry (fun _ => 0) departed [97] 0 0, departed.enter small (.declare [97])) := by
  have hempty : Board small.capacity fun _ => 0 :=
    ⟨fun _ _ => .inl ⟨rfl, rfl, rfl⟩, fun _ _ _ _ h => absurd h (by decide)⟩
  exact declare_spec (hempty.claim validKey_departed fun _ _ h => Nat.zero_ne_add_one 1 h.1) validKey_departed

/-- A board whose one entry is free and has had all the tenancies that its word can count. -/
def worn : Loc → Nat := Function.update (fun _ => 0) (.entry 0 .tenancy) (2 ^ 64 - 1)

/-- A claim of that entry leaves it the tenancy 0. -/
theorem declare_wraps : Board small.capacity worn ∧ worn (.entry 0 .tenancy) < 2 ^ 64 ∧ ValidKey [97] ∧
    Ends (alone small fun _ => none)
      (fun x => x.2.pc = .idle ∧ x.2.writer = some ⟨0, 0, 0, 7, [97]⟩ ∧ x.1 (.entry 0 .state) = active ∧
        ¬ worn (.entry 0 .tenancy) < x.1 (.entry 0 .tenancy))
      (worn, departed.enter small (.declare [97])) := by
  have hfree : ∀ j, worn (.entry j .state) = free := fun j => by simp [worn, free]
  refine ⟨⟨fun j _ => .inl ⟨hfree j, by simp [worn], by simp [worn]⟩, fun i _ j _ hi => ?_⟩, by decide,
    validKey_departed, ?_⟩
  · rw [hfree] at hi
    cases hi
  have hno : ∀ j, ¬ Match worn [97] j := fun j hm => absurd ((hfree j).symm.trans hm.1) (by decide)
  change Ends _ _ (worn, departed.scanAt small [97] 0)
  refine ends_scanAt (Nat.zero_add _) le_rfl (fun j _ _ => hno j) ?_
  have hhead : departed.scanAt small [97] small.capacity = departed.claimAt small [97] false 0 :=
    if_neg (Nat.lt_irrefl _)
  rw [hhead]
  refine ends_claimEntry (by decide) (hfree 0) fun now => ?_
  have hten : claimEntry worn departed [97] 0 now (.entry 0 .tenancy) = 0 := by
    rw [claimEntry_tenancy]
    decide
  have hc : Claimed worn (claimEntry worn departed [97] 0 now) departed [97] 0 1 := claimed_claimEntry
  have hword : ∀ f, boardUnlock (notifyChange (claimEntry worn departed [97] 0 now)) (.entry 0 f) =
      claimEntry worn departed [97] 0 now (.entry 0 f) := fun f => by
    rw [boardUnlock_entry rfl, notifyChange_entry rfl]
  refine ⟨rfl, by rw [hten]; rfl, (hword _).trans hc.keyed.state, fun hlt => ?_⟩
  exact absurd (hlt.trans_eq ((hword _).trans hten)) (Nat.not_lt_zero _)

end Spec

end Kickmsg.Blackboard
