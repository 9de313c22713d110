import Kickmsg.Blackboard.Model
import Mathlib.Data.List.TakeWhile

/-!
# Who may change an entry

Everything of an entry but its value is changed under the board lock: its state, tenancy, owner and key.
`Work` says what the holder of the lock knows at each of its accesses, `Owned` what a live `Writer` finds
in its entry, and `Vacant` that nobody alive has a `Writer` of an entry, which is what lets the holder
take it. A holder that dies leaves any of these half done; the next one repairs the board before
it does anything else.
-/

namespace Kickmsg.Blackboard

open Lib

/-! ## Keys and their words -/

/-- What `declare` accepts: a C string that is not empty and fits its field with a NUL. -/
structure ValidKey (key : List UInt8) : Prop where
  ne : key ≠ []
  lt : key.length < keyMax
  nul : ∀ b ∈ key, b ≠ 0

theorem bytesOf_congr {len : Nat} {v w : Nat → Nat} (h : ∀ k < wordsFor len, v k = w k) :
    bytesOf len v = bytesOf len w := by
  unfold bytesOf
  apply List.map_congr_left
  intro j hj
  rw [List.mem_range] at hj
  rw [byteIn, byteIn, h (j / 8) (by unfold wordsFor; omega)]

theorem bytesOf_wordAt (l : List UInt8) (n : Nat) :
    bytesOf (l.length + n) (wordAt (byteOf l)) = l ++ List.replicate n 0 := by
  unfold bytesOf
  rw [← map_byteOf]
  apply List.map_congr_left
  intro j _
  rw [byteIn_wordAt (byteOf_lt l)]

/-- A key is read from its words. -/
theorem bbLoadKey_congr {v w : Nat → Nat} (h : ∀ k < keyWords, v k = w k) :
    bbLoadKey v = bbLoadKey w := by
  rw [bbLoadKey, bbLoadKey, bytesOf_congr (show ∀ k < wordsFor keyMax, v k = w k from h)]

/-- A key that was stored is read back. -/
theorem ValidKey.load {key : List UInt8} (h : ValidKey key) : bbLoadKey (bbStoreKey key) = key := by
  have hlen := h.lt
  obtain ⟨n, hn⟩ := Nat.exists_eq_add_of_lt hlen
  have htake : key.take keyMax = key := List.take_of_length_le (by omega)
  have hstore : bbStoreKey key = wordAt (byteOf key) := by
    funext w
    rw [bbStoreKey, htake]
  have hall : key.takeWhile (· ≠ 0) = key := by
    rw [List.takeWhile_eq_self_iff]
    intro b hb
    simpa using h.nul b hb
  rw [bbLoadKey, hstore, hn, Nat.add_assoc, bytesOf_wordAt, List.takeWhile_append, hall]
  simp [List.replicate_succ]

theorem keyFingerprint_ne (key : List UInt8) : keyFingerprint key ≠ 0 := by
  unfold keyFingerprint
  dsimp only
  split <;> omega

theorem ValidKey.of_check {key k : List UInt8} (h : Actor.checkKey key = .ok k) : ValidKey k := by
  unfold Actor.checkKey at h
  split_ifs at h with h1 h2
  obtain rfl := Except.ok.inj h
  refine ⟨h1, by omega, fun b hb => ?_⟩
  simpa using List.mem_takeWhile_imp hb

/-! ## Tokens -/

theorem startFingerprint_pos (st : Nat) : 0 < startFingerprint st := by
  unfold startFingerprint
  dsimp only
  split <;> omega

theorem makeToken_ne (pid st : Nat) : makeToken pid st ≠ 0 := by
  have := startFingerprint_pos st
  unfold makeToken
  omega

theorem tokenPid_makeToken {pid : Nat} (h : pid < 2 ^ 32) (st : Nat) :
    tokenPid (makeToken pid st) = pid := by
  unfold tokenPid makeToken
  omega

/-- The holder of a token is not judged dead while it runs. -/
theorem not_tokenHolderDead {w : World} {p : Nat × Nat} (hs : w.Sound) (hp : p.1 < 2 ^ 32)
    (ha : w.alive p = true) : tokenHolderDead w.procs (makeToken p.1 p.2) = false := by
  have hnz := hs.nonzero p ha
  have hproc : w.procs p.1 = some p.2 := by simpa [World.alive] using ha
  unfold tokenHolderDead
  rw [tokenPid_makeToken hp, if_neg hnz.1, hproc]
  simp [hnz.2]

theorem not_ownerIsDead {w : World} {p : Nat × Nat} (ha : w.alive p = true) :
    ownerIsDead w.procs p.1 p.2 = false := by
  have hproc : w.procs p.1 = some p.2 := by simpa [World.alive] using ha
  unfold ownerIsDead
  rw [hproc]
  simp

/-! ## The section under the lock -/

/-- The access is made with the board lock held. -/
def Pc.inside : Pc → Bool
  | .normState _ _ | .normHash _ _ _ | .normPid _ _ => true
  | .wipeHash _ _ _ | .wipePid _ _ _ | .wipeStart _ _ _ | .wipeState _ _ => true
  | .sweepPid _ _ _ | .sweepStart _ _ _ _ | .sweepProbe _ _ _ _ _ | .sweepBump _ _ _ => true
  | .scanState _ _ | .scanHash _ _ | .scanKey _ _ _ _ | .scanPid _ _ | .scanStart _ _ _
  | .scanProbe _ _ _ _ | .takeStart _ _ | .takePid _ _ | .takeBump _ _ | .takePublish _ _ _ => true
  | .claimState _ _ _ | .claimMark _ _ | .claimClear _ _ | .claimKey _ _ _ | .claimClock _ _
  | .claimStamp _ _ _ | .claimStart _ _ | .claimPid _ _ | .claimHash _ _ | .claimBump _ _
  | .claimActivate _ _ | .claimTenancy _ _ => true
  | .notifySeq locked _ | .notifyWaiters locked _ | .notifyWake locked _ => locked
  | .unlock _ => true
  | .relState _ | .relTenancy _ | .relPid _ | .relStart _ | .relBump _ => true
  | .entState q | .entTenancy q | .entKey q _ | .entPublish q | .entLen q | .entStamp q
  | .entWord q _ | .entPublishAfter q | .entTenancyAfter q | .entStateAfter q | .rowPid q
  | .rowStart q _ => decide (q.listing = .snapshot)
  | _ => false

/-- The entry that an access under the lock may change. -/
def Pc.edits : Pc → Option Nat
  | .wipeHash _ i _ | .wipePid _ i _ | .wipeStart _ i _ | .wipeState _ i => some i
  | .sweepBump _ _ i => some i
  | .takeStart _ i | .takePid _ i | .takeBump _ i => some i
  | .claimMark _ i | .claimKey _ i _ | .claimStamp _ i _ | .claimStart _ i | .claimPid _ i
  | .claimHash _ i | .claimBump _ i | .claimActivate _ i => some i
  | .relPid w | .relStart w | .relBump w => some w.entryIdx
  | _ => none

/-- The repair of entry `i` is still ahead, or the entry is between two settled forms. -/
def Pc.unsettled (i : Nat) : Pc → Bool
  | .normState (.repair _) k | .normHash (.repair _) k _ | .normPid (.repair _) k
  | .wipeHash (.repair _) k _ | .wipePid (.repair _) k _ | .wipeStart (.repair _) k _
  | .wipeState (.repair _) k => decide (k ≤ i)
  | .wipeHash (.sweep _ _) k _ | .wipePid (.sweep _ _) k _ | .wipeStart (.sweep _ _) k _
  | .wipeState (.sweep _ _) k => decide (k = i)
  | .claimClear _ k | .claimKey _ k _ | .claimClock _ k | .claimStamp _ k _ | .claimStart _ k
  | .claimPid _ k | .claimHash _ k | .claimBump _ k | .claimActivate _ k => decide (k = i)
  | _ => false

/-- A release has begun to clear the owner. -/
def Pc.disowning : Pc → Bool
  | .relStart _ | .relBump _ => true
  | _ => false

/-- The `Writer` of an actor: the one it has, from the end of its `declare` until its release has moved
the tenancy on. -/
def Actor.claim (a : Actor) : Option Writer :=
  match a.pc with
  | .notifySeq _ (.gain w) | .notifyWaiters _ (.gain w) | .notifyWake _ (.gain w)
  | .unlock (.gain w) => some w
  | .notifySeq _ (.drop _) | .notifyWaiters _ (.drop _) | .notifyWake _ (.drop _)
  | .unlock (.drop _) => none
  | _ => a.writer

/-- The word belongs to entry `i` and is changed under the lock only. -/
def Loc.guarded : Loc → Option Nat
  | .entry i f => if f = .publish then none else some i
  | _ => none

/-! ## What the holder knows -/

/-- Entry `i` is published under `key`. -/
structure Keyed (m : Loc → Nat) (i : Nat) (key : List UInt8) : Prop where
  state : m (.entry i .state) = active
  hash : m (.entry i .keyHash) = keyFingerprint key
  words : ∀ w < keyWords, m (.entry i (.key w)) = bbStoreKey key w

/-- The entry is free and names nobody, or it is active under some key. -/
def Settled (m : Loc → Nat) (i : Nat) : Prop :=
  (m (.entry i .state) = free ∧ m (.entry i .keyHash) = 0 ∧ m (.entry i .ownerPid) = 0) ∨
    (m (.entry i .state) = active ∧ m (.entry i .keyHash) ≠ 0)

/-- No entry is published under `key`. -/
def Absent (n : Nat) (m : Loc → Nat) (key : List UInt8) : Prop := ∀ i < n, ¬ Keyed m i key

/-- Entry `i` names the process of `a`. -/
def Actor.Named (a : Actor) (m : Loc → Nat) (i : Nat) : Prop :=
  m (.entry i .ownerPid) = a.pid ∧ m (.entry i .ownerStarttime) = a.starttime

/-- A claim of entry `i` has stored the key. -/
def Stored (m : Loc → Nat) (i : Nat) (key : List UInt8) : Prop :=
  m (.entry i .state) = claiming ∧ ∀ w < keyWords, m (.entry i (.key w)) = bbStoreKey key w

/-- A `declare` of a good key, by an actor without a `Writer`. -/
def Actor.Declares (a : Actor) (key : List UInt8) : Prop := ValidKey key ∧ a.writer = none

def Job.Ok (a : Actor) : Job → Prop
  | .declare key => a.Declares key
  | .release w => a.writer = some w
  | _ => True

def SweepFor.Ok (n : Nat) (m : Loc → Nat) (a : Actor) : SweepFor → Prop
  | .ret => True
  | .claim key => a.Declares key ∧ Absent n m key

def Visit.Ok (n : Nat) (m : Loc → Nat) (a : Actor) : Visit → Prop
  | .repair j => j.Ok a
  | .sweep k _ => k.Ok n m a

def Outcome.Ok (m : Loc → Nat) (a : Actor) : Outcome → Prop
  | .gain _ => a.writer = none
  | .drop _ => ∀ w, a.writer = some w → m (.entry w.entryIdx .tenancy) ≠ w.tenancy
  | _ => True

/-- What a live actor knows at its next access, on a board of `n` entries. `vac i` says that nobody alive
has a `Writer` of entry `i`. -/
def Actor.Work (n : Nat) (m : Loc → Nat) (vac : Nat → Prop) (a : Actor) : Prop :=
  match a.pc with
  | .lockClock j | .lockLoad j _ _ | .lockTake j _ _ | .lockProbe j _ _ _ | .lockSteal j _ _ _
  | .lockYield j _ _ | .lockTime j _ _ => j.Ok a
  | .normState v i => v.Ok n m a ∧ i < n
  | .normHash v i st => v.Ok n m a ∧ i < n ∧ m (.entry i .state) = st ∧ (st = active ∨ st = free)
  | .normPid v i => v.Ok n m a ∧ i < n ∧ m (.entry i .state) = free ∧ m (.entry i .keyHash) = 0
  | .wipeHash v i b => v.Ok n m a ∧ i < n ∧ vac i ∧ (b = false → m (.entry i .state) = free)
  | .wipePid v i b => v.Ok n m a ∧ i < n ∧ vac i ∧ (b = false → m (.entry i .state) = free) ∧
      m (.entry i .keyHash) = 0
  | .wipeStart v i b => v.Ok n m a ∧ i < n ∧ vac i ∧ (b = false → m (.entry i .state) = free) ∧
      m (.entry i .keyHash) = 0 ∧ m (.entry i .ownerPid) = 0
  | .wipeState v i => v.Ok n m a ∧ i < n ∧ vac i ∧ m (.entry i .keyHash) = 0 ∧
      m (.entry i .ownerPid) = 0
  | .sweepPid k _ i => k.Ok n m a ∧ i < n ∧ Settled m i
  | .sweepStart k _ i pid => k.Ok n m a ∧ i < n ∧ m (.entry i .state) = active ∧
      m (.entry i .ownerPid) = pid
  | .sweepProbe k _ i pid start => k.Ok n m a ∧ i < n ∧ m (.entry i .state) = active ∧
      m (.entry i .ownerPid) = pid ∧ m (.entry i .ownerStarttime) = start
  | .sweepBump k _ i => k.Ok n m a ∧ i < n ∧ m (.entry i .state) = active ∧ vac i
  | .scanState key i => a.Declares key ∧ i < n ∧ Absent i m key
  | .scanHash key i => a.Declares key ∧ i < n ∧ Absent i m key ∧ m (.entry i .state) = active
  | .scanKey key i v w => a.Declares key ∧ i < n ∧ Absent i m key ∧ m (.entry i .state) = active ∧
      m (.entry i .keyHash) = keyFingerprint key ∧ w < keyWords ∧
      ∀ k < w, v k = m (.entry i (.key k))
  | .scanPid key i => a.Declares key ∧ i < n ∧ Keyed m i key
  | .scanStart key i pid => a.Declares key ∧ i < n ∧ Keyed m i key ∧ m (.entry i .ownerPid) = pid
  | .scanProbe key i pid start => a.Declares key ∧ i < n ∧ Keyed m i key ∧
      m (.entry i .ownerPid) = pid ∧ m (.entry i .ownerStarttime) = start
  | .takeStart key i => a.Declares key ∧ i < n ∧ Keyed m i key ∧ vac i
  | .takePid key i => a.Declares key ∧ i < n ∧ Keyed m i key ∧ vac i ∧
      m (.entry i .ownerStarttime) = a.starttime
  | .takeBump key i => a.Declares key ∧ i < n ∧ Keyed m i key ∧ vac i ∧ a.Named m i
  | .takePublish key i tenancy => a.Declares key ∧ i < n ∧ Keyed m i key ∧ vac i ∧ a.Named m i ∧
      m (.entry i .tenancy) = tenancy
  | .claimState key _ i => a.Declares key ∧ i < n ∧ Absent n m key
  | .claimMark key i => a.Declares key ∧ i < n ∧ Absent n m key ∧ vac i
  | .claimClear key i => a.Declares key ∧ i < n ∧ Absent n m key ∧ vac i ∧
      m (.entry i .state) = claiming
  | .claimKey key i w => a.Declares key ∧ i < n ∧ Absent n m key ∧ vac i ∧
      m (.entry i .state) = claiming ∧ w < keyWords ∧
      ∀ k < w, m (.entry i (.key k)) = bbStoreKey key k
  | .claimClock key i | .claimStamp key i _ | .claimStart key i => a.Declares key ∧ i < n ∧
      Absent n m key ∧ vac i ∧ Stored m i key
  | .claimPid key i => a.Declares key ∧ i < n ∧ Absent n m key ∧ vac i ∧ Stored m i key ∧
      m (.entry i .ownerStarttime) = a.starttime
  | .claimHash key i => a.Declares key ∧ i < n ∧ Absent n m key ∧ vac i ∧ Stored m i key ∧
      a.Named m i
  | .claimBump key i | .claimActivate key i => a.Declares key ∧ i < n ∧ Absent n m key ∧ vac i ∧
      Stored m i key ∧ a.Named m i ∧ m (.entry i .keyHash) = keyFingerprint key
  | .claimTenancy key i => a.Declares key ∧ i < n ∧ Keyed m i key ∧ vac i ∧ a.Named m i
  | .notifySeq true o | .notifyWaiters true o | .notifyWake true o => o.Ok m a
  | .notifySeq false o | .notifyWaiters false o | .notifyWake false o => ∃ r, o = .keep r
  | .unlock o => o.Ok m a
  | .writeState w _ | .writeTenancy w _ | .writeOpen w _ | .writeWord w _ _ | .writeLen w _
  | .writeClock w _ | .writeStamp w _ _ | .writeClose w _ _ => a.writer = some w
  | .relState w | .relTenancy w | .relPid w | .relStart w | .relBump w => a.writer = some w
  | _ => True

theorem Actor.edits_of_target {a : Actor} {x : Access Loc Query} {l : Loc} {i : Nat}
    (hreq : a.request = some x) (ht : x.target = some l) (hl : l.guarded = some i) :
    a.pc.edits = some i := by
  unfold Actor.request at hreq
  cases hpc : a.pc <;> rw [hpc] at hreq <;> simp only [Option.some.injEq, reduceCtorEq] at hreq <;>
    subst hreq <;> simp only [Access.target, Option.some.injEq, reduceCtorEq] at ht <;> subst ht <;>
    simp_all [Loc.guarded, Pc.edits]

theorem Pc.inside_of_edits {pc : Pc} {i : Nat} (h : pc.edits = some i) : pc.inside = true := by
  cases pc <;> simp_all [Pc.edits, Pc.inside]

/-! ## The heads of the loops -/

section Heads

variable {g : Geometry} {a : Actor} {m : Loc → Nat} {vac : Nat → Prop} {key : List UInt8} {i n : Nat}

theorem Absent.mono {k : Nat} (h : Absent k m key) (hle : n ≤ k) : Absent n m key :=
  fun i hi => h i (Nat.lt_of_lt_of_le hi hle)

theorem Actor.work_full : a.full.Work n m vac := trivial

theorem Actor.work_reclaimAt (hd : a.Declares key) (ha : Absent g.capacity m key) :
    (a.reclaimAt g key i).Work g.capacity m vac := by
  unfold Actor.reclaimAt
  split
  · exact ⟨hd, ‹_›, ha⟩
  · exact work_full

theorem Actor.work_sweepAt {k : SweepFor} {c : Nat} (hk : k.Ok g.capacity m a) :
    (a.sweepAt g k c i).Work g.capacity m vac := by
  unfold Actor.sweepAt
  split
  · exact ⟨hk, ‹_›⟩
  · cases k with
    | ret => dsimp only; split <;> trivial
    | claim key =>
      dsimp only
      split
      · exact work_reclaimAt hk.1 hk.2
      · exact work_full

theorem Actor.work_claimAt {swept : Bool} (hd : a.Declares key) (ha : Absent g.capacity m key) :
    (a.claimAt g key swept i).Work g.capacity m vac := by
  unfold Actor.claimAt
  split_ifs
  · exact work_reclaimAt hd ha
  · exact ⟨hd, ‹_›, ha⟩
  · exact work_sweepAt ⟨hd, ha⟩

theorem Actor.work_scanAt (hd : a.Declares key) (ha : Absent i m key) :
    (a.scanAt g key i).Work g.capacity m vac := by
  unfold Actor.scanAt
  split
  · exact ⟨hd, ‹_›, ha⟩
  · exact work_claimAt hd (ha.mono (by omega))

theorem Actor.work_listAt {l : Listing} {rows : List Row} :
    (a.listAt g l rows i).Work n m vac := by
  unfold Actor.listAt
  split
  · trivial
  · cases l <;> trivial

theorem Actor.work_enter {j : Job} (hj : j.Ok a) : (a.enter g j).Work g.capacity m vac := by
  cases j with
  | declare key => exact work_scanAt hj fun _ h => absurd h (Nat.not_lt_zero _)
  | release w => exact hj
  | sweep => exact work_sweepAt trivial
  | snapshot => exact work_listAt

theorem Actor.work_repairAt {j : Job} (hj : j.Ok a) : (a.repairAt g j i).Work g.capacity m vac := by
  unfold Actor.repairAt
  split
  · exact ⟨hj, ‹_›⟩
  · exact work_enter hj

theorem Actor.work_cleaned {v : Visit} (hv : v.Ok g.capacity m a) :
    (a.cleaned g v i).Work g.capacity m vac := by
  cases v with
  | repair j => exact work_repairAt hv
  | sweep k c => exact work_sweepAt hv

theorem Actor.work_inOrder {v : Visit} (hv : v.Ok g.capacity m a) (hi : i < g.capacity)
    (hs : Settled m i) : (a.inOrder g v i).Work g.capacity m vac := by
  cases v with
  | repair j => exact work_repairAt hv
  | sweep k c => exact ⟨hv, hi, hs⟩

theorem Actor.work_lockFailed {j : Job} : (a.lockFailed j).Work n m vac := by
  cases j <;> trivial

theorem Actor.work_lockRetry {j : Job} {start c : Nat} (hj : j.Ok a) :
    (a.lockRetry j start c).Work n m vac := by
  unfold Actor.lockRetry
  split
  · exact hj
  · exact work_lockFailed

theorem Actor.probeFrom_eq (a : Actor) (done todo : List Row) :
    (∃ rows, a.probeFrom done todo = a.ret (.listing .snapshot rows)) ∨
      ∃ d r t, a.probeFrom done todo = a.goto (.rowProbe d r t) := by
  induction todo generalizing done with
  | nil => exact .inl ⟨_, rfl⟩
  | cons r todo ih =>
    unfold Actor.probeFrom
    split
    · exact ih _
    · exact .inr ⟨_, _, _, rfl⟩

theorem Actor.work_probeFrom {done todo : List Row} : (a.probeFrom done todo).Work n m vac := by
  rcases a.probeFrom_eq done todo with ⟨rows, h⟩ | ⟨d, r, t, h⟩ <;> rw [h] <;> trivial

theorem Actor.work_finish {o : Outcome} : (a.finish o).Work n m vac := by
  cases o with
  | probe rows => exact work_probeFrom
  | keep | gain | drop => trivial

theorem Actor.work_notified {locked : Bool} {o : Outcome} (ho : locked = true → o.Ok m a) :
    (a.notified locked o).Work n m vac := by
  cases locked with
  | true => exact ho rfl
  | false => exact work_finish

theorem Actor.work_seekAt {q : ReadCall} : (a.seekAt g q i).Work n m vac := by
  unfold Actor.seekAt
  split <;> trivial

theorem Actor.work_resolve {q : ReadCall} : (a.resolve g q).Work n m vac := by
  unfold Actor.resolve
  split
  · split
    · trivial
    · exact work_seekAt
  · exact work_seekAt

theorem Actor.work_readRetry {q : ReadCall} : (a.readRetry g q).Work n m vac := by
  unfold Actor.readRetry
  split
  · exact work_resolve
  · trivial

theorem Actor.work_listRetry {q : ListCall} : (a.listRetry g q).Work n m vac := by
  unfold Actor.listRetry
  split
  · trivial
  · exact work_listAt

theorem Actor.work_listed {q : ListCall} : (a.listed g q).Work n m vac := by
  unfold Actor.listed
  split
  · trivial
  · exact work_listAt

theorem Actor.work_readWords {q : ReadCall} {k : Nat} : (a.readWords q k).Work n m vac := by
  unfold Actor.readWords
  split <;> trivial

theorem Actor.work_listWords {q : ListCall} {k : Nat} : (a.listWords q k).Work n m vac := by
  unfold Actor.listWords
  split
  · split <;> trivial
  · trivial

theorem Actor.work_writeWords {w : Writer} {d : List UInt8} {k : Nat} (hw : a.writer = some w) :
    (a.writeWords w d k).Work n m vac := by
  unfold Actor.writeWords
  split <;> exact hw

end Heads

/-! ## One access of a live actor -/

/-- What every entry looks like at any time. -/
structure EntryOk (m : Loc → Nat) (i : Nat) : Prop where
  states : m (.entry i .state) = free ∨ m (.entry i .state) = claiming ∨ m (.entry i .state) = active
  free : m (.entry i .state) = free → m (.entry i .keyHash) = 0 ∧ m (.entry i .ownerPid) = 0
  keyed : m (.entry i .state) = active → m (.entry i .keyHash) ≠ 0 →
    ∃ key, ValidKey key ∧ Keyed m i key

/-- The key of an entry is the string its words spell. -/
theorem Keyed.load {m : Loc → Nat} {i : Nat} {key : List UInt8} (h : Keyed m i key)
    (hk : ValidKey key) : bbLoadKey (fun w => m (.entry i (.key w))) = key := by
  rw [bbLoadKey_congr h.words]
  exact hk.load

theorem EntryOk.keyed_of_load {m : Loc → Nat} {i : Nat} {key : List UInt8} (h : EntryOk m i)
    (hst : m (.entry i .state) = active) (hh : m (.entry i .keyHash) = keyFingerprint key)
    (hl : bbLoadKey (fun w => m (.entry i (.key w))) = key) : Keyed m i key := by
  obtain ⟨key', hv, hk⟩ := h.keyed hst (by rw [hh]; exact keyFingerprint_ne key)
  rwa [← hl, hk.load hv]

section Step

variable {g : Geometry} {a : Actor} {m : Loc → Nat} {vac : Nat → Prop} {procs : Nat → Option Nat}
  {key : List UInt8} {i now : Nat}

/-- Clearing a word of an entry publishes nothing. -/
theorem Absent.clear {n : Nat} {f : Field} (h : Absent n m key)
    (hf : f = .state ∨ f = .keyHash ∨ f = .ownerPid ∨ f = .ownerStarttime) :
    Absent n (Function.update m (.entry i f) 0) key := by
  intro j hj hk
  refine h j hj ⟨?_, ?_, ?_⟩
  · have := hk.state
    rcases hf with rfl | rfl | rfl | rfl <;>
      simp only [Function.update_apply, Loc.entry.injEq, reduceCtorEq, and_false, and_true,
        ite_false] at this
    · split at this
      · simp [active] at this
      · exact this
    all_goals exact this
  · have := hk.hash
    rcases hf with rfl | rfl | rfl | rfl <;>
      simp only [Function.update_apply, Loc.entry.injEq, reduceCtorEq, and_false, and_true,
        ite_false] at this
    · exact this
    · split at this
      · exact absurd this.symm (keyFingerprint_ne key)
      · exact this
    all_goals exact this
  · intro w hw
    have := hk.words w hw
    rcases hf with rfl | rfl | rfl | rfl <;>
      simpa only [Function.update_apply, Loc.entry.injEq, reduceCtorEq, and_false, ite_false] using this

theorem Visit.Ok.clear {n : Nat} {v : Visit} {f : Field} (h : v.Ok n m a)
    (hf : f = .state ∨ f = .keyHash ∨ f = .ownerPid ∨ f = .ownerStarttime) :
    v.Ok n (Function.update m (.entry i f) 0) a := by
  cases v with
  | repair j => exact h
  | sweep k c =>
    cases k with
    | ret => trivial
    | claim key => exact ⟨h.1, h.2.clear hf⟩

theorem Keyed.update {l : Loc} {x : Nat} (h : Keyed m i key)
    (hl : ∀ j, l ≠ .entry j .state ∧ l ≠ .entry j .keyHash ∧ ∀ w, l ≠ .entry j (.key w)) :
    Keyed (Function.update m l x) i key := by
  obtain ⟨h1, h2, h3⟩ := hl i
  refine ⟨?_, ?_, fun w hw => ?_⟩
  · rw [Function.update_of_ne h1.symm]
    exact h.state
  · rw [Function.update_of_ne h2.symm]
    exact h.hash
  · rw [Function.update_of_ne (h3 w).symm]
    exact h.words w hw

theorem Keyed.of_update {l : Loc} {x : Nat} (h : Keyed (Function.update m l x) i key)
    (hl : ∀ j, l ≠ .entry j .state ∧ l ≠ .entry j .keyHash ∧ ∀ w, l ≠ .entry j (.key w)) :
    Keyed m i key := by
  obtain ⟨h1, h2, h3⟩ := hl i
  refine ⟨?_, ?_, fun w hw => ?_⟩
  · rw [← h.state, Function.update_of_ne h1.symm]
  · rw [← h.hash, Function.update_of_ne h2.symm]
  · rw [← h.words w hw, Function.update_of_ne (h3 w).symm]

/-- A store in an entry that is not active after it publishes nothing. -/
theorem Absent.fill {n : Nat} {f : Field} {x : Nat} (h : Absent n m key)
    (hst : Function.update m (.entry i f) x (.entry i .state) ≠ active) :
    Absent n (Function.update m (.entry i f) x) key := by
  intro j hj hk
  by_cases he : j = i
  · subst he
    exact hst hk.state
  · have hne : ∀ f', Loc.entry j f' ≠ Loc.entry i f := by simp [he]
    refine h j hj ⟨?_, ?_, fun w hw => ?_⟩
    · rw [← hk.state, Function.update_of_ne (hne _)]
    · rw [← hk.hash, Function.update_of_ne (hne _)]
    · rw [← hk.words w hw, Function.update_of_ne (hne _)]

theorem Stored.fill {f : Field} {x : Nat} (h : Stored m i key) (hf : f ≠ .state)
    (hk : ∀ w, f ≠ .key w) : Stored (Function.update m (.entry i f) x) i key := by
  refine ⟨?_, fun w hw => ?_⟩
  · rw [Function.update_of_ne (by simpa using hf.symm)]
    exact h.1
  · rw [Function.update_of_ne (by simpa using (hk w).symm)]
    exact h.2 w hw

theorem Stored.not_active {f : Field} {x : Nat} (h : Stored m i key) (hf : f ≠ .state) :
    Function.update m (.entry i f) x (.entry i .state) ≠ active := by
  rw [Function.update_of_ne (by simpa using hf.symm), h.1]
  decide

/-- What a live actor knows after its access. `hidle`: an entry without a published key has no `Writer`;
`howner`: under the lock, an entry that nobody alive owns has none. -/
theorem Actor.work_resume {x : Access Loc Query} (hw : a.Work g.capacity m vac)
    (hreq : a.request = some x) (hentry : ∀ i < g.capacity, EntryOk m i)
    (hidle : ∀ i < g.capacity, (m (.entry i .state) = active → m (.entry i .keyHash) = 0) → vac i)
    (howner : a.pc.inside = true → a.pc.disowning = false → ∀ i < g.capacity,
      m (.entry i .ownerPid) = 0 ∨
        ownerIsDead procs (m (.entry i .ownerPid)) (m (.entry i .ownerStarttime)) = true → vac i)
    (hrel : ∀ w, (a.pc = .relState w ∨ a.pc = .relTenancy w ∨ a.pc = .relPid w ∨ a.pc = .relStart w ∨
      a.pc = .relBump w) →
      m (.entry w.entryIdx .state) = active ∧ m (.entry w.entryIdx .tenancy) = w.tenancy) :
    (a.resume g (x.exec verdict procs m now).2).Work g.capacity (x.exec verdict procs m now).1 vac := by
  cases hpc : a.pc <;> simp only [Actor.request, hpc, Option.some.injEq, reduceCtorEq] at hreq <;>
    subst hreq <;> simp only [Actor.Work, hpc] at hw <;> simp only [Access.exec] <;>
    simp only [Actor.resume, hpc]
  case lockClock j => exact hw
  case lockLoad j start n => split <;> exact hw
  case lockTake j start n =>
    split
    · exact work_enter hw
    · exact work_lockRetry hw
  case lockProbe j start n held =>
    split
    · exact hw
    · exact work_lockRetry hw
  case lockSteal j start n held =>
    split
    · exact work_repairAt hw
    · exact work_lockRetry hw
  case lockYield j start n => split <;> exact hw
  case lockTime j start n =>
    split
    · exact work_lockFailed
    · exact hw
  case normState v i =>
    split_ifs with h1 h2
    · exact ⟨hw.1, hw.2, hidle i hw.2 fun h => by rw [h] at h1; simp [active, claiming] at h1,
        fun e => by cases e⟩
    · exact ⟨hw.1, hw.2, rfl, h2⟩
    · rcases (hentry i hw.2).states with hst | hst | hst
      · exact absurd (.inr hst) h2
      · exact absurd hst h1
      · exact absurd (.inl hst) h2
  case normHash v i st =>
    obtain ⟨hv, hi, rfl, hst⟩ := hw
    split_ifs with h1 h2 h3
    · exact ⟨hv, hi, hidle i hi fun _ => h2, fun e => by cases e⟩
    · exact work_inOrder hv hi (.inr ⟨h1, h2⟩)
    · exact ⟨hv, hi, hidle i hi fun h => absurd h h1, fun _ => hst.resolve_left h1⟩
    · exact ⟨hv, hi, hst.resolve_left h1, by simpa using h3⟩
  case normPid v i =>
    obtain ⟨hv, hi, hst, hh⟩ := hw
    split
    · exact ⟨hv, hi, hidle i hi fun _ => hh, fun _ => hst⟩
    · rename_i hp
      exact work_inOrder hv hi (.inl ⟨hst, hh, by simpa using hp⟩)
  case wipeHash v i b =>
    obtain ⟨hv, hi, hvac, hst⟩ := hw
    exact ⟨hv.clear (by simp), hi, hvac, by simpa [Actor.goto] using hst, by simp⟩
  case wipePid v i b =>
    obtain ⟨hv, hi, hvac, hst, hh⟩ := hw
    exact ⟨hv.clear (by simp), hi, hvac, by simpa [Actor.goto] using hst, by simpa using hh, by simp⟩
  case wipeStart v i b =>
    obtain ⟨hv, hi, hvac, hst, hh, hp⟩ := hw
    split
    · exact ⟨hv.clear (by simp), hi, hvac, by simpa using hh, by simpa using hp⟩
    · exact work_cleaned (hv.clear (by simp))
  case wipeState v i =>
    obtain ⟨hv, hi, hvac, hh, hp⟩ := hw
    exact work_cleaned (hv.clear (by simp))
  case sweepPid k n i =>
    obtain ⟨hk, hi, hset⟩ := hw
    split
    · exact work_sweepAt hk
    · rename_i hp
      rcases hset with ⟨-, -, h0⟩ | ⟨hst, -⟩
      · exact absurd h0 hp
      · exact ⟨hk, hi, hst, rfl⟩
  case sweepStart k n i pid => exact ⟨hw.1, hw.2.1, hw.2.2.1, hw.2.2.2, rfl⟩
  case sweepProbe k n i pid start =>
    obtain ⟨hk, hi, hst, rfl, rfl⟩ := hw
    split
    · rename_i hdead
      exact ⟨hk, hi, hst, howner (by rw [hpc]; rfl) (by rw [hpc]; rfl) i hi (.inr hdead)⟩
    · exact work_sweepAt hk
  case sweepBump k n i =>
    obtain ⟨hk, hi, -, hvac⟩ := hw
    refine ⟨?_, hi, hvac, fun e => by cases e⟩
    cases k with
    | ret => trivial
    | claim key => exact ⟨hk.1, fun j hj h => hk.2 j hj (h.of_update (by simp))⟩
  case scanState key i =>
    obtain ⟨hd, hi, habs⟩ := hw
    split
    · exact ⟨hd, hi, habs, ‹_›⟩
    · rename_i hst
      refine work_scanAt hd fun j hj => ?_
      rcases Nat.lt_succ_iff_lt_or_eq.mp hj with hj | rfl
      · exact habs j hj
      · exact fun h => hst h.state
  case scanHash key i =>
    obtain ⟨hd, hi, habs, hst⟩ := hw
    split
    · exact ⟨hd, hi, habs, hst, ‹_›, by decide, fun k hk => absurd hk (Nat.not_lt_zero _)⟩
    · rename_i hh
      refine work_scanAt hd fun j hj => ?_
      rcases Nat.lt_succ_iff_lt_or_eq.mp hj with hj | rfl
      · exact habs j hj
      · exact fun h => hh h.hash
  case scanKey key i v w =>
    obtain ⟨hd, hi, habs, hst, hh, hwlt, hv⟩ := hw
    have hv' : ∀ k < w + 1, Function.update v w (m (.entry i (.key w))) k = m (.entry i (.key k)) := by
      intro k hk
      rcases Nat.lt_succ_iff_lt_or_eq.mp hk with hk | rfl
      · rw [Function.update_of_ne (by omega)]
        exact hv k hk
      · simp
    split_ifs with h1 h2
    · exact ⟨hd, hi, habs, hst, hh, h1, hv'⟩
    · have hkw : keyWords = w + 1 := by omega
      rw [bbLoadKey_congr (fun k hk => hv' k (by omega))] at h2
      exact ⟨hd, hi, (hentry i hi).keyed_of_load hst hh h2⟩
    · have hkw : keyWords = w + 1 := by omega
      rw [bbLoadKey_congr (fun k hk => hv' k (by omega))] at h2
      refine work_scanAt hd fun j hj => ?_
      rcases Nat.lt_succ_iff_lt_or_eq.mp hj with hj | rfl
      · exact habs j hj
      · exact fun h => h2 (h.load hd.1)
  case scanPid key i => exact ⟨hw.1, hw.2.1, hw.2.2, rfl⟩
  case scanStart key i pid =>
    obtain ⟨hd, hi, hk, rfl⟩ := hw
    split
    · rename_i hp
      exact ⟨hd, hi, hk, howner (by rw [hpc]; rfl) (by rw [hpc]; rfl) i hi (.inl hp)⟩
    · exact ⟨hd, hi, hk, rfl, rfl⟩
  case scanProbe key i pid start =>
    obtain ⟨hd, hi, hk, rfl, rfl⟩ := hw
    split
    · rename_i hdead
      exact ⟨hd, hi, hk, howner (by rw [hpc]; rfl) (by rw [hpc]; rfl) i hi (.inr hdead)⟩
    · trivial
  case takeStart key i =>
    obtain ⟨hd, hi, hk, hvac⟩ := hw
    exact ⟨hd, hi, hk.update (by simp), hvac, by simp [Actor.goto]⟩
  case takePid key i =>
    obtain ⟨hd, hi, hk, hvac, hst⟩ := hw
    exact ⟨hd, hi, hk.update (by simp), hvac, by simp [Actor.goto], by simpa [Actor.goto] using hst⟩
  case takeBump key i =>
    obtain ⟨hd, hi, hk, hvac, hn⟩ := hw
    exact ⟨hd, hi, hk.update (by simp), hvac, by simpa [Actor.Named, Actor.goto] using hn, by simp [u64]⟩
  case takePublish key i tenancy => exact hw.1.2
  case claimState key swept i =>
    obtain ⟨hd, hi, habs⟩ := hw
    split
    · rename_i hst
      exact ⟨hd, hi, habs, hidle i hi fun h => by rw [h] at hst; simp [active, free] at hst⟩
    · exact work_claimAt hd habs
  case claimMark key i =>
    obtain ⟨hd, hi, habs, hvac⟩ := hw
    exact ⟨hd, hi, habs.fill (by simp [claiming, active]), hvac, by simp⟩
  case claimClear key i =>
    obtain ⟨hd, hi, habs, hvac, hst⟩ := hw
    refine ⟨hd, hi, habs.fill ?_, hvac, by simpa using hst, by decide, fun k hk => absurd hk (Nat.not_lt_zero _)⟩
    simp [hst, claiming, active]
  case claimKey key i w =>
    obtain ⟨hd, hi, habs, hvac, hst, hwlt, hkey⟩ := hw
    have hst' : Function.update m (.entry i (.key w)) (bbStoreKey key w) (.entry i .state) = claiming := by
      simpa using hst
    have habs' := habs.fill (f := .key w) (x := bbStoreKey key w) (by rw [hst']; decide)
    have hkey' : ∀ k < w + 1, Function.update m (.entry i (.key w)) (bbStoreKey key w)
        (.entry i (.key k)) = bbStoreKey key k := by
      intro k hk
      rcases Nat.lt_succ_iff_lt_or_eq.mp hk with hk | rfl
      · rw [Function.update_of_ne (by simp; omega)]
        exact hkey k hk
      · simp
    split
    · exact ⟨hd, hi, habs', hvac, hst', ‹_›, hkey'⟩
    · exact ⟨hd, hi, habs', hvac, hst', fun k hk => hkey' k (by omega)⟩
  case claimClock key i => exact hw
  case claimStamp key i now =>
    obtain ⟨hd, hi, habs, hvac, hs⟩ := hw
    exact ⟨hd, hi, habs.fill (hs.not_active (by simp)), hvac, hs.fill (by simp) (by simp)⟩
  case claimStart key i =>
    obtain ⟨hd, hi, habs, hvac, hs⟩ := hw
    exact ⟨hd, hi, habs.fill (hs.not_active (by simp)), hvac, hs.fill (by simp) (by simp), by simp [Actor.goto]⟩
  case claimPid key i =>
    obtain ⟨hd, hi, habs, hvac, hs, hst⟩ := hw
    exact ⟨hd, hi, habs.fill (hs.not_active (by simp)), hvac, hs.fill (by simp) (by simp), by simp [Actor.goto], by simpa [Actor.goto] using hst⟩
  case claimHash key i =>
    obtain ⟨hd, hi, habs, hvac, hs, hn⟩ := hw
    exact ⟨hd, hi, habs.fill (hs.not_active (by simp)), hvac, hs.fill (by simp) (by simp), by simpa [Actor.Named, Actor.goto] using hn, by simp⟩
  case claimBump key i =>
    obtain ⟨hd, hi, habs, hvac, hs, hn, hh⟩ := hw
    exact ⟨hd, hi, habs.fill (hs.not_active (by simp)), hvac, hs.fill (by simp) (by simp), by simpa [Actor.Named, Actor.goto] using hn, by simpa using hh⟩
  case claimActivate key i =>
    obtain ⟨hd, hi, habs, hvac, hs, hn, hh⟩ := hw
    refine ⟨hd, hi, ⟨by simp, by simpa using hh, fun w hw => ?_⟩, hvac, by simpa [Actor.Named, Actor.goto] using hn⟩
    simpa using hs.2 w hw
  case claimTenancy key i => exact hw.1.2
  case notifySeq locked o =>
    cases locked with
    | false => exact hw
    | true =>
      cases o with
      | drop e => exact fun w h => by simpa using hw w h
      | keep | gain | probe => exact hw
  case notifyWaiters locked o =>
    cases locked with
    | false => split <;> first | exact hw | exact work_notified fun e => by cases e
    | true => split <;> exact hw
  case notifyWake locked o =>
    cases locked with
    | false => exact work_notified fun e => by cases e
    | true => exact work_notified fun _ => hw
  case unlock o => exact work_finish
  case writeState w d => split <;> first | exact hw | trivial
  case writeTenancy w d => split <;> first | exact hw | trivial
  case writeOpen w d => exact work_writeWords hw
  case writeWord w d k => exact work_writeWords hw
  case writeLen w d => exact hw
  case writeClock w d => exact hw
  case writeStamp w d now => exact hw
  case writeClose w d now => exact ⟨_, rfl⟩
  case relState w =>
    have hact := (hrel w (by simp [hpc])).1
    rw [if_pos hact]
    exact hw
  case relTenancy w =>
    have hten := (hrel w (by simp [hpc])).2
    rw [if_pos hten]
    exact hw
  case relPid w => exact hw
  case relStart w => exact hw
  case relBump w =>
    intro w' hw'
    obtain rfl : w = w' := by simpa [Actor.goto, hw] using hw'
    have hten := (hrel w (by simp [hpc])).2
    rw [Function.update_self, hten]
    omega
  case resState q => split <;> first | trivial | exact work_seekAt
  case resTenancy q => split <;> first | trivial | exact work_seekAt
  case seekState q => split <;> first | trivial | exact work_seekAt
  case seekHash q => split <;> first | trivial | exact work_seekAt
  case seekTenancy q => trivial
  case seekKey q w => split_ifs <;> first | trivial | exact work_seekAt
  case readTenancy q => split <;> first | trivial | exact work_readRetry
  case readPublish q => split <;> trivial
  case readLen q => exact work_readWords
  case readWord q k => exact work_readWords
  case readStamp q => trivial
  case readPublishAfter q => trivial
  case readTenancyAfter q => split <;> first | trivial | exact work_readRetry
  case entState q => split <;> first | trivial | exact work_listAt
  case entTenancy q => trivial
  case entKey q w => split <;> trivial
  case entPublish q => split <;> trivial
  case entLen q => trivial
  case entStamp q => exact work_listWords
  case entWord q k => exact work_listWords
  case entPublishAfter q => trivial
  case entTenancyAfter q => trivial
  case entStateAfter q => split <;> first | exact work_listed | exact work_listRetry
  case rowPid q => trivial
  case rowStart q pid => exact work_listAt
  case rowProbe done r todo => exact work_probeFrom

/-- What is known under the lock stays known while the guarded words and the vacant entries stay; what
is known outside does not depend on them. -/
theorem Actor.Work.mono {n : Nat} {m' : Loc → Nat} {vac' : Nat → Prop} (h : a.Work n m vac)
    (hin : a.pc.inside = true → (∀ i, vac i → vac' i) ∧
      ∀ i f, f ≠ .publish → m' (.entry i f) = m (.entry i f)) : a.Work n m' vac' := by
  have hsame : (∀ i f, f ≠ .publish → m' (.entry i f) = m (.entry i f)) →
      (∀ i key, Keyed m' i key ↔ Keyed m i key) := fun hm i key =>
    ⟨fun h => ⟨hm i .state (by simp) ▸ h.state, hm i .keyHash (by simp) ▸ h.hash,
      fun w hw => hm i (.key w) (by simp) ▸ h.words w hw⟩,
     fun h => ⟨(hm i .state (by simp)).trans h.state, (hm i .keyHash (by simp)).trans h.hash,
      fun w hw => (hm i (.key w) (by simp)).trans (h.words w hw)⟩⟩
  cases hin' : a.pc.inside with
  | false =>
    cases hpc : a.pc <;> rw [hpc] at hin' <;> simp only [Pc.inside, Bool.true_eq_false] at hin' <;>
      simp only [Actor.Work, hpc] at h ⊢ <;> simp_all
  | true =>
    obtain ⟨hvac, hm⟩ := hin hin'
    have hk := hsame hm
    have habs : ∀ k key, Absent k m' key ↔ Absent k m key := fun k key => by simp only [Absent, hk]
    have hsto : ∀ i key, Stored m' i key ↔ Stored m i key := fun i key => by
      simp only [Stored, hm i .state (by simp), hm i (.key _) (by simp)]
    have hset : ∀ i, Settled m' i ↔ Settled m i := fun i => by
      simp only [Settled, hm i .state (by simp), hm i .keyHash (by simp), hm i .ownerPid (by simp)]
    have hnam : ∀ i, a.Named m' i ↔ a.Named m i := fun i => by
      simp only [Actor.Named, hm i .ownerPid (by simp), hm i .ownerStarttime (by simp)]
    have hsw : ∀ k : SweepFor, k.Ok n m' a ↔ k.Ok n m a := fun k => by
      cases k <;> simp only [SweepFor.Ok, habs]
    have hvis : ∀ v : Visit, v.Ok n m' a ↔ v.Ok n m a := fun v => by
      cases v <;> simp only [Visit.Ok, hsw]
    have hout : ∀ o : Outcome, o.Ok m' a ↔ o.Ok m a := fun o => by
      cases o <;> simp only [Outcome.Ok, hm _ .tenancy (by simp)]
    cases hpc : a.pc <;> rw [hpc] at hin' <;>
      simp only [Pc.inside, Bool.false_eq_true] at hin' <;>
      simp only [Actor.Work, hpc, hk, habs, hsto, hset, hnam, hsw, hvis, hout, hm _ .state (by simp),
        hm _ .keyHash (by simp), hm _ .ownerPid (by simp), hm _ .ownerStarttime (by simp),
        hm _ .tenancy (by simp), hm _ (.key _) (by simp)] at h ⊢ <;>
      first | exact h | grind

end Step

end Kickmsg.Blackboard
