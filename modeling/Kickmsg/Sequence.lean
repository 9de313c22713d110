import Kickmsg.System

/-!
# The order of an entry's sequence words

An entry passes through the words of the positions that map to it: the publisher's lock, its commit, and
the repair lock and skip marker of a steal. `rank` orders them. The lock and commit exchanges always move
an entry up; the two writes of `entry_steal_and_skip` do exactly when the word they replace is not of a
newer position, which nothing in the code ensures.
-/

namespace Kickmsg

open Lib

/-- What a sequence word says about its position. -/
inductive Tag
  | commit
  | skip
  | lock
  | repair
  deriving DecidableEq, Repr

/-- The word of a position. -/
def Tag.word : Tag → Nat → Nat
  | .commit, p => u64 (p + 1)
  | .skip, p => seqSkip p
  | .lock, p => seqLock p
  | .repair, p => seqRepair p

def Tag.locked : Tag → Bool
  | .commit | .skip => false
  | .lock | .repair => true

/-- The rank of a sequence word: `2 q` if it is unlocked and carries `q`, `2 p + 1` for a lock on `p`. -/
def rank (w : Nat) : Nat := if seqIsLocked w then 2 * seqPos w + 1 else 2 * seqPos w

/-- The position a sequence word is of. -/
def wordPos (w : Nat) : Nat := if seqIsLocked w then seqPos w else seqPos w - 1

namespace Tag

variable {k k' : Tag} {p p' : Nat}

/-- The four words as numbers. -/
theorem word_eq (h : p + 1 < 2 ^ 62) : k.word p =
    match k with
    | .commit => p + 1
    | .skip => 2 ^ 62 + (p + 1)
    | .lock => 2 ^ 63 + p
    | .repair => 2 ^ 63 + 2 ^ 62 + p := by
  cases k with
  | commit => exact Nat.mod_eq_of_lt (by omega)
  | skip => exact seqSkip_eq h
  | lock => exact seqLock_eq (by omega)
  | repair => exact seqRepair_eq (by omega)

theorem word_lt (h : p + 1 < 2 ^ 62) : k.word p < 2 ^ 64 := by
  rw [word_eq h]
  cases k <;> simp only <;> omega

theorem word_pos (h : p + 1 < 2 ^ 62) : 0 < k.word p := by
  rw [word_eq h]
  cases k <;> simp only <;> omega

theorem seqIsLocked_word (h : p + 1 < 2 ^ 62) : seqIsLocked (k.word p) = k.locked := by
  rw [seqIsLocked_eq (word_lt h), word_eq h]
  cases k <;> simp only [locked, decide_eq_true_eq, decide_eq_false_iff_not] <;> omega

theorem seqPos_word (h : p + 1 < 2 ^ 62) :
    seqPos (k.word p) = if k.locked then p else p + 1 := by
  rw [seqPos_eq, word_eq h]
  cases k <;> simp only [locked, if_true, Bool.false_eq_true, if_false] <;> omega

theorem rank_word (h : p + 1 < 2 ^ 62) : rank (k.word p) = if k.locked then 2 * p + 1 else 2 * p + 2 := by
  rw [rank, seqIsLocked_word h, seqPos_word h]
  split <;> simp_all
  omega

theorem wordPos_word (h : p + 1 < 2 ^ 62) : wordPos (k.word p) = p := by
  rw [wordPos, seqIsLocked_word h, seqPos_word h]
  split <;> simp_all

/-- A word tells its tag and its position. -/
theorem word_inj (h : p + 1 < 2 ^ 62) (h' : p' + 1 < 2 ^ 62) (e : k.word p = k'.word p') :
    k = k' ∧ p = p' := by
  rw [word_eq h, word_eq h'] at e
  cases k <;> cases k' <;> simp only [true_and, reduceCtorEq, false_and] at e ⊢ <;> omega

end Tag

/-- The word a lock exchange expects is below the lock. -/
theorem rank_le_lock {g : Geometry} {w pos : Nat} (hg : g.Valid) (hp : pos + 1 < 2 ^ 62)
    (hu : seqIsLocked w = false) (ho : seqPos w = Pub.prevSeq g pos) : rank w ≤ rank (Tag.lock.word pos) := by
  have hcap := hg.capacity_pos
  rw [Tag.rank_word hp, rank, hu, ho]
  simp only [Pub.prevSeq, u64, Tag.locked, Bool.false_eq_true, if_false, if_true]
  split <;> omega

/-- A steal's exchange moves the entry up if and only if the word it replaces is not newer. -/
theorem rank_le_repair {g : Geometry} {w pos : Nat} (hg : g.Valid) (hp : pos + 1 < 2 ^ 62)
    (hc : seqIsLocked w = true ∨ u64 (seqPos w + g.subRingCapacity) < u64 (pos + 1)) :
    rank w ≤ rank (Tag.repair.word pos) ↔ wordPos w ≤ pos := by
  have hcap := hg.capacity_pos
  have hlt := hg.capacity_lt
  have hw : seqPos w < 2 ^ 62 := by
    rw [seqPos_eq]
    exact Nat.mod_lt _ (by decide)
  rw [Tag.rank_word hp, rank, wordPos]
  cases hl : seqIsLocked w
  · simp only [hl, Bool.false_eq_true, false_or, u64] at hc
    simp only [Bool.false_eq_true, if_false, Tag.locked, if_true]
    omega
  · simp only [if_true, Tag.locked]
    omega

/-- So does its plain store. -/
theorem rank_le_skip {w pos : Nat} (hp : pos + 1 < 2 ^ 62) :
    rank w ≤ rank (Tag.skip.word pos) ↔ wordPos w ≤ pos := by
  rw [Tag.rank_word hp, rank, wordPos]
  cases hl : seqIsLocked w <;> simp only [Bool.false_eq_true, if_false, Tag.locked, if_true] <;> omega

/-! ## Where positions come from -/

/-- The ring and the position of a publisher that has claimed one. -/
def PubPc.claimed : PubPc → Option (Nat × Nat)
  | .peek d pos | .signalEarly d pos | .waitFirst d pos | .waitLoad d pos _ _
  | .waitClock d pos _ _ _ | .lock d pos _ _ _ | .relook d pos _ _ | .selfRepair d pos _
  | .stealCas d pos _ | .stealSkip d pos | .check d pos | .metaLoad d pos | .metaCas d pos _
  | .releaseSlot d pos _ | .releasePush d pos _ _ | .commit d pos => some (d.i, pos)
  | _ => none

/-- What a publisher has checked of the word it is about to exchange. -/
def PubPc.Checked (g : Geometry) : PubPc → Prop
  | .lock _ pos _ _ observed => seqIsLocked observed = false ∧ seqPos observed = Pub.prevSeq g pos
  | .stealCas _ pos observed =>
    seqIsLocked observed = true ∨ u64 (seqPos observed + g.subRingCapacity) < u64 (pos + 1)
  | _ => True

namespace Pub

section Dispatch

variable {g : Geometry} {u : Pub} {d : Delivery} {pos : Nat}

theorem claimed_finish : (u.finish d).pc.claimed = none := by
  unfold finish
  split_ifs <;> rfl

theorem claimed_ring : (u.ring g d).pc.claimed = none := by
  unfold ring
  split_ifs
  · rfl
  · rfl
  · exact claimed_finish

theorem claimed_nextRing {exc : Bool} : (u.nextRing g d exc).pc.claimed = none := claimed_ring

theorem claimed_tryAdmit {old : Nat} : (u.tryAdmit g d old).pc.claimed = none := by
  unfold tryAdmit
  split_ifs
  · exact claimed_nextRing
  · rfl

theorem claimed_tryLock {w : CommitWait} {a o : Nat} :
    (u.tryLock g d pos w a o).pc.claimed = some (d.i, pos) := by
  unfold tryLock
  split_ifs <;> rfl

theorem claimed_repairWith {w : CommitWait} {seq : Nat} {x : Nat × Nat}
    (h : (u.repairWith g d pos w seq).pc.claimed = some x) : some (d.i, pos) = some x := by
  unfold repairWith at h
  split_ifs at h <;> simp_all [PubPc.claimed]

theorem claimed_tryTake {old : Nat} {x : Nat × Nat}
    (h : (u.tryTake d pos old).pc.claimed = some x) : some (d.i, pos) = some x := by
  unfold tryTake at h
  split_ifs at h <;> simp_all [PubPc.claimed]

theorem claimed_releasePrev {old : Nat} :
    (u.releasePrev g d pos old).pc.claimed = some (d.i, pos) := by
  unfold releasePrev
  split_ifs <;> rfl

theorem checked_finish : (u.finish d).pc.Checked g := by
  unfold finish
  split_ifs <;> trivial

theorem checked_ring : (u.ring g d).pc.Checked g := by
  unfold ring
  split_ifs
  · trivial
  · trivial
  · exact checked_finish

theorem checked_tryAdmit {old : Nat} : (u.tryAdmit g d old).pc.Checked g := by
  unfold tryAdmit
  split_ifs
  · exact checked_ring
  · trivial

theorem checked_tryLock {w : CommitWait} {a o : Nat} : (u.tryLock g d pos w a o).pc.Checked g := by
  unfold tryLock
  split_ifs with _ h
  · trivial
  · exact h
  · trivial
  · trivial

theorem checked_repairWith {w : CommitWait} {seq : Nat} :
    (u.repairWith g d pos w seq).pc.Checked g := by
  unfold repairWith
  split_ifs with h _ h'
  · trivial
  · exact .inl h
  · trivial
  · exact .inr (Nat.lt_of_not_ge h')

theorem checked_tryTake {old : Nat} : (u.tryTake d pos old).pc.Checked g := by
  unfold tryTake
  split_ifs <;> trivial

theorem checked_releasePrev {old : Nat} : (u.releasePrev g d pos old).pc.Checked g := by
  unfold releasePrev
  split_ifs <;> trivial

end Dispatch

/-- A position is claimed by the `fetch_add` and kept until the delivery ends. -/
theorem claimed_resume {g : Geometry} {u : Pub} {r : Resp} {x : Nat × Nat}
    (h : (u.resume g r).pc.claimed = some x) :
    u.pc.claimed = some x ∨ ∃ d, u.pc = .claim d ∧ x = (d.i, r.val) := by
  cases e : u.pc <;> simp only [resume, e] at h
  case idle => exact .inl (e ▸ h)
  case claim d =>
    refine .inr ⟨d, rfl, ?_⟩
    split_ifs at h
    · exact (Option.some.inj h).symm
    · rw [claimed_tryLock] at h
      exact (Option.some.inj h).symm
  case selfRepair d pos w => exact .inl (claimed_repairWith h)
  case metaLoad d pos => exact .inl (claimed_tryTake h)
  case metaCas d pos old =>
    left
    split_ifs at h
    · rwa [claimed_releasePrev] at h
    · exact claimed_tryTake h
  all_goals
    left
    (repeat' split at h) <;>
      first
        | exact h
        | exact claimed_tryLock.symm.trans h
        | cases h
        | cases claimed_ring.symm.trans h
        | cases claimed_tryAdmit.symm.trans h
        | cases claimed_finish.symm.trans h

/-- Every word a publisher is about to exchange has been checked. -/
theorem checked_resume (g : Geometry) (u : Pub) (r : Resp) : (u.resume g r).pc.Checked g := by
  cases e : u.pc <;> simp only [resume, e] <;> (repeat' split) <;>
    first
      | trivial
      | exact checked_ring
      | exact checked_tryAdmit
      | exact checked_tryLock
      | exact checked_repairWith
      | exact checked_tryTake
      | exact checked_releasePrev
      | exact checked_finish

end Pub

/-- A candidate of the grace pass: a locked word at a claimed position. -/
def Candidate.Placed (wpos : Nat → Nat) (c : Candidate) : Prop :=
  c.pos < wpos c.ring ∧ seqIsLocked c.seq = true

/-- Every position a repair pass works on is claimed; `wpos` are the rings' `write_pos`. -/
def RepairPc.Placed (g : Geometry) (wpos : Nat → Nat) : RepairPc → Prop
  | .idle => True
  | .ringPos _ cs => ∀ c ∈ cs, c.Placed wpos
  | .entry i wp pos cs | .stealSkip i wp pos cs | .stealCount i wp pos cs =>
    pos < wp ∧ wp ≤ wpos i ∧ ∀ c ∈ cs, c.Placed wpos
  | .stealCas i wp pos observed cs => (pos < wp ∧ wp ≤ wpos i ∧ ∀ c ∈ cs, c.Placed wpos) ∧
      seqIsLocked observed = false ∧ u64 (seqPos observed + g.subRingCapacity) < u64 (pos + 1)
  | .graceLoad c cs | .graceCas c cs | .graceSkip c cs | .graceCount c cs =>
    c.Placed wpos ∧ ∀ c ∈ cs, c.Placed wpos

namespace Repair

variable {g : Geometry} {wpos wpos' : Nat → Nat} {u : Repair}

theorem Placed.grace {cs : List Candidate} (h : ∀ c ∈ cs, c.Placed wpos) :
    (u.grace cs).pc.Placed g wpos := by
  cases cs with
  | nil => trivial
  | cons c cs => exact ⟨h c List.mem_cons_self, fun c' hc' => h c' (List.mem_cons_of_mem c hc')⟩

theorem Placed.scanRing {i : Nat} {cs : List Candidate} (h : ∀ c ∈ cs, c.Placed wpos) :
    (u.scanRing g i cs).pc.Placed g wpos := by
  unfold Repair.scanRing
  split_ifs
  · exact h
  · exact Placed.grace fun c hc => h c (List.mem_reverse.mp hc)

theorem Placed.scanEntry {i wp pos : Nat} {cs : List Candidate} (hwp : wp ≤ wpos i)
    (h : ∀ c ∈ cs, c.Placed wpos) : (u.scanEntry g i wp pos cs).pc.Placed g wpos := by
  unfold Repair.scanEntry
  split_ifs with hlt
  · exact ⟨hlt, hwp, h⟩
  · exact Placed.scanRing h

/-- A repair pass stays on claimed positions; the `write_pos` it loads is the ring's. -/
theorem Placed.resume {r : Resp} (h : u.pc.Placed g wpos)
    (hr : ∀ i cs, u.pc = .ringPos i cs → r.val ≤ wpos i) : (u.resume g r).pc.Placed g wpos := by
  cases e : u.pc <;> simp only [e, RepairPc.Placed] at h <;> simp only [Repair.resume, e]
  case idle => simp [RepairPc.Placed]
  case ringPos i cs => exact Placed.scanEntry (hr i cs e) h
  case entry i wp pos cs =>
    obtain ⟨hlt, hwp, hcs⟩ := h
    split_ifs with hl hb
    · refine Placed.scanEntry hwp fun c hc => ?_
      rcases List.mem_cons.mp hc with rfl | hc
      · exact ⟨lt_of_lt_of_le hlt hwp, hl⟩
      · exact hcs c hc
    · exact ⟨⟨hlt, hwp, hcs⟩, by simpa using hl, hb⟩
    · exact Placed.scanEntry hwp hcs
  case stealCas i wp pos observed cs =>
    split_ifs
    · exact h.1
    · exact Placed.scanEntry h.1.2.1 h.1.2.2
  case stealSkip i wp pos cs => exact h
  case stealCount i wp pos cs => exact Placed.scanEntry h.2.1 h.2.2
  case graceLoad c cs =>
    split_ifs
    · exact Placed.grace h.2
    · exact h
  case graceCas c cs =>
    split_ifs
    · exact h
    · exact Placed.grace h.2
  case graceSkip c cs => exact h
  case graceCount c cs => exact Placed.grace h.2

end Repair

theorem Candidate.Placed.mono {wpos wpos' : Nat → Nat} {cs : List Candidate}
    (hle : ∀ r, wpos r ≤ wpos' r) (h : ∀ c ∈ cs, c.Placed wpos) : ∀ c ∈ cs, c.Placed wpos' :=
  fun c hc => ⟨lt_of_lt_of_le (h c hc).1 (hle _), (h c hc).2⟩

theorem RepairPc.Placed.mono {g : Geometry} {wpos wpos' : Nat → Nat} {pc : RepairPc}
    (hle : ∀ r, wpos r ≤ wpos' r) (h : pc.Placed g wpos) : pc.Placed g wpos' := by
  have key : ∀ {cs : List Candidate}, (∀ c ∈ cs, c.Placed wpos) → ∀ c ∈ cs, c.Placed wpos' :=
    Candidate.Placed.mono hle
  cases pc with
  | idle => trivial
  | ringPos i cs => exact key h
  | entry i wp pos cs => exact ⟨h.1, h.2.1.trans (hle i), key h.2.2⟩
  | stealCas i wp pos o cs => exact ⟨⟨h.1.1, h.1.2.1.trans (hle i), key h.1.2.2⟩, h.2⟩
  | stealSkip i wp pos cs => exact ⟨h.1, h.2.1.trans (hle i), key h.2.2⟩
  | stealCount i wp pos cs => exact ⟨h.1, h.2.1.trans (hle i), key h.2.2⟩
  | graceLoad c cs => exact ⟨⟨lt_of_lt_of_le h.1.1 (hle _), h.1.2⟩, key h.2⟩
  | graceCas c cs => exact ⟨⟨lt_of_lt_of_le h.1.1 (hle _), h.1.2⟩, key h.2⟩
  | graceSkip c cs => exact ⟨⟨lt_of_lt_of_le h.1.1 (hle _), h.1.2⟩, key h.2⟩
  | graceCount c cs => exact ⟨⟨lt_of_lt_of_le h.1.1 (hle _), h.1.2⟩, key h.2⟩

/-! ## The writers of a sequence word -/

/-- A write of `entry_steal_and_skip` that is about to be made. -/
inductive Steal
  | cas (ring pos observed : Nat)
  | skip (ring pos : Nat)
  deriving DecidableEq, Repr

/-- The write does not replace a word of a newer position than its own. -/
def Steal.forward (g : Geometry) (m : Mem) : Steal → Bool
  | .cas r pos observed =>
    decide (m (.sequence r (g.entryIdx pos)) = observed → wordPos observed ≤ pos)
  | .skip r pos => decide (wordPos (m (.sequence r (g.entryIdx pos))) ≤ pos)

/-- The access that makes the write. -/
def Steal.op (g : Geometry) : Steal → Op
  | .cas r pos observed =>
    .cas false (.sequence r (g.entryIdx pos)) observed (Tag.repair.word pos)
  | .skip r pos => .store (.sequence r (g.entryIdx pos)) (Tag.skip.word pos)

/-- The position is claimed, and an unlocked word is stolen only from a wrap further back. -/
def Steal.Placed (g : Geometry) (wpos : Nat → Nat) : Steal → Prop
  | .cas r pos observed => pos < wpos r ∧
      (seqIsLocked observed = true ∨ u64 (seqPos observed + g.subRingCapacity) < u64 (pos + 1))
  | .skip r pos => pos < wpos r

/-- The entry's next lap has not been claimed yet. -/
def Steal.unlapped (g : Geometry) (m : Mem) : Steal → Bool
  | .cas r pos _ | .skip r pos => decide (m (.writePos r) ≤ pos + g.subRingCapacity)

namespace Local

/-- The steal an actor is about to make: `self_repair`, or a pass of `repair_locked_entries`. -/
def steal : Local → Option Steal
  | .pub u =>
    match u.pc with
    | .stealCas d pos observed => some (.cas d.i pos observed)
    | .stealSkip d pos => some (.skip d.i pos)
    | _ => none
  | .repair u =>
    match u.pc with
    | .stealCas i _ pos observed _ => some (.cas i pos observed)
    | .stealSkip i _ pos _ => some (.skip i pos)
    | .graceCas c _ => some (.cas c.ring c.pos c.seq)
    | .graceSkip c _ => some (.skip c.ring c.pos)
    | _ => none
  | _ => none

/-- The actor works on claimed positions, and has checked the words it is about to exchange. -/
def Placed (g : Geometry) (wpos : Nat → Nat) : Local → Prop
  | .pub u => (∀ r p, u.pc.claimed = some (r, p) → p < wpos r) ∧ u.pc.Checked g
  | .repair u => u.pc.Placed g wpos
  | _ => True

/-- The ways to write a sequence word: the two exchanges of a publication, and a steal. -/
inductive SeqWrite (g : Geometry) (wpos : Nat → Nat) (l : Local) : Op → Prop
  | lock {r pos observed : Nat} (hp : pos < wpos r) (hu : seqIsLocked observed = false)
      (ho : seqPos observed = Pub.prevSeq g pos) (hs : l.steal = none) :
      SeqWrite g wpos l (.cas true (.sequence r (g.entryIdx pos)) observed (Tag.lock.word pos))
  | commit {r pos : Nat} (hp : pos < wpos r) (hs : l.steal = none) :
      SeqWrite g wpos l
        (.cas false (.sequence r (g.entryIdx pos)) (Tag.lock.word pos) (Tag.commit.word pos))
  | steal {w : Steal} (hw : l.steal = some w) : SeqWrite g wpos l (w.op g)

variable {g : Geometry} {wpos : Nat → Nat} {l : Local} {op : Op}

theorem push_target {p : PushPc} {x : Nat} {loc : Loc} (h : (p.request x).target = some loc) :
    loc = .nextFree x ∨ loc = .freeTop := by
  cases p <;> simp [PushPc.request, Op.target] at h
  · exact .inl h.symm
  · exact .inr h.symm

theorem pop_target {p : PopPc} {loc : Loc} (h : p.request.target = some loc) : loc = .freeTop := by
  cases p <;> simp [PopPc.request, Op.target] at h
  exact h.symm

theorem request_of_steal {w : Steal} (h : l.steal = some w) : l.request g = some (w.op g) := by
  cases l with
  | pub u =>
    simp only [steal] at h
    split at h <;> cases h <;> rename_i e <;> simp [request, Pub.request, e, Steal.op, Tag.word]
  | repair u =>
    simp only [steal] at h
    split at h <;> cases h <;> rename_i e <;> simp [request, Repair.request, e, Steal.op, Tag.word]
  | _ => cases h

theorem Placed.steal {w : Steal} (h : l.Placed g wpos) (hw : l.steal = some w) : w.Placed g wpos := by
  cases l with
  | pub u =>
    obtain ⟨hc, hk⟩ := h
    simp only [Local.steal] at hw
    split at hw <;> cases hw <;> rename_i e <;> rw [e] at hc hk
    · exact ⟨hc _ _ rfl, hk⟩
    · exact hc _ _ rfl
  | repair u =>
    simp only [Local.steal] at hw
    split at hw <;> cases hw <;> rename_i e <;> simp only [Placed, e, RepairPc.Placed] at h
    · exact ⟨lt_of_lt_of_le h.1.1 h.1.2.1, .inr h.2.2⟩
    · exact lt_of_lt_of_le h.1 h.2.1
    · exact ⟨h.1.1, .inl h.1.2⟩
    · exact h.1.1
  | _ => cases hw

/-- Only publishers and repair passes write sequence words. -/
theorem seq_actor {r i : Nat} (hop : l.request g = some op) (ht : op.target = some (.sequence r i)) :
    (∃ u, l = .pub u) ∨ ∃ u, l = .repair u := by
  cases l with
  | pub u => exact .inl ⟨u, rfl⟩
  | repair u => exact .inr ⟨u, rfl⟩
  | sub u =>
    exfalso
    cases e : u.pc <;> simp only [request, Sub.request, e, Option.some.injEq, reduceCtorEq] at hop <;>
      subst hop <;> simp only [Op.target, Option.some.injEq, reduceCtorEq] at ht <;>
      (have ht' := push_target ht; simp at ht')
  | view pc =>
    exfalso
    cases pc <;> simp only [request, ViewPc.request, Option.some.injEq, reduceCtorEq] at hop <;>
      subst hop <;> simp only [Op.target, Option.some.injEq, reduceCtorEq] at ht
    have := push_target ht; simp at this
  | reclaim u =>
    exfalso
    cases e : u.pc <;> simp only [request, Reclaim.request, e, Option.some.injEq, reduceCtorEq] at hop <;>
      subst hop <;> simp only [Op.target, Option.some.injEq, reduceCtorEq] at ht
  | orphan u =>
    exfalso
    cases e : u.pc <;> simp only [request, Orphan.request, e, Option.some.injEq, reduceCtorEq] at hop <;>
      subst hop <;> simp only [Op.target, Option.some.injEq, reduceCtorEq] at ht
    have := push_target ht; simp at this

/-- What they write. -/
theorem seq_cases {r i : Nat} (h : l.Placed g wpos) (hop : l.request g = some op)
    (ht : op.target = some (.sequence r i)) : l.SeqWrite g wpos op := by
  rcases seq_actor hop ht with ⟨u, rfl⟩ | ⟨u, rfl⟩
  · obtain ⟨hc, hk⟩ := h
    cases e : u.pc <;> simp only [request, Pub.request, e, Option.some.injEq, reduceCtorEq] at hop <;>
      subst hop <;> simp only [Op.target, Option.some.injEq, reduceCtorEq] at ht
    case lock d pos w a o =>
      rw [e] at hk
      exact .lock (hc _ _ (by rw [e]; rfl)) hk.1 hk.2 (by simp [steal, e])
    case stealCas d pos o => exact .steal (w := .cas d.i pos o) (by simp [steal, e])
    case stealSkip d pos => exact .steal (w := .skip d.i pos) (by simp [steal, e])
    case commit d pos => exact .commit (hc _ _ (by rw [e]; rfl)) (by simp [steal, e])
    all_goals
      first
        | have := push_target ht; simp at this
        | have := pop_target ht; simp at this
  · cases e : u.pc <;> simp only [request, Repair.request, e, Option.some.injEq, reduceCtorEq] at hop <;>
      subst hop <;> simp only [Op.target, Option.some.injEq, reduceCtorEq] at ht <;>
      simp only [Placed, e, RepairPc.Placed] at h
    case stealCas i wp pos o cs => exact .steal (w := .cas i pos o) (by simp [steal, e])
    case stealSkip i wp pos cs => exact .steal (w := .skip i pos) (by simp [steal, e])
    case graceCas c cs => exact .steal (w := .cas c.ring c.pos c.seq) (by simp [steal, e])
    case graceSkip c cs => exact .steal (w := .skip c.ring c.pos) (by simp [steal, e])

/-- Only a publisher's `fetch_add` moves a `write_pos`. -/
theorem writePos_cases {r : Nat} (hop : l.request g = some op) (ht : op.target = some (.writePos r)) :
    ∃ u d, l = .pub u ∧ u.pc = .claim d ∧ d.i = r ∧ op = .fetchAdd (.writePos r) 1 := by
  cases l with
  | pub u =>
    cases e : u.pc <;> simp only [request, Pub.request, e, Option.some.injEq, reduceCtorEq] at hop <;>
      subst hop <;> simp only [Op.target, Option.some.injEq, reduceCtorEq, Loc.writePos.injEq] at ht
    case claim d => exact ⟨u, d, rfl, e, ht, by rw [ht]⟩
    all_goals
      first
        | have := push_target ht; simp at this
        | have := pop_target ht; simp at this
  | repair u =>
    exfalso
    cases e : u.pc <;> simp only [request, Repair.request, e, Option.some.injEq, reduceCtorEq] at hop <;>
      subst hop <;> simp only [Op.target, Option.some.injEq, reduceCtorEq] at ht
  | sub u =>
    exfalso
    cases e : u.pc <;> simp only [request, Sub.request, e, Option.some.injEq, reduceCtorEq] at hop <;>
      subst hop <;> simp only [Op.target, Option.some.injEq, reduceCtorEq] at ht <;>
      (have ht' := push_target ht; simp at ht')
  | view pc =>
    exfalso
    cases pc <;> simp only [request, ViewPc.request, Option.some.injEq, reduceCtorEq] at hop <;>
      subst hop <;> simp only [Op.target, Option.some.injEq, reduceCtorEq] at ht
    have := push_target ht; simp at this
  | reclaim u =>
    exfalso
    cases e : u.pc <;> simp only [request, Reclaim.request, e, Option.some.injEq, reduceCtorEq] at hop <;>
      subst hop <;> simp only [Op.target, Option.some.injEq, reduceCtorEq] at ht
  | orphan u =>
    exfalso
    cases e : u.pc <;> simp only [request, Orphan.request, e, Option.some.injEq, reduceCtorEq] at hop <;>
      subst hop <;> simp only [Op.target, Option.some.injEq, reduceCtorEq] at ht
    have := push_target ht; simp at this

theorem Placed.mono {wpos' : Nat → Nat} (hle : ∀ r, wpos r ≤ wpos' r) (h : l.Placed g wpos) :
    l.Placed g wpos' := by
  cases l with
  | pub u => exact ⟨fun r p hp => lt_of_lt_of_le (h.1 r p hp) (hle r), h.2⟩
  | repair u => exact RepairPc.Placed.mono hle h
  | _ => trivial

/-- An actor stays on claimed positions: what a `fetch_add` of `write_pos` returns is claimed with it,
and a `write_pos` that was loaded is the ring's. -/
theorem Placed.resume {r : Resp} (h : l.Placed g wpos)
    (hclaim : ∀ i, op = .fetchAdd (.writePos i) 1 → r.val < wpos i)
    (hload : ∀ i, op = .load (.writePos i) → r.val ≤ wpos i) (hop : l.request g = some op) :
    (l.resume g r).Placed g wpos := by
  cases l with
  | pub u =>
    refine ⟨fun i p hp => ?_, Pub.checked_resume g u r⟩
    rcases Pub.claimed_resume hp with hp | ⟨d, hd, hx⟩
    · exact h.1 i p hp
    · obtain ⟨rfl, rfl⟩ := Prod.mk.inj hx
      simp only [request, Pub.request, hd, Option.some.injEq] at hop
      exact hclaim _ hop.symm
  | repair u =>
    refine Repair.Placed.resume h fun i cs hi => hload i ?_
    simp only [request, Repair.request, hi, Option.some.injEq] at hop
    exact hop.symm
  | _ => trivial

theorem Placed.call {l' : Local} {c : Call} (hc : l.call g c = some l') : l'.Placed g wpos := by
  rcases call_pass hc with ⟨u, rfl⟩ | ⟨u, rfl⟩ | ⟨u, -, -, rfl⟩ | ⟨u, -, -, -, rfl⟩ |
    ⟨u, -, -, -, rfl⟩
  · obtain ⟨hidle, u', rfl, hu'⟩ := call_pub hc
    rcases hu' with ⟨n, rfl⟩ | ⟨x, k, n, -, rfl⟩ | ⟨-, rfl⟩ | ⟨x, len, -, -, -, rfl⟩ <;>
      simp [Placed, PubPc.claimed, PubPc.Checked, hidle]
  · obtain ⟨u', rfl, -⟩ := call_sub hc
    trivial
  · exact Repair.Placed.scanRing fun c hc => absurd hc List.not_mem_nil
  · trivial
  · trivial

theorem Fresh.placed {pid st : Nat} (h : l.Fresh pid st) : l.Placed g wpos := by
  cases l with
  | pub u =>
    obtain ⟨-, -, hpc⟩ := h
    simp [Placed, hpc, PubPc.claimed, PubPc.Checked]
  | repair u =>
    simp only [Fresh] at h
    simp [Placed, h, RepairPc.Placed]
  | _ => trivial

end Local

namespace Sys

variable {ι : Type}

/-- Fewer than `n` positions are claimed on a ring. -/
def claimsBelow (n : Nat) (s : Sys ι) : Label ι → Bool
  | .run t _ =>
    match s.th t with
    | .pub u =>
      match u.pc with
      | .claim d => decide (s.mem (.writePos d.i) + 1 < n)
      | _ => true
    | _ => true
  | _ => true

/-- The positions claimed fit the position field of a sequence word. -/
def inRange (s : Sys ι) (l : Label ι) : Bool := s.claimsBelow (2 ^ 62) l

/-- A steal that is about to write satisfies `P`. -/
def stealing (P : Steal → Bool) (s : Sys ι) : Label ι → Bool
  | .run t _ =>
    match (s.th t).steal with
    | some w => P w
    | none => true
  | _ => true

/-- No steal replaces a word of a newer position than its own. -/
def forward (g : Geometry) (s : Sys ι) : Label ι → Bool := s.stealing (Steal.forward g s.mem)

/-- No steal writes after the next lap of its entry has begun. -/
def unlapped (g : Geometry) (s : Sys ι) : Label ι → Bool := s.stealing (Steal.unlapped g s.mem)

def wpos (s : Sys ι) : Nat → Nat := fun r => s.mem (.writePos r)

/-- Every sequence word is of a claimed position of its entry, and so is whatever the actors hold. -/
structure Sequenced (g : Geometry) (s : Sys ι) : Prop where
  wpos_lt : ∀ r, s.wpos r < 2 ^ 62
  word : ∀ r i, s.mem (.sequence r i) = 0 ∨
    ∃ (k : Tag) (p : Nat), p < s.wpos r ∧ g.entryIdx p = i ∧ s.mem (.sequence r i) = k.word p
  placed : ∀ t, (s.th t).Placed g s.wpos

section Access

variable {g : Geometry} {s : Sys ι}

/-- One access moves a `write_pos` by nothing, or by the claim of one position. -/
theorem wpos_run {n : Nat} (hn : n ≤ 2 ^ 64) {t : ι} {c : Bool} {op : Op}
    (hop : (s.th t).request g = some op) (hr : s.claimsBelow n (.run t c) = true) (r : Nat) :
    (op ≠ .fetchAdd (.writePos r) 1 ∧ (op.exec s.procs s.mem c).1 (.writePos r) = s.wpos r) ∨
      (op = .fetchAdd (.writePos r) 1 ∧
        (op.exec s.procs s.mem c).1 (.writePos r) = s.wpos r + 1 ∧ s.wpos r + 1 < n) := by
  by_cases ht : op.target = some (.writePos r)
  · right
    obtain ⟨u, d, hu, hd, rfl, rfl⟩ := Local.writePos_cases hop ht
    simp only [claimsBelow, hu, hd, decide_eq_true_eq] at hr
    refine ⟨rfl, ?_, hr⟩
    simp only [Op.exec, Function.update_self, Loc.modulus]
    exact Nat.mod_eq_of_lt (by omega)
  · left
    refine ⟨?_, Op.exec_frame _ _ _ _ ht⟩
    rintro rfl
    exact ht rfl

theorem wpos_run_le {n : Nat} (hn : n ≤ 2 ^ 64) {t : ι} {c : Bool} {op : Op}
    (hop : (s.th t).request g = some op) (hr : s.claimsBelow n (.run t c) = true) (r : Nat) :
    s.wpos r ≤ (op.exec s.procs s.mem c).1 (.writePos r) := by
  rcases wpos_run hn hop hr r with ⟨-, h⟩ | ⟨-, h, -⟩ <;> omega

/-- What one access does to a sequence word: nothing, or one of the four writes. -/
theorem sequence_run {t : ι} {c : Bool} {op : Op} (hs : Sequenced g s)
    (hop : (s.th t).request g = some op) (r i : Nat) :
    (op.exec s.procs s.mem c).1 (.sequence r i) = s.mem (.sequence r i) ∨
      ∃ pos, pos < s.wpos r ∧ g.entryIdx pos = i ∧
        (((s.th t).steal = none ∧ seqIsLocked (s.mem (.sequence r i)) = false ∧
            seqPos (s.mem (.sequence r i)) = Pub.prevSeq g pos ∧
            (op.exec s.procs s.mem c).1 (.sequence r i) = Tag.lock.word pos) ∨
          ((s.th t).steal = none ∧ s.mem (.sequence r i) = Tag.lock.word pos ∧
            (op.exec s.procs s.mem c).1 (.sequence r i) = Tag.commit.word pos) ∨
          ((s.th t).steal = some (.cas r pos (s.mem (.sequence r i))) ∧
            (seqIsLocked (s.mem (.sequence r i)) = true ∨
              u64 (seqPos (s.mem (.sequence r i)) + g.subRingCapacity) < u64 (pos + 1)) ∧
            (op.exec s.procs s.mem c).1 (.sequence r i) = Tag.repair.word pos) ∨
          ((s.th t).steal = some (.skip r pos) ∧
            (op.exec s.procs s.mem c).1 (.sequence r i) = Tag.skip.word pos)) := by
  by_cases ht : op.target = some (.sequence r i)
  · have hw := Local.seq_cases (hs.placed t) hop ht
    cases hw with
    | @lock r' pos o hp hu ho hst =>
      obtain ⟨rfl, rfl⟩ : r' = r ∧ g.entryIdx pos = i := by simpa [Op.target] using ht
      rcases Op.exec_cas s.procs s.mem c true (.sequence r' (g.entryIdx pos)) o (Tag.lock.word pos) with
        ⟨rfl, he⟩ | he
      · rw [he]
        exact .inr ⟨pos, hp, rfl, .inl ⟨hst, hu, ho, Function.update_self ..⟩⟩
      · rw [he]
        exact .inl rfl
    | @commit r' pos hp hst =>
      obtain ⟨rfl, rfl⟩ : r' = r ∧ g.entryIdx pos = i := by simpa [Op.target] using ht
      rcases Op.exec_cas s.procs s.mem c false (.sequence r' (g.entryIdx pos)) (Tag.lock.word pos)
        (Tag.commit.word pos) with ⟨ho, he⟩ | he
      · rw [he]
        exact .inr ⟨pos, hp, rfl, .inr (.inl ⟨hst, ho, Function.update_self ..⟩)⟩
      · rw [he]
        exact .inl rfl
    | @steal w hst =>
      have hw := (hs.placed t).steal hst
      cases w with
      | cas r' pos o =>
        obtain ⟨rfl, rfl⟩ : r' = r ∧ g.entryIdx pos = i := by simpa [Steal.op, Op.target] using ht
        rcases Op.exec_cas s.procs s.mem c false (.sequence r' (g.entryIdx pos)) o
          (Tag.repair.word pos) with ⟨rfl, he⟩ | he
        · rw [Steal.op, he]
          exact .inr ⟨pos, hw.1, rfl, .inr (.inr (.inl ⟨hst, hw.2, Function.update_self ..⟩))⟩
        · rw [Steal.op, he]
          exact .inl rfl
      | skip r' pos =>
        obtain ⟨rfl, rfl⟩ : r' = r ∧ g.entryIdx pos = i := by simpa [Steal.op, Op.target] using ht
        exact .inr ⟨pos, hw, rfl, .inr (.inr (.inr ⟨hst, Function.update_self ..⟩))⟩
  · exact .inl (Op.exec_frame _ _ _ _ ht)

/-- A word of an entry whose next lap is unclaimed is not newer than the lap's position. -/
theorem wordPos_le_of_unlapped (hg : g.Valid) (h : Sequenced g s) {r pos : Nat}
    (hu : s.wpos r ≤ pos + g.subRingCapacity) :
    wordPos (s.mem (.sequence r (g.entryIdx pos))) ≤ pos := by
  rcases h.word r (g.entryIdx pos) with h0 | ⟨k, p, hp, hi, hk⟩
  · rw [h0]
    exact Nat.zero_le pos
  · have hlt := h.wpos_lt r
    rw [hk, Tag.wordPos_word (by omega)]
    rw [hg.entryIdx_eq, hg.entryIdx_eq] at hi
    by_contra hgt
    -- two positions of one entry are a multiple of the capacity apart
    have hd := Nat.dvd_of_mod_eq_zero (Nat.sub_mod_eq_zero_of_mod_eq hi)
    have := Nat.le_of_dvd (by omega) hd
    omega

end Access

variable [DecidableEq ι] {g : Geometry} {proc : ι → Nat × Nat} {s s' : Sys ι}

omit [DecidableEq ι] in
theorem sequenced_init (hg : g.Valid) (h : Init g proc s) : Sequenced g s where
  wpos_lt r := by
    rw [wpos, h.mem, stampNewRegion_zero hg (by simp) (by simp)]
    decide
  word r i := by
    left
    rw [h.mem, stampNewRegion_zero hg (by simp) (by simp)]
  placed t := (h.th t).placed

theorem Sequenced.run {t : ι} {c : Bool} (h : Sequenced g s)
    (hs : s.next g proc (.run t c) = some s') (hr : s.inRange (.run t c) = true) : Sequenced g s' := by
  obtain ⟨-, op, hop, rfl⟩ := run_cases hs
  have hle := wpos_run_le (by decide) hop hr
  refine ⟨fun r => ?_, fun r i => ?_, forall_update (fun v => (h.placed v).mono hle) ?_⟩
  · rcases wpos_run (by decide) hop hr r with ⟨-, e⟩ | ⟨-, e, hlt⟩
    · exact lt_of_eq_of_lt e (h.wpos_lt r)
    · exact lt_of_eq_of_lt e hlt
  · rcases sequence_run (c := c) h hop r i with e | ⟨pos, hp, hi, hw⟩
    · rcases h.word r i with h0 | ⟨k, p, hp, hi, hk⟩
      · exact .inl (e.trans h0)
      · exact .inr ⟨k, p, lt_of_lt_of_le hp (hle r), hi, e.trans hk⟩
    · have hp' := lt_of_lt_of_le hp (hle r)
      rcases hw with ⟨-, -, -, e⟩ | ⟨-, -, e⟩ | ⟨-, -, e⟩ | ⟨-, e⟩
      · exact .inr ⟨.lock, pos, hp', hi, e⟩
      · exact .inr ⟨.commit, pos, hp', hi, e⟩
      · exact .inr ⟨.repair, pos, hp', hi, e⟩
      · exact .inr ⟨.skip, pos, hp', hi, e⟩
  · refine ((h.placed t).mono hle).resume (fun i hi => ?_) (fun i hi => ?_) hop
    · rcases wpos_run (by decide) hop hr i with ⟨hne, -⟩ | ⟨-, e, -⟩
      · exact absurd hi hne
      · subst hi
        exact lt_of_lt_of_eq (Nat.lt_succ_self _) e.symm
    · subst hi
      exact le_rfl

theorem Sequenced.next {l : Label ι} (h : Sequenced g s) (hs : s.next g proc l = some s')
    (hr : s.inRange l = true) : Sequenced g s' := by
  cases l with
  | run t c => exact h.run hs hr
  | call t c =>
    obtain ⟨-, l, hl, rfl⟩ := call_cases hs
    exact ⟨h.wpos_lt, h.word, forall_update h.placed (Local.Placed.call hl)⟩
  | destroy t v k =>
    obtain ⟨-, u, w, ht, hv, hw, rfl⟩ := destroy_cases hs
    exact ⟨h.wpos_lt, h.word, forall_update (forall_update h.placed (t := t) (a := .sub _) trivial)
      trivial⟩
  | write t off byte =>
    obtain ⟨-, u, slot, -, -, -, -, rfl⟩ := write_cases hs
    exact ⟨h.wpos_lt, h.word, h.placed⟩
  | exit pid =>
    obtain ⟨st, -, rfl⟩ := exit_cases hs
    exact ⟨h.wpos_lt, h.word, h.placed⟩
  | spawn pid st =>
    obtain ⟨-, rfl⟩ := spawn_cases hs
    exact ⟨h.wpos_lt, h.word, h.placed⟩

/-- Only an access changes a word. -/
theorem mem_eq_of_next {l : Label ι} (hs : s.next g proc l = some s') (hl : ∀ t c, l ≠ .run t c) :
    s'.mem = s.mem := by
  cases l with
  | run t c => exact absurd rfl (hl t c)
  | call t c =>
    obtain ⟨-, l, hl, rfl⟩ := call_cases hs
    rfl
  | destroy t v k =>
    obtain ⟨-, u, w, ht, hv, hw, rfl⟩ := destroy_cases hs
    rfl
  | write t off byte =>
    obtain ⟨-, u, slot, -, -, -, -, rfl⟩ := write_cases hs
    rfl
  | exit pid =>
    obtain ⟨st, -, rfl⟩ := exit_cases hs
    rfl
  | spawn pid st =>
    obtain ⟨-, rfl⟩ := spawn_cases hs
    rfl

theorem sequenced_reach {ok : Sys ι → Label ι → Sys ι → Prop} (hg : g.Valid)
    (hok : ∀ s l s', ok s l s' → s.inRange l = true) (h : (machine g proc).Reach ok s) :
    Sequenced g s :=
  h.invariant (fun _ h0 => sequenced_init hg h0) fun s l s' hI hs ho => hI.next hs (hok s l s' ho)

omit [DecidableEq ι] in
/-- What a steal that succeeds replaces is not newer, if the order is kept. -/
theorem forward_of_rank_le (hg : g.Valid) (h : Sequenced g s) {t : ι} {c : Bool} {w : Steal}
    (hw : (s.th t).steal = some w)
    (hle : ∀ r i, rank (s.mem (.sequence r i)) ≤
      rank (((w.op g).exec s.procs s.mem c).1 (.sequence r i))) : w.forward g s.mem = true := by
  have hp := (h.placed t).steal hw
  cases w with
  | cas r pos o =>
    have := h.wpos_lt r
    simp only [Steal.forward, decide_eq_true_eq]
    rintro rfl
    have hle := hle r (g.entryIdx pos)
    simp only [Steal.op, Op.exec, Bool.false_eq_true, false_and, not_false_eq_true, and_self, if_true,
      Function.update_self] at hle
    exact (rank_le_repair hg (by have := hp.1; omega) hp.2).mp hle
  | skip r pos =>
    have := h.wpos_lt r
    simp only [Steal.forward, decide_eq_true_eq]
    have hle := hle r (g.entryIdx pos)
    simp only [Steal.op, Op.exec, Function.update_self] at hle
    exact (rank_le_skip (by simp only [Steal.Placed] at hp; omega)).mp hle

/-- One step keeps the order of the sequence words if and only if it is not a steal that replaces a
newer word. -/
theorem rank_next (hg : g.Valid) (h : Sequenced g s) {l : Label ι}
    (hs : s.next g proc l = some s') :
    (∀ r i, rank (s.mem (.sequence r i)) ≤ rank (s'.mem (.sequence r i))) ↔ s.forward g l = true := by
  by_cases hl : ∃ t c, l = .run t c
  · obtain ⟨t, c, rfl⟩ := hl
    obtain ⟨-, op, hop, rfl⟩ := run_cases hs
    constructor
    · intro hle
      cases hw : (s.th t).steal with
      | none => simp [forward, stealing, hw]
      | some w =>
        obtain rfl : w.op g = op := Option.some.inj ((Local.request_of_steal hw).symm.trans hop)
        simpa only [forward, stealing, hw] using forward_of_rank_le hg h hw hle
    · intro hf r i
      show _ ≤ rank ((op.exec s.procs s.mem c).1 (.sequence r i))
      rcases sequence_run (c := c) h hop r i with e | ⟨pos, hp, rfl, hw⟩
      · exact le_of_eq (congrArg rank e).symm
      · have hp' : pos + 1 < 2 ^ 62 := by
          have := h.wpos_lt r
          omega
        rcases hw with ⟨-, hu, ho, e⟩ | ⟨-, ho, e⟩ | ⟨hst, hc, e⟩ | ⟨hst, e⟩
        · exact e ▸ rank_le_lock hg hp' hu ho
        · rw [e, ho, Tag.rank_word hp', Tag.rank_word hp']
          simp [Tag.locked]
        · simp only [forward, stealing, hst, Steal.forward, forall_const, decide_eq_true_eq] at hf
          exact e ▸ (rank_le_repair hg hp' hc).mpr hf
        · simp only [forward, stealing, hst, Steal.forward, decide_eq_true_eq] at hf
          exact e ▸ (rank_le_skip hp').mpr hf
  · have hm := mem_eq_of_next hs fun t c e => hl ⟨t, c, e⟩
    have hf : s.forward g l = true := by
      cases l with
      | run t c => exact absurd ⟨t, c, rfl⟩ hl
      | _ => rfl
    simp [hm, hf]

omit [DecidableEq ι] in
/-- A steal made before the entry's next lap is claimed replaces nothing newer. -/
theorem forward_of_unlapped (hg : g.Valid) (h : Sequenced g s) {l : Label ι}
    (hu : s.unlapped g l = true) : s.forward g l = true := by
  cases l with
  | run t c =>
    simp only [unlapped, forward, stealing] at hu ⊢
    cases hw : (s.th t).steal with
    | none => rfl
    | some w =>
      simp only [hw] at hu
      cases w with
      | cas r pos o =>
        simp only [Steal.unlapped, decide_eq_true_eq] at hu
        simp only [Steal.forward, decide_eq_true_eq]
        rintro rfl
        exact wordPos_le_of_unlapped hg h hu
      | skip r pos =>
        simp only [Steal.unlapped, decide_eq_true_eq] at hu
        simp only [Steal.forward, decide_eq_true_eq]
        exact wordPos_le_of_unlapped hg h hu
  | _ => rfl

/-- The steps of a run in which fewer than `2 ^ 62` positions are claimed on a ring and no steal
replaces a newer word. -/
def ordered (g : Geometry) (s : Sys ι) (l : Label ι) : Bool := s.inRange l && s.forward g l

/-- The order is kept along a run whose steps keep it. -/
theorem rank_le_of_play (hg : g.Valid) {ok : Sys ι → Label ι → Bool}
    (hok : ∀ s l, Sequenced g s → ok s l = true → s.inRange l = true ∧ s.forward g l = true) :
    ∀ ls (s s' : Sys ι), Sequenced g s → LTS.play (next g proc) ok s ls = some s' →
      ∀ r i, rank (s.mem (.sequence r i)) ≤ rank (s'.mem (.sequence r i)) := by
  intro ls
  induction ls with
  | nil =>
    intro s s' _ hp r i
    simp only [LTS.play, Option.some.injEq] at hp
    rw [hp]
  | cons l ls ih =>
    intro s s' hS hp r i
    simp only [LTS.play] at hp
    split_ifs at hp with ho
    obtain ⟨s₁, hs₁, hp⟩ := Option.bind_eq_some_iff.mp hp
    obtain ⟨hr, hf⟩ := hok s l hS ho
    have h1 := (rank_next hg hS hs₁).mpr hf r i
    exact h1.trans (ih s₁ s' (hS.next hs₁ hr) hp r i)

/-- Along such a run the order is kept; a step keeps it only if it is such a step; a steal that its entry's
next lap has not overtaken always is, and so a run keeps the order in which no steal has been overtaken. -/
theorem rank_mono_of_ordered (hg : g.Valid)
    (h : (machine g proc).Reach (fun s l _ => s.inRange l = true) s) :
    (∀ ls s', LTS.play (next g proc) (ordered g) s ls = some s' →
      ∀ r i, rank (s.mem (.sequence r i)) ≤ rank (s'.mem (.sequence r i))) ∧
    (∀ l s', s.next g proc l = some s' →
      ((∀ r i, rank (s.mem (.sequence r i)) ≤ rank (s'.mem (.sequence r i))) ↔
        s.forward g l = true)) ∧
    (∀ l, s.unlapped g l = true → s.forward g l = true) ∧
    ∀ ls s', LTS.play (next g proc) (fun s l => s.inRange l && s.unlapped g l) s ls = some s' →
      ∀ r i, rank (s.mem (.sequence r i)) ≤ rank (s'.mem (.sequence r i)) := by
  have hS := sequenced_reach hg (fun _ _ _ ho => ho) h
  refine ⟨fun ls s' => rank_le_of_play hg (fun x l _ ho => ?_) ls s s' hS,
    fun l s' hs => rank_next hg hS hs, fun l hu => forward_of_unlapped hg hS hu,
    fun ls s' => rank_le_of_play hg (fun x l hx ho => ?_) ls s s' hS⟩
  · simpa only [ordered, Bool.and_eq_true] using ho
  · rw [Bool.and_eq_true] at ho
    exact ⟨ho.1, forward_of_unlapped hg hx ho.2⟩

/-- Publisher 0 has published position 0, a repair pass has loaded `write_pos`, and publisher 0 goes on to
lock position 2, the next lap of the same entry. -/
def overtaken : List (Label (Fin 9)) :=
  .call 3 (.join false) :: runs 3 5 ++ .call 0 .allocate :: runs 0 3 ++
    .call 0 (.publish 1) :: runs 0 12 ++ .call 6 .repairLockedEntries :: runs 6 1 ++
    .call 0 .allocate :: runs 0 3 ++ .call 0 (.publish 1) :: runs 0 12 ++
    .call 0 .allocate :: runs 0 3 ++ .call 0 (.publish 1) :: runs 0 8

/-- Every further step of `overtaken` is classified; the pass's load of the entry is one that keeps the
order. -/
theorem rank_mono_of_ordered_overtaken : ∃ s : Sys (Fin 9),
    (machine smallGeometry crewProc).Reach (fun s l _ => s.inRange l = true) s ∧
      s.mem (.sequence 0 0) = seqLock 2 ∧
      (∀ ls s', LTS.play (next smallGeometry crewProc) (ordered smallGeometry) s ls = some s' →
        ∀ r i, rank (s.mem (.sequence r i)) ≤ rank (s'.mem (.sequence r i))) ∧
      (∀ l s', s.next smallGeometry crewProc l = some s' →
        ((∀ r i, rank (s.mem (.sequence r i)) ≤ rank (s'.mem (.sequence r i))) ↔
          s.forward smallGeometry l = true)) ∧
      (∀ l, s.unlapped smallGeometry l = true → s.forward smallGeometry l = true) ∧
      ∀ ls s', LTS.play (next smallGeometry crewProc)
        (fun s l => s.inRange l && s.unlapped smallGeometry l) s ls = some s' →
        ∀ r i, rank (s.mem (.sequence r i)) ≤ rank (s'.mem (.sequence r i)) := by
  have h0 : (machine smallGeometry crewProc).Reach (fun s l _ => s.inRange l = true)
      (crew smallGeometry) := .init (init_crew smallGeometry)
  obtain ⟨s, hs, hP⟩ := h0.play_any overtaken
    (fun s => decide (s.mem (.sequence 0 0) = seqLock 2)) (by decide +kernel)
  exact ⟨s, hs, by simpa using hP, rank_mono_of_ordered valid_smallGeometry hs⟩

/-- The pass finds the lock on position 2, waits its grace period, and replaces it by its own lock on
position 0. -/
theorem rank_decreases_of_overtaken : ∃ s s' : Sys (Fin 9),
    (machine smallGeometry crewProc).Reach (fun s l _ => s.inRange l = true) s ∧
      s.next smallGeometry crewProc (.run 6 false) = some s' ∧
      rank (s'.mem (.sequence 0 0)) < rank (s.mem (.sequence 0 0)) := by
  have h0 : (machine smallGeometry crewProc).Reach (fun s l _ => s.inRange l = true)
      (crew smallGeometry) := .init (init_crew smallGeometry)
  obtain ⟨s, hs, hP⟩ := h0.play_any (overtaken ++ runs 6 2)
    (fun s => (s.next smallGeometry crewProc (.run 6 false)).any fun s' =>
      decide (rank (s'.mem (.sequence 0 0)) < rank (s.mem (.sequence 0 0)))) (by decide +kernel)
  obtain ⟨s', hs', hlt⟩ := (Option.any_eq_true _ _).mp hP
  exact ⟨s, s', hs, hs', by simpa using hlt⟩

end Sys

end Kickmsg
