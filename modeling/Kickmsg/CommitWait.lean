import Kickmsg.Sequence

/-!
# Waiting for the previous wrap

A publisher that claimed position `pos` may lock its entry once the occupant of the previous wrap has
committed. Without steals nobody else can move the entry on from there: a publisher of a later wrap waits
for `pos`, and one of an earlier wrap is done. So what the look before `wait_for_commit` finds resolved is
still resolved at the first load inside it, and a publisher that owes a `signal()` does not block.
-/

namespace Kickmsg

open Lib

/-- The ring and the position of a publisher that has not locked its entry yet. -/
def PubPc.contending : PubPc → Option (Nat × Nat)
  | .peek d pos | .signalEarly d pos | .waitFirst d pos | .waitLoad d pos _ _ | .waitClock d pos _ _ _
  | .lock d pos _ _ _ | .relook d pos _ _ => some (d.i, pos)
  | _ => none

theorem PubPc.claimed_of_contending {pc : PubPc} {x : Nat × Nat} (h : pc.contending = some x) :
    pc.claimed = some x := by
  cases pc <;> simp_all [PubPc.contending, PubPc.claimed]

/-- The position of a publisher that has not loaded the word of its entry inside `wait_for_commit`. -/
def PubPc.wrapped : PubPc → Option Nat
  | .peek _ pos | .signalEarly _ pos | .waitFirst _ pos => some pos
  | _ => none

/-- The blocking part of `wait_for_commit`: the first load has found the entry unresolved. -/
def PubPc.blocking : PubPc → Option Delivery
  | .waitLoad d _ _ _ | .waitClock d _ _ _ _ => some d
  | _ => none

namespace Pub

variable {g : Geometry} {u : Pub} {op : Op} {a : Resp}

section Dispatch

variable {d : Delivery} {pos : Nat}

theorem contending_finish : (u.finish d).pc.contending = none := by
  unfold finish
  split_ifs <;> rfl

theorem contending_ring : (u.ring g d).pc.contending = none := by
  unfold ring
  split_ifs
  · rfl
  · rfl
  · exact contending_finish

theorem contending_tryAdmit {old : Nat} : (u.tryAdmit g d old).pc.contending = none := by
  unfold tryAdmit
  split_ifs
  · exact contending_ring
  · rfl

theorem contending_tryLock {w : CommitWait} {n o : Nat} {x : Nat × Nat}
    (h : (u.tryLock g d pos w n o).pc.contending = some x) : (d.i, pos) = x := by
  unfold tryLock at h
  split_ifs at h <;> simp_all [PubPc.contending]

theorem contending_repairWith {w : CommitWait} {seq : Nat} :
    (u.repairWith g d pos w seq).pc.contending = none := by
  unfold repairWith
  split_ifs <;> rfl

theorem contending_tryTake {old : Nat} : (u.tryTake d pos old).pc.contending = none := by
  unfold tryTake
  split_ifs <;> rfl

theorem contending_releasePrev {old : Nat} : (u.releasePrev g d pos old).pc.contending = none := by
  unfold releasePrev
  split_ifs <;> rfl

theorem blocking_tryLock {w : CommitWait} {n o : Nat} : (u.tryLock g d pos w n o).pc.blocking = none := by
  unfold tryLock
  split_ifs <;> rfl

theorem tryLock_ne_waitFirst {w : CommitWait} {n o : Nat} {d' : Delivery} {pos' : Nat} :
    (u.tryLock g d pos w n o).pc ≠ .waitFirst d' pos' := by
  unfold tryLock
  split_ifs <;> exact PubPc.noConfusion

theorem ne_waitFirst_of_contending {pc : PubPc} (h : pc.contending = none) : pc ≠ .waitFirst d pos := by
  rintro rfl
  cases h

theorem wrapped_tryLock {w : CommitWait} {n o : Nat} : (u.tryLock g d pos w n o).pc.wrapped = none := by
  unfold tryLock
  split_ifs <;> rfl

theorem wrapped_of_contending {pc : PubPc} (h : pc.contending = none) : pc.wrapped = none := by
  cases pc <;> simp_all [PubPc.contending, PubPc.wrapped]

theorem blocking_of_contending {pc : PubPc} (h : pc.contending = none) : pc.blocking = none := by
  cases pc <;> simp_all [PubPc.contending, PubPc.blocking]

end Dispatch

@[simp]
theorem resume_backend (g : Geometry) (u : Pub) (r : Resp) : (u.resume g r).backend = u.backend := by
  have hring : ∀ d, (u.ring g d).backend = u.backend := fun d => by
    unfold ring finish
    split_ifs <;> rfl
  cases e : u.pc <;> simp only [resume, e] <;> (repeat' split) <;>
    first
      | rfl
      | exact hring _
      | (unfold tryAdmit; split_ifs; exacts [hring _, rfl])
      | (unfold tryLock; split_ifs <;> rfl)
      | (unfold repairWith; split_ifs <;> rfl)
      | (unfold tryTake; split_ifs <;> rfl)
      | (unfold releasePrev; split_ifs <;> rfl)
      | (unfold finish; split_ifs <;> rfl)

/-- A publisher contends from its claim on, until it has locked its entry or given it up. -/
theorem contending_resume {x : Nat × Nat} (h : (u.resume g a).pc.contending = some x) :
    (u.pc.contending = some x ∧ ((∃ d pos w n o, u.pc = .lock d pos w n o) → a.ok = false)) ∨
      ∃ d, u.pc = .claim d ∧ x = (d.i, a.val) := by
  cases e : u.pc <;> simp only [resume, e] at h
  case idle => simp [PubPc.contending] at h
  case claim d =>
    refine .inr ⟨d, rfl, ?_⟩
    split_ifs at h
    · exact (Option.some.inj h).symm
    · exact (contending_tryLock h).symm
  case lock d pos w n o =>
    split_ifs at h with hok
    · cases h
    · exact .inl ⟨congrArg some (contending_tryLock h), fun _ => by simpa using hok⟩
  all_goals
    first
      | (left
         refine ⟨?_, by simp⟩
         (repeat' split at h) <;>
           first
             | exact h
             | exact congrArg some (contending_tryLock h))
      | (exfalso
         (repeat' split at h) <;>
           first
             | cases h
             | cases contending_ring.symm.trans h
             | cases contending_tryAdmit.symm.trans h
             | cases contending_repairWith.symm.trans h
             | cases contending_tryTake.symm.trans h
             | cases contending_releasePrev.symm.trans h
             | cases contending_finish.symm.trans h)

/-- Only a position past the first wrap has a previous occupant. -/
theorem wrapped_resume {pos : Nat} (h : (u.resume g a).pc.wrapped = some pos) :
    u.pc.wrapped = some pos ∨ g.subRingCapacity ≤ pos := by
  cases e : u.pc <;> simp only [resume, e] at h
  case idle => simp [PubPc.wrapped] at h
  case claim d =>
    split_ifs at h with hcap
    · obtain rfl : a.val = pos := by simpa [PubPc.wrapped] using h
      exact .inr hcap
    · cases wrapped_tryLock.symm.trans h
  all_goals
    first
      | (left
         (repeat' split at h) <;>
           first
             | exact h
             | cases wrapped_tryLock.symm.trans h)
      | (exfalso
         (repeat' split at h) <;>
           first
             | cases h
             | cases wrapped_tryLock.symm.trans h
             | cases (wrapped_of_contending contending_ring).symm.trans h
             | cases (wrapped_of_contending contending_tryAdmit).symm.trans h
             | cases (wrapped_of_contending contending_repairWith).symm.trans h
             | cases (wrapped_of_contending contending_tryTake).symm.trans h
             | cases (wrapped_of_contending contending_releasePrev).symm.trans h
             | cases (wrapped_of_contending contending_finish).symm.trans h)

/-- The blocking part is entered from the first load, if that finds the entry unresolved. -/
theorem blocking_resume {d : Delivery} (h : (u.resume g a).pc.blocking = some d) :
    u.pc.blocking = some d ∨
      ∃ pos, u.pc = .waitFirst d pos ∧ resolved a.val (prevSeq g pos) = false := by
  cases e : u.pc <;> simp only [resume, e] at h
  case idle => simp [PubPc.blocking] at h
  case waitFirst d' pos =>
    split_ifs at h with hres
    · cases blocking_tryLock.symm.trans h
    · obtain rfl : d' = d := by simpa [PubPc.blocking] using h
      exact .inr ⟨pos, rfl, by simpa using hres⟩
  all_goals
    first
      | (left
         (repeat' split at h) <;>
           first
             | exact h
             | cases blocking_tryLock.symm.trans h)
      | (exfalso
         (repeat' split at h) <;>
           first
             | cases h
             | cases blocking_tryLock.symm.trans h
             | cases (blocking_of_contending contending_ring).symm.trans h
             | cases (blocking_of_contending contending_tryAdmit).symm.trans h
             | cases (blocking_of_contending contending_repairWith).symm.trans h
             | cases (blocking_of_contending contending_tryTake).symm.trans h
             | cases (blocking_of_contending contending_releasePrev).symm.trans h
             | cases (blocking_of_contending contending_finish).symm.trans h)

/-- `wait_for_commit` is entered by a publisher that owes a `signal()` only past a resolved entry. -/
theorem waitFirst_resume {d : Delivery} {pos : Nat} (h : (u.resume g a).pc = .waitFirst d pos) :
    (u.pc = .peek d pos ∧ (d.carrier = true → u.backend = true → resolved a.val (prevSeq g pos) = true)) ∨
      d.carrier = false := by
  cases e : u.pc <;> simp only [resume, e] at h
  case peek d' pos' =>
    split_ifs at h with hif
    obtain ⟨rfl, rfl⟩ : d' = d ∧ pos' = pos := by simpa using h
    refine .inl ⟨rfl, fun hc hb => ?_⟩
    by_contra hres
    exact hif ⟨by simpa using hres, hc, hb⟩
  case signalEarly d' pos' =>
    obtain ⟨rfl, -⟩ : { d' with carrier := false } = d ∧ pos' = pos := by simpa using h
    exact .inr rfl
  all_goals
    exfalso
    (repeat' split at h) <;>
      first
        | cases h
        | exact tryLock_ne_waitFirst h
        | exact ne_waitFirst_of_contending contending_ring h
        | exact ne_waitFirst_of_contending contending_tryAdmit h
        | exact ne_waitFirst_of_contending contending_repairWith h
        | exact ne_waitFirst_of_contending contending_tryTake h
        | exact ne_waitFirst_of_contending contending_releasePrev h
        | exact ne_waitFirst_of_contending contending_finish h

/-- What a publisher that steals nothing writes into a sequence word: a lock, or a commit. -/
theorem seq_write {r i : Nat} (hop : u.request g = some op) (ht : op.target = some (.sequence r i))
    (hs : (Local.pub u).steal = none) :
    (∃ d pos w n o, u.pc = .lock d pos w n o ∧ d.i = r ∧ g.entryIdx pos = i ∧
        op = .cas true (.sequence r i) o (Tag.lock.word pos)) ∨
      ∃ d pos, u.pc = .commit d pos ∧ d.i = r ∧ g.entryIdx pos = i ∧
        op = .cas false (.sequence r i) (Tag.lock.word pos) (Tag.commit.word pos) := by
  cases e : u.pc <;> simp only [request, e, Option.some.injEq, reduceCtorEq] at hop <;> subst hop <;>
    simp only [Op.target, Option.some.injEq, reduceCtorEq, Loc.sequence.injEq] at ht
  case lock d pos w n o =>
    obtain ⟨rfl, rfl⟩ := ht
    exact .inl ⟨d, pos, w, n, o, rfl, rfl, rfl, rfl⟩
  case commit d pos =>
    obtain ⟨rfl, rfl⟩ := ht
    exact .inr ⟨d, pos, rfl, rfl, rfl, rfl⟩
  case stealCas | stealSkip => simp [Local.steal, e] at hs
  case releasePending s k p => exact absurd (Local.push_target ht) (by simp)
  case releasePush d pos idx p => exact absurd (Local.push_target ht) (by simp)
  case excessPush d p => exact absurd (Local.push_target ht) (by simp)
  case allocate p => exact absurd (Local.pop_target ht) (by simp)

end Pub

/-- Only a publisher writes a sequence word without stealing. -/
theorem Local.seq_unstolen {g : Geometry} {l : Local} {op : Op} {r i : Nat} (hop : l.request g = some op)
    (ht : op.target = some (.sequence r i)) (hs : l.steal = none) : ∃ u, l = .pub u := by
  rcases seq_actor hop ht with h | ⟨u, rfl⟩
  · exact h
  · exfalso
    cases e : u.pc <;> simp only [request, Repair.request, e, Option.some.injEq, reduceCtorEq] at hop <;>
      subst hop <;> simp only [Op.target, Option.some.injEq, reduceCtorEq] at ht
    all_goals simp [steal, e] at hs

namespace Sys

variable {ι : Type}

/-- What holds of the publishers in a run without steals. -/
structure Unstolen (g : Geometry) (s : Sys ι) : Prop where
  /-- a position is claimed by one -/
  unique : ∀ p q u w x, s.th p = .pub u → s.th q = .pub w → u.pc.claimed = some x →
    w.pc.claimed = some x → p = q
  /-- the entry that one contends for holds a word of an earlier position -/
  below : ∀ p u r pos, s.th p = .pub u → u.pc.contending = some (r, pos) →
    s.mem (.sequence r (g.entryIdx pos)) = 0 ∨ ∃ (k : Tag) (p' : Nat), p' < pos ∧
      g.entryIdx p' = g.entryIdx pos ∧ s.mem (.sequence r (g.entryIdx pos)) = k.word p'
  wrapped : ∀ p u pos, s.th p = .pub u → u.pc.wrapped = some pos → g.subRingCapacity ≤ pos
  /-- one that owes a `signal()` stands before a resolved entry -/
  resolved : ∀ p u d pos, s.th p = .pub u → u.pc = .waitFirst d pos → d.carrier = true →
    u.backend = true → Pub.resolved (s.mem (.sequence d.i (g.entryIdx pos))) (Pub.prevSeq g pos) = true
  /-- so it does not block -/
  blocking : ∀ p u d, s.th p = .pub u → u.pc.blocking = some d → d.carrier = false ∨ u.backend = false

section Access

variable {g : Geometry} {s : Sys ι}

/-- Two positions of one entry are a wrap apart. -/
theorem wrap_le (hg : g.Valid) {a b : Nat} (h : g.entryIdx a = g.entryIdx b) (hlt : a < b) :
    a + g.subRingCapacity ≤ b := by
  rw [hg.entryIdx_eq, hg.entryIdx_eq] at h
  have hd := Nat.dvd_of_mod_eq_zero (Nat.sub_mod_eq_zero_of_mod_eq h.symm)
  have := Nat.le_of_dvd (by omega) hd
  omega

theorem prevSeq_eq {pos : Nat} (hlt : pos + 1 < 2 ^ 62) (hcap : g.subRingCapacity ≤ pos) :
    Pub.prevSeq g pos = pos - g.subRingCapacity + 1 := by
  unfold Pub.prevSeq u64
  rw [if_pos hcap, Nat.mod_eq_of_lt (by omega)]

/-- An access without a steal leaves a sequence word alone, or is the lock or the commit of the publisher
that claimed the position. -/
theorem unstolen_run (h : Sequenced g s) {v : ι} {op : Op} {c : Bool}
    (hop : (s.th v).request g = some op) (hs : (s.th v).steal = none) (r i : Nat) :
    (op.exec s.procs s.mem c).1 (.sequence r i) = s.mem (.sequence r i) ∨
      ∃ u pos, s.th v = .pub u ∧ u.pc.claimed = some (r, pos) ∧ g.entryIdx pos = i ∧
        ((seqIsLocked (s.mem (.sequence r i)) = false ∧
            seqPos (s.mem (.sequence r i)) = Pub.prevSeq g pos ∧
            (op.exec s.procs s.mem c).1 (.sequence r i) = Tag.lock.word pos ∧
            (∃ d w n o, u.pc = .lock d pos w n o) ∧ (op.exec s.procs s.mem c).2.ok = true) ∨
          (s.mem (.sequence r i) = Tag.lock.word pos ∧ u.pc.contending = none ∧
            (op.exec s.procs s.mem c).1 (.sequence r i) = Tag.commit.word pos)) := by
  by_cases ht : op.target = some (.sequence r i)
  · obtain ⟨u, hu⟩ := Local.seq_unstolen hop ht hs
    have hpl := h.placed v
    rw [hu] at hop hs hpl
    rcases Pub.seq_write hop ht hs with ⟨d, pos, w, n, o, hpc, rfl, rfl, rfl⟩ | ⟨d, pos, hpc, rfl, rfl, rfl⟩
    · rcases Op.exec_cas s.procs s.mem c true (.sequence d.i (g.entryIdx pos)) o (Tag.lock.word pos) with
        ⟨hm, he⟩ | he
      · have hck := hpl.2
        rw [hpc] at hck
        rw [he]
        exact .inr ⟨u, pos, hu, by rw [hpc]; rfl, rfl, .inl ⟨by rw [hm]; exact hck.1,
          by rw [hm]; exact hck.2, by simp, ⟨d, w, n, o, hpc⟩, rfl⟩⟩
      · rw [he]
        exact .inl rfl
    · rcases Op.exec_cas s.procs s.mem c false (.sequence d.i (g.entryIdx pos)) (Tag.lock.word pos)
        (Tag.commit.word pos) with ⟨hm, he⟩ | he
      · rw [he]
        exact .inr ⟨u, pos, hu, by rw [hpc]; rfl, rfl, .inr ⟨hm, by rw [hpc]; rfl, by simp⟩⟩
      · rw [he]
        exact .inl rfl
  · exact .inl (Op.exec_frame _ _ _ _ ht)

/-- Whoever else locks the entry that a publisher contends for is of an earlier wrap. -/
theorem Unstolen.lock_lt (hg : g.Valid) (h : Unstolen g s) (hseq : Sequenced g s) {p v : ι} {u w : Pub}
    {r pos pos' : Nat} (hu : s.th p = .pub u) (hc : u.pc.contending = some (r, pos))
    (hw : s.th v = .pub w) (hcl : w.pc.claimed = some (r, pos')) (hne : p ≠ v)
    (hi : g.entryIdx pos' = g.entryIdx pos)
    (hun : seqIsLocked (s.mem (.sequence r (g.entryIdx pos))) = false)
    (hprev : seqPos (s.mem (.sequence r (g.entryIdx pos))) = Pub.prevSeq g pos') :
    pos' + g.subRingCapacity ≤ pos := by
  have hbound : ∀ {t : ι} {y : Pub} {q : Nat}, s.th t = .pub y → y.pc.claimed = some (r, q) →
      q + 1 < 2 ^ 62 := by
    intro t y q hy hq
    have hpl := hseq.placed t
    rw [hy] at hpl
    have := hpl.1 r q hq
    have := hseq.wpos_lt r
    omega
  have hb := hbound hu (PubPc.claimed_of_contending hc)
  have hb' := hbound hw hcl
  rcases Nat.lt_trichotomy pos' pos with hlt | heq | hgt
  · exact wrap_le hg hi hlt
  · exact absurd (h.unique p v u w (r, pos) hu hw (PubPc.claimed_of_contending hc) (heq ▸ hcl)) hne
  · -- it would wait for `pos` itself
    exfalso
    have hwrap := wrap_le hg hi.symm hgt
    rw [prevSeq_eq hb' (by omega)] at hprev
    rcases h.below p u r pos hu hc with h0 | ⟨k, p', hlt, -, hk⟩
    · rw [h0] at hprev
      have hz : seqPos 0 = 0 := by decide
      omega
    · rw [hk, Tag.seqIsLocked_word (by omega)] at hun
      rw [hk, Tag.seqPos_word (by omega), hun] at hprev
      simp only [Bool.false_eq_true, if_false] at hprev
      omega

variable [DecidableEq ι] {proc : ι → Nat × Nat} {v : ι} {op : Op} {c : Bool}

/-- A publisher after an access, and before. -/
theorem pub_of_ran {p : ι} {u' : Pub} (h : (s.ran g v op c).th p = .pub u') :
    (p ≠ v ∧ s.th p = .pub u') ∨
      (p = v ∧ ∃ u, s.th v = .pub u ∧ u' = u.resume g (op.exec s.procs s.mem c).2) := by
  by_cases hpv : p = v
  · subst hpv
    refine .inr ⟨rfl, ?_⟩
    simp only [ran, Function.update_self] at h
    cases hu : s.th p with
    | pub u =>
      rw [hu] at h
      exact ⟨u, rfl, (Local.pub.inj h).symm⟩
    | _ =>
      rw [hu] at h
      cases h
  · exact .inl ⟨hpv, by simpa [ran, Function.update_of_ne hpv] using h⟩

/-- The word of the entry that a publisher other than the one that moves contends for. -/
theorem Unstolen.below_other (hg : g.Valid) (h : Unstolen g s) (hseq : Sequenced g s)
    (hop : (s.th v).request g = some op) (hs : (s.th v).steal = none) {p : ι} {u : Pub} {r pos : Nat}
    (hpv : p ≠ v) (hu : s.th p = .pub u) (hc : u.pc.contending = some (r, pos)) :
    (s.ran g v op c).mem (.sequence r (g.entryIdx pos)) = 0 ∨ ∃ (k : Tag) (p' : Nat), p' < pos ∧
      g.entryIdx p' = g.entryIdx pos ∧ (s.ran g v op c).mem (.sequence r (g.entryIdx pos)) = k.word p' := by
  rcases unstolen_run hseq (c := c) hop hs r (g.entryIdx pos) with
    heq | ⟨w, pos', hw, hcl, hi, ⟨hun, hprev, hlock, -, -⟩ | ⟨hlocked, -, hcommit⟩⟩
  · simp only [ran, heq]
    exact h.below p u r pos hu hc
  · have hle := h.lock_lt hg hseq hu hc hw hcl hpv hi hun hprev
    have := hg.capacity_pos
    exact .inr ⟨.lock, pos', by omega, hi, hlock⟩
  · have hpl := hseq.placed v
    rw [hw] at hpl
    have hlt' := hpl.1 r pos' hcl
    have hlt := hseq.wpos_lt r
    have hplp := hseq.placed p
    rw [hu] at hplp
    have hltp := hplp.1 r pos (PubPc.claimed_of_contending hc)
    refine .inr ⟨.commit, pos', ?_, hi, hcommit⟩
    rcases h.below p u r pos hu hc with h0 | ⟨k, p', hp', -, hk⟩
    · have := Tag.word_pos (k := .lock) (p := pos') (by omega)
      omega
    · obtain ⟨-, rfl⟩ := Tag.word_inj (by omega) (by omega) (hlocked.symm.trans hk)
      exact hp'

theorem Unstolen.run (hg : g.Valid) (h : Unstolen g s) (hseq : Sequenced g s)
    (hop : (s.th v).request g = some op) (hs : (s.th v).steal = none) :
    Unstolen g (s.ran g v op c) := by
  -- a claimed position was claimed before, or is the one just handed out
  have hclaims : ∀ {p : ι} {u' : Pub} {x : Nat × Nat}, (s.ran g v op c).th p = .pub u' →
      u'.pc.claimed = some x → (∃ u, s.th p = .pub u ∧ u.pc.claimed = some x) ∨
        (p = v ∧ s.wpos x.1 = x.2) := by
    intro p u' x hu' hx
    rcases pub_of_ran hu' with ⟨hpv, hu⟩ | ⟨rfl, u, hu, rfl⟩
    · exact .inl ⟨u', hu, hx⟩
    · rcases Pub.claimed_resume hx with hold | ⟨d, hd, rfl⟩
      · exact .inl ⟨u, hu, hold⟩
      · refine .inr ⟨rfl, ?_⟩
        rw [hu] at hop
        obtain rfl : op = .fetchAdd (.writePos d.i) 1 := by
          simpa [Local.request, Pub.request, hd] using hop.symm
        rfl
  have hold : ∀ {p : ι} {u : Pub} {r q : Nat}, s.th p = .pub u → u.pc.claimed = some (r, q) →
      q < s.wpos r := by
    intro p u r q hu hx
    have hpl := hseq.placed p
    rw [hu] at hpl
    exact hpl.1 r q hx
  refine ⟨fun p q u w x hu hw hpx hqx => ?_, fun p u' r pos hu' hc => ?_, fun p u' pos hu' hwr => ?_,
    fun p u' d pos hu' hpc hcar hb => ?_, fun p u' d hu' hbl => ?_⟩
  · rcases hclaims hu hpx with ⟨u₀, hu₀, hx₀⟩ | ⟨rfl, hnew⟩ <;>
      rcases hclaims hw hqx with ⟨w₀, hw₀, hy₀⟩ | ⟨rfl, hnew'⟩
    · exact h.unique p q u₀ w₀ x hu₀ hw₀ hx₀ hy₀
    · exact absurd hnew' (hold (r := x.1) (q := x.2) hu₀ hx₀).ne'
    · exact absurd hnew (hold (r := x.1) (q := x.2) hw₀ hy₀).ne'
    · rfl
  · rcases pub_of_ran hu' with ⟨hpv, hu⟩ | ⟨rfl, u, hu, rfl⟩
    · exact h.below_other hg hseq hop hs hpv hu hc
    · rcases Pub.contending_resume hc with ⟨hc₀, hfail⟩ | ⟨d, hd, hx⟩
      · rcases unstolen_run hseq (c := c) hop hs r (g.entryIdx pos) with
          heq | ⟨w, pos', hw, -, -, ⟨-, -, -, ⟨d, cw, n, o, hlock⟩, hok⟩ | ⟨-, hnone, -⟩⟩
        · simp only [ran, heq]
          exact h.below p u r pos hu hc₀
        · obtain rfl : w = u := by
            rw [hu] at hw
            exact (Local.pub.inj hw).symm
          rw [hfail ⟨d, pos', cw, n, o, hlock⟩] at hok
          cases hok
        · obtain rfl : w = u := by
            rw [hu] at hw
            exact (Local.pub.inj hw).symm
          rw [hnone] at hc₀
          cases hc₀
      · rw [hu] at hop
        obtain rfl : op = .fetchAdd (.writePos d.i) 1 := by
          simpa [Local.request, Pub.request, hd] using hop.symm
        obtain ⟨rfl, rfl⟩ := Prod.mk.inj hx
        simp only [ran]
        rw [Op.exec_frame _ _ _ _ (by simp [Op.target])]
        exact hseq.word d.i _
  · rcases pub_of_ran hu' with ⟨hpv, hu⟩ | ⟨rfl, u, hu, rfl⟩
    · exact h.wrapped p u' pos hu hwr
    · exact (Pub.wrapped_resume hwr).elim (h.wrapped p u pos hu) id
  · rcases pub_of_ran hu' with ⟨hpv, hu⟩ | ⟨rfl, u, hu, rfl⟩
    · have hc : u'.pc.contending = some (d.i, pos) := by
        rw [hpc]
        rfl
      have hres := h.resolved p u' d pos hu hpc hcar hb
      rcases unstolen_run hseq (c := c) hop hs d.i (g.entryIdx pos) with
        heq | ⟨w, pos', hw, hcl, hi, ⟨hun, hprev, -, -, -⟩ | ⟨hlocked, -, -⟩⟩
      · simp only [ran, heq]
        exact hres
      · exfalso
        have hle := h.lock_lt hg hseq hu hc hw hcl hpv hi hun hprev
        have hcap := h.wrapped p u' pos hu (by rw [hpc]; rfl)
        have hcap0 := hg.capacity_pos
        have hlt := hold hu (PubPc.claimed_of_contending hc)
        have hbound := hseq.wpos_lt d.i
        simp only [Pub.resolved, Bool.and_eq_true, decide_eq_true_eq, hprev,
          prevSeq_eq (show pos + 1 < 2 ^ 62 by omega) hcap] at hres
        have := hres.2
        unfold Pub.prevSeq u64 at this
        split_ifs at this <;> omega
      · exfalso
        have hlt := hold hw hcl
        have hbound := hseq.wpos_lt d.i
        simp only [Pub.resolved, Bool.and_eq_true, hlocked,
          Tag.seqIsLocked_word (show pos' + 1 < 2 ^ 62 by omega)] at hres
        cases hres.1
    · rw [Pub.resume_backend] at hb
      rcases Pub.waitFirst_resume hpc with ⟨hpeek, hres⟩ | hno
      · rw [hu] at hop
        obtain rfl : op = .load (.sequence d.i (g.entryIdx pos)) := by
          simpa [Local.request, Pub.request, hpeek] using hop.symm
        exact hres hcar hb
      · rw [hno] at hcar
        cases hcar
  · rcases pub_of_ran hu' with ⟨hpv, hu⟩ | ⟨rfl, u, hu, rfl⟩
    · exact h.blocking p u' d hu hbl
    · rw [Pub.resume_backend]
      rcases Pub.blocking_resume hbl with hbl₀ | ⟨pos, hfirst, hun⟩
      · exact h.blocking p u d hu hbl₀
      · by_contra hnot
        rw [not_or, Bool.not_eq_false, Bool.not_eq_false] at hnot
        have hres := h.resolved p u d pos hu hfirst hnot.1 hnot.2
        rw [hu] at hop
        obtain rfl : op = .load (.sequence d.i (g.entryIdx pos)) := by
          simpa [Local.request, Pub.request, hfirst] using hop.symm
        exact Bool.false_ne_true (hun.symm.trans hres)

end Access

end Sys

end Kickmsg
