import Kickmsg.CommitWait
import Kickmsg.Lib.Trace

/-!
# A lock that has not moved is stale

`wait_for_commit` and the grace pass of `repair_locked_entries` look at a sequence word twice and conclude from
two equal samples that the publisher lock in it never moved. They may: the lock word of a position is stored by
the publisher that claimed the position, once, so a lock that has gone never comes back. For the same reason
the commit of a holder whose lock was stolen fails.
-/

namespace Kickmsg

open Lib

/-- Among the words of claimed positions, only the publisher lock of `p` is `seq_lock(p)`. -/
theorem Tag.word_eq_seqLock {k : Tag} {p q : Nat} (hq : q + 1 < 2 ^ 62) (hp : p < 2 ^ 62)
    (h : k.word q = seqLock p) : k = .lock ∧ q = p := by
  rw [Tag.word_eq hq, seqLock_eq (by omega)] at h
  cases k
  all_goals
    simp only at h
    first
      | exact ⟨rfl, by omega⟩
      | omega

namespace Local

/-- What an actor has claimed is logged under its name. -/
def Logged {ι : Type} (log : Nat → Nat → Option (ι × Msg)) (t : ι) : Local → Prop
  | .pub u => ∀ r p, u.pc.claimed = some (r, p) → ∃ m, log r p = some (t, m)
  | _ => True

theorem Logged.call {ι : Type} {log : Nat → Nat → Option (ι × Msg)} {t : ι} {g : Geometry} {l l' : Local}
    {c : Call} (hc : l.call g c = some l') : l'.Logged log t := by
  rcases call_pass hc with ⟨u, rfl⟩ | ⟨u, rfl⟩ | ⟨u, -, -, rfl⟩ | ⟨u, -, -, -, rfl⟩ | ⟨u, -, -, -, rfl⟩
  · obtain ⟨hidle, u', rfl, hu'⟩ := call_pub hc
    rcases hu' with ⟨n, rfl⟩ | ⟨x, k, n, -, rfl⟩ | ⟨-, rfl⟩ | ⟨x, len, -, -, -, rfl⟩ <;>
      simp [Logged, PubPc.claimed, hidle]
  · obtain ⟨u', rfl, -⟩ := call_sub hc
    trivial
  · trivial
  · trivial
  · trivial

end Local

namespace Sys

variable {ι : Type}

/-! ## Who claimed a position -/

/-- The log names the claimant of every claimed position. -/
structure Logged (s : Sys ι) : Prop where
  below : ∀ r p, s.ghost.log r p ≠ none → p < s.wpos r
  claimed : ∀ t, (s.th t).Logged s.ghost.log t

variable [DecidableEq ι] {g : Geometry} {proc : ι → Nat × Nat} {s s' : Sys ι}

omit [DecidableEq ι] in
theorem logged_init (h : Init g proc s) : Logged s where
  below r p hp := absurd (h.log r p) hp
  claimed t := by
    have hf := h.th t
    cases hl : s.th t with
    | pub u =>
      rw [hl] at hf
      simp [Local.Logged, hf.2.2, PubPc.claimed]
    | _ => trivial

/-- An access logs the position that it claims, and nothing else. -/
theorem log_run {t : ι} {c : Bool} {op : Op} (hop : (s.th t).request g = some op) (r p : Nat) :
    (s.ran g t op c).ghost.log r p = s.ghost.log r p ∨
      (op = .fetchAdd (.writePos r) 1 ∧ p = s.wpos r ∧
        (s.ran g t op c).ghost.log r p = some (t, s.ghost.msg t)) := by
  by_cases ht : op.target = some (.writePos r)
  · obtain ⟨u, d, hu, hd, rfl, rfl⟩ := Local.writePos_cases hop ht
    by_cases hp : p = s.wpos d.i
    · subst hp
      exact .inr ⟨rfl, rfl, by simp [ran, Ghost.after, Ghost.logAfter, Op.exec, wpos]⟩
    · exact .inl (by simp [ran, Ghost.after, Ghost.logAfter, Op.exec, show p ≠ s.mem (.writePos d.i) from hp])
  · left
    simp only [ran, Ghost.after, Ghost.logAfter]
    split
    · rename_i i k
      have hi : r ≠ i := by
        rintro rfl
        exact ht rfl
      rw [Function.update_of_ne hi]
    · rfl

theorem Logged.run {t : ι} {c : Bool} (h : Logged s)
    (hs : s.next g proc (.run t c) = some s') (hr : s.inRange (.run t c) = true) : Logged s' := by
  obtain ⟨-, op, hop, rfl⟩ := ran_cases hs
  have hle := wpos_run_le (by decide) hop hr
  have hkeep : ∀ v r p m, s.ghost.log r p = some (v, m) → ∃ m', (s.ran g t op c).ghost.log r p = some (v, m') := by
    intro v r p m hlog
    rcases log_run (c := c) hop r p with e | ⟨-, hp, -⟩
    · exact ⟨m, e.trans hlog⟩
    · exact absurd (h.below r p (by rw [hlog]; simp)) (by omega)
  refine ⟨fun r p hp => ?_, fun v => ?_⟩
  · rcases log_run (c := c) hop r p with e | ⟨rfl, rfl, -⟩
    · exact (h.below r p (e ▸ hp)).trans_le (hle r)
    · rcases wpos_run (by decide) hop hr r with ⟨hne, -⟩ | ⟨-, e, -⟩
      · exact absurd rfl hne
      · exact lt_of_lt_of_eq (Nat.lt_succ_self _) e.symm
  · cases hl : (s.ran g t op c).th v with
    | pub u' =>
      intro r p hc
      rcases pub_of_ran hl with ⟨-, hu⟩ | ⟨rfl, u, hu, rfl⟩
      · have hv := h.claimed v
        rw [hu] at hv
        obtain ⟨m, hm⟩ := hv r p hc
        exact hkeep v r p m hm
      · rcases Pub.claimed_resume hc with hc | ⟨d, hd, hx⟩
        · have hv := h.claimed v
          rw [hu] at hv
          obtain ⟨m, hm⟩ := hv r p hc
          exact hkeep v r p m hm
        · obtain ⟨rfl, rfl⟩ := Prod.mk.inj hx
          rw [hu] at hop
          obtain rfl : op = .fetchAdd (.writePos d.i) 1 := by
            simpa [Local.request, Pub.request, hd] using hop.symm
          exact ⟨s.ghost.msg v, by simp [ran, Ghost.after, Ghost.logAfter, Op.exec]⟩
    | _ => trivial

/-- Only an access claims a position. -/
theorem Logged.next {l : Label ι} (h : Logged s) (hs : s.next g proc l = some s')
    (hr : s.inRange l = true) : Logged s' := by
  cases l with
  | run t c => exact h.run hs hr
  | call t c =>
    obtain ⟨-, l, hl, rfl⟩ := call_cases hs
    have hlog : (s.ghost.published s.data t l).log = s.ghost.log := by
      unfold Ghost.published
      split
      · split <;> rfl
      · rfl
    refine ⟨fun r p hp => h.below r p (hlog ▸ hp), fun v => ?_⟩
    show (Function.update s.th t l v).Logged (s.ghost.published s.data t l).log v
    rw [hlog]
    exact forall_update_of (fun v (l : Local) => l.Logged s.ghost.log v) h.claimed (Local.Logged.call hl) v
  | destroy t v k =>
    obtain ⟨-, u, w, ht, hv, hw, rfl⟩ := destroy_cases hs
    exact ⟨h.below, forall_update_of (fun v (l : Local) => l.Logged s.ghost.log v)
      (forall_update_of (fun v (l : Local) => l.Logged s.ghost.log v) h.claimed (t := t) (a := .sub _) trivial) trivial⟩
  | write t off byte =>
    obtain ⟨-, u, slot, -, -, -, -, rfl⟩ := write_cases hs
    exact ⟨h.below, h.claimed⟩
  | exit pid =>
    obtain ⟨st, -, rfl⟩ := exit_cases hs
    exact ⟨h.below, h.claimed⟩
  | spawn pid st =>
    obtain ⟨-, rfl⟩ := spawn_cases hs
    exact ⟨h.below, h.claimed⟩

/-- A publisher that holds a position came to it by an access. -/
theorem pub_of_quiet {l : Label ι} (hs : s.next g proc l = some s') (hl : ∀ t c, l ≠ .run t c) {v : ι} {u : Pub}
    {x : Nat × Nat} (hu : s'.th v = .pub u) (hc : u.pc.claimed = some x) : s.th v = .pub u := by
  cases l with
  | run t c => exact absurd rfl (hl t c)
  | call t c =>
    obtain ⟨-, l, hl, rfl⟩ := call_cases hs
    by_cases hv : v = t
    · subst hv
      have hnone : ∀ w, l = .pub w → w.pc.claimed = none := by
        intro w hw
        rcases Local.call_pass hl with ⟨w₀, hp⟩ | ⟨w₀, hp⟩ | ⟨_, -, -, hp⟩ | ⟨_, -, -, -, hp⟩ | ⟨_, -, -, -, hp⟩
        · rw [hp] at hl
          obtain ⟨hidle, u', hu', hcases⟩ := Local.call_pub hl
          obtain rfl := Local.pub.inj (hu'.symm.trans hw)
          rcases hcases with ⟨n, rfl⟩ | ⟨x, k, n, -, rfl⟩ | ⟨-, rfl⟩ | ⟨x, len, -, -, -, rfl⟩ <;>
            simp [PubPc.claimed, hidle]
        · rw [hp] at hl
          obtain ⟨_, hw', -⟩ := Local.call_sub hl
          cases hw'.symm.trans hw
        all_goals cases hp.symm.trans hw
      rw [hnone u (by simpa using hu)] at hc
      cases hc
    · simpa [Function.update_of_ne hv] using hu
  | destroy t w k =>
    obtain ⟨-, y, z, ht, hw, -, rfl⟩ := destroy_cases hs
    have hvw : v ≠ w := by
      rintro rfl
      simp at hu
    have hvt : v ≠ t := by
      rintro rfl
      simp [Function.update_of_ne hvw] at hu
    simpa [Function.update_of_ne hvw, Function.update_of_ne hvt] using hu
  | write t off byte =>
    obtain ⟨-, y, slot, -, -, -, -, rfl⟩ := write_cases hs
    exact hu
  | exit pid =>
    obtain ⟨st, -, rfl⟩ := exit_cases hs
    exact hu
  | spawn pid st =>
    obtain ⟨-, rfl⟩ := spawn_cases hs
    exact hu

/-! ## A lock is stored once -/

/-- A sequence word of ring `r` is the publisher lock of position `p`. -/
def Locked (r p : Nat) (s : Sys ι) : Prop := ∃ i, s.mem (.sequence r i) = seqLock p

/-- In a run with its past: a lock that was ever stored is of a claimed position, and whoever still contends
for its entry has not stored its own. -/
structure Stamped (g : Geometry) (x : Sys ι × List (Sys ι)) : Prop where
  seq : Sequenced g x.1
  logged : Logged x.1
  used : ∀ r p, p < 2 ^ 62 → (∃ a ∈ LTS.states x, Locked r p a) → p < x.1.wpos r
  unlocked : ∀ t u r p, x.1.th t = .pub u → u.pc.contending = some (r, p) →
    ∀ a ∈ LTS.states x, ¬ Locked r p a

omit [DecidableEq ι] in
theorem Sequenced.lt_of_locked (h : Sequenced g s) {r p : Nat} (hp : p < 2 ^ 62) (hl : Locked r p s) :
    p < s.wpos r := by
  obtain ⟨i, hi⟩ := hl
  rcases h.word r i with h0 | ⟨k, q, hq, -, hk⟩
  · rw [h0, seqLock_eq (by omega)] at hi
    omega
  · have hlt := h.wpos_lt r
    obtain ⟨-, rfl⟩ := Tag.word_eq_seqLock (by omega) hp (hk.symm.trans hi)
    exact hq

omit [DecidableEq ι] in
/-- A lock appears only by the exchange of a publisher that contends for the position. -/
theorem locked_run (hseq : Sequenced g s) {t : ι} {c : Bool} {op : Op} (hop : (s.th t).request g = some op)
    {r i p : Nat} (hp : p < 2 ^ 62) (h : (op.exec s.procs s.mem c).1 (.sequence r i) = seqLock p) :
    s.mem (.sequence r i) = seqLock p ∨
      ∃ u, s.th t = .pub u ∧ u.pc.contending = some (r, p) ∧ (∃ d w n o, u.pc = .lock d p w n o) ∧
        (op.exec s.procs s.mem c).2.ok = true := by
  rcases sequence_run (c := c) hseq hop r i with e | ⟨pos, hpos, hi, hw⟩
  · exact .inl (e.symm.trans h)
  · have hlt := hseq.wpos_lt r
    have hpos' : pos + 1 < 2 ^ 62 := by omega
    rcases hw with ⟨hst, -⟩ | ⟨-, -, e⟩ | ⟨-, -, e⟩ | ⟨-, e⟩
    · rcases unstolen_run (c := c) hseq hop hst r i with
        e | ⟨u, pos', hu, hcl, -, ⟨-, -, e, ⟨d, w, n, o, hpc⟩, hok⟩ | ⟨-, -, e⟩⟩
      · exact .inl (e.symm.trans h)
      · have hpl := hseq.placed t
        rw [hu] at hpl
        have hlt' := hpl.1 r pos' hcl
        obtain ⟨-, hpp⟩ := Tag.word_eq_seqLock (by omega) hp (e.symm.trans h)
        subst hpp
        rw [hpc] at hcl
        obtain ⟨rfl, -⟩ := Prod.mk.inj (Option.some.inj hcl)
        exact .inr ⟨u, hu, by rw [hpc]; rfl, ⟨d, w, n, o, hpc⟩, hok⟩
      · have hpl := hseq.placed t
        rw [hu] at hpl
        have hlt' := hpl.1 r pos' hcl
        cases (Tag.word_eq_seqLock (by omega) hp (e.symm.trans h)).1
    · cases (Tag.word_eq_seqLock hpos' hp (e.symm.trans h)).1
    · cases (Tag.word_eq_seqLock hpos' hp (e.symm.trans h)).1
    · cases (Tag.word_eq_seqLock hpos' hp (e.symm.trans h)).1

theorem stamped_init (hg : g.Valid) {x : Sys ι × List (Sys ι)} (h : (machine g proc).traced.init x) :
    Stamped g x := by
  obtain ⟨h0, hpast⟩ := h
  have hz : ∀ r p, ∀ a ∈ LTS.states x, ¬ Locked r p a := by
    intro r p a ha
    rw [LTS.states, hpast, List.mem_singleton] at ha
    subst ha
    rintro ⟨i, hi⟩
    rw [h0.mem, stampNewRegion_zero hg (by simp) (by simp), seqLock, seqLockBit] at hi
    have := Nat.left_le_or (n := 1 <<< 63) (m := p)
    omega
  refine ⟨sequenced_init hg h0, logged_init h0, fun r p _ hex => ?_, fun t u r p _ _ => hz r p⟩
  obtain ⟨a, ha, hl⟩ := hex
  exact absurd hl (hz r p a ha)

theorem Stamped.next {x y : Sys ι × List (Sys ι)} {l : Label ι} (h : Stamped g x)
    (hs : (machine g proc).traced.step x l y) (hr : x.1.inRange l = true) : Stamped g y := by
  obtain ⟨hstep, hpast⟩ := hs
  have hseq := h.seq.next hstep hr
  have hlogged := h.logged.next hstep hr
  have hstates : ∀ a, a ∈ LTS.states y ↔ a = y.1 ∨ a ∈ LTS.states x := fun a => by
    rw [LTS.states, hpast, List.mem_cons]
    rfl
  by_cases hl : ∃ t c, l = .run t c
  · obtain ⟨t, c, rfl⟩ := hl
    obtain ⟨-, op, hop, hy⟩ := ran_cases hstep
    have hle : ∀ r, x.1.wpos r ≤ y.1.wpos r := fun r => by
      rw [hy]
      exact wpos_run_le (by decide) hop hr r
    refine ⟨hseq, hlogged, fun r p hp hex => ?_, fun v u' r p hu' hc a ha hla => ?_⟩
    · obtain ⟨a, ha, hla⟩ := hex
      rcases (hstates a).mp ha with rfl | ha
      · exact hseq.lt_of_locked hp hla
      · exact (h.used r p hp ⟨a, ha, hla⟩).trans_le (hle r)
    · rw [hy] at hu'
      have hp : p < 2 ^ 62 := by
        have hpl := hseq.placed v
        rw [hy, hu'] at hpl
        have := hpl.1 r p (PubPc.claimed_of_contending hc)
        have := hseq.wpos_lt r
        rw [hy] at this
        omega
      -- nobody else stores the lock of a position that it contends for
      have hnow : (∀ a ∈ LTS.states x, ¬ Locked r p a) → ¬ (∃ u, x.1.th t = .pub u ∧
          u.pc.contending = some (r, p) ∧ (∃ d w n o, u.pc = .lock d p w n o) ∧
            (op.exec x.1.procs x.1.mem c).2.ok = true) → False := by
        intro hold hno
        rcases (hstates a).mp ha with rfl | ha
        · obtain ⟨i, hi⟩ := hla
          rw [hy] at hi
          rcases locked_run h.seq hop hp hi with hi | hyes
          · exact hold x.1 List.mem_cons_self ⟨i, hi⟩
          · exact hno hyes
        · exact hold a ha hla
      rcases pub_of_ran hu' with ⟨hne, hu⟩ | ⟨rfl, u, hu, rfl⟩
      · refine hnow (h.unlocked v u' r p hu hc) ?_
        rintro ⟨w, hw, hcw, -, -⟩
        have hlv := h.logged.claimed v
        have hlt := h.logged.claimed t
        rw [hu] at hlv
        rw [hw] at hlt
        obtain ⟨m, hm⟩ := hlv r p (PubPc.claimed_of_contending hc)
        obtain ⟨m', hm'⟩ := hlt r p (PubPc.claimed_of_contending hcw)
        rw [hm] at hm'
        exact hne (Prod.mk.inj (Option.some.inj hm')).1
      · rcases Pub.contending_resume hc with ⟨hc₀, hfail⟩ | ⟨d, hd, hx⟩
        · refine hnow (h.unlocked v u r p hu hc₀) ?_
          rintro ⟨w, hw, -, ⟨d, cw, n, o, hpc⟩, hok⟩
          obtain rfl : u = w := Local.pub.inj (hu.symm.trans hw)
          rw [hfail ⟨d, p, cw, n, o, hpc⟩] at hok
          cases hok
        · obtain ⟨rfl, rfl⟩ := Prod.mk.inj hx
          have hop' := hop
          rw [hu] at hop'
          obtain rfl : op = .fetchAdd (.writePos d.i) 1 := by
            simpa [Local.request, Pub.request, hd] using hop'.symm
          refine hnow (fun a ha hla => ?_) ?_
          · exact absurd (h.used d.i _ hp ⟨a, ha, hla⟩) (lt_irrefl _)
          · rintro ⟨w, hw, -, ⟨d', cw, n, o, hpc⟩, -⟩
            obtain rfl : u = w := Local.pub.inj (hu.symm.trans hw)
            rw [hd] at hpc
            cases hpc
  · have hmem := mem_eq_of_next hstep fun t c e => hl ⟨t, c, e⟩
    have hlocked : ∀ r p, Locked r p y.1 → Locked r p x.1 := fun r p h => by
      obtain ⟨i, hi⟩ := h
      exact ⟨i, by rw [← hmem]; exact hi⟩
    refine ⟨hseq, hlogged, fun r p hp hex => ?_, fun v u r p hu hc a ha hla => ?_⟩
    · obtain ⟨a, ha, hla⟩ := hex
      rw [wpos, hmem]
      rcases (hstates a).mp ha with rfl | ha
      · exact h.used r p hp ⟨x.1, List.mem_cons_self, hlocked r p hla⟩
      · exact h.used r p hp ⟨a, ha, hla⟩
    · have hw := pub_of_quiet hstep (fun t c e => hl ⟨t, c, e⟩) hu (PubPc.claimed_of_contending hc)
      rcases (hstates a).mp ha with rfl | ha
      · exact h.unlocked v u r p hw hc x.1 List.mem_cons_self (hlocked r p hla)
      · exact h.unlocked v u r p hw hc a ha hla

variable {x : Sys ι × List (Sys ι)}

theorem stamped_reach (hg : g.Valid)
    (h : (machine g proc).traced.Reach (LTS.onNow fun s l _ => s.inRange l = true) x) : Stamped g x :=
  h.invariant (fun _ h0 => stamped_init hg h0) fun _ _ _ hI hs ho => hI.next hs ho

/-- A lock that has gone never comes back. -/
theorem locked_convex (hg : g.Valid)
    (h : (machine g proc).traced.Reach (LTS.onNow fun s l _ => s.inRange l = true) x) {r i p : Nat}
    (hp : p < 2 ^ 62) : LTS.Convex (fun a : Sys ι => a.mem (.sequence r i) = seqLock p) (LTS.states x) := by
  refine LTS.Reach.convex (fun x l y hr hs ho hy => ?_) h
  have hI := stamped_reach hg hr
  by_cases hl : ∃ t c, l = .run t c
  · obtain ⟨t, c, rfl⟩ := hl
    obtain ⟨-, op, hop, hy'⟩ := ran_cases hs.1
    rw [hy'] at hy
    rcases locked_run hI.seq hop hp hy with h | ⟨u, hu, hc, -, -⟩
    · exact .inl h
    · exact .inr fun a ha hla => hI.unlocked t u r p hu hc a ha ⟨i, hla⟩
  · left
    rw [← mem_eq_of_next hs.1 fun t c e => hl ⟨t, c, e⟩]
    exact hy

omit [DecidableEq ι] in
/-- Whoever writes a lock has claimed its position, and the lock was never there before. -/
theorem Stamped.stored (h : Stamped g x) {t : ι} {c : Bool} {op : Op} {r i p : Nat}
    (hop : (x.1.th t).request g = some op) (hp : p < 2 ^ 62) (ht : op.target = some (.sequence r i))
    (hok : (op.exec x.1.procs x.1.mem c).2.ok = true)
    (hv : (op.exec x.1.procs x.1.mem c).1 (.sequence r i) = seqLock p) :
    (∃ m, x.1.ghost.log r p = some (t, m)) ∧ ∀ a ∈ LTS.states x, ¬ Locked r p a := by
  have hlt := h.seq.wpos_lt r
  cases Local.seq_cases (h.seq.placed t) hop ht with
  | @lock r' pos o hpos hu ho hst =>
    obtain ⟨rfl, rfl⟩ : r' = r ∧ g.entryIdx pos = i := by simpa [Op.target] using ht
    rcases Op.exec_cas x.1.procs x.1.mem c true (.sequence r' (g.entryIdx pos)) o (Tag.lock.word pos) with
      ⟨hm, he⟩ | he
    · rcases locked_run h.seq hop hp hv with hold | ⟨u, hu', hc, -, -⟩
      · -- the word it replaced was not locked
        rw [hm] at hold
        rw [hold, seqIsLocked_eq (by rw [seqLock_eq (by omega)]; omega), seqLock_eq (by omega)] at hu
        simp at hu
      · have hl := h.logged.claimed t
        rw [hu'] at hl
        exact ⟨hl r' p (PubPc.claimed_of_contending hc), h.unlocked t u r' p hu' hc⟩
    · rw [he] at hok
      cases hok
  | @commit r' pos hpos hst =>
    obtain ⟨rfl, rfl⟩ : r' = r ∧ g.entryIdx pos = i := by simpa [Op.target] using ht
    rcases Op.exec_cas x.1.procs x.1.mem c false (.sequence r' (g.entryIdx pos)) (Tag.lock.word pos)
      (Tag.commit.word pos) with ⟨hm, he⟩ | he
    · simp only [he, Function.update_self] at hv
      cases (Tag.word_eq_seqLock (by omega) hp hv).1
    · rw [he] at hok
      cases hok
  | @steal w hst =>
    have hw := (h.seq.placed t).steal hst
    cases w with
    | cas r' pos o =>
      obtain ⟨rfl, rfl⟩ : r' = r ∧ g.entryIdx pos = i := by simpa [Steal.op, Op.target] using ht
      have hpos := hw.1
      rcases Op.exec_cas x.1.procs x.1.mem c false (.sequence r' (g.entryIdx pos)) o (Tag.repair.word pos) with
        ⟨hm, he⟩ | he
      · simp only [Steal.op, he, Function.update_self] at hv
        cases (Tag.word_eq_seqLock (by omega) hp hv).1
      · rw [Steal.op, he] at hok
        cases hok
    | skip r' pos =>
      obtain ⟨rfl, rfl⟩ : r' = r ∧ g.entryIdx pos = i := by simpa [Steal.op, Op.target] using ht
      simp only [Steal.Placed] at hw
      simp only [Steal.op, Op.exec, Function.update_self] at hv
      cases (Tag.word_eq_seqLock (by omega) hp hv).1

end Sys

/-! ## The two samples -/

namespace PubPc

/-- The wait that a publisher acts on: `wait_for_commit` has returned. -/
def waited : PubPc → Option (Delivery × Nat × CommitWait)
  | .lock d pos w _ _ | .relook d pos w _ | .selfRepair d pos w => some (d, pos, w)
  | _ => none

/-- Inside the loop of `wait_for_commit`, whose first sample was `first`. -/
def Waits (d : Delivery) (pos first : Nat) (pc : PubPc) : Prop :=
  (∃ n, pc = .waitLoad d pos first n) ∨ ∃ seq n, pc = .waitClock d pos first seq n

theorem claimed_of_waited {pc : PubPc} {d : Delivery} {pos : Nat} {w : CommitWait}
    (h : pc.waited = some (d, pos, w)) : pc.claimed = some (d.i, pos) := by
  cases pc <;> simp_all [waited, claimed]

end PubPc

namespace Pub

variable {g : Geometry} {u : Pub} {a : Resp} {d : Delivery} {pos : Nat} {w : CommitWait}

theorem waited_tryLock {d' : Delivery} {pos' n o : Nat} {w' : CommitWait}
    (h : (u.tryLock g d' pos' w' n o).pc.waited = some (d, pos, w)) : d' = d ∧ pos' = pos ∧ w' = w := by
  unfold tryLock at h
  split_ifs at h <;> simpa [PubPc.waited] using h

theorem waited_repairWith {d' : Delivery} {pos' seq : Nat} {w' : CommitWait} :
    (u.repairWith g d' pos' w' seq).pc.waited = none := by
  unfold repairWith
  split_ifs <;> rfl

theorem waited_tryTake {d' : Delivery} {pos' old : Nat} : (u.tryTake d' pos' old).pc.waited = none := by
  unfold tryTake
  split_ifs <;> rfl

theorem waited_releasePrev {d' : Delivery} {pos' old : Nat} : (u.releasePrev g d' pos' old).pc.waited = none := by
  unfold releasePrev
  split_ifs <;> rfl

/-- A wait that found a stable lock is over because its deadline had passed, at a sample equal to the first. -/
theorem waited_resume (h : (u.resume g a).pc.waited = some (d, pos, w)) (hst : w.stableLock = true) :
    u.pc.waited = some (d, pos, w) ∨
      ∃ n, u.pc = .waitClock d pos w.lastSeq w.lastSeq n ∧ seqIsLocked w.lastSeq = true := by
  cases e : u.pc <;> simp only [resume, e] at h
  case idle => simp [PubPc.waited] at h
  case waitClock d' pos' first seq n =>
    right
    split_ifs at h with hok
    · obtain ⟨rfl, rfl, rfl⟩ := waited_tryLock h
      simp only [Bool.and_eq_true, decide_eq_true_eq] at hst
      obtain ⟨hl, rfl⟩ := hst
      exact ⟨n, rfl, hl⟩
    · cases h
  case lock d' pos' w' n o =>
    left
    split_ifs at h with hok
    · cases h
    · obtain ⟨rfl, rfl, rfl⟩ := waited_tryLock h
      rfl
  case relook d' pos' w' n =>
    obtain ⟨rfl, rfl, rfl⟩ := waited_tryLock h
    exact .inl rfl
  case claim | waitFirst | waitLoad =>
    exfalso
    (repeat' split at h) <;>
      first
        | cases h
        | (obtain ⟨-, -, rfl⟩ := waited_tryLock h
           cases hst)
  all_goals
    exfalso
    (repeat' split at h) <;>
      first
        | cases h
        | cases waited_repairWith.symm.trans h
        | cases waited_tryTake.symm.trans h
        | cases waited_releasePrev.symm.trans h
        | cases claimed_ring.symm.trans (PubPc.claimed_of_waited h)
        | cases claimed_tryAdmit.symm.trans (PubPc.claimed_of_waited h)
        | cases claimed_finish.symm.trans (PubPc.claimed_of_waited h)

/-- The loop of `wait_for_commit` starts with its first sample. -/
theorem waitLoad_resume {first n : Nat} (h : (u.resume g a).pc = .waitLoad d pos first n) :
    (u.pc = .waitFirst d pos ∧ first = a.val) ∨ u.pc.Waits d pos first := by
  rcases blocking_resume (g := g) (a := a) (d := d) (by rw [h]; rfl) with hbl | ⟨pos', hpc, -⟩
  · right
    cases e : u.pc <;> simp only [e, PubPc.blocking, reduceCtorEq] at hbl
    case waitLoad d' pos' first' m =>
      simp only [resume, e] at h
      split_ifs at h
      · exact absurd h (by unfold tryLock; split_ifs <;> simp)
      · simp only [PubPc.waitLoad.injEq] at h
        obtain ⟨rfl, rfl, rfl, -⟩ := h
        exact .inl ⟨m, rfl⟩
    case waitClock d' pos' first' seq m =>
      simp only [resume, e] at h
      split_ifs at h
      · exact absurd h (by unfold tryLock; split_ifs <;> simp)
      · simp only [PubPc.waitLoad.injEq] at h
        obtain ⟨rfl, rfl, rfl, -⟩ := h
        exact .inr ⟨seq, m, rfl⟩
  · left
    simp only [resume, hpc] at h
    split_ifs at h
    · exact absurd h (by unfold tryLock; split_ifs <;> simp)
    · simp only [PubPc.waitLoad.injEq] at h
      obtain ⟨-, rfl, rfl, -⟩ := h
      exact ⟨hpc, rfl⟩

/-- The deadline is tested after a sample. -/
theorem waitClock_resume {first seq n : Nat} (h : (u.resume g a).pc = .waitClock d pos first seq n) :
    ∃ m, u.pc = .waitLoad d pos first m ∧ seq = a.val := by
  rcases blocking_resume (g := g) (a := a) (d := d) (by rw [h]; rfl) with hbl | ⟨pos', hpc, -⟩
  · cases e : u.pc <;> simp only [e, PubPc.blocking, reduceCtorEq] at hbl
    case waitLoad d' pos' first' m =>
      simp only [resume, e] at h
      split_ifs at h
      · exact absurd h (by unfold tryLock; split_ifs <;> simp)
      · simp only [PubPc.waitClock.injEq] at h
        obtain ⟨rfl, rfl, rfl, rfl, -⟩ := h
        exact ⟨m, rfl, rfl⟩
    case waitClock d' pos' first' seq m =>
      simp only [resume, e] at h
      split_ifs at h
      exact absurd h (by unfold tryLock; split_ifs <;> simp)
  · simp only [resume, hpc] at h
    split_ifs at h
    exact absurd h (by unfold tryLock; split_ifs <;> simp)

end Pub

/-- The candidates that a repair pass has recorded and not dealt with. -/
def RepairPc.listed : RepairPc → List Candidate
  | .idle => []
  | .ringPos _ cs | .entry _ _ _ cs | .stealCas _ _ _ _ cs | .stealSkip _ _ _ cs | .stealCount _ _ _ cs => cs
  | .graceLoad c cs | .graceCas c cs | .graceSkip c cs | .graceCount c cs => c :: cs

namespace Repair

variable {g : Geometry} {u : Repair} {a : Resp} {c : Candidate} {cs : List Candidate}

theorem listed_grace (h : c ∈ (u.grace cs).pc.listed) : c ∈ cs := by
  cases cs with
  | nil => exact h
  | cons c' cs => exact h

theorem listed_scanRing {i : Nat} (h : c ∈ (u.scanRing g i cs).pc.listed) : c ∈ cs := by
  unfold scanRing at h
  split_ifs at h
  · exact h
  · exact List.mem_reverse.mp (listed_grace h)

theorem listed_scanEntry {i wp pos : Nat} (h : c ∈ (u.scanEntry g i wp pos cs).pc.listed) : c ∈ cs := by
  unfold scanEntry at h
  split_ifs at h
  · exact h
  · exact listed_scanRing h

/-- A candidate is a locked word that the scan has loaded. -/
theorem listed_resume (h : c ∈ (u.resume g a).pc.listed) :
    c ∈ u.pc.listed ∨ ∃ wp cs, u.pc = .entry c.ring wp c.pos cs ∧ c.seq = a.val := by
  cases e : u.pc <;> simp only [resume, e] at h
  case idle => exact .inl h
  case entry i wp pos cs =>
    split_ifs at h
    · rcases List.mem_cons.mp (listed_scanEntry h) with rfl | h
      · exact .inr ⟨wp, cs, rfl, rfl⟩
      · exact .inl h
    · exact .inl h
    · exact .inl (listed_scanEntry h)
  all_goals
    left
    (repeat' split at h) <;>
      first
        | exact h
        | exact listed_scanEntry h
        | exact List.mem_cons_of_mem _ (listed_grace h)

/-- The grace pass goes on only with a word it has found as recorded. -/
theorem graceCas_resume (h : (u.resume g a).pc = .graceCas c cs) : u.pc = .graceLoad c cs ∧ a.val = c.seq := by
  have hgrace : ∀ w : Repair, ∀ l, (w.grace l).pc ≠ .graceCas c cs := fun w l => by
    cases l <;> simp [grace]
  have hring : ∀ w : Repair, ∀ i l, (w.scanRing g i l).pc ≠ .graceCas c cs := fun w i l => by
    unfold scanRing
    split_ifs
    · simp
    · exact hgrace _ _
  have hentry : ∀ w : Repair, ∀ i wp pos l, (w.scanEntry g i wp pos l).pc ≠ .graceCas c cs := fun w i wp pos l => by
    unfold scanEntry
    split_ifs
    · simp
    · exact hring _ _ _
  cases e : u.pc <;> simp only [resume, e] at h
  case graceLoad c' cs' =>
    split_ifs at h with hne
    · exact absurd h (hgrace _ _)
    · simp only [RepairPc.graceCas.injEq] at h
      obtain ⟨rfl, rfl⟩ := h
      exact ⟨rfl, not_not.mp hne⟩
  all_goals
    exfalso
    (repeat' split at h) <;>
      first
        | exact hentry _ _ _ _ _ h
        | exact hgrace _ _ h
        | cases h

end Repair

namespace Sys

variable {ι : Type} {g : Geometry}

/-- Publisher `t` takes its first sample in `wait_for_commit`, and finds `w`. -/
def Samples (g : Geometry) (t : ι) (d : Delivery) (pos w : Nat) (a : Sys ι) : Prop :=
  (∃ u, a.th t = .pub u ∧ u.pc = .waitFirst d pos) ∧ a.mem (.sequence d.i (g.entryIdx pos)) = w

/-- Publisher `t` takes a further sample. -/
def Resamples (g : Geometry) (t : ι) (d : Delivery) (pos first w : Nat) (a : Sys ι) : Prop :=
  (∃ u n, a.th t = .pub u ∧ u.pc = .waitLoad d pos first n) ∧ a.mem (.sequence d.i (g.entryIdx pos)) = w

/-- Publisher `t` is inside the loop of `wait_for_commit`. -/
def Waiting (t : ι) (d : Delivery) (pos first : Nat) (a : Sys ι) : Prop :=
  ∃ u, a.th t = .pub u ∧ u.pc.Waits d pos first

/-- The repair pass `t` records the candidate `c`. -/
def Records (g : Geometry) (t : ι) (c : Candidate) (a : Sys ι) : Prop :=
  (∃ u wp cs, a.th t = .repair u ∧ u.pc = .entry c.ring wp c.pos cs) ∧
    a.mem (.sequence c.ring (g.entryIdx c.pos)) = c.seq

/-- The grace pass of `t` looks at the candidate `c` again, and finds the word it has recorded. -/
def Rechecks (g : Geometry) (t : ι) (c : Candidate) (a : Sys ι) : Prop :=
  (∃ u cs, a.th t = .repair u ∧ u.pc = .graceLoad c cs) ∧ a.mem (.sequence c.ring (g.entryIdx c.pos)) = c.seq

/-- The past holds the samples that an actor has acted on. -/
structure Witnessed (g : Geometry) (x : Sys ι × List (Sys ι)) : Prop where
  loop : ∀ t u d pos first n, x.1.th t = .pub u → u.pc = .waitLoad d pos first n →
    ∃ mid a old, x.2 = mid ++ a :: old ∧ Samples g t d pos first a ∧ ∀ c ∈ mid, Waiting t d pos first c
  clock : ∀ t u d pos first seq n, x.1.th t = .pub u → u.pc = .waitClock d pos first seq n →
    ∃ new b mid a old, x.2 = new ++ b :: (mid ++ a :: old) ∧ Samples g t d pos first a ∧
      Resamples g t d pos first seq b ∧ (∀ c ∈ mid, Waiting t d pos first c) ∧
      ∀ c ∈ new, Waiting t d pos first c
  waited : ∀ t u d pos w, x.1.th t = .pub u → u.pc.waited = some (d, pos, w) → w.stableLock = true →
    ∃ new b mid a old, x.2 = new ++ b :: (mid ++ a :: old) ∧ Samples g t d pos w.lastSeq a ∧
      Resamples g t d pos w.lastSeq w.lastSeq b ∧ ∀ c ∈ mid, Waiting t d pos w.lastSeq c
  listed : ∀ t u c, x.1.th t = .repair u → c ∈ u.pc.listed → ∃ new a old, x.2 = new ++ a :: old ∧ Records g t c a
  grace : ∀ t u c cs, x.1.th t = .repair u → u.pc = .graceCas c cs →
    ∃ new b mid a old, x.2 = new ++ b :: (mid ++ a :: old) ∧ Records g t c a ∧ Rechecks g t c b

variable [DecidableEq ι] {proc : ι → Nat × Nat} {s s' : Sys ι}

/-- A repair pass after an access, and before. -/
theorem repair_of_ran {v : ι} {op : Op} {c : Bool} {p : ι} {u' : Repair} (h : (s.ran g v op c).th p = .repair u') :
    (p ≠ v ∧ s.th p = .repair u') ∨
      (p = v ∧ ∃ u, s.th v = .repair u ∧ u' = u.resume g (op.exec s.procs s.mem c).2) := by
  by_cases hpv : p = v
  · subst hpv
    refine .inr ⟨rfl, ?_⟩
    simp only [ran, Function.update_self] at h
    cases hu : s.th p with
    | repair u =>
      rw [hu] at h
      exact ⟨u, rfl, (Local.repair.inj h).symm⟩
    | _ =>
      rw [hu] at h
      cases h
  · exact .inl ⟨hpv, by simpa [ran, Function.update_of_ne hpv] using h⟩

/-- A repair pass that has recorded something did so by an access. -/
theorem repair_of_quiet {l : Label ι} (hs : s.next g proc l = some s') (hl : ∀ t c, l ≠ .run t c) {v : ι}
    {u : Repair} {c : Candidate} (hu : s'.th v = .repair u) (hc : c ∈ u.pc.listed) : s.th v = .repair u := by
  cases l with
  | run t c => exact absurd rfl (hl t c)
  | call t c =>
    obtain ⟨-, l, hcall, rfl⟩ := call_cases hs
    by_cases hv : v = t
    · subst hv
      have hnone : ∀ w : Repair, l = .repair w → w.pc.listed = [] := by
        intro w hw
        rcases Local.call_pass hcall with ⟨w₀, hp⟩ | ⟨w₀, hp⟩ | ⟨w₀, -, -, hp⟩ | ⟨_, -, -, -, hp⟩ | ⟨_, -, -, -, hp⟩
        · rw [hp] at hcall
          obtain ⟨-, _, hu', -⟩ := Local.call_pub hcall
          cases hu'.symm.trans hw
        · rw [hp] at hcall
          obtain ⟨_, hw', -⟩ := Local.call_sub hcall
          cases hw'.symm.trans hw
        · obtain rfl := Local.repair.inj (hp.symm.trans hw)
          refine List.eq_nil_iff_forall_not_mem.mpr fun c hc => ?_
          exact absurd (Repair.listed_scanRing hc) List.not_mem_nil
        all_goals cases hp.symm.trans hw
      rw [hnone u (by simpa using hu)] at hc
      cases hc
    · simpa [Function.update_of_ne hv] using hu
  | destroy t w k =>
    obtain ⟨-, y, z, ht, hw, -, rfl⟩ := destroy_cases hs
    have hvw : v ≠ w := by
      rintro rfl
      simp at hu
    have hvt : v ≠ t := by
      rintro rfl
      simp [Function.update_of_ne hvw] at hu
    simpa [Function.update_of_ne hvw, Function.update_of_ne hvt] using hu
  | write t off byte =>
    obtain ⟨-, y, slot, -, -, -, -, rfl⟩ := write_cases hs
    exact hu
  | exit pid =>
    obtain ⟨st, -, rfl⟩ := exit_cases hs
    exact hu
  | spawn pid st =>
    obtain ⟨-, rfl⟩ := spawn_cases hs
    exact hu

omit [DecidableEq ι] in
/-- A load answers with the word it loads. -/
theorem exec_load {op : Op} {c : Bool} {loc : Loc} (h : op = .load loc) :
    (op.exec s.procs s.mem c).2.val = s.mem loc := by
  rw [h]
  rfl

/-- A publisher inside a delivery came to where it is by an access, or has not moved. -/
theorem pub_of_next {l : Label ι} (hs : s.next g proc l = some s') {v : ι} {u : Pub} {p : Nat × Nat}
    (hu : s'.th v = .pub u) (hc : u.pc.claimed = some p) :
    s.th v = .pub u ∨ ∃ u₀ a, s.th v = .pub u₀ ∧ u = u₀.resume g a ∧
      ∀ loc, u₀.request g = some (.load loc) → a.val = s.mem loc := by
  by_cases hl : ∃ t c, l = .run t c
  · obtain ⟨t, c, rfl⟩ := hl
    obtain ⟨-, op, hop, rfl⟩ := ran_cases hs
    rcases pub_of_ran hu with ⟨-, hu⟩ | ⟨rfl, u₀, hu₀, rfl⟩
    · exact .inl hu
    · refine .inr ⟨u₀, _, hu₀, rfl, fun loc hload => exec_load ?_⟩
      rw [hu₀] at hop
      exact Option.some.inj (hop.symm.trans hload)
  · exact .inl (pub_of_quiet hs (fun t c e => hl ⟨t, c, e⟩) hu hc)

/-- The same of a repair pass that has recorded something. -/
theorem repair_of_next {l : Label ι} (hs : s.next g proc l = some s') {v : ι} {u : Repair} {c : Candidate}
    (hu : s'.th v = .repair u) (hc : c ∈ u.pc.listed) :
    s.th v = .repair u ∨ ∃ u₀ a, s.th v = .repair u₀ ∧ u = u₀.resume g a ∧
      ∀ loc, u₀.request g = some (.load loc) → a.val = s.mem loc := by
  by_cases hl : ∃ t c, l = .run t c
  · obtain ⟨t, c, rfl⟩ := hl
    obtain ⟨-, op, hop, rfl⟩ := ran_cases hs
    rcases repair_of_ran hu with ⟨-, hu⟩ | ⟨rfl, u₀, hu₀, rfl⟩
    · exact .inl hu
    · refine .inr ⟨u₀, _, hu₀, rfl, fun loc hload => exec_load ?_⟩
      rw [hu₀] at hop
      exact Option.some.inj (hop.symm.trans hload)
  · exact .inl (repair_of_quiet hs (fun t c e => hl ⟨t, c, e⟩) hu hc)

omit [DecidableEq ι] in
theorem witnessed_init {x : Sys ι × List (Sys ι)} (h : Init g proc x.1) : Witnessed g x := by
  have hpub : ∀ t u, x.1.th t = .pub u → u.pc = .idle := fun t u hu => by
    have hf := h.th t
    rw [hu] at hf
    exact hf.2.2
  have hrep : ∀ t u, x.1.th t = .repair u → u.pc = .idle := fun t u hu => by
    have hf := h.th t
    rw [hu] at hf
    exact hf
  refine ⟨fun t u d pos first n hu hpc => ?_, fun t u d pos first seq n hu hpc => ?_,
    fun t u d pos w hu hpc _ => ?_, fun t u c hu hc => ?_, fun t u c cs hu hpc => ?_⟩
  · cases (hpub t u hu).symm.trans hpc
  · cases (hpub t u hu).symm.trans hpc
  · rw [hpub t u hu] at hpc
    cases hpc
  · rw [hrep t u hu] at hc
    cases hc
  · cases (hrep t u hu).symm.trans hpc

/-- A sample is in the past from the access that takes it on. -/
theorem Witnessed.next {x y : Sys ι × List (Sys ι)} {l : Label ι} (h : Witnessed g x)
    (hs : (machine g proc).traced.step x l y) : Witnessed g y := by
  obtain ⟨hstep, hpast⟩ := hs
  refine ⟨fun t u d pos first n hu hpc => ?_, fun t u d pos first seq n hu hpc => ?_,
    fun t u d pos w hu hpc hst => ?_, fun t u c hu hc => ?_, fun t u c cs hu hpc => ?_⟩
  · have hkeep : ∀ u₀ m, x.1.th t = .pub u₀ → u₀.pc = .waitLoad d pos first m →
        ∃ mid a old, y.2 = mid ++ a :: old ∧ Samples g t d pos first a ∧ ∀ c ∈ mid, Waiting t d pos first c := by
      intro u₀ m hu₀ hpc₀
      obtain ⟨mid, a, old, e, ha, hmid⟩ := h.loop t u₀ d pos first m hu₀ hpc₀
      exact ⟨x.1 :: mid, a, old, by rw [hpast, e, List.cons_append], ha,
        List.forall_mem_cons.mpr ⟨⟨u₀, hu₀, .inl ⟨m, hpc₀⟩⟩, hmid⟩⟩
    rcases pub_of_next hstep hu (by rw [hpc]; rfl) with hu₀ | ⟨u₀, a, hu₀, rfl, hval⟩
    · exact hkeep u n hu₀ hpc
    · rcases Pub.waitLoad_resume hpc with ⟨hpc₀, rfl⟩ | ⟨m, hpc₀⟩ | ⟨seq, m, hpc₀⟩
      · exact ⟨[], x.1, x.2, hpast, ⟨⟨u₀, hu₀, hpc₀⟩, (hval _ (by rw [Pub.request, hpc₀])).symm⟩, by simp⟩
      · exact hkeep u₀ m hu₀ hpc₀
      · -- the sample before the deadline test is one of the loop
        obtain ⟨new, b, mid, a', old, e, ha, hb, hmid, hnew⟩ := h.clock t u₀ d pos first seq m hu₀ hpc₀
        obtain ⟨⟨u', n', hu', hpc'⟩, -⟩ := hb
        refine ⟨x.1 :: (new ++ b :: mid), a', old, by rw [hpast, e]; simp, ha, ?_⟩
        refine List.forall_mem_cons.mpr ⟨⟨u₀, hu₀, .inr ⟨seq, m, hpc₀⟩⟩, fun c hc => ?_⟩
        rcases List.mem_append.mp hc with hc | hc
        · exact hnew c hc
        · rcases List.mem_cons.mp hc with rfl | hc
          · exact ⟨u', hu', .inl ⟨n', hpc'⟩⟩
          · exact hmid c hc
  · rcases pub_of_next hstep hu (by rw [hpc]; rfl) with hu₀ | ⟨u₀, a, hu₀, rfl, hval⟩
    · obtain ⟨new, b, mid, a, old, e, ha, hb, hmid, hnew⟩ := h.clock t u d pos first seq n hu₀ hpc
      exact ⟨x.1 :: new, b, mid, a, old, by rw [hpast, e, List.cons_append], ha, hb, hmid,
        List.forall_mem_cons.mpr ⟨⟨u, hu₀, .inr ⟨seq, n, hpc⟩⟩, hnew⟩⟩
    · obtain ⟨m, hpc₀, rfl⟩ := Pub.waitClock_resume hpc
      obtain ⟨mid, a', old, e, ha, hmid⟩ := h.loop t u₀ d pos first m hu₀ hpc₀
      exact ⟨[], x.1, mid, a', old, by rw [hpast, e]; rfl, ha,
        ⟨⟨u₀, m, hu₀, hpc₀⟩, (hval _ (by rw [Pub.request, hpc₀])).symm⟩, hmid, by simp⟩
  · have hkeep : ∀ u₀, x.1.th t = .pub u₀ → u₀.pc.waited = some (d, pos, w) →
        ∃ new b mid a old, y.2 = new ++ b :: (mid ++ a :: old) ∧ Samples g t d pos w.lastSeq a ∧
          Resamples g t d pos w.lastSeq w.lastSeq b ∧ ∀ c ∈ mid, Waiting t d pos w.lastSeq c := by
      intro u₀ hu₀ hpc₀
      obtain ⟨new, b, mid, a, old, e, hrest⟩ := h.waited t u₀ d pos w hu₀ hpc₀ hst
      exact ⟨x.1 :: new, b, mid, a, old, by rw [hpast, e, List.cons_append], hrest⟩
    rcases pub_of_next hstep hu (PubPc.claimed_of_waited hpc) with hu₀ | ⟨u₀, a, hu₀, rfl, -⟩
    · exact hkeep u hu₀ hpc
    · rcases Pub.waited_resume hpc hst with hpc₀ | ⟨n, hpc₀, -⟩
      · exact hkeep u₀ hu₀ hpc₀
      · obtain ⟨new, b, mid, a', old, e, ha, hb, hmid, -⟩ := h.clock t u₀ d pos _ _ n hu₀ hpc₀
        exact ⟨x.1 :: new, b, mid, a', old, by rw [hpast, e, List.cons_append], ha, hb, hmid⟩
  · have hkeep : ∀ u₀, x.1.th t = .repair u₀ → c ∈ u₀.pc.listed →
        ∃ new a old, y.2 = new ++ a :: old ∧ Records g t c a := by
      intro u₀ hu₀ hc₀
      obtain ⟨new, a, old, e, ha⟩ := h.listed t u₀ c hu₀ hc₀
      exact ⟨x.1 :: new, a, old, by rw [hpast, e, List.cons_append], ha⟩
    rcases repair_of_next hstep hu hc with hu₀ | ⟨u₀, a, hu₀, rfl, hval⟩
    · exact hkeep u hu₀ hc
    · rcases Repair.listed_resume hc with hc₀ | ⟨wp, cs, hpc₀, hseq⟩
      · exact hkeep u₀ hu₀ hc₀
      · exact ⟨[], x.1, x.2, hpast, ⟨u₀, wp, cs, hu₀, hpc₀⟩,
          (hseq.trans (hval _ (by rw [Repair.request, hpc₀]))).symm⟩
  · have hlisted : c ∈ u.pc.listed := by
      rw [hpc]
      exact List.mem_cons_self
    rcases repair_of_next hstep hu hlisted with hu₀ | ⟨u₀, a, hu₀, rfl, hval⟩
    · obtain ⟨new, b, mid, a, old, e, hrest⟩ := h.grace t u c cs hu₀ hpc
      exact ⟨x.1 :: new, b, mid, a, old, by rw [hpast, e, List.cons_append], hrest⟩
    · obtain ⟨hpc₀, hseq⟩ := Repair.graceCas_resume hpc
      obtain ⟨mid, a', old, e, ha⟩ := h.listed t u₀ c hu₀ (by rw [hpc₀]; exact List.mem_cons_self)
      exact ⟨[], x.1, mid, a', old, by rw [hpast, e]; rfl, ha, ⟨u₀, cs, hu₀, hpc₀⟩,
        ((hval _ (by rw [Repair.request, hpc₀])).symm.trans hseq)⟩

theorem witnessed_reach {ok : Sys ι × List (Sys ι) → Label ι → Sys ι × List (Sys ι) → Prop}
    {x : Sys ι × List (Sys ι)} (h : (machine g proc).traced.Reach ok x) : Witnessed g x :=
  LTS.Reach.invariant (fun _ (h0 : (machine g proc).init _ ∧ _) => witnessed_init h0.1)
    (fun _ _ _ hI hs _ => Witnessed.next hI hs) h

/-- The commit of a position whose lock is not in the entry changes nothing; its publisher drops the message. -/
theorem commit_fails {t : ι} {c : Bool} {u : Pub} {d : Delivery} {pos : Nat} (hu : s.th t = .pub u)
    (hpc : u.pc = .commit d pos) (hw : s.mem (.sequence d.i (g.entryIdx pos)) ≠ seqLock pos)
    (hs : s.next g proc (.run t c) = some s') :
    s'.mem = s.mem ∧ s'.th t = .pub { u with pc := .abandonDrop d false } := by
  obtain ⟨-, op, hop, rfl⟩ := ran_cases hs
  obtain rfl : op = .cas false (.sequence d.i (g.entryIdx pos)) (seqLock pos) (u64 (pos + 1)) := by
    rw [hu] at hop
    simpa [Local.request, Pub.request, hpc] using hop.symm
  rcases Op.exec_cas s.procs s.mem c false (.sequence d.i (g.entryIdx pos)) (seqLock pos) (u64 (pos + 1)) with
    ⟨he, -⟩ | he
  · exact absurd he hw
  · simp [ran, he, hu, Local.resume, Pub.resume, hpc]

/-! ## The steal proof -/

/-- What the samples of `wait_for_commit` and of the grace pass prove, in a run with its past. -/
structure StealSound (g : Geometry) (proc : ι → Nat × Nat) (x : Sys ι × List (Sys ι)) : Prop where
  /-- A publisher lock is written by the claimant of its position, and in no earlier state was it in the ring. -/
  once : ∀ t c op r i p, p < 2 ^ 62 → (x.1.th t).request g = some op → op.target = some (.sequence r i) →
    (op.exec x.1.procs x.1.mem c).2.ok = true → (op.exec x.1.procs x.1.mem c).1 (.sequence r i) = seqLock p →
    (∃ m, x.1.ghost.log r p = some (t, m)) ∧ ∀ a ∈ LTS.states x, ¬ Locked r p a
  /-- `wait_for_commit` has returned `stable_lock = true` with a publisher lock. -/
  stable : ∀ t u d pos w p, x.1.th t = .pub u → u.pc.waited = some (d, pos, w) → w.stableLock = true →
    p < 2 ^ 62 → w.lastSeq = seqLock p →
    ∃ new b mid a old, x.2 = new ++ b :: (mid ++ a :: old) ∧ Samples g t d pos w.lastSeq a ∧
      Resamples g t d pos w.lastSeq w.lastSeq b ∧
      ∀ c ∈ mid, Waiting t d pos w.lastSeq c ∧ c.mem (.sequence d.i (g.entryIdx pos)) = seqLock p
  /-- The grace pass has found the recorded publisher lock unchanged. -/
  grace : ∀ t u c cs p, x.1.th t = .repair u → u.pc = .graceCas c cs → p < 2 ^ 62 → c.seq = seqLock p →
    ∃ new b mid a old, x.2 = new ++ b :: (mid ++ a :: old) ∧ Records g t c a ∧ Rechecks g t c b ∧
      ∀ m ∈ mid, m.mem (.sequence c.ring (g.entryIdx c.pos)) = seqLock p
  /-- A holder whose lock was once gone from the entry fails to commit. -/
  stolen : ∀ t u d pos, x.1.th t = .pub u → u.pc = .commit d pos →
    ∀ new b mid a old, LTS.states x = new ++ b :: (mid ++ a :: old) →
      a.mem (.sequence d.i (g.entryIdx pos)) = seqLock pos →
      b.mem (.sequence d.i (g.entryIdx pos)) ≠ seqLock pos →
      ∀ c s', x.1.next g proc (.run t c) = some s' →
        s'.mem = x.1.mem ∧ s'.th t = .pub { u with pc := .abandonDrop d false }

/-- In every run that claims fewer than `2 ^ 62` positions on a ring, the steal proof is sound. -/
theorem steal_proof_sound (hg : g.Valid) {x : Sys ι × List (Sys ι)}
    (h : (machine g proc).traced.Reach (LTS.onNow fun s l _ => s.inRange l = true) x) : StealSound g proc x := by
  have hS := stamped_reach hg h
  have hW := witnessed_reach h
  have hlocked : ∀ r i p, p < 2 ^ 62 → ∀ new b mid a old, LTS.states x = new ++ b :: (mid ++ a :: old) →
      a.mem (.sequence r i) = seqLock p → b.mem (.sequence r i) = seqLock p →
      ∀ c ∈ mid, c.mem (.sequence r i) = seqLock p := fun r i p hp new b mid a old e ha hb =>
    locked_convex hg h hp new b mid a old e ha hb
  refine ⟨fun t c op r i p hp hop ht hok hv => hS.stored hop hp ht hok hv,
    fun t u d pos w p hu hpc hst hp hw => ?_, fun t u c cs p hu hpc hp hw => ?_,
    fun t u d pos hu hpc new b mid a old e ha hb c s' hs => ?_⟩
  · obtain ⟨new, b, mid, a, old, e, ha, hb, hmid⟩ := hW.waited t u d pos w hu hpc hst
    have hhold := hlocked d.i (g.entryIdx pos) p hp (x.1 :: new) b mid a old
      (by rw [LTS.states, e, List.cons_append]) (ha.2.trans hw) (hb.2.trans hw)
    exact ⟨new, b, mid, a, old, e, ha, hb, fun m hm => ⟨hmid m hm, hhold m hm⟩⟩
  · obtain ⟨new, b, mid, a, old, e, ha, hb⟩ := hW.grace t u c cs hu hpc
    exact ⟨new, b, mid, a, old, e, ha, hb, hlocked c.ring (g.entryIdx c.pos) p hp (x.1 :: new) b mid a old
      (by rw [LTS.states, e, List.cons_append]) (ha.2.trans hw) (hb.2.trans hw)⟩
  · have hp : pos < 2 ^ 62 := by
      have hpl := hS.seq.placed t
      rw [hu] at hpl
      have := hpl.1 d.i pos (by rw [hpc]; rfl)
      have := hS.seq.wpos_lt d.i
      omega
    refine commit_fails hu hpc (fun hnow => hb ?_) hs
    cases new with
    | nil =>
      obtain ⟨rfl, -⟩ := List.cons.inj e
      exact hnow
    | cons y new =>
      -- the lock would have been there at both ends of a stretch in which it was gone
      obtain ⟨rfl, e'⟩ := List.cons.inj e
      exact hlocked d.i _ pos hp [] x.1 (new ++ b :: mid) a old (by rw [LTS.states, e']; simp) ha hnow b (by simp)

/-- A publisher that stands before its commit of `pos`. -/
def commits (pos : Nat) : Local → Bool
  | .pub u => match u.pc with
    | .commit _ p => p == pos
    | _ => false
  | _ => false

theorem commits_iff {pos : Nat} {l : Local} : commits pos l = true ↔ ∃ u d, l = .pub u ∧ u.pc = .commit d pos := by
  constructor
  · intro h
    cases l with
    | pub u =>
      cases e : u.pc <;> simp only [commits, e, beq_iff_eq, reduceCtorEq] at h
      subst h
      exact ⟨u, _, rfl, e⟩
    | _ => cases h
  · rintro ⟨u, d, rfl, e⟩
    simp [commits, e]

/-- Publisher 0 has locked position 2 and stands before its commit; a repair pass steals the lock. -/
theorem steal_proof_sound_overtaken : ∃ x : Sys (Fin 9) × List (Sys (Fin 9)),
    (machine smallGeometry crewProc).traced.Reach (LTS.onNow fun s l _ => s.inRange l = true) x ∧
      (∃ a ∈ x.2, a.mem (.sequence 0 0) = seqLock 2) ∧ x.1.mem (.sequence 0 0) ≠ seqLock 2 ∧
      (∃ u d, x.1.th 0 = .pub u ∧ u.pc = .commit d 2) ∧ StealSound smallGeometry crewProc x := by
  have h0 : (machine smallGeometry crewProc).Reach (fun s l _ => s.inRange l = true)
      (crew smallGeometry) := .init (init_crew smallGeometry)
  obtain ⟨s, hs, hP⟩ := h0.play_any (overtaken ++ runs 0 7)
    (fun s => decide (s.mem (.sequence 0 0) = seqLock 2) && (LTS.play (next smallGeometry crewProc) inRange s
      (runs 6 3)).any fun s' => decide (s'.mem (.sequence 0 0) ≠ seqLock 2) && commits 2 (s'.th 0))
    (by decide +kernel)
  rw [Bool.and_eq_true] at hP
  obtain ⟨s', hplay, hP'⟩ := (Option.any_eq_true _ _).mp hP.2
  obtain ⟨past, hpast⟩ := hs.traced
  obtain ⟨past', hr, hsuf⟩ := hpast.traced_play hplay
  have ha : s.mem (.sequence 0 0) = seqLock 2 := of_decide_eq_true hP.1
  rw [Bool.and_eq_true] at hP'
  have hb : s'.mem (.sequence 0 0) ≠ seqLock 2 := of_decide_eq_true hP'.1
  refine ⟨(s', past'), hr, ⟨s, ?_, ha⟩, hb, commits_iff.mp hP'.2, steal_proof_sound valid_smallGeometry hr⟩
  rcases List.mem_cons.mp (hsuf.subset List.mem_cons_self) with rfl | hmem
  · exact absurd ha hb
  · exact hmem

end Sys

end Kickmsg
