import Kickmsg.Conservation
import Kickmsg.Sequence

/-!
# The claims of a ring

A meta word names the position whose publication owns its slot by a serial number of 40 bits. Two actors
write it: a publisher, over the claim of an older position, and `drain_unconsumed`, which clears the slot. On
a ring of fewer than `2 ^ 39` positions the serial numbers are in order, so a word that has been replaced or
cleared never comes back.
-/

namespace Kickmsg

open Lib

/-! ## Serial numbers -/

section Serial

variable {m p q slot : Nat}

/-- The slot field is cut to its width. -/
theorem metaPack_eq_mod (p slot : Nat) : metaPack p slot = (p + 1) % 2 ^ 40 * 2 ^ 24 + (slot + 1) % 2 ^ 24 := by
  unfold metaPack
  simp only [tagOf_eq]
  unfold metaSlotMask metaSlotBits
  rw [Nat.one_shiftLeft, Nat.and_two_pow_sub_one_eq_mod, shiftLeft_or (Nat.mod_lt _ (by decide))]

theorem metaTag_metaPack (p slot : Nat) : metaTag (metaPack p slot) = (p + 1) % 2 ^ 40 := by
  rw [metaTag_eq, metaPack_eq_mod]
  omega

theorem metaSlotBiased_metaPack (hs : slot + 1 < 2 ^ 24) : metaSlotBiased (metaPack p slot) = slot + 1 := by
  rw [metaSlotBiased_eq, metaPack_eq hs]
  omega

theorem metaPack_lt (p slot : Nat) : metaPack p slot < 2 ^ 64 := by
  rw [metaPack_eq_mod]
  omega

theorem metaTag_metaClear (hm : m < 2 ^ 64) : metaTag (metaClear m) = metaTag m := by
  rw [metaTag_eq, metaTag_eq, metaClear_eq hm]
  omega

theorem metaSlotBiased_metaClear (hm : m < 2 ^ 64) : metaSlotBiased (metaClear m) = 0 := by
  rw [metaSlotBiased_eq, metaClear_eq hm]
  omega

theorem metaClear_lt (hm : m < 2 ^ 64) : metaClear m < 2 ^ 64 := by
  rw [metaClear_eq hm]
  omega

/-- Serial numbers less than half their range apart compare as the positions do. -/
theorem metaPrecedes_iff (hm : m < 2 ^ 64) (ht : metaTag m = (q + 1) % 2 ^ 40) (hp : p < q + 2 ^ 39)
    (hq : q < p + 2 ^ 39) : metaPrecedes m p = true ↔ q < p := by
  rw [metaTag_eq] at ht
  rw [metaPrecedes_eq hm, decide_eq_true_eq, ht]
  omega

theorem metaPrecedes_zero (hp : p < 2 ^ 39) : metaPrecedes 0 p = true := by
  rw [metaPrecedes_eq (by decide), decide_eq_true_eq]
  omega

/-- The order in which an entry goes through its words: by position, and a claim before its cleared word. -/
def metaRank (m : Nat) : Nat := 2 * metaTag m + if metaSlotBiased m = 0 then 1 else 0

theorem metaRank_metaPack (hs : slot + 1 < 2 ^ 24) (hp : p + 1 < 2 ^ 40) :
    metaRank (metaPack p slot) = 2 * (p + 1) := by
  rw [metaRank, metaTag_metaPack, metaSlotBiased_metaPack hs, Nat.mod_eq_of_lt hp,
    if_neg (Nat.succ_ne_zero slot), Nat.add_zero]

/-- Clearing a claim moves it on. -/
theorem metaRank_metaClear (hm : m < 2 ^ 64) (h : metaSlotBiased m ≠ 0) : metaRank m < metaRank (metaClear m) := by
  rw [metaRank, metaRank, metaTag_metaClear hm, metaSlotBiased_metaClear hm, if_neg h, if_pos rfl]
  omega

end Serial

/-! ## The writers of a meta word -/

/-- A publisher exchanges only a word that precedes its position. -/
def PubPc.Precedes : PubPc → Prop
  | .metaCas _ pos old => metaPrecedes old pos = true
  | _ => True

namespace Pub

variable {g : Geometry} {u : Pub} {d : Delivery} {pos : Nat}

theorem precedes_finish : (u.finish d).pc.Precedes := by
  unfold finish
  split_ifs <;> trivial

theorem precedes_ring : (u.ring g d).pc.Precedes := by
  unfold ring
  split_ifs
  · trivial
  · trivial
  · exact precedes_finish

theorem precedes_tryAdmit {old : Nat} : (u.tryAdmit g d old).pc.Precedes := by
  unfold tryAdmit
  split_ifs
  · exact precedes_ring
  · trivial

theorem precedes_tryLock {w : CommitWait} {a o : Nat} : (u.tryLock g d pos w a o).pc.Precedes := by
  unfold tryLock
  split_ifs <;> trivial

theorem precedes_repairWith {w : CommitWait} {seq : Nat} : (u.repairWith g d pos w seq).pc.Precedes := by
  unfold repairWith
  split_ifs <;> trivial

theorem precedes_tryTake {old : Nat} : (u.tryTake d pos old).pc.Precedes := by
  unfold tryTake
  split_ifs with h
  · exact h
  · trivial

theorem precedes_releasePrev {old : Nat} : (u.releasePrev g d pos old).pc.Precedes := by
  unfold releasePrev
  split_ifs <;> trivial

theorem precedes_resume (g : Geometry) (u : Pub) (r : Resp) : (u.resume g r).pc.Precedes := by
  cases e : u.pc <;> simp only [resume, e] <;> (repeat' split) <;>
    first
      | trivial
      | exact precedes_ring
      | exact precedes_tryAdmit
      | exact precedes_tryLock
      | exact precedes_repairWith
      | exact precedes_tryTake
      | exact precedes_releasePrev
      | exact precedes_finish

end Pub

namespace Local

variable {g : Geometry} {l l' : Local} {op : Op}

/-- The word an actor is about to exchange precedes its position. -/
def Precedes : Local → Prop
  | .pub u => u.pc.Precedes
  | _ => True

theorem precedes_resume (r : Resp) : (l.resume g r).Precedes := by
  cases l with
  | pub u => exact Pub.precedes_resume g u r
  | _ => trivial

theorem precedes_call {c : Call} (hc : l.call g c = some l') : l'.Precedes := by
  rcases call_pass hc with ⟨u, rfl⟩ | ⟨u, rfl⟩ | ⟨u, -, -, rfl⟩ | ⟨u, -, -, -, rfl⟩ | ⟨u, -, -, -, rfl⟩
  · obtain ⟨hidle, u', rfl, hu'⟩ := call_pub hc
    rcases hu' with ⟨n, rfl⟩ | ⟨x, k, n, -, rfl⟩ | ⟨-, rfl⟩ | ⟨x, len, -, -, -, rfl⟩ <;>
      simp [Precedes, PubPc.Precedes, hidle]
  · obtain ⟨u', rfl, -⟩ := call_sub hc
    trivial
  · trivial
  · trivial
  · trivial

/-- The positions that the actor has claimed on ring `r` are below `n`. -/
def Below (r n : Nat) : Local → Prop
  | .pub u => ∀ pos, u.pc.claimed = some (r, pos) → pos < n
  | _ => True

variable {r n n' : Nat}

theorem Below.mono (h : l.Below r n) (hn : n ≤ n') : l.Below r n' := by
  cases l with
  | pub u => exact fun pos hc => (h pos hc).trans_le hn
  | _ => trivial

/-- What a `fetch_add` of `write_pos` returns is claimed with it. -/
theorem Below.resume {a : Resp} (h : l.Below r n) (hop : l.request g = some op)
    (hclaim : op = .fetchAdd (.writePos r) 1 → a.val < n) : (l.resume g a).Below r n := by
  cases l with
  | pub u =>
    intro pos hc
    rcases Pub.claimed_resume hc with hc | ⟨d, hd, hx⟩
    · exact h pos hc
    · obtain ⟨rfl, rfl⟩ := Prod.mk.inj hx
      simp only [request, Pub.request, hd, Option.some.injEq] at hop
      exact hclaim hop.symm
  | _ => trivial

theorem Below.call {c : Call} (hc : l.call g c = some l') : l'.Below r n := by
  rcases call_pass hc with ⟨u, rfl⟩ | ⟨u, rfl⟩ | ⟨u, -, -, rfl⟩ | ⟨u, -, -, -, rfl⟩ | ⟨u, -, -, -, rfl⟩
  · obtain ⟨hidle, u', rfl, hu'⟩ := call_pub hc
    rcases hu' with ⟨n, rfl⟩ | ⟨x, k, n, -, rfl⟩ | ⟨-, rfl⟩ | ⟨x, len, -, -, -, rfl⟩ <;>
      simp [Below, PubPc.claimed, hidle]
  · obtain ⟨u', rfl, -⟩ := call_sub hc
    trivial
  · trivial
  · trivial
  · trivial

/-- The bounds of an actor hold whatever the shared words answer. -/
theorem Ok.resume (hg : g.Valid) (h : l.Ok g) (hop : l.request g = some op) (r : Resp) :
    (l.resume g r).Ok g := by
  cases l with
  | pub u => exact Pub.Ok.resume hg h r
  | sub u => exact (Sub.move hg h hop r).2
  | view pc => exact (ViewPc.move h hop r).2
  | _ => trivial

/-- Only a publisher that takes a claim over and a subscriber that drains write a meta word. -/
theorem meta_cases {r i : Nat} (hop : l.request g = some op) (ht : op.target = some (.metaWord r i)) :
    (∃ u d pos old, l = .pub u ∧ u.pc = .metaCas d pos old ∧ d.i = r ∧ g.entryIdx pos = i ∧
        op = .cas true (.metaWord r i) old (metaPack pos d.slotIdx)) ∨
      ∃ u pos wp word, l = .sub u ∧ u.pc = .drainCas pos wp word ∧ u.ringIdx = r ∧
        op = .cas false (.metaWord r i) word (metaClear word) := by
  cases l with
  | pub u =>
    cases e : u.pc <;> simp only [request, Pub.request, e, Option.some.injEq, reduceCtorEq] at hop <;>
      subst hop <;> simp only [Op.target, Option.some.injEq, reduceCtorEq, Loc.metaWord.injEq] at ht
    case metaCas d pos old =>
      obtain ⟨rfl, rfl⟩ := ht
      exact .inl ⟨u, d, pos, old, rfl, e, rfl, rfl, rfl⟩
    all_goals
      first
        | have := push_target ht; simp at this
        | have := pop_target ht; simp at this
  | sub u =>
    cases e : u.pc <;> simp only [request, Sub.request, e, Option.some.injEq, reduceCtorEq] at hop <;>
      subst hop <;> simp only [Op.target, Option.some.injEq, reduceCtorEq, Loc.metaWord.injEq] at ht
    case drainCas pos wp word =>
      obtain ⟨rfl, rfl⟩ := ht
      exact .inr ⟨u, pos, wp, word, rfl, e, rfl, rfl⟩
    all_goals
      have := push_target ht
      simp at this
  | view pc =>
    exfalso
    cases pc <;> simp only [request, ViewPc.request, Option.some.injEq, reduceCtorEq] at hop <;>
      subst hop <;> simp only [Op.target, Option.some.injEq, reduceCtorEq] at ht
    have := push_target ht
    simp at this
  | repair u =>
    exfalso
    cases e : u.pc <;> simp only [request, Repair.request, e, Option.some.injEq, reduceCtorEq] at hop <;>
      subst hop <;> simp only [Op.target, Option.some.injEq, reduceCtorEq] at ht
  | reclaim u =>
    exfalso
    cases e : u.pc <;> simp only [request, Reclaim.request, e, Option.some.injEq, reduceCtorEq] at hop <;>
      subst hop <;> simp only [Op.target, Option.some.injEq, reduceCtorEq] at ht
  | orphan u =>
    exfalso
    cases e : u.pc <;> simp only [request, Orphan.request, e, Option.some.injEq, reduceCtorEq] at hop <;>
      subst hop <;> simp only [Op.target, Option.some.injEq, reduceCtorEq] at ht
    have := push_target ht
    simp at this

end Local

/-! ## Runs -/

namespace Sys

variable {ι : Type}

/-- Fewer than `n` positions are claimed on ring `r`. -/
def ringBelow (n r : Nat) (s : Sys ι) : Label ι → Bool
  | .run t _ =>
    match s.th t with
    | .pub u =>
      match u.pc with
      | .claim d => decide (d.i = r → s.mem (.writePos r) + 1 < n)
      | _ => true
    | _ => true
  | _ => true

/-- The words of a ring name claimed positions, and so do the publishers at it. -/
structure Tagged (g : Geometry) (r : Nat) (s : Sys ι) : Prop where
  wpos_lt : s.wpos r < 2 ^ 39
  word_lt : ∀ i, s.mem (.metaWord r i) < 2 ^ 64
  tag_le : ∀ i, metaTag (s.mem (.metaWord r i)) ≤ s.wpos r
  claimed : ∀ t, (s.th t).Below r (s.wpos r)
  precedes : ∀ t, (s.th t).Precedes
  ok : ∀ t, (s.th t).Ok g

/-- A publisher takes the entry `i` of ring `r` over from an older position: the word was `m` and becomes
`m'`. -/
def TakesOver (g : Geometry) (s : Sys ι) (r i m m' : Nat) : Label ι → Prop
  | .run t _ => ∃ u d pos, s.th t = .pub u ∧ u.pc = .metaCas d pos m ∧ d.i = r ∧ g.entryIdx pos = i ∧
      pos < s.wpos r ∧ metaTag m < pos + 1 ∧ d.slotIdx < g.poolSize ∧ m' = metaPack pos d.slotIdx
  | _ => False

/-- `drain_unconsumed` clears the slot of a claim: the word was `m` and becomes `m'`. -/
def Clears (s : Sys ι) (r m m' : Nat) : Label ι → Prop
  | .run t _ => ∃ u pos wp, s.th t = .sub u ∧ u.pc = .drainCas pos wp m ∧ u.ringIdx = r ∧
      metaSlotBiased m ≠ 0 ∧ m' = metaClear m
  | _ => False

section Access

variable {g : Geometry} {s : Sys ι} {r : Nat} {t : ι} {c : Bool} {op : Op}

/-- One access moves the `write_pos` of the ring by nothing, or by the claim of one position. -/
theorem wpos_ring_run {n : Nat} (hn : n ≤ 2 ^ 64) (hop : (s.th t).request g = some op)
    (hr : s.ringBelow n r (.run t c) = true) :
    (op ≠ .fetchAdd (.writePos r) 1 ∧ (op.exec s.procs s.mem c).1 (.writePos r) = s.wpos r) ∨
      (op = .fetchAdd (.writePos r) 1 ∧
        (op.exec s.procs s.mem c).1 (.writePos r) = s.wpos r + 1 ∧ s.wpos r + 1 < n) := by
  by_cases ht : op.target = some (.writePos r)
  · right
    obtain ⟨u, d, hu, hd, rfl, rfl⟩ := Local.writePos_cases hop ht
    simp only [ringBelow, hu, hd, forall_const, decide_eq_true_eq] at hr
    refine ⟨rfl, ?_, hr⟩
    simp only [Op.exec, Function.update_self, Loc.modulus]
    exact Nat.mod_eq_of_lt (lt_of_lt_of_le hr hn)
  · left
    refine ⟨?_, Op.exec_frame _ _ _ _ ht⟩
    rintro rfl
    exact ht rfl

/-- One access leaves a meta word alone, takes it over, or clears it. -/
theorem meta_run (h : Tagged g r s) (hop : (s.th t).request g = some op) (i : Nat) :
    (op.exec s.procs s.mem c).1 (.metaWord r i) = s.mem (.metaWord r i) ∨
      s.TakesOver g r i (s.mem (.metaWord r i)) ((op.exec s.procs s.mem c).1 (.metaWord r i)) (.run t c) ∨
      s.Clears r (s.mem (.metaWord r i)) ((op.exec s.procs s.mem c).1 (.metaWord r i)) (.run t c) := by
  by_cases ht : op.target = some (.metaWord r i)
  · have hok := h.ok t
    have hpre := h.precedes t
    rcases Local.meta_cases hop ht with ⟨u, d, pos, old, hu, hpc, hd, hi, rfl⟩ | ⟨u, pos, wp, word, hu, hpc, hd, rfl⟩
    · rcases Op.exec_cas s.procs s.mem c true (.metaWord r i) old (metaPack pos d.slotIdx) with ⟨hm, he⟩ | he
      · rw [he]
        have hcl := h.claimed t
        rw [hu] at hok hpre hcl
        have hcl := hcl pos (by rw [hpc, ← hd]; rfl)
        have hslot := (hok.delivery_ok d (by rw [hpc]; rfl)).slot_lt
        simp only [Local.Precedes, hpc, PubPc.Precedes] at hpre
        have hlt := h.wpos_lt
        have hle := h.tag_le i
        have hword := h.word_lt i
        rw [hm] at hle hword
        refine .inr (.inl ⟨u, d, pos, hu, by rw [hm]; exact hpc, hd, hi, hcl, ?_, hslot, by simp⟩)
        rw [hm]
        -- a word that precedes the position, and both within half the range
        by_cases hz : metaTag old = 0
        · omega
        · have hlt' := (metaPrecedes_iff (q := metaTag old - 1) hword (by omega) (by omega) (by omega)).mp hpre
          omega
      · rw [he]
        exact .inl rfl
    · rcases Op.exec_cas s.procs s.mem c false (.metaWord r i) word (metaClear word) with ⟨hm, he⟩ | he
      · rw [he]
        rw [hu] at hok
        have hpc' := hok.pc_ok
        rw [hpc] at hpc'
        exact .inr (.inr ⟨u, pos, wp, hu, by rw [hm]; exact hpc, hd, by rw [hm]; exact hpc'.1, by simp [hm]⟩)
      · rw [he]
        exact .inl rfl
  · exact .inl (Op.exec_frame _ _ _ _ ht)

end Access

variable [DecidableEq ι] {g : Geometry} {proc : ι → Nat × Nat} {s s' : Sys ι} {r : Nat}

omit [DecidableEq ι] in
theorem tagged_init (hg : g.Valid) (h : Init g proc s) : Tagged g r s := by
  have hz : ∀ i, s.mem (.metaWord r i) = 0 := fun i => by
    rw [h.mem, stampNewRegion_zero hg (by simp) (by simp)]
  refine ⟨?_, fun i => ?_, fun i => ?_, fun t => ?_, fun t => ?_, fun t => ?_⟩
  · rw [wpos, h.mem, stampNewRegion_zero hg (by simp) (by simp)]
    decide
  · rw [hz]
    decide
  · rw [hz, metaTag_eq]
    exact Nat.zero_le _
  · have hf := h.th t
    cases hl : s.th t with
    | pub u =>
      rw [hl] at hf
      simp [Local.Below, hf.2.2, PubPc.claimed]
    | _ => trivial
  · have hf := h.th t
    cases hl : s.th t with
    | pub u =>
      rw [hl] at hf
      simp [Local.Precedes, hf.2.2, PubPc.Precedes]
    | _ => trivial
  · exact (fresh_acct (h.th t)).2.1

theorem Tagged.run (hg : g.Valid) {t : ι} {c : Bool} (h : Tagged g r s)
    (hs : s.next g proc (.run t c) = some s') (hr : s.ringBelow (2 ^ 39) r (.run t c) = true) :
    Tagged g r s' := by
  obtain ⟨-, op, hop, rfl⟩ := run_cases hs
  have hw := wpos_ring_run (by decide) hop hr
  have hle : s.wpos r ≤ (op.exec s.procs s.mem c).1 (.writePos r) := by
    rcases hw with ⟨-, e⟩ | ⟨-, e, -⟩ <;> omega
  have hlt : (op.exec s.procs s.mem c).1 (.writePos r) < 2 ^ 39 := by
    have := h.wpos_lt
    rcases hw with ⟨-, e⟩ | ⟨-, e, hlt⟩ <;> omega
  refine ⟨hlt, fun i => ?_, fun i => ?_, forall_update (fun v => (h.claimed v).mono hle) ?_,
    forall_update h.precedes (Local.precedes_resume _), forall_update h.ok (Local.Ok.resume hg (h.ok t) hop _)⟩
  · rcases meta_run (c := c) h hop i with e | ⟨u, d, pos, -, -, -, -, hp, -, hs, e⟩ | ⟨u, pos, wp, -, -, -, -, e⟩
    · exact lt_of_eq_of_lt e (h.word_lt i)
    · exact lt_of_eq_of_lt e (metaPack_lt _ _)
    · exact lt_of_eq_of_lt e (metaClear_lt (h.word_lt i))
  · show metaTag ((op.exec s.procs s.mem c).1 (.metaWord r i)) ≤ (op.exec s.procs s.mem c).1 (.writePos r)
    rcases meta_run (c := c) h hop i with e | ⟨u, d, pos, -, -, -, -, hp, -, hs, e⟩ | ⟨u, pos, wp, -, -, -, -, e⟩
    · rw [e]
      exact (h.tag_le i).trans hle
    · rw [e, metaTag_metaPack]
      exact (Nat.mod_le _ _).trans (hp.trans_le hle)
    · rw [e, metaTag_metaClear (h.word_lt i)]
      exact (h.tag_le i).trans hle
  · refine ((h.claimed t).mono hle).resume hop fun hclaim => ?_
    rcases hw with ⟨hne, -⟩ | ⟨-, e, -⟩
    · exact absurd hclaim hne
    · subst hclaim
      exact lt_of_lt_of_eq (Nat.lt_succ_self _) e.symm

/-- No other step touches the words, and none brings an actor to a claim. -/
theorem Tagged.next (hg : g.Valid) {l : Label ι} (h : Tagged g r s) (hs : s.next g proc l = some s')
    (hr : s.ringBelow (2 ^ 39) r l = true) : Tagged g r s' := by
  cases l with
  | run t c => exact h.run hg hs hr
  | call t c =>
    obtain ⟨-, l, hl, rfl⟩ := call_cases hs
    exact ⟨h.wpos_lt, h.word_lt, h.tag_le, forall_update h.claimed (Local.Below.call hl),
      forall_update h.precedes (Local.precedes_call hl), forall_update h.ok (Local.call_acct (h.ok t) hl).2.2.2⟩
  | destroy t v k =>
    obtain ⟨-, u, w, ht, hv, hw, rfl⟩ := destroy_cases hs
    have hok : u.Ok g := by simpa [Local.Ok, ht] using h.ok t
    refine ⟨h.wpos_lt, h.word_lt, h.tag_le,
      forall_update (forall_update h.claimed (t := t) (a := .sub _) trivial) trivial,
      forall_update (forall_update h.precedes (t := t) (a := .sub _) trivial) trivial,
      forall_update (forall_update h.ok (t := t) (a := .sub _) ?_) ?_⟩
    · exact ⟨hok.ring_lt, hok.joining_lt, hok.slot_lt,
        fun v hv => hok.views_ok v (List.mem_of_mem_eraseIdx hv), hok.pc_ok⟩
    · exact hok.views_ok w (List.mem_of_getElem? hw)
  | write t off byte =>
    obtain ⟨-, u, slot, -, -, -, -, rfl⟩ := write_cases hs
    exact ⟨h.wpos_lt, h.word_lt, h.tag_le, h.claimed, h.precedes, h.ok⟩
  | exit pid =>
    obtain ⟨st, -, rfl⟩ := exit_cases hs
    exact ⟨h.wpos_lt, h.word_lt, h.tag_le, h.claimed, h.precedes, h.ok⟩
  | spawn pid st =>
    obtain ⟨-, rfl⟩ := spawn_cases hs
    exact ⟨h.wpos_lt, h.word_lt, h.tag_le, h.claimed, h.precedes, h.ok⟩

/-- A step that changes a meta word takes it over or clears it, and moves the entry on. -/
theorem Tagged.meta_next (hg : g.Valid) {l : Label ι} (h : Tagged g r s) (hs : s.next g proc l = some s')
    (i : Nat) : s'.mem (.metaWord r i) = s.mem (.metaWord r i) ∨
      (s.TakesOver g r i (s.mem (.metaWord r i)) (s'.mem (.metaWord r i)) l ∨
        s.Clears r (s.mem (.metaWord r i)) (s'.mem (.metaWord r i)) l) ∧
      metaTag (s.mem (.metaWord r i)) ≤ metaTag (s'.mem (.metaWord r i)) ∧
      metaRank (s.mem (.metaWord r i)) < metaRank (s'.mem (.metaWord r i)) := by
  by_cases hl : ∃ t c, l = .run t c
  · obtain ⟨t, c, rfl⟩ := hl
    obtain ⟨-, op, hop, rfl⟩ := run_cases hs
    have hlt := h.wpos_lt
    rcases meta_run (c := c) h hop i with e | ht | hc
    · exact .inl e
    · refine .inr ⟨.inl ht, ?_⟩
      obtain ⟨u, d, pos, -, -, -, -, hp, htag, hslot, e⟩ := ht
      have hmod : (pos + 1) % 2 ^ 40 = pos + 1 := Nat.mod_eq_of_lt (by omega)
      show _ ≤ metaTag ((op.exec s.procs s.mem c).1 (.metaWord r i)) ∧
        _ < metaRank ((op.exec s.procs s.mem c).1 (.metaWord r i))
      rw [e, metaTag_metaPack, metaRank_metaPack (hg.slot_lt hslot) (by omega), hmod, metaRank]
      refine ⟨htag.le, ?_⟩
      split_ifs <;> omega
    · refine .inr ⟨.inr hc, ?_⟩
      obtain ⟨u, pos, wp, -, -, -, hne, e⟩ := hc
      show _ ≤ metaTag ((op.exec s.procs s.mem c).1 (.metaWord r i)) ∧
        _ < metaRank ((op.exec s.procs s.mem c).1 (.metaWord r i))
      rw [e, metaTag_metaClear (h.word_lt i)]
      exact ⟨le_rfl, metaRank_metaClear (h.word_lt i) hne⟩
  · exact .inl (congrFun (mem_eq_of_next hs fun t c e => hl ⟨t, c, e⟩) _)

theorem tagged_reach (hg : g.Valid)
    (h : (machine g proc).Reach (fun s l _ => s.ringBelow (2 ^ 39) r l = true) s) : Tagged g r s :=
  h.invariant (fun _ h0 => tagged_init hg h0) fun _ _ _ hI hs ho => hI.next hg hs ho

/-- Along a run the words of an entry only move on. -/
theorem Tagged.play (hg : g.Valid) {ls : List (Label ι)} (h : Tagged g r s)
    (hp : LTS.play (Sys.next g proc) (ringBelow (2 ^ 39) r) s ls = some s') (i : Nat) :
    Tagged g r s' ∧ metaTag (s.mem (.metaWord r i)) ≤ metaTag (s'.mem (.metaWord r i)) ∧
      metaRank (s.mem (.metaWord r i)) ≤ metaRank (s'.mem (.metaWord r i)) := by
  induction ls generalizing s with
  | nil =>
    simp only [LTS.play, Option.some.injEq] at hp
    exact hp ▸ ⟨h, le_rfl, le_rfl⟩
  | cons l ls ih =>
    simp only [LTS.play] at hp
    split_ifs at hp with hok
    obtain ⟨s₁, hs₁, hp⟩ := Option.bind_eq_some_iff.mp hp
    obtain ⟨h', htag, hrank⟩ := ih (h.next hg hs₁ hok) hp
    rcases h.meta_next hg hs₁ i with e | ⟨-, htag₁, hrank₁⟩
    · rw [e] at htag hrank
      exact ⟨h', htag, hrank⟩
    · exact ⟨h', htag₁.trans htag, hrank₁.le.trans hrank⟩

/-- Claim tags only move forward. The words round-trip and compare as the positions do, less than half the
range of the serial numbers apart, also with the slot cleared; and in a run in which fewer than `2 ^ 39`
positions are claimed on the ring, a tag never decreases, a word changes by the take-over of an older position
or by the clearing of its slot, and a claim that has gone never comes back. -/
theorem claim_tags_move_forward (hg : g.Valid) (r : Nat) :
    (∀ p slot, slot < maxPoolSize →
      metaTag (metaPack p slot) = (p + 1) % 2 ^ 40 ∧ metaSlotBiased (metaPack p slot) = slot + 1) ∧
    (∀ p q slot, p < q + 2 ^ 39 → q < p + 2 ^ 39 →
      (metaPrecedes (metaPack q slot) p = true ↔ q < p) ∧
      (metaPrecedes (metaClear (metaPack q slot)) p = true ↔ q < p)) ∧
    (∀ p < 2 ^ 39, metaPrecedes 0 p = true) ∧
    ∀ s : Sys ι, (machine g proc).Reach (fun s l _ => s.ringBelow (2 ^ 39) r l = true) s →
      ∀ i, (∀ ls s', LTS.play (next g proc) (ringBelow (2 ^ 39) r) s ls = some s' →
          metaTag (s.mem (.metaWord r i)) ≤ metaTag (s'.mem (.metaWord r i))) ∧
        ∀ l s', s.next g proc l = some s' → s.ringBelow (2 ^ 39) r l = true →
          s'.mem (.metaWord r i) = s.mem (.metaWord r i) ∨
            (s.TakesOver g r i (s.mem (.metaWord r i)) (s'.mem (.metaWord r i)) l ∨
              s.Clears r (s.mem (.metaWord r i)) (s'.mem (.metaWord r i)) l) ∧
            ∀ ls s'', LTS.play (next g proc) (ringBelow (2 ^ 39) r) s' ls = some s'' →
              s''.mem (.metaWord r i) ≠ s.mem (.metaWord r i) := by
  refine ⟨fun p slot h => ⟨metaTag_metaPack p slot, metaSlotBiased_metaPack ?_⟩, fun p q slot hp hq => ?_,
    fun p hp => metaPrecedes_zero hp, fun s hr i => ?_⟩
  · unfold maxPoolSize at h
    omega
  · have hlt := metaPack_lt q slot
    have htag := metaTag_metaPack q slot
    exact ⟨metaPrecedes_iff hlt htag hp hq,
      metaPrecedes_iff (metaClear_lt hlt) ((metaTag_metaClear hlt).trans htag) hp hq⟩
  · have hT := tagged_reach hg hr
    refine ⟨fun ls s' hp => (hT.play hg hp i).2.1, fun l s' hs hok => ?_⟩
    rcases hT.meta_next hg hs i with e | ⟨hw, -, hrank⟩
    · exact .inl e
    · refine .inr ⟨hw, fun ls s'' hp he => ?_⟩
      have hle := ((hT.next hg hs hok).play hg hp i).2.2
      rw [he] at hle
      omega

/-- Publisher 0 has published one message on ring 0; its claim on the entry names slot 2. -/
theorem claim_tags_move_forward_crew : ∃ s : Sys (Fin 9),
    (machine smallGeometry crewProc).Reach (fun s l _ => s.ringBelow (2 ^ 39) 0 l = true) s ∧
      s.mem (.metaWord 0 0) = metaPack 0 2 ∧
      ∀ ls s', LTS.play (next smallGeometry crewProc) (ringBelow (2 ^ 39) 0) s ls = some s' →
        metaTag (s.mem (.metaWord 0 0)) ≤ metaTag (s'.mem (.metaWord 0 0)) := by
  have h0 : (machine smallGeometry crewProc).Reach (fun s l _ => s.ringBelow (2 ^ 39) 0 l = true)
      (crew smallGeometry) := .init (init_crew smallGeometry)
  obtain ⟨s, hs, hP⟩ := h0.play_any (.call 3 (.join false) :: runs 3 5 ++ .call 0 .allocate :: runs 0 3 ++
      .call 0 (.publish 1) :: runs 0 12) (fun s => decide (s.mem (.metaWord 0 0) = metaPack 0 2)) (by decide +kernel)
  exact ⟨s, hs, by simpa using hP,
    ((claim_tags_move_forward valid_smallGeometry 0).2.2.2 s hs 0).1⟩

end Sys

end Kickmsg
