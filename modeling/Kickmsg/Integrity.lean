import Kickmsg.Content

/-!
# A sample is the message of its position

A subscriber takes a slot out of an entry in four loads and a pin, and the entry may be taken over, drained
or stolen between any two of them. It accepts the slot only if the sequence word has not moved, and then the
claim it has read is still the entry's: a newer claim is installed behind a newer lock. So what it returns is
the message of the publisher that claimed the position, whole, and a view that is kept stays that message.
-/

namespace Kickmsg

open Finset Lib

namespace SubPc

/-- A receive has accepted nothing yet, or is over. -/
def calm : SubPc → Bool
  | .recvMeta _ _ | .recvRc _ _ _ | .recvPin _ _ _ _ | .recvSeq2 _ _ _ | .recvLen _ _ | .copyOut _ => false
  | _ => true

/-- A receive looks at an entry. -/
def looking : SubPc → Bool
  | .recvSeq _ | .recvMeta _ _ | .recvRc _ _ _ | .recvPin _ _ _ _ | .recvSeq2 _ _ _ | .recvLen _ _ => true
  | _ => false

/-- The sample that is in the buffer and not returned yet. -/
def filled : SubPc → Option View
  | .copyDone v | .copyPush v _ => some v
  | _ => none

/-- The slot whose claim a receive has read and not yet confirmed. -/
def watching : SubPc → Option Nat
  | .recvRc _ _ slot | .recvPin _ _ slot _ | .recvSeq2 _ _ slot => some slot
  | _ => none

/-- What a receive of position `p` of ring `r` has in hand. `P r p x len`: slot `x` carries the message
claimed for the position, of `len` bytes. `W r p x`: its entry still names `x` for it, or a later position. -/
def Right (P : Nat → Nat → Nat → Nat → Prop) (W : Nat → Nat → Nat → Prop) (r p : Nat) : SubPc → Prop
  | .recvMeta _ seq1 => seq1 = p + 1
  | .recvRc _ seq1 slot | .recvPin _ seq1 slot _ | .recvSeq2 _ seq1 slot => seq1 = p + 1 ∧ W r p slot
  | .recvLen _ slot => ∃ len, P r p slot len
  | .copyOut v => P v.ring v.ringPos v.slotIdx v.len
  | _ => True

end SubPc

namespace Sub

variable {g : Geometry} {u : Sub} {r : Resp}

theorem calm_recvNone : u.recvNone.pc.calm = true := by
  unfold recvNone
  split_ifs <;> rfl

theorem calm_recvLoop {k : Nat} : (u.recvLoop k).pc.calm = true := by
  unfold recvLoop
  split_ifs
  · rfl
  · exact calm_recvNone

theorem calm_tryJoin {i : Nat} : (u.tryJoin g i).pc.calm = true := by
  unfold tryJoin
  split_ifs <;> rfl

theorem calm_armWith {cur : Nat} {w : Wait} : (u.armWith cur w).pc.calm = true := by
  unfold armWith
  split_ifs <;> rfl

theorem calm_drainLoop {pos wp : Nat} : (u.drainLoop pos wp).pc.calm = true := by
  unfold drainLoop
  split_ifs <;> rfl

theorem views_tryJoin {i : Nat} : (u.tryJoin g i).views = u.views := by
  unfold tryJoin
  split_ifs <;> rfl

theorem views_recvNone : u.recvNone.views = u.views := by
  unfold recvNone
  split_ifs <;> rfl

theorem views_recvLoop {k : Nat} : (u.recvLoop k).views = u.views := by
  unfold recvLoop
  split_ifs
  · rfl
  · exact views_recvNone

theorem views_armWith {cur : Nat} {w : Wait} : (u.armWith cur w).views = u.views := by
  unfold armWith
  split_ifs <;> rfl

theorem views_drainLoop {pos wp : Nat} : (u.drainLoop pos wp).views = u.views := by
  unfold drainLoop
  split_ifs <;> rfl

/-- An access that does not look at an entry accepts nothing. -/
theorem calm_resume (h : u.pc.looking = false) :
    (u.resume g r).pc.calm = true ∧ (u.resume g r).views = u.views := by
  unfold resume
  cases e : u.pc <;> rw [e] at h <;> simp only [SubPc.looking, Bool.true_eq_false] at h <;> dsimp only
  case out | live => exact ⟨by rw [e]; rfl, rfl⟩
  case recvUnpinPush k slot p | copyPush v p => cases p.resume r <;> exact ⟨rfl, rfl⟩
  case drainPush pos wp slot p =>
    cases p.resume r
    · exact ⟨calm_drainLoop, views_drainLoop⟩
    · exact ⟨rfl, rfl⟩
  case armHead | armHead2 =>
    cases u.headPos g r.val
    · exact ⟨rfl, rfl⟩
    · first
        | exact ⟨calm_armWith, views_armWith⟩
        | exact ⟨rfl, rfl⟩
  case parked =>
    split_ifs
    · exact ⟨rfl, rfl⟩
    · exact ⟨by rw [e]; rfl, rfl⟩
  all_goals
    try split_ifs
    all_goals first
      | exact ⟨calm_recvLoop, views_recvLoop⟩
      | exact ⟨calm_recvNone, views_recvNone⟩
      | exact ⟨calm_armWith, views_armWith⟩
      | exact ⟨calm_drainLoop, views_drainLoop⟩
      | exact ⟨calm_tryJoin, views_tryJoin⟩
      | exact ⟨rfl, rfl⟩

/-- What a subscriber has in hand is right: its views, and its receive in progress. -/
structure Right (P : Nat → Nat → Nat → Nat → Prop) (W : Nat → Nat → Nat → Prop) (u : Sub) : Prop where
  views : ∀ v ∈ u.views, P v.ring v.ringPos v.slotIdx v.len
  pc_ok : u.pc.Right P W u.ringIdx u.readPos

variable {P P' : Nat → Nat → Nat → Nat → Prop} {W W' : Nat → Nat → Nat → Prop} {u' : Sub}

theorem Right.of_calm (h : u.Right P W) (hv : u'.views = u.views) (hc : u'.pc.calm = true) : u'.Right P W := by
  refine ⟨fun v hmem => h.views v (hv ▸ hmem), ?_⟩
  cases e : u'.pc <;> first | trivial | (rw [e] at hc; cases hc)

/-- Whatever the others do, as far as it leaves alone what is pinned and what is watched. -/
theorem Right.mono (h : u.Right P W) (hok : u.Ok g)
    (hP : ∀ r p x len, x < g.poolSize → 0 < u.pins x → P r p x len → P' r p x len)
    (hW : ∀ x, u.pc.watching = some x → W u.ringIdx u.readPos x → W' u.ringIdx u.readPos x) :
    u.Right P' W' := by
  refine ⟨fun v hv => ?_, ?_⟩
  · refine hP _ _ _ _ (hok.views_ok v hv).1 ?_ (h.views v hv)
    have : 0 < pinsOf u.views v.slotIdx := List.countP_pos_iff.mpr ⟨v, hv, by simp⟩
    exact this.trans_le (Nat.le_add_right _ _)
  · have hpc := h.pc_ok
    have hslot := hok.slot_lt
    have hpin : ∀ x, 0 < u.pc.pins x → 0 < u.pins x := fun x hx => hx.trans_le (Nat.le_add_left _ _)
    cases e : u.pc <;> rw [e] at hpc hslot hpin hW <;> try trivial
    case recvRc k seq1 slot => exact ⟨hpc.1, hW slot rfl hpc.2⟩
    case recvPin k seq1 slot rc => exact ⟨hpc.1, hW slot rfl hpc.2⟩
    case recvSeq2 k seq1 slot => exact ⟨hpc.1, hW slot rfl hpc.2⟩
    case recvLen k slot =>
      obtain ⟨len, hl⟩ := hpc
      exact ⟨len, hP _ _ _ _ (hslot slot rfl) (hpin slot (by simp [SubPc.pins])) hl⟩
    case copyOut v => exact hP _ _ _ _ (hslot v.slotIdx rfl) (hpin v.slotIdx (by simp [SubPc.pins])) hpc

theorem Right.tryPin {k seq1 slot rc : Nat} (h : u.Right P W) (hs : seq1 = u.readPos + 1)
    (hw : W u.ringIdx u.readPos slot) : (u.tryPin k seq1 slot rc).Right P W := by
  unfold Sub.tryPin
  split_ifs
  · exact ⟨h.views, hs, hw⟩
  · exact ⟨h.views, trivial⟩

/-- An access keeps it right, if an entry that answers with the position's tag is watched, one that has not
moved carries the message, and its slot answers with the length. -/
theorem Right.resume (h : u.Right P W) (hlt : u.pc.looking = true → u.readPos < 2 ^ 39)
    (hmeta : ∀ k seq1 slot, u.pc = .recvMeta k seq1 → metaTag r.val = u.readPos + 1 →
      metaSlotBiased r.val = slot + 1 → W u.ringIdx u.readPos slot)
    (hseq : ∀ k seq1 slot, u.pc = .recvSeq2 k seq1 slot → r.val = u.readPos + 1 →
      W u.ringIdx u.readPos slot → ∃ len, P u.ringIdx u.readPos slot len)
    (hlen : ∀ k slot len, u.pc = .recvLen k slot → P u.ringIdx u.readPos slot len → r.val = len) :
    (u.resume g r).Right P W := by
  by_cases hl : u.pc.looking = false
  · exact h.of_calm (calm_resume hl).2 (calm_resume hl).1
  have hnext : u64 (u.readPos + 1) = u.readPos + 1 := by
    have := hlt (by simpa using hl)
    exact Nat.mod_eq_of_lt (by omega)
  have hpc := h.pc_ok
  cases e : u.pc <;> rw [e] at hl hpc <;> simp only [SubPc.looking, not_true_eq_false] at hl <;>
    simp only [Sub.resume, e]
  case recvSeq k =>
    unfold recvWith
    split_ifs with hne
    · exact h.of_calm rfl rfl
    · exact h.of_calm views_recvNone calm_recvNone
    · exact h.of_calm rfl rfl
    · rw [not_not, hnext] at hne
      exact ⟨h.views, hne⟩
  case recvMeta k seq1 =>
    unfold recvClaim
    split_ifs with hne
    · exact h.of_calm rfl rfl
    · rw [not_or, not_or, not_not, hnext] at hne
      obtain ⟨htag, hb, -⟩ := hne
      have hmask : u.readPos + 1 &&& metaTagMask = u.readPos + 1 := by
        have := hlt (by rw [e]; rfl)
        unfold metaTagMask
        rw [Nat.one_shiftLeft, Nat.and_two_pow_sub_one_eq_mod]
        exact Nat.mod_eq_of_lt (by omega)
      rw [hmask] at htag
      exact ⟨h.views, hpc, hmeta k seq1 _ e htag (by omega)⟩
  case recvRc k seq1 slot => exact h.tryPin hpc.1 hpc.2
  case recvPin k seq1 slot rc =>
    split_ifs
    · exact ⟨h.views, hpc⟩
    · exact h.tryPin hpc.1 hpc.2
  case recvSeq2 k seq1 slot =>
    split_ifs with hne
    · exact h.of_calm rfl rfl
    · rw [not_not] at hne
      exact ⟨h.views, hseq k seq1 slot e (hne.trans hpc.1) hpc.2⟩
  case recvLen k slot =>
    obtain ⟨len, hP⟩ := hpc
    split_ifs
    · exact h.of_calm rfl rfl
    · rw [hlen k slot len e hP]
      unfold sample
      split_ifs
      · exact ⟨h.views, hP⟩
      · exact ⟨List.forall_mem_cons.mpr ⟨hP, h.views⟩, trivial⟩

/-- A call begins with nothing in hand but the views. -/
theorem Right.call {c : Call} {l' : Local} (h : u.Right P W) (hc : (Local.sub u).call g c = some l') :
    ∃ u', l' = .sub u' ∧ u'.Right P W := by
  obtain ⟨u', rfl, hcase⟩ := Local.call_sub hc
  refine ⟨u', rfl, ?_⟩
  rcases hcase with ⟨-, w, rfl⟩ | ⟨-, ⟨copy, blocking, rfl⟩ | rfl | rfl | rfl⟩
  · exact h.of_calm views_tryJoin calm_tryJoin
  · exact h.of_calm views_recvLoop calm_recvLoop
  all_goals exact h.of_calm rfl rfl

/-! ## The order of the samples -/

/-- The position a subscriber returns next: a copy in progress is of the one before `read_pos`. -/
def due (u : Sub) : Nat :=
  match u.pc.copied with
  | some v => v.ringPos
  | none => u.readPos

/-- The samples returned since the subscriber joined at `origin` are of its ring, from positions on that
only grew, below the one that is due; nothing is returned before a call is over. -/
structure InOrder (g : Geometry) (origin : Nat) (got : List Sample) (u : Sub) : Prop where
  ring : ∀ y ∈ got, y.ring = u.ringIdx
  pos : ∀ y ∈ got, origin ≤ y.ringPos ∧ y.ringPos < u.due
  sorted : got.Pairwise fun y z => z.ringPos < y.ringPos
  start : u.pc.inRing = true → origin ≤ u.due
  copy : ∀ v, u.pc.copied = some v → u.copy = true ∧ v.ring = u.ringIdx ∧ v.ringPos < u.readPos
  skip : ∀ k wp, u.pc = .recvSkip k wp → u.readPos + g.subRingCapacity < wp
  returned : u.pc.inRing = true → u.pc ≠ .live → u.returned = none

variable {origin : Nat} {got : List Sample} {data : Nat → Nat → Nat} {buf : List Nat}

theorem due_of_not_copied (h : u.pc.copied = none) : u.due = u.readPos := by
  simp only [due, h]

theorem copied_of_outside (h : u.pc.inRing = false) : u.pc.copied = none := by
  cases e : u.pc <;> rw [e] at h <;> first | rfl | cases h

theorem handed_of_busy (h : u.pc ≠ .live) : u.handed = none := by
  unfold handed
  split
  · rename_i e
    exact absurd e h
  · rfl

theorem InOrder.onward (h : u.InOrder g origin got) (hring : u'.ringIdx = u.ringIdx)
    (hpos : u.due ≤ u'.readPos) (hin : u'.pc.inRing = true → u.pc.inRing = true)
    (hun : u'.pc.unmoved = true ∨ u'.pc.inRing = false)
    (hret : u'.pc.inRing = true → u'.pc ≠ .live → u'.returned = none) : u'.InOrder g origin got := by
  have hcop : u'.pc.copied = none := hun.elim SubPc.copied_of_unmoved copied_of_outside
  have hdue := due_of_not_copied hcop
  refine ⟨fun y hy => (h.ring y hy).trans hring.symm, fun y hy => ?_, h.sorted, fun hi => ?_, fun v e => ?_,
    fun k wp e => ?_, hret⟩
  · exact ⟨(h.pos y hy).1, hdue ▸ (h.pos y hy).2.trans_le hpos⟩
  · exact hdue ▸ (h.start (hin hi)).trans hpos
  · rw [hcop] at e
    cases e
  · rw [e] at hun
    rcases hun with hun | hun <;> cases hun

/-- A copy that goes on. -/
theorem InOrder.copying (h : u.InOrder g origin got) (hin : u.pc.inRing = true) {v : View}
    (hv : u.pc.copied = some v) (hv' : u'.pc.copied = some v) (hring : u'.ringIdx = u.ringIdx)
    (hpos : u'.readPos = u.readPos) (hcopy : u'.copy = u.copy) (hret : u'.returned = none) :
    u'.InOrder g origin got := by
  have hdue : u'.due = u.due := by simp only [due, hv, hv']
  refine ⟨fun y hy => (h.ring y hy).trans hring.symm, fun y hy => ?_, h.sorted, fun _ => ?_, fun w e => ?_,
    fun k wp e => ?_, fun _ _ => hret⟩
  · exact hdue ▸ h.pos y hy
  · exact hdue ▸ h.start hin
  · obtain rfl := Option.some.inj (hv'.symm.trans e)
    rw [hring, hpos, hcopy]
    exact h.copy v hv
  · rw [e] at hv'
    cases hv'

/-- One more sample, of the position that is due. -/
theorem InOrder.hand (h : u.InOrder g origin got) (hi : u.pc.inRing = true) {y : Sample}
    (hy : y.ring = u.ringIdx ∧ y.ringPos = u.due) (hring : u'.ringIdx = u.ringIdx)
    (hpos : u.due < u'.readPos) (hlive : u'.pc = .live) : u'.InOrder g origin (y :: got) := by
  have hcop : u'.pc.copied = none := by rw [hlive]; rfl
  have hdue := due_of_not_copied hcop
  refine ⟨List.forall_mem_cons.mpr ⟨hy.1.trans hring.symm, fun z hz => (h.ring z hz).trans hring.symm⟩,
    List.forall_mem_cons.mpr ⟨⟨hy.2 ▸ h.start hi, hdue ▸ hy.2 ▸ hpos⟩, fun z hz => ?_⟩,
    List.pairwise_cons.mpr ⟨fun z hz => hy.2 ▸ (h.pos z hz).2, h.sorted⟩, fun _ => ?_, fun v e => ?_,
    fun k wp e => ?_, fun _ hne => absurd hlive hne⟩
  · exact ⟨(h.pos z hz).1, hdue ▸ (h.pos z hz).2.trans hpos⟩
  · exact hdue ▸ (h.start hi).trans hpos.le
  · rw [hcop] at e
    cases e
  · rw [hlive] at e
    cases e

/-- Until its constructor returns, a subscriber is in no ring. -/
theorem outside_resume (h : u.pc.inRing = false) (hj : ∀ i wp, u.pc ≠ .joinPos2 i wp) :
    (u.resume g r).pc.inRing = false ∧ (u.resume g r).readPos = u.readPos ∧
      (u.resume g r).ringIdx = u.ringIdx := by
  have htry : ∀ i, (u.tryJoin g i).pc.inRing = false ∧ (u.tryJoin g i).readPos = u.readPos ∧
      (u.tryJoin g i).ringIdx = u.ringIdx := by
    intro i
    unfold tryJoin
    split_ifs <;> exact ⟨rfl, rfl, rfl⟩
  unfold resume
  cases e : u.pc <;> rw [e] at h <;> simp only [SubPc.inRing, Bool.true_eq_false] at h <;> dsimp only
  case out => exact ⟨by rw [e]; rfl, rfl, rfl⟩
  case joinCas i wp =>
    split_ifs
    · exact ⟨rfl, rfl, rfl⟩
    · exact htry _
  case joinPos2 i wp => exact absurd e (hj i wp)
  all_goals exact ⟨rfl, rfl, rfl⟩

theorem ringIdx_resume (h : u.pc.inRing = true) : (u.resume g r).ringIdx = u.ringIdx := by
  obtain ⟨_, _, _, _, _, _, _, _, _, _, _, _, _, pc⟩ := u
  cases pc <;> simp only [SubPc.inRing, Bool.false_eq_true] at h <;>
    simp only [resume, recvLoop, recvNone, recvWith, recvClaim, tryPin, sample, armWith, drainLoop] <;>
    (repeat' split) <;> rfl

/-- The mode of a receive stands until the next. -/
theorem copy_resume (g : Geometry) (u : Sub) (r : Resp) : (u.resume g r).copy = u.copy := by
  obtain ⟨_, _, _, _, _, _, _, _, _, _, _, _, _, pc⟩ := u
  cases pc <;>
    simp only [resume, tryJoin, recvLoop, recvNone, recvWith, recvClaim, tryPin, sample, armWith, drainLoop] <;>
    (repeat' split) <;> rfl

variable (data buf) in
/-- The bookkeeping of an access keeps the order. -/
theorem InOrder.resume (h : u.InOrder g origin got) (hbusy : u.pc ≠ .live)
    (hlt : u.pc.looking = true ∨ (∃ k, u.pc = .recvLost k) → u.readPos < 2 ^ 39) :
    (u.resume g r).InOrder g ((Ghost.joined r (.sub u)).getD origin)
      (match Ghost.joined r (.sub u), Ghost.handed data buf (.sub (u.resume g r)) with
        | some _, _ => []
        | none, some y => y :: got
        | none, none => got) := by
  have quiet : (u.resume g r).handed = none →
      Ghost.handed data buf (.sub (u.resume g r)) = none := fun hn => by
    simp only [Ghost.handed, hn, Option.map_none]
  by_cases hin : u.pc.inRing = false
  · -- the constructor: at its end there are no samples yet
    by_cases hj : ∃ i wp, u.pc = .joinPos2 i wp
    · obtain ⟨i, wp, e⟩ := hj
      simp only [Ghost.joined, e, Option.getD_some, Sub.resume]
      exact ⟨fun _ e => (by cases e), fun _ e => (by cases e), .nil, fun _ => le_rfl, fun _ e => (by cases e),
        fun _ _ e => (by cases e), fun _ hne => absurd rfl hne⟩
    · obtain ⟨h1, h2, h3⟩ := outside_resume (r := r) hin fun i wp e => hj ⟨i, wp, e⟩
      have hdue := due_of_not_copied (copied_of_outside hin)
      have hnone : Ghost.joined r (.sub u) = none := by
        cases e : u.pc <;> rw [e] at hin <;> simp only [SubPc.inRing, Bool.true_eq_false] at hin <;>
          simp only [Ghost.joined, e]
        exact absurd ⟨_, _, e⟩ hj
      rw [hnone, quiet (handed_of_busy fun e => by rw [e] at h1; cases h1)]
      exact h.onward h3 (hdue.trans h2.symm).le (by rw [h1]; exact fun e => by cases e) (.inr h1)
        (by rw [h1]; exact fun e => by cases e)
  have hin : u.pc.inRing = true := by simpa using hin
  have hret := h.returned hin hbusy
  have hring : (u.resume g r).ringIdx = u.ringIdx := ringIdx_resume hin
  have hnext : u.pc.looking = true ∨ (∃ k, u.pc = .recvLost k) → u64 (u.readPos + 1) = u.readPos + 1 := by
    intro hl
    have := hlt hl
    exact Nat.mod_eq_of_lt (by omega)
  have hjoin : Ghost.joined r (.sub u) = none := by
    cases e : u.pc <;> rw [e] at hin <;> first | simp [Ghost.joined, e]; done | cases hin
  rw [hjoin]
  by_cases hskip : ∃ k wp, u.pc = .recvSkip k wp
  · obtain ⟨k, wp, e⟩ := hskip
    have := h.skip k wp e
    have hdue : u.due = u.readPos := due_of_not_copied (by rw [e]; rfl)
    have hret' : (u.resume g r).returned = none := by simpa only [Sub.resume, e] using hret
    rw [quiet (handed_of_none hret')]
    refine h.onward hring ?_ (fun _ => hin) (.inl ?_) fun _ _ => hret'
    · simp only [hdue, e, Sub.resume]
      omega
    · simp [Sub.resume, e, SubPc.unmoved]
  by_cases hlost : ∃ k, u.pc = .recvLost k
  · obtain ⟨k, e⟩ := hlost
    have hdue : u.due = u.readPos := due_of_not_copied (by rw [e]; rfl)
    obtain ⟨hpos, hret', hplain⟩ : (u.resume g r).readPos = u64 (u.readPos + 1) ∧
        (u.resume g r).returned = u.returned ∧ (u.resume g r).pc.unmoved = true := by
      simp only [Sub.resume, e]
      exact ⟨stays_recvLoop.readPos, stays_recvLoop.returned, stays_recvLoop.plain⟩
    rw [quiet (handed_of_none (hret'.trans hret))]
    refine h.onward hring ?_ (fun _ => hin) (.inl hplain) fun _ _ => hret'.trans hret
    rw [hpos, hnext (.inr ⟨k, e⟩), hdue]
    omega
  by_cases hlap : ∃ k, u.pc = .recvPos k ∧ u.readPos + g.subRingCapacity < r.val
  · obtain ⟨k, e, hgt⟩ := hlap
    have hres : u.resume g r = { u with pc := .recvSkip k r.val } := by
      simp only [Sub.resume, e]
      rw [if_neg (by omega), if_pos (by omega)]
    have hdue : u.due = u.readPos := due_of_not_copied (by rw [e]; rfl)
    rw [quiet (handed_of_none (by rw [hres]; exact hret)), hres]
    refine ⟨h.ring, fun y hy => ?_, h.sorted, fun _ => ?_, fun _ e' => (by cases e'), fun k' wp' e' => ?_,
      fun _ _ => hret⟩
    · exact ⟨(h.pos y hy).1, hdue ▸ (h.pos y hy).2⟩
    · exact hdue ▸ h.start hin
    · obtain ⟨rfl, rfl⟩ := SubPc.recvSkip.inj e'
      exact hgt
  by_cases hsample : ∃ k slot, u.pc = .recvLen k slot ∧ r.val ≤ g.slotDataSize
  · -- a sample, copied out first or returned as a view
    obtain ⟨k, slot, e, hle⟩ := hsample
    have hres : u.resume g r = u.sample slot r.val := by
      simp only [Sub.resume, e]
      rw [if_neg (by omega)]
    have hdue : u.due = u.readPos := due_of_not_copied (by rw [e]; rfl)
    have hn := hnext (.inl (by rw [e]; rfl))
    by_cases hcopy : u.copy = true
    · have hsam : u.sample slot r.val = { u with
          readPos := u.readPos + 1
          pc := .copyOut ⟨u.ringIdx, u.readPos, slot, r.val⟩ } := by
        simp only [Sub.sample, hcopy, if_true, hn]
      rw [quiet (handed_of_none (by rw [hres, hsam]; exact hret)), hres, hsam]
      refine ⟨h.ring, fun y hy => ?_, h.sorted, fun _ => ?_, fun v e' => ?_, fun _ _ e' => (by cases e'),
        fun _ _ => hret⟩
      · exact ⟨(h.pos y hy).1, hdue ▸ (h.pos y hy).2⟩
      · exact hdue ▸ h.start hin
      · obtain rfl := Option.some.inj e'
        exact ⟨hcopy, rfl, Nat.lt_succ_self _⟩
    · have hsam : u.sample slot r.val = { u with
          readPos := u.readPos + 1
          views := ⟨u.ringIdx, u.readPos, slot, r.val⟩ :: u.views
          returned := some ⟨u.ringIdx, u.readPos, slot, r.val⟩
          pc := .live } := by
        simp only [Sub.sample, hcopy, Bool.false_eq_true, if_false, hn]
      rw [hres, hsam]
      exact h.hand hin ⟨rfl, hdue.symm⟩ rfl (by rw [hdue]; exact Nat.lt_succ_self _) rfl
  by_cases hcopied : ∃ v, u.pc.copied = some v
  · -- a copy goes on, or is returned
    obtain ⟨v, hv⟩ := hcopied
    obtain ⟨hc, hvr, hvp⟩ := h.copy v hv
    have hdue : u.due = v.ringPos := by simp only [due, hv]
    obtain ⟨hpos, -, ⟨hcop, hret'⟩ | ⟨hlive, hret'⟩⟩ := copied_resume (g := g) (r := r) hv
    · rw [quiet (handed_of_none (hret'.trans hret))]
      exact h.copying hin hv hcop hring hpos (copy_resume ..) (hret'.trans hret)
    · have hh : Ghost.handed data buf (.sub (u.resume g r)) = some ⟨v.ring, v.ringPos, buf⟩ := by
        simp only [Ghost.handed, handed, hlive, hret', Option.map_some, copy_resume, hc, if_true]
      rw [hh]
      exact h.hand hin ⟨hvr, hdue.symm⟩ hring (by rw [hdue, hpos]; exact hvp) hlive
  push Not at hskip hlost hlap hsample hcopied
  have hcop : u.pc.copied = none := Option.eq_none_iff_forall_ne_some.mpr hcopied
  have hun : u.pc.unmoved = true := by
    cases e : u.pc <;> rw [e] at hin hskip hcop <;>
      first
        | rfl
        | exact absurd rfl (hskip _ _)
        | cases hcop; done
        | cases hin
  have hkeeps : Stays u (u.resume g r) :=
    stays_resume (fun k e => hlap k e) hlost (fun k slot e => hsample k slot e) hun
  rw [quiet (hkeeps.handed hret)]
  exact h.onward hring ((due_of_not_copied hcop).trans hkeeps.readPos.symm).le (fun _ => hin)
    (.inl hkeeps.plain) fun _ _ => hkeeps.returned.trans hret

theorem InOrder.call {c : Call} (h : u.InOrder g origin got) (hc : (Local.sub u).call g c = some (.sub u')) :
    u'.InOrder g origin got := by
  obtain ⟨u₁, e, hcase⟩ := Local.call_sub hc
  obtain rfl := Local.sub.inj e
  have hdue : u.due = u.readPos := by
    refine due_of_not_copied ?_
    rcases hcase with ⟨hpc, -⟩ | ⟨hpc, -⟩ <;> rw [hpc] <;> rfl
  rcases hcase with ⟨-, waker, rfl⟩ | ⟨hpc, hcase⟩
  · have hin : (u.join g waker).pc.inRing = false := by
      unfold join tryJoin
      split_ifs <;> rfl
    have hstay : (u.join g waker).ringIdx = u.ringIdx ∧ (u.join g waker).readPos = u.readPos := by
      unfold join tryJoin
      split_ifs <;> exact ⟨rfl, rfl⟩
    exact h.onward hstay.1 (hdue.trans hstay.2.symm).le (by rw [hin]; exact fun e => by cases e) (.inr hin)
      (by rw [hin]; exact fun e => by cases e)
  · have hlive : u.pc.inRing = true := by rw [hpc]; rfl
    rcases hcase with ⟨copy, blocking, rfl⟩ | rfl | rfl | rfl
    · have hring : (u.receive copy blocking).ringIdx = u.ringIdx := by
        unfold receive recvLoop recvNone
        split_ifs <;> rfl
      have hstay := stays_recvLoop
        (u := { u with copy := copy, blocking := blocking, returned := none }) (k := 0)
      exact h.onward hring (hdue.trans hstay.readPos.symm).le (fun _ => hlive) (.inl hstay.plain)
        fun _ _ => hstay.returned
    all_goals exact h.onward rfl hdue.le (fun _ => hlive) (.inl rfl) fun _ _ => rfl

/-- What is in the buffer was copied just now, or before. -/
theorem filled_resume {x : View} (h : (u.resume g r).pc.filled = some x) :
    u.pc = .copyOut x ∨ u.pc.filled = some x := by
  by_cases hcop : ∃ v, u.pc = .copyOut v
  · obtain ⟨v, e⟩ := hcop
    simp only [Sub.resume, e, SubPc.filled, Option.some.injEq] at h
    exact .inl (h ▸ e)
  refine .inr ?_
  obtain ⟨_, _, _, _, _, _, _, _, _, _, _, _, _, pc⟩ := u
  cases pc <;>
    simp only [resume, tryJoin, recvLoop, recvNone, recvWith, recvClaim, tryPin, sample, armWith, drainLoop] at h <;>
    (repeat' split at h) <;> first | exact h | cases h; done | exact absurd ⟨_, rfl⟩ hcop

/-- Only a receive that ends with a sample changes what the call returns. -/
theorem returned_resume (hj : ∀ i wp, u.pc ≠ .joinPos2 i wp)
    (hl : ∀ k slot, u.pc = .recvLen k slot → u.copy = true ∨ g.slotDataSize < r.val)
    (hf : u.pc.filled = none) : (u.resume g r).returned = u.returned := by
  by_cases hsample : ∃ k slot, u.pc = .recvLen k slot
  · obtain ⟨k, slot, e⟩ := hsample
    have := hl k slot e
    simp only [Sub.resume, e]
    unfold sample
    split_ifs with h1 h2
    · rfl
    · rfl
    · rcases this with hc | hlt
      · exact absurd hc h2
      · exact absurd hlt h1
  obtain ⟨_, _, _, _, _, _, _, _, _, _, _, _, _, pc⟩ := u
  cases pc <;>
    simp only [resume, tryJoin, recvLoop, recvNone, recvWith, recvClaim, tryPin, armWith, drainLoop] <;>
    (repeat' split) <;>
    first
      | rfl
      | exact absurd rfl (hj _ _)
      | exact absurd ⟨_, _, rfl⟩ hsample
      | cases hf

/-- A sample is returned as a view that has just been made, or from the buffer. -/
theorem InOrder.handed_cases (h : u.InOrder g origin got) (hbusy : u.pc ≠ .live)
    (hj : Ghost.joined r (.sub u) = none) {x : View} (hx : (u.resume g r).handed = some x) :
    (∃ k slot, u.pc = .recvLen k slot ∧ u.copy = false ∧ x = ⟨u.ringIdx, u.readPos, slot, r.val⟩) ∨
      (u.pc.filled = some x ∧ u.copy = true) := by
  have hj : ∀ i wp, u.pc ≠ .joinPos2 i wp := fun i wp e => by simp [Ghost.joined, e] at hj
  have hlive : (u.resume g r).pc = .live := by
    by_contra hne
    rw [handed_of_busy hne] at hx
    cases hx
  have hret : (u.resume g r).returned = some x := by
    simpa only [handed, hlive] using hx
  have hin : u.pc.inRing = true := by
    by_contra hin
    have h1 := (outside_resume (r := r) (g := g) (by simpa using hin) hj).1
    rw [hlive] at h1
    cases h1
  by_cases hfill : ∃ v, u.pc.filled = some v
  · obtain ⟨v, hv⟩ := hfill
    have hcop : u.pc.copied = some v := by
      cases e : u.pc <;> rw [e] at hv <;> first | exact hv | cases hv
    right
    rcases (copied_resume (g := g) (r := r) hcop).2.2 with ⟨-, e⟩ | ⟨-, e⟩
    · rw [e, h.returned hin hbusy] at hret
      cases hret
    · obtain rfl := Option.some.inj (e.symm.trans hret)
      exact ⟨hv, (h.copy v hcop).1⟩
  have hfill : u.pc.filled = none := Option.eq_none_iff_forall_ne_some.mpr fun v hv => hfill ⟨v, hv⟩
  by_cases hsample : ∃ k slot, u.pc = .recvLen k slot ∧ u.copy = false ∧ r.val ≤ g.slotDataSize
  · obtain ⟨k, slot, e, hcopy, hle⟩ := hsample
    simp only [Sub.resume, e, sample, hcopy, Nat.not_lt.mpr hle, if_false, Bool.false_eq_true,
      Option.some.injEq] at hret
    exact .inl ⟨k, slot, e, hcopy, hret.symm⟩
  · rw [returned_resume hj (fun k slot e => ?_) hfill, h.returned hin hbusy] at hret
    · cases hret
    · by_contra hn
      simp only [not_or, Bool.not_eq_true, Nat.not_lt] at hn
      exact hsample ⟨k, slot, e, hn⟩

/-- Nothing is copied while the buffer is in use. -/
theorem request_filled {op : Op} {x : View} (hop : u.request g = some op) (hx : u.pc.filled = some x)
    (slot len : Nat) : op ≠ .copyOut slot len := by
  rintro rfl
  cases e : u.pc <;> rw [e] at hx <;> simp only [SubPc.filled, reduceCtorEq] at hx <;>
    simp only [request, e, Option.some.injEq, reduceCtorEq] at hop
  case copyPush v p => cases p <;> cases hop

theorem filled_call {c : Call} (hc : (Local.sub u).call g c = some (.sub u')) : u'.pc.filled = none := by
  obtain ⟨u₁, e, hcase⟩ := Local.call_sub hc
  obtain rfl := Local.sub.inj e
  rcases hcase with ⟨-, waker, rfl⟩ | ⟨-, ⟨copy, blocking, rfl⟩ | rfl | rfl | rfl⟩
  · unfold join tryJoin
    split_ifs <;> rfl
  · unfold receive recvLoop recvNone
    split_ifs <;> rfl
  all_goals rfl

end Sub

namespace Sys

variable {ι : Type}

/-! ## What is known in a run -/

/-- Position `p` of ring `r` was claimed for a message of `len` bytes, and slot `x` carries it. -/
def Message (g : Geometry) (s : Sys ι) (r p x len : Nat) : Prop :=
  ∃ t w, s.ghost.log r p = some (t, w) ∧ w.slotIdx = x ∧ w.bytes.length = len ∧ s.Carries g w

/-- The entry of position `p` names slot `x` for it, or a later position, unless the process of `v` is gone
and with it the tenant that nobody else drains for. -/
def Standing (g : Geometry) (proc : ι → Nat × Nat) (s : Sys ι) (v : ι) (r p x : Nat) : Prop :=
  ¬ s.Dead proc v → p + 1 < metaTag (s.mem (.metaWord r (g.entryIdx p))) ∨
    (metaTag (s.mem (.metaWord r (g.entryIdx p))) = p + 1 ∧
      metaSlotBiased (s.mem (.metaWord r (g.entryIdx p))) = x + 1)

/-- A publisher's slot carries the message of its last `publish()`, which is logged for what it has claimed,
and an entry that it is about to claim is locked for it, or for a later position. -/
structure Backed (g : Geometry) (s : Sys ι) (v : ι) (u : Pub) : Prop where
  loaded : u.Loaded g (s.Drafted g (s.ghost.msg v)) (s.Carries g (s.ghost.msg v)) (s.ghost.msg v)
  logged : ∀ r p, u.pc.claimed = some (r, p) → s.ghost.log r p = some (v, s.ghost.msg v)
  locked : ∀ r p, u.pc.taking = some (r, p) → 2 * p + 1 ≤ rank (s.mem (.sequence r (g.entryIdx p)))

/-- A subscriber has messages in hand, a copy is of the message of its position, and the samples were
returned in order. -/
structure Served (g : Geometry) (proc : ι → Nat × Nat) (s : Sys ι) (v : ι) (u : Sub) : Prop where
  right : u.Right (s.Message g) (s.Standing g proc v)
  filled : ∀ x, u.pc.filled = some x →
    ∃ t w, s.ghost.log x.ring x.ringPos = some (t, w) ∧ s.ghost.buf v = w.bytes
  order : u.InOrder g (s.ghost.origin v) (s.ghost.got v)

def Faithful (g : Geometry) (proc : ι → Nat × Nat) (s : Sys ι) (v : ι) : Local → Prop
  | .pub u => s.Backed g v u
  | .sub u => s.Served g proc v u
  | _ => True

/-- An entry's claim is not ahead of its lock, the slot it names carries the message of its position, and so
did every slot a sample was taken from. -/
structure Integral [Fintype ι] (g : Geometry) (proc : ι → Nat × Nat) (s : Sys ι) : Prop where
  regular : Regular g proc s
  rank : ∀ r i, 2 * metaTag (s.mem (.metaWord r i)) ≤ rank (s.mem (.sequence r i)) + 1
  claim : ∀ r < g.maxSubs, ∀ i < g.subRingCapacity, ∀ x < g.poolSize,
    metaSlotBiased (s.mem (.metaWord r i)) = x + 1 →
      ∃ p len, metaTag (s.mem (.metaWord r i)) = p + 1 ∧ s.Message g r p x len
  actor : ∀ v, s.Faithful g proc v (s.th v)
  got : ∀ v, ∀ y ∈ s.ghost.got v, ∃ t w, s.ghost.log y.ring y.ringPos = some (t, w) ∧ y.bytes = w.bytes

section Steps

variable [Fintype ι] [DecidableEq ι] {g : Geometry} {proc : ι → Nat × Nat} {s s' : Sys ι} {l : Label ι}

/-! ### Steps of others -/

omit [Fintype ι] in
theorem published_log (gh : Ghost ι) (data : Nat → Nat → Nat) (t : ι) (l : Local) :
    (gh.published data t l).log = gh.log := by
  unfold Ghost.published
  split
  · split <;> rfl
  · rfl

omit [Fintype ι] in
theorem published_got (gh : Ghost ι) (data : Nat → Nat → Nat) (t : ι) (l : Local) :
    (gh.published data t l).got = gh.got ∧ (gh.published data t l).origin = gh.origin ∧
      (gh.published data t l).buf = gh.buf := by
  unfold Ghost.published
  split
  · split <;> exact ⟨rfl, rfl, rfl⟩
  · exact ⟨rfl, rfl, rfl⟩

omit [Fintype ι] in
/-- What is logged stays. -/
theorem log_next (h : Logged s) (hs : s.next g proc l = some s') {r p : Nat} {x : ι × Msg}
    (hx : s.ghost.log r p = some x) : s'.ghost.log r p = some x := by
  cases l with
  | run t c =>
    obtain ⟨-, op, hop, rfl⟩ := ran_cases hs
    rcases log_run (c := c) hop r p with e | ⟨-, hp, -⟩
    · exact e.trans hx
    · exact absurd (h.below r p (by rw [hx]; simp)) (by omega)
  | call t c =>
    obtain ⟨-, l, -, rfl⟩ := call_cases hs
    exact (congrFun (congrFun (published_log ..) r) p).trans hx
  | destroy t v k =>
    obtain ⟨-, u, w, -, -, -, rfl⟩ := destroy_cases hs
    exact hx
  | write t off byte =>
    obtain ⟨-, u, slot, -, -, -, -, rfl⟩ := write_cases hs
    exact hx
  | exit pid =>
    obtain ⟨st, -, rfl⟩ := exit_cases hs
    exact hx
  | spawn pid st =>
    obtain ⟨-, rfl⟩ := spawn_cases hs
    exact hx

omit [Fintype ι] in
/-- The message of an actor that calls nothing. -/
theorem msg_next (hs : s.next g proc l = some s') {v : ι} (hv : ∀ c, l ≠ .call v c) :
    s'.ghost.msg v = s.ghost.msg v := by
  cases l with
  | run t c =>
    obtain ⟨-, op, -, rfl⟩ := ran_cases hs
    rfl
  | call t c =>
    obtain ⟨-, l, -, rfl⟩ := call_cases hs
    have hvt : v ≠ t := fun e => hv c (e ▸ rfl)
    simp only [Ghost.published]
    split
    · split
      · simp [Function.update_of_ne hvt]
      · rfl
    · rfl
  | destroy t v k =>
    obtain ⟨-, u, w, -, -, -, rfl⟩ := destroy_cases hs
    rfl
  | write t off byte =>
    obtain ⟨-, u, slot, -, -, -, -, rfl⟩ := write_cases hs
    rfl
  | exit pid =>
    obtain ⟨st, -, rfl⟩ := exit_cases hs
    rfl
  | spawn pid st =>
    obtain ⟨-, rfl⟩ := spawn_cases hs
    rfl

omit [Fintype ι] in
/-- The samples and the buffer of an actor that performs no access. -/
theorem got_next (hs : s.next g proc l = some s') {v : ι} (hv : ∀ c, l ≠ .run v c) :
    s'.ghost.got v = s.ghost.got v ∧ s'.ghost.origin v = s.ghost.origin v ∧
      s'.ghost.buf v = s.ghost.buf v := by
  cases l with
  | run t c =>
    obtain ⟨-, op, -, rfl⟩ := ran_cases hs
    have hvt : v ≠ t := fun e => hv c (e ▸ rfl)
    have hbuf : s.ghost.bufAfter s.data t op v = s.ghost.buf v := by
      unfold Ghost.bufAfter
      split
      · exact Function.update_of_ne hvt _ _
      · rfl
    simp only [ran, Ghost.after]
    cases Ghost.joined (op.exec s.procs s.mem c).2 (s.th t) with
    | some q => exact ⟨Function.update_of_ne hvt _ _, Function.update_of_ne hvt _ _, hbuf⟩
    | none =>
      cases Ghost.handed s.data (s.ghost.buf t) ((s.th t).resume g (op.exec s.procs s.mem c).2) with
      | some y => exact ⟨Function.update_of_ne hvt _ _, rfl, hbuf⟩
      | none => exact ⟨rfl, rfl, hbuf⟩
  | call t c =>
    obtain ⟨-, l, -, rfl⟩ := call_cases hs
    obtain ⟨h1, h2, h3⟩ := published_got s.ghost s.data t l
    exact ⟨congrFun h1 v, congrFun h2 v, congrFun h3 v⟩
  | destroy t v k =>
    obtain ⟨-, u, w, -, -, -, rfl⟩ := destroy_cases hs
    exact ⟨rfl, rfl, rfl⟩
  | write t off byte =>
    obtain ⟨-, u, slot, -, -, -, -, rfl⟩ := write_cases hs
    exact ⟨rfl, rfl, rfl⟩
  | exit pid =>
    obtain ⟨st, -, rfl⟩ := exit_cases hs
    exact ⟨rfl, rfl, rfl⟩
  | spawn pid st =>
    obtain ⟨-, rfl⟩ := spawn_cases hs
    exact ⟨rfl, rfl, rfl⟩

omit [Fintype ι] in
/-- A message stays in its slot unless somebody who has the slot for its own moves. -/
theorem carries_next (hs : s.next g proc l = some s') {w : Msg}
    (hx : ∀ t, (∃ c, l = .run t c) ∨ (∃ off byte, l = .write t off byte) →
      ((s.th t).acct g).excl w.slotIdx = 0) :
    (s.Drafted g w → s'.Drafted g w) ∧ (s.Carries g w → s'.Carries g w) := by
  cases l with
  | run t c =>
    obtain ⟨-, op, hop, rfl⟩ := ran_cases hs
    exact ⟨id, Carries.run hop (hx t (.inl ⟨c, rfl⟩))⟩
  | call t c =>
    obtain ⟨-, l, -, rfl⟩ := call_cases hs
    exact ⟨id, id⟩
  | destroy t v k =>
    obtain ⟨-, u, w, -, -, -, rfl⟩ := destroy_cases hs
    exact ⟨id, id⟩
  | write t off byte =>
    have hw := Drafted.write (w := w) hs (hx t (.inr ⟨off, byte, rfl⟩))
    have hm := mem_eq_of_next hs nofun
    exact ⟨hw, fun h => ⟨hm ▸ h.1, hw h.2⟩⟩
  | exit pid =>
    obtain ⟨st, -, rfl⟩ := exit_cases hs
    exact ⟨id, id⟩
  | spawn pid st =>
    obtain ⟨-, rfl⟩ := spawn_cases hs
    exact ⟨id, id⟩

/-- A message in a slot that something refers to stays. -/
theorem Regular.message_next (h : Regular g proc s) (hs : s.next g proc l = some s') {r p x len : Nat}
    (hx : x < g.poolSize) (href : s.Referenced g x) (hM : s.Message g r p x len) :
    s'.Message g r p x len := by
  obtain ⟨t, w, hlog, rfl, hl, hc⟩ := hM
  exact ⟨t, w, log_next h.logged hs hlog, rfl, hl,
    (carries_next hs fun v _ => h.excl_of_referenced hx href v).2 hc⟩

omit [Fintype ι] in
theorem dead_next (hs : s.next g proc l = some s') {v : ι} (hd : s.Dead proc v) : s'.Dead proc v := by
  by_cases hl : ∃ t c, l = .run t c
  · obtain ⟨t, c, rfl⟩ := hl
    obtain ⟨-, op, -, rfl⟩ := ran_cases hs
    exact hd
  · exact (world_of_next hs fun t c e => hl ⟨t, c, e⟩).2.1 v hd

/-- What a subscriber that is left alone has read of a claim stands: its entry is cleared by its tenant only,
and its tenant is the one that reads. -/
theorem Regular.standing_next (h : Regular g proc s) (hs : s.next g proc l = some s') {v : ι} {u : Sub} {x : Nat}
    (hu : s.th v = .sub u) (hw : u.pc.watching = some x)
    (hS : s.Standing g proc v u.ringIdx u.readPos x) : s'.Standing g proc v u.ringIdx u.readPos x := by
  intro hnd
  have hnd : ¬ s.Dead proc v := fun hd => hnd (dead_next hs hd)
  have hS := hS hnd
  by_cases hl : ∃ t c, l = .run t c
  · obtain ⟨t, c, rfl⟩ := hl
    obtain ⟨ha, op, hop, rfl⟩ := ran_cases hs
    simp only [ran]
    rcases meta_run (c := c) (h.tagged u.ringIdx) hop (g.entryIdx u.readPos) with
      e | ⟨u', d, pos, -, -, -, -, hp, ht, -, e⟩ | ⟨u', pos, wp, hu', hpc, hr, -, -⟩
    · rw [e]
      exact hS
    · left
      have := (h.tagged u.ringIdx).wpos_lt
      rw [e, metaTag_metaPack, Nat.mod_eq_of_lt (by omega)]
      omega
    · exfalso
      have htenant := h.tenancy.tenancy.tenant_of_held ha (r := u.ringIdx) (t := t) (by
        rw [hu', ← hr]
        simp [Local.held, Sub.held, hpc])
      have hheld : (s.th v).held = some u.ringIdx := by
        rw [hu]
        simp only [Local.held, Sub.held]
        cases e : u.pc <;> rw [e] at hw <;> first | rfl | cases hw
      obtain rfl : t = v := Option.some.inj
        (htenant.symm.trans (((h.tenancy.tenancy.ring u.ringIdx).holder v hheld).resolve_right hnd))
      obtain rfl := Local.sub.inj (hu.symm.trans hu')
      rw [hpc] at hw
      cases hw
  · rw [mem_eq_of_next hs fun t c e => hl ⟨t, c, e⟩]
    exact hS

/-- What a subscriber has in hand stays right, whoever moves. -/
theorem Regular.right_next (h : Regular g proc s) (hs : s.next g proc l = some s') {v : ι} {u : Sub}
    (hu : s.th v = .sub u) (hR : u.Right (s.Message g) (s.Standing g proc v)) :
    u.Right (s'.Message g) (s'.Standing g proc v) := by
  have hok := (h.tagged 0).ok v
  rw [hu] at hok
  refine hR.mono hok (fun r p x len hx hpin hM => h.message_next hs hx (.inr ⟨v, ?_⟩) hM)
    fun x hw hst => h.standing_next hs hu hw hst
  rw [hu]
  exact hpin.trans_le (Nat.le_add_right _ _)

theorem Served.next (h : Regular g proc s) (hs : s.next g proc l = some s') {v : ι} {u : Sub}
    (hu : s.th v = .sub u) (hS : s.Served g proc v u) (hrun : ∀ c, l ≠ .run v c) : s'.Served g proc v u where
  right := h.right_next hs hu hS.right
  filled x hx := by
    obtain ⟨t, w, hlog, hb⟩ := hS.filled x hx
    exact ⟨t, w, log_next h.logged hs hlog, (got_next hs hrun).2.2.trans hb⟩
  order := by
    rw [(got_next hs hrun).1, (got_next hs hrun).2.1]
    exact hS.order

omit [Fintype ι] [DecidableEq ι] in
/-- Outside a publication there is nothing to say. -/
theorem backed_of_quiet {v : ι} {u : Pub} (hs : ∀ x len, u.pc ≠ .storeLen x len)
    (hp : ∀ x, u.pc ≠ .presetRefcount x) (hd : u.pc.delivery = none) : s.Backed g v u where
  loaded := ⟨fun x len e => absurd e (hs x len), fun x e => absurd e (hp x), by rw [hd]; nofun⟩
  logged r p hc := by
    cases e : u.pc <;> rw [e] at hc hd <;> first | cases hd; done | cases hc
  locked r p hc := by
    cases e : u.pc <;> rw [e] at hc hd <;> first | cases hd; done | cases hc

theorem Backed.next (hg : g.Valid) (h : Regular g proc s) (hs : s.next g proc l = some s')
    (hf : s.forward g l = true) {v : ι} {u : Pub} (hu : s.th v = .pub u) (hB : s.Backed g v u)
    (hrun : ∀ c, l ≠ .run v c) (hcall : ∀ c, l ≠ .call v c) : s'.Backed g v u := by
  by_cases hw : ∃ off byte, l = .write v off byte
  · obtain ⟨off, byte, rfl⟩ := hw
    obtain ⟨-, u', slot, hu', -, hidle, -, -⟩ := write_cases hs
    obtain rfl := Local.pub.inj (hu.symm.trans hu')
    exact backed_of_quiet (by simp [hidle]) (by simp [hidle]) (by simp [hidle, PubPc.delivery])
  have hok := (h.tagged 0).ok v
  rw [hu] at hok
  -- whoever else moves does not have the slot for its own
  have hother : ∀ t, (∃ c, l = .run t c) ∨ (∃ off byte, l = .write t off byte) → t ≠ v := by
    rintro t (⟨c, rfl⟩ | ⟨off, byte, rfl⟩) rfl
    · exact hrun c rfl
    · exact hw ⟨off, byte, rfl⟩
  have hexcl : ∀ x < g.poolSize, 0 < u.excl x → ∀ t, (∃ c, l = .run t c) ∨ (∃ off byte, l = .write t off byte) →
      ((s.th t).acct g).excl x = 0 := by
    intro x hx he t ht
    exact h.excl_of_excl hx (hother t ht) (by rw [hu]; exact he)
  have hmsg := msg_next hs hcall
  refine ⟨?_, fun r p hc => ?_, fun r p hc => ?_⟩
  · rw [hmsg]
    refine hB.loaded.mono hok (fun hx he => (carries_next hs (hexcl _ hx he)).1) fun hx he => ?_
    rcases he with he | he
    · exact (carries_next hs (hexcl _ hx he)).2
    · refine (carries_next hs fun t _ => h.excl_of_referenced hx (.inr ⟨v, ?_⟩) t).2
      rw [hu]
      exact he.trans_le (Nat.le_add_right _ _)
  · rw [hmsg]
    exact log_next h.logged hs (hB.logged r p hc)
  · exact (hB.locked r p hc).trans ((rank_next hg h.seq hs).mpr hf _ _)

/-! ### An access -/

theorem Backed.run (hg : g.Valid) (h : Regular g proc s) {v : ι} {c : Bool} {op : Op}
    (hs : s.next g proc (.run v c) = some (s.ran g v op c)) (hf : s.forward g (.run v c) = true) {u : Pub}
    (hu : s.th v = .pub u) (hop : u.request g = some op) (hB : s.Backed g v u) :
    (s.ran g v op c).Backed g v (u.resume g (op.exec s.procs s.mem c).2) := by
  have hok := (h.tagged 0).ok v
  rw [hu] at hok
  have hop' : (s.th v).request g = some op := by rw [hu]; exact hop
  refine ⟨?_, fun r p hc => ?_, fun r p hc => ?_⟩
  · refine hB.loaded.resume hok (fun len hpc hl hD => ⟨?_, hD⟩) fun hne hC => ⟨?_, hC.2⟩
    · simp only [Pub.request, hpc, Option.some.injEq] at hop
      subst hop
      have h1 := hD.1
      have h2 := hg.slotDataSize_le
      have : u32 len = len := Nat.mod_eq_of_lt (by unfold maxPayloadSize at h2; omega)
      simp only [ran, Op.exec, this, Ghost.after, Function.update_self]
      exact hl.symm
    · refine Eq.trans (Op.exec_frame _ _ _ _ fun ht => ?_) hC.1
      obtain ⟨u', len, hu', hpc, -⟩ := Local.payloadLen_cases hop' ht
      obtain rfl := Local.pub.inj (hu.symm.trans hu')
      exact hne _ len hpc
  · rcases Pub.claimed_resume hc with hc | ⟨d, hd, hx⟩
    · exact log_next h.logged hs (hB.logged r p hc)
    · obtain ⟨rfl, rfl⟩ := Prod.mk.inj hx
      obtain rfl : op = .fetchAdd (.writePos d.i) 1 := by
        simpa [Pub.request, hd] using hop.symm
      simp [ran, Ghost.after, Ghost.logAfter, Op.exec]
  · rcases Pub.taking_resume hc with hc | ⟨d, pos, w, a, o, hpc, hk, hx⟩
    · exact (hB.locked r p hc).trans ((rank_next hg h.seq hs).mpr hf _ _)
    · obtain ⟨rfl, rfl⟩ := Prod.mk.inj hx
      simp only [Pub.request, hpc, Option.some.injEq] at hop
      subst hop
      rcases Op.exec_cas s.procs s.mem c true (.sequence d.i (g.entryIdx p)) o (seqLock p) with ⟨-, e⟩ | e
      · have hlt : p < s.wpos d.i := (h.tagged d.i).claimed v |> fun hb => by
          rw [hu] at hb
          exact hb p (by rw [hpc]; rfl)
        have := (h.tagged d.i).wpos_lt
        simp only [ran, e, Function.update_self]
        exact (Tag.rank_word (k := .lock) (by omega)).ge
      · rw [e] at hk
        cases hk

theorem Served.run (hg : g.Valid) (h : Integral g proc s) {v : ι} {c : Bool} {op : Op}
    (ha : s.alive proc v = true)
    (hs : s.next g proc (.run v c) = some (s.ran g v op c)) {u : Sub}
    (hu : s.th v = .sub u) (hop : u.request g = some op) (hS : s.Served g proc v u) :
    (s.ran g v op c).Served g proc v (u.resume g (op.exec s.procs s.mem c).2) := by
  have hR := h.regular
  have hok := (hR.tagged 0).ok v
  rw [hu] at hok
  have hb := hR.behind v
  rw [hu] at hb
  have hpos : u.pc.looking = true ∨ (∃ k, u.pc = .recvLost k) → u.readPos < 2 ^ 39 := by
    intro hl
    have hw := (hR.tagged u.ringIdx).wpos_lt
    have : u.readPos < s.wpos u.ringIdx := by
      simp only [Local.Behind, Sub.Behind] at hb
      rcases hl with hl | ⟨k, e⟩
      · cases e : u.pc <;> rw [e] at hl hb <;> first | exact hb | cases hl
      · rw [e] at hb
        exact hb
    omega
  refine ⟨?_, fun x hx => ?_, ?_⟩
  · refine (hR.right_next hs hu hS.right).resume (fun hl => hpos (.inl hl)) (fun k seq1 slot hpc ht hx => ?_)
      (fun k seq1 slot hpc hr hst => ?_) fun k slot len hpc hM => ?_
    all_goals
      simp only [Sub.request, hpc, Option.some.injEq] at hop
      subst hop
    · exact fun _ => .inr ⟨ht, hx⟩
    · -- the lock of a later claim would have moved the word
      have hst := hst (hR.tenancy.tenancy.not_dead ha)
      simp only [Op.exec] at hr
      simp only [ran, Op.exec] at hst
      have hrank := h.rank u.ringIdx (g.entryIdx u.readPos)
      have hlt := hpos (.inl (by rw [hpc]; rfl))
      have hcommit : Tag.commit.word u.readPos = u.readPos + 1 := Tag.word_eq (by omega)
      rw [hr, ← hcommit, Tag.rank_word (by omega)] at hrank
      simp only [Tag.locked, Bool.false_eq_true, if_false] at hrank
      rcases hst with hst | ⟨ht, hx⟩
      · omega
      · have hring := hok.ring_lt (by rw [hpc]; rfl)
        have hslot := hok.slot_lt slot (by rw [hpc]; rfl)
        obtain ⟨p, len, hp, hM⟩ := h.claim _ hring _ (hg.entryIdx_lt _) slot hslot hx
        obtain rfl : p = u.readPos := by omega
        exact ⟨len, hR.message_next hs hslot (.inl ⟨_, hring, _, hg.entryIdx_lt _, hx⟩) hM⟩
    · obtain ⟨t, w, -, rfl, rfl, hC⟩ := hM
      exact hC.1
  · rcases Sub.filled_resume hx with e | e
    · -- the copy is of the message in hand
      have hpc := hS.right.pc_ok
      simp only [Sub.request, e, Option.some.injEq] at hop
      subst hop
      rw [e] at hpc
      obtain ⟨t, w, hlog, hw, hl, hC⟩ := hpc
      refine ⟨t, w, log_next hR.logged hs hlog, ?_⟩
      simp only [ran, Ghost.after, Ghost.bufAfter, Function.update_self, ← hw, ← hl]
      exact hC.2.2
    · obtain ⟨t, w, hlog, hb⟩ := hS.filled x e
      refine ⟨t, w, log_next hR.logged hs hlog, Eq.trans ?_ hb⟩
      have hno : ∀ slot len, op ≠ .copyOut slot len := Sub.request_filled hop e
      simp only [ran, Ghost.after, Ghost.bufAfter]
  · have hbusy : u.pc ≠ .live := fun e => by simp [Sub.request, e] at hop
    have ho := hS.order.resume s.data (s.ghost.buf v) hbusy hpos (r := (op.exec s.procs s.mem c).2)
    simp only [ran, Ghost.after, hu, Local.resume]
    cases hj : Ghost.joined (op.exec s.procs s.mem c).2 (.sub u) with
    | some q =>
      rw [hj] at ho
      simpa using ho
    | none =>
      rw [hj] at ho
      cases hh : Ghost.handed s.data (s.ghost.buf v) (.sub (u.resume g (op.exec s.procs s.mem c).2)) with
      | some y =>
        rw [hh] at ho
        simpa using ho
      | none =>
        rw [hh] at ho
        simpa using ho

/-! ### The other steps -/

omit [Fintype ι] in
theorem backed_call {v : ι} {u u' : Pub} {c : Call} (hc : (Local.pub u).call g c = some (.pub u'))
    (hs : s.next g proc (.call v c) = some s') (hv : s.th v = .pub u) : s'.Backed g v u' := by
  obtain ⟨-, l, hl, rfl⟩ := call_cases hs
  rw [hv] at hl
  obtain rfl := Option.some.inj (hl.symm.trans hc)
  obtain ⟨hidle, u'', e, hcase⟩ := Local.call_pub hc
  obtain rfl := Local.pub.inj e
  rcases hcase with ⟨n, rfl⟩ | ⟨x, k, n, -, rfl⟩ | ⟨-, rfl⟩ | ⟨x, len, -, hlen, -, rfl⟩
  · exact backed_of_quiet (by simp [hidle]) (by simp [hidle]) (by simp [hidle, PubPc.delivery])
  · exact backed_of_quiet nofun nofun rfl
  · exact backed_of_quiet nofun nofun rfl
  · refine ⟨⟨fun y n e => ?_, nofun, nofun⟩, nofun, nofun⟩
    obtain ⟨rfl, rfl⟩ := PubPc.storeLen.inj e
    simp [Ghost.published, Drafted, Ghost.payload, hlen]

omit [Fintype ι] in
theorem served_call {v : ι} {u u' : Sub} {c : Call} (hc : (Local.sub u).call g c = some (.sub u'))
    (hs : s.next g proc (.call v c) = some s') (hS : s.Served g proc v u)
    (hR : u.Right (s'.Message g) (s'.Standing g proc v)) : s'.Served g proc v u' := by
  refine ⟨?_, fun x hx => ?_, ?_⟩
  · obtain ⟨u₁, e, hR⟩ := hR.call hc
    exact Local.sub.inj e ▸ hR
  · have hnone := Sub.filled_call hc
    rw [hx] at hnone
    cases hnone
  · have hg := got_next (v := v) hs nofun
    rw [hg.1, hg.2.1]
    exact hS.order.call hc

/-- A meta word stays, is taken over by a publisher that has locked the entry, or loses its slot. -/
theorem Regular.meta_next (h : Regular g proc s) (hs : s.next g proc l = some s') (r i : Nat) :
    s'.mem (.metaWord r i) = s.mem (.metaWord r i) ∨
      (∃ v c u d pos old, l = .run v c ∧ s.th v = .pub u ∧ u.pc = .metaCas d pos old ∧ d.i = r ∧
        g.entryIdx pos = i ∧ pos < 2 ^ 39 ∧ d.slotIdx < g.poolSize ∧
        s'.mem (.metaWord r i) = metaPack pos d.slotIdx) ∨
      (metaTag (s'.mem (.metaWord r i)) = metaTag (s.mem (.metaWord r i)) ∧
        metaSlotBiased (s'.mem (.metaWord r i)) = 0) := by
  by_cases hl : ∃ t c, l = .run t c
  · obtain ⟨t, c, rfl⟩ := hl
    obtain ⟨-, op, hop, rfl⟩ := ran_cases hs
    have hw := (h.tagged r).wpos_lt
    have hm := (h.tagged r).word_lt i
    rcases meta_run (c := c) (h.tagged r) hop i with
      e | ⟨u, d, pos, hu, hpc, hd, hi, hp, -, hx, e⟩ | ⟨u, pos, wp, -, -, -, -, e⟩
    · exact .inl e
    · exact .inr (.inl ⟨t, c, u, d, pos, _, rfl, hu, hpc, hd, hi, hp.trans hw, hx, e⟩)
    · refine .inr (.inr ?_)
      simp only [ran]
      rw [e]
      exact ⟨metaTag_metaClear hm, metaSlotBiased_metaClear hm⟩
  · exact .inl (congrFun (mem_eq_of_next hs fun t c e => hl ⟨t, c, e⟩) _)

omit [DecidableEq ι] in
/-- A publisher at its claim has the message in its slot. -/
theorem Integral.message_of_metaCas (h : Integral g proc s) {v : ι} {u : Pub} {d : Delivery} {pos old : Nat}
    (hu : s.th v = .pub u) (hpc : u.pc = .metaCas d pos old) :
    s.Referenced g d.slotIdx ∧ ∃ len, s.Message g d.i pos d.slotIdx len := by
  have hB := h.actor v
  have hok := (h.regular.tagged 0).ok v
  rw [hu] at hB hok
  have hring := (hok.delivery_ok d (by rw [hpc]; rfl)).ring_lt
  have hleft : 0 < d.left g u.pc.kept := by
    simp only [hpc, PubPc.kept, Delivery.left, if_true]
    omega
  obtain ⟨hw, hc⟩ := hB.loaded.ring d (by rw [hpc]; rfl)
  refine ⟨.inr ⟨v, ?_⟩, _, v, _, hB.logged d.i pos (by rw [hpc]; rfl), hw, rfl, hc hleft⟩
  rw [hu]
  refine lt_of_lt_of_le ?_ (Nat.le_add_right _ _)
  simpa [Pub.share, hpc, PubPc.delivery] using hpc ▸ hleft

theorem Integral.claim_next (hg : g.Valid) (h : Integral g proc s) (hs : s.next g proc l = some s')
    (hf : s.forward g l = true) :
    (∀ r i, 2 * metaTag (s'.mem (.metaWord r i)) ≤ Kickmsg.rank (s'.mem (.sequence r i)) + 1) ∧
    ∀ r < g.maxSubs, ∀ i < g.subRingCapacity, ∀ x < g.poolSize,
      metaSlotBiased (s'.mem (.metaWord r i)) = x + 1 →
        ∃ p len, metaTag (s'.mem (.metaWord r i)) = p + 1 ∧ s'.Message g r p x len := by
  have hR := h.regular
  have hrank := (rank_next hg hR.seq hs).mpr hf
  refine ⟨fun r i => ?_, fun r hr i hi x hx hm => ?_⟩
  · have h0 := h.rank r i
    have h1 := hrank r i
    rcases hR.meta_next hs r i with e | ⟨v, c, u, d, pos, old, -, hu, hpc, rfl, rfl, hp, -, e⟩ | ⟨e, -⟩
    · rw [e]
      omega
    · have hB := h.actor v
      rw [hu] at hB
      have := hB.locked d.i pos (by rw [hpc]; rfl)
      rw [e, metaTag_metaPack, Nat.mod_eq_of_lt (by omega)]
      omega
    · rw [e]
      omega
  · rcases hR.meta_next hs r i with e | ⟨v, c, u, d, pos, old, -, hu, hpc, rfl, rfl, hp, hs', e⟩ | ⟨-, e⟩
    · rw [e] at hm ⊢
      obtain ⟨p, len, ht, hM⟩ := h.claim r hr i hi x hx hm
      exact ⟨p, len, ht, hR.message_next hs hx (.inl ⟨r, hr, i, hi, hm⟩) hM⟩
    · rw [e, metaSlotBiased_metaPack (hg.slot_lt hs')] at hm
      obtain rfl : d.slotIdx = x := by omega
      obtain ⟨href, len, hM⟩ := h.message_of_metaCas hu hpc
      rw [e, metaTag_metaPack, Nat.mod_eq_of_lt (by omega)]
      exact ⟨pos, len, rfl, hR.message_next hs hx href hM⟩
    · rw [e] at hm
      cases hm

theorem Integral.actor_next (hg : g.Valid) (h : Integral g proc s) (hs : s.next g proc l = some s')
    (hf : s.forward g l = true) (w : ι) : s'.Faithful g proc w (s'.th w) := by
  have hR := h.regular
  have hother : s'.th w = s.th w → (∀ c, l ≠ .run w c) → (∀ c, l ≠ .call w c) →
      s'.Faithful g proc w (s'.th w) := by
    intro hth hrun hcall
    have hw := h.actor w
    rw [hth]
    cases hu : s.th w with
    | pub u =>
      rw [hu] at hw
      exact hw.next hg hR hs hf hu hrun hcall
    | sub u =>
      rw [hu] at hw
      exact hw.next hR hs hu hrun
    | _ => trivial
  have hw := h.actor w
  have hs₀ := hs
  cases l with
  | run t c =>
    obtain ⟨ha, op, hop, rfl⟩ := ran_cases hs
    by_cases e : w = t
    · subst e
      rw [show (s.ran g w op c).th w = (s.th w).resume g (op.exec s.procs s.mem c).2 from Function.update_self ..]
      cases hu : s.th w with
      | pub u =>
        rw [hu] at hw hop
        exact hw.run hg hR hs₀ hf hu hop
      | sub u =>
        rw [hu] at hw hop
        exact hw.run hg h ha hs₀ hu hop
      | _ => trivial
    · exact hother (Function.update_of_ne e _ _) (fun c' e' => e (Label.run.inj e').1.symm) nofun
  | call t c =>
    obtain ⟨ha, l, hl, rfl⟩ := call_cases hs
    by_cases e : w = t
    · subst e
      simp only [Function.update_self]
      cases hu : s.th w with
      | pub u =>
        rw [hu] at hl
        obtain ⟨-, u', rfl, -⟩ := Local.call_pub hl
        exact backed_call hl hs₀ hu
      | sub u =>
        rw [hu] at hw hl
        obtain ⟨u', rfl, -⟩ := Local.call_sub hl
        exact served_call hl hs₀ hw (hR.right_next hs₀ hu hw.right)
      | _ =>
        rw [hu] at hl
        rcases Local.call_pass hl with ⟨_, e⟩ | ⟨_, e⟩ | ⟨_, -, -, rfl⟩ | ⟨_, -, -, -, rfl⟩ | ⟨_, -, -, -, rfl⟩ <;>
          trivial
    · exact hother (Function.update_of_ne e _ _) nofun fun c' e' => e (Label.call.inj e').1.symm
  | destroy t v k =>
    obtain ⟨-, u, x, ht, hv, -, rfl⟩ := destroy_cases hs
    by_cases ev : w = v
    · subst ev
      simp only [Function.update_self]
      trivial
    · by_cases et : w = t
      · subst et
        rw [ht] at hw
        have hS := hw.next hR hs₀ ht nofun
        simp only [Function.update_of_ne ev, Function.update_self]
        exact ⟨⟨fun y hy => hS.right.views y (List.mem_of_mem_eraseIdx hy), hS.right.pc_ok⟩, hS.filled,
          ⟨hS.order.ring, hS.order.pos, hS.order.sorted, hS.order.start, hS.order.copy, hS.order.skip,
            hS.order.returned⟩⟩
      · exact hother (by simp [Function.update_of_ne ev, Function.update_of_ne et]) nofun nofun
  | write t off byte =>
    obtain ⟨-, u, slot, -, -, -, -, rfl⟩ := write_cases hs
    exact hother rfl nofun nofun
  | exit pid =>
    obtain ⟨st, -, rfl⟩ := exit_cases hs
    exact hother rfl nofun nofun
  | spawn pid st =>
    obtain ⟨-, rfl⟩ := spawn_cases hs
    exact hother rfl nofun nofun

omit [Fintype ι] [DecidableEq ι] in
/-- What a subscriber returns is the message it has in hand. -/
theorem Served.handed {v : ι} {u : Sub} (h : s.Served g proc v u) {op : Op} {c : Bool} {y : Sample}
    (hop : u.request g = some op) (hj : Ghost.joined (op.exec s.procs s.mem c).2 (.sub u) = none)
    (hy : Ghost.handed s.data (s.ghost.buf v) (.sub (u.resume g (op.exec s.procs s.mem c).2)) = some y) :
    ∃ t w, s.ghost.log y.ring y.ringPos = some (t, w) ∧ y.bytes = w.bytes := by
  have hpc := h.right.pc_ok
  have hbusy : u.pc ≠ .live := fun e => by simp [Sub.request, e] at hop
  obtain ⟨x, hx, rfl⟩ := Option.map_eq_some_iff.mp hy
  rcases h.order.handed_cases hbusy hj hx with ⟨k, slot, e, hcopy, rfl⟩ | ⟨e, hcopy⟩
  · rw [e] at hpc
    obtain ⟨len, t, w, hlog, rfl, rfl, hC⟩ := hpc
    simp only [Sub.request, e, Option.some.injEq] at hop
    subst hop
    refine ⟨t, w, hlog, ?_⟩
    simp only [Sub.copy_resume, hcopy, Bool.false_eq_true, if_false, Op.exec, hC.1]
    exact hC.2.2
  · obtain ⟨t, w, hlog, hb⟩ := h.filled x e
    refine ⟨t, w, hlog, ?_⟩
    simp only [Sub.copy_resume, hcopy, if_true]
    exact hb

theorem Integral.got_of_next (h : Integral g proc s) (hs : s.next g proc l = some s') (w : ι) (y : Sample)
    (hy : y ∈ s'.ghost.got w) : ∃ t m, s'.ghost.log y.ring y.ringPos = some (t, m) ∧ y.bytes = m.bytes := by
  have hR := h.regular
  have hkeep : (∃ t m, s.ghost.log y.ring y.ringPos = some (t, m) ∧ y.bytes = m.bytes) →
      ∃ t m, s'.ghost.log y.ring y.ringPos = some (t, m) ∧ y.bytes = m.bytes := by
    rintro ⟨t, m, hlog, hb⟩
    exact ⟨t, m, log_next hR.logged hs hlog, hb⟩
  by_cases hl : ∃ c, l = .run w c
  · obtain ⟨c, rfl⟩ := hl
    obtain ⟨-, op, hop, rfl⟩ := ran_cases hs
    simp only [ran, Ghost.after] at hy
    cases hj : Ghost.joined (op.exec s.procs s.mem c).2 (s.th w) with
    | some q => simp [hj] at hy
    | none =>
      cases hh : Ghost.handed s.data (s.ghost.buf w) ((s.th w).resume g (op.exec s.procs s.mem c).2) with
      | none =>
        simp only [hj, hh] at hy
        exact hkeep (h.got w y hy)
      | some z =>
        simp only [hj, hh, Function.update_self, List.mem_cons] at hy
        rcases hy with rfl | hy
        · cases hu : s.th w with
          | sub u =>
            have hw := h.actor w
            rw [hu] at hw hop hh hj
            exact hkeep (hw.handed hop hj hh)
          | _ =>
            rw [hu] at hh
            cases hh
        · exact hkeep (h.got w y hy)
  · rw [(got_next hs fun c e => hl ⟨c, e⟩).1] at hy
    exact hkeep (h.got w y hy)

omit [DecidableEq ι] in
theorem integral_init (hg : g.Valid) (h : Init g proc s) : Integral g proc s := by
  have hz : ∀ r i, s.mem (.metaWord r i) = 0 := fun r i => by
    rw [h.mem, stampNewRegion_zero hg (by simp) (by simp)]
  refine ⟨regular_init hg h, fun r i => ?_, fun r _ i _ x _ hm => ?_, fun v => ?_, fun v y hy => ?_⟩
  · rw [hz, metaTag_eq]
    simp
  · rw [hz, metaSlotBiased_eq] at hm
    omega
  · have hf := h.th v
    cases e : s.th v with
    | pub u =>
      rw [e] at hf
      exact backed_of_quiet (by simp [hf.2.2]) (by simp [hf.2.2]) (by simp [hf.2.2, PubPc.delivery])
    | sub u =>
      rw [e] at hf
      refine ⟨⟨by simp [hf.2.2.1], by simp [hf.2.2.2, SubPc.Right]⟩, by simp [hf.2.2.2, SubPc.filled], ?_⟩
      rw [h.got v]
      exact ⟨fun _ e => (by cases e), fun _ e => (by cases e), .nil, by simp [hf.2.2.2, SubPc.inRing],
        by simp [hf.2.2.2, SubPc.copied], by simp [hf.2.2.2], by simp [hf.2.2.2, SubPc.inRing]⟩
    | _ => trivial
  · rw [h.got v] at hy
    cases hy

theorem Integral.next (hg : g.Valid) (h : Integral g proc s) (hs : s.next g proc l = some s')
    (ho : s.regular g proc l s') : Integral g proc s' where
  regular := h.regular.next hg hs ho
  rank := (h.claim_next hg hs ho.2.2.1).1
  claim := (h.claim_next hg hs ho.2.2.1).2
  actor := h.actor_next hg hs ho.2.2.1
  got := h.got_of_next hs

/-- Every sample is the message that was claimed for its position, whole; a subscriber is handed positions of
its own ring, from the one it joined at, each at most once and in their order; and a view it keeps is that
message as long as it keeps it. -/
theorem delivery_integrity (hg : g.Valid) (h : (machine g proc).Reach (regular g proc) s) :
    (∀ v, ∀ y ∈ s.ghost.got v, ∃ t w, s.ghost.log y.ring y.ringPos = some (t, w) ∧ y.bytes = w.bytes) ∧
    ∀ v u, s.th v = .sub u →
      (∀ y ∈ s.ghost.got v, y.ring = u.ringIdx ∧ s.ghost.origin v ≤ y.ringPos) ∧
      (s.ghost.got v).Pairwise (fun y z => z.ringPos < y.ringPos) ∧
      ∀ x ∈ u.views, ∃ t w, s.ghost.log x.ring x.ringPos = some (t, w) ∧
        Ghost.payload s.data x.slotIdx x.len = w.bytes := by
  have hI : Integral g proc s :=
    h.invariant (fun _ h0 => integral_init hg h0) fun _ _ _ hI hs ho => hI.next hg hs ho
  refine ⟨hI.got, fun v u hu => ?_⟩
  have hv := hI.actor v
  rw [hu] at hv
  refine ⟨fun y hy => ⟨hv.order.ring y hy, (hv.order.pos y hy).1⟩, hv.order.sorted, fun x hx => ?_⟩
  obtain ⟨t, w, hlog, hslot, hlen, hC⟩ := hv.right.views x hx
  refine ⟨t, w, hlog, ?_⟩
  rw [← hslot, ← hlen]
  exact hC.2.2

end Steps

section Crew

/-- Publisher 0 writes two bytes and publishes them on ring 0, and subscriber 3 is handed a view of them. -/
def handover : List (Label (Fin 9)) :=
  .call 3 (.join false) :: runs 3 5 ++ .call 0 .allocate :: runs 0 3 ++ .write 0 0 7 :: .write 0 1 9 ::
    .call 0 (.publish 2) :: runs 0 12 ++ .call 3 (.receive false false) :: runs 3 7

/-- `regular`, for a crew whose pass over dead rings is at rest. -/
def regularCrew (s : Sys (Fin 9)) (l : Label (Fin 9)) : Bool :=
  s.conserving l && s.claimsBelow (2 ^ 39) l && s.forward smallGeometry l &&
    decide (∀ v, (match s.th v with
      | .reclaim u => u.pc.watching.isNone
      | _ => true) = true)

theorem regular_of_regularCrew {s s' : Sys (Fin 9)} {l : Label (Fin 9)} (h : regularCrew s l = true) :
    s.regular smallGeometry crewProc l s' := by
  simp only [regularCrew, Bool.and_eq_true, decide_eq_true_eq] at h
  obtain ⟨⟨⟨hc, hb⟩, hf⟩, hq⟩ := h
  refine ⟨hc, hb, hf, fun v u r _ hu hw _ _ => ?_⟩
  have := hq v
  simp [hu, hw] at this

theorem delivery_integrity_crew : ∃ s : Sys (Fin 9),
    (machine smallGeometry crewProc).Reach (regular smallGeometry crewProc) s ∧
      s.ghost.got 3 = [⟨0, 0, [7, 9]⟩] ∧
      ∃ t w, s.ghost.log 0 0 = some (t, w) ∧ [7, 9] = w.bytes := by
  have h0 : (machine smallGeometry crewProc).Reach (fun s l _ => regularCrew s l = true)
      (crew smallGeometry) := .init (init_crew smallGeometry)
  obtain ⟨s, hs, hP⟩ := h0.play_any handover (fun s => decide (s.ghost.got 3 = [⟨0, 0, [7, 9]⟩]))
    (by decide +kernel)
  simp only [decide_eq_true_eq] at hP
  have hs' : (machine smallGeometry crewProc).Reach (regular smallGeometry crewProc) s :=
    hs.mono fun _ _ _ _ hok => regular_of_regularCrew hok
  exact ⟨s, hs', hP, (delivery_integrity valid_smallGeometry hs').1 3 _ (by rw [hP]; exact List.mem_singleton_self _)⟩

end Crew

end Sys

end Kickmsg
