import Kickmsg.Staleness
import Kickmsg.Takeover
import Kickmsg.Attribution
import Kickmsg.Arming

/-!
# What a slot holds

A slot is written by the publisher that has it for its own, and by nobody while anything refers to it: an
entry that names it, a pin, a share of a running publication. So a message that was in its slot when
`publish()` was called stays there as long as a reference does. `Regular` collects what is known of a run
in which the words of an entry keep their order and a ring has one subscriber.
-/

namespace Kickmsg

open Finset Lib

/-! ## The publisher -/

/-- The position whose claim a publisher is about to install: it has locked the entry. -/
def PubPc.taking : PubPc → Option (Nat × Nat)
  | .check d pos | .metaLoad d pos | .metaCas d pos _ => some (d.i, pos)
  | _ => none

namespace Pub

variable {g : Geometry} {u : Pub} {d d' : Delivery} {r : Resp}

theorem taking_finish : (u.finish d).pc.taking = none := by
  unfold finish
  split_ifs <;> rfl

theorem taking_ring : (u.ring g d).pc.taking = none := by
  unfold ring
  split_ifs
  · rfl
  · rfl
  · exact taking_finish

theorem taking_tryAdmit {old : Nat} : (u.tryAdmit g d old).pc.taking = none := by
  unfold tryAdmit
  split_ifs
  · exact taking_ring
  · rfl

theorem taking_tryLock {pos a o : Nat} {w : CommitWait} : (u.tryLock g d pos w a o).pc.taking = none := by
  unfold tryLock
  split_ifs <;> rfl

theorem taking_repairWith {pos seq : Nat} {w : CommitWait} :
    (u.repairWith g d pos w seq).pc.taking = none := by
  unfold repairWith
  split_ifs <;> rfl

theorem taking_tryTake {pos old : Nat} {x : Nat × Nat} (h : (u.tryTake d pos old).pc.taking = some x) :
    some (d.i, pos) = some x := by
  unfold tryTake at h
  split_ifs at h
  · exact h
  · cases h

theorem taking_releasePrev {pos old : Nat} : (u.releasePrev g d pos old).pc.taking = none := by
  unfold releasePrev
  split_ifs <;> rfl

/-- A publisher comes to the claim of an entry by locking it. -/
theorem taking_resume {x : Nat × Nat} (h : (u.resume g r).pc.taking = some x) :
    u.pc.taking = some x ∨ ∃ d pos w a o, u.pc = .lock d pos w a o ∧ r.ok = true ∧ x = (d.i, pos) := by
  cases e : u.pc <;> simp only [resume, e] at h
  case idle => exact .inl (e ▸ h)
  case lock d pos w a o =>
    split_ifs at h with hok
    · exact .inr ⟨d, pos, w, a, o, rfl, hok, (Option.some.inj h).symm⟩
    · cases taking_tryLock.symm.trans h
  case metaLoad d pos => exact .inl (taking_tryTake h)
  case metaCas d pos old =>
    left
    split_ifs at h
    · cases taking_releasePrev.symm.trans h
    · exact taking_tryTake h
  all_goals
    left
    (repeat' split at h) <;>
      first
        | exact h
        | cases h
        | cases taking_tryLock.symm.trans h
        | cases taking_repairWith.symm.trans h
        | cases taking_ring.symm.trans h
        | cases taking_tryAdmit.symm.trans h
        | cases taking_finish.symm.trans h

/-- Inside the ring loop with slot `x`, and at most `n` references of its own on it. -/
def Owns (g : Geometry) (x n : Nat) (u : Pub) : Prop :=
  (∀ y len, u.pc ≠ .storeLen y len) ∧ (∀ y, u.pc ≠ .presetRefcount y) ∧
    ∀ d, u.pc.delivery = some d → d.slotIdx = x ∧ d.left g u.pc.kept ≤ n

/-- An access of the ring loop, with no more references of its own than the loop had. -/
theorem owns_of_delivery {x n : Nat} (h : u.pc.delivery = some d) (hx : d.slotIdx = x)
    (hn : d.left g u.pc.kept ≤ n) : Owns g x n u := by
  refine ⟨fun y len e => ?_, fun y e => ?_, fun d' h' => ?_⟩
  · rw [e] at h
    cases h
  · rw [e] at h
    cases h
  · obtain rfl := Option.some.inj (h.symm.trans h')
    exact ⟨hx, hn⟩

theorem owns_finish {x n : Nat} : Owns g x n (u.finish d) := by
  unfold finish
  split_ifs <;> exact ⟨nofun, nofun, nofun⟩

theorem owns_ring {n : Nat} (hn : d.left g true ≤ n) : Owns g d.slotIdx n (u.ring g d) := by
  unfold ring
  split_ifs
  · exact owns_of_delivery rfl rfl hn
  · exact ⟨nofun, nofun, nofun⟩
  · exact owns_finish

theorem owns_nextRing (hi : d.i < g.maxSubs) {exc : Bool} (k : Nat) (c : Bool) :
    Owns g d.slotIdx (d.left g exc) (u.nextRing g { d with delivered := k, carrier := c } exc) := by
  have hle : u32 (d.excess + 1) ≤ d.excess + 1 := Nat.mod_le _ _
  refine (owns_ring (n := d.left g exc) ?_ : Owns g _ _ _)
  unfold Delivery.left
  cases exc <;> simp only [if_true, Bool.false_eq_true, if_false] <;> omega

theorem owns_tryAdmit (hi : d.i < g.maxSubs) {old : Nat} :
    Owns g d.slotIdx (d.left g true) (u.tryAdmit g d old) := by
  unfold tryAdmit
  split_ifs
  · exact owns_nextRing hi d.delivered d.carrier
  · exact owns_of_delivery rfl rfl le_rfl

theorem owns_tryLock {pos a o : Nat} {w : CommitWait} :
    Owns g d.slotIdx (d.left g true) (u.tryLock g d pos w a o) := by
  unfold tryLock
  split_ifs <;> exact owns_of_delivery rfl rfl le_rfl

theorem owns_repairWith {pos seq : Nat} {w : CommitWait} :
    Owns g d.slotIdx (d.left g true) (u.repairWith g d pos w seq) := by
  unfold repairWith
  split_ifs <;> exact owns_of_delivery rfl rfl le_rfl

theorem owns_tryTake {pos old : Nat} : Owns g d.slotIdx (d.left g true) (u.tryTake d pos old) := by
  unfold tryTake
  split_ifs <;> exact owns_of_delivery rfl rfl le_rfl

theorem owns_releasePrev {pos old : Nat} :
    Owns g d.slotIdx (d.left g true) (u.releasePrev g d pos old) := by
  have hle : d.left g false ≤ d.left g true := by
    simp only [Delivery.left, if_true, Bool.false_eq_true, if_false]
    omega
  unfold releasePrev
  split_ifs <;> exact owns_of_delivery rfl rfl hle

/-- An access inside the ring loop gains no reference. -/
theorem owns_resume (hi : d.i < g.maxSubs) (h : u.pc.delivery = some d) :
    Owns g d.slotIdx (d.left g u.pc.kept) (u.resume g r) := by
  cases e : u.pc <;> rw [e] at h <;> simp only [PubPc.delivery, Option.some.injEq, reduceCtorEq] at h <;>
    subst h <;> simp only [resume, e] <;> (repeat' split) <;>
    first
      | exact owns_tryAdmit hi
      | exact owns_tryLock
      | exact owns_repairWith
      | exact owns_tryTake
      | exact owns_releasePrev
      | exact owns_nextRing hi _ _
      | exact owns_of_delivery rfl rfl le_rfl

/-- Outside it there is none. -/
theorem owns_rest {x n : Nat} (h : u.pc.delivery = none) (hs : ∀ y len, u.pc ≠ .storeLen y len)
    (hp : ∀ y, u.pc ≠ .presetRefcount y) : Owns g x n (u.resume g r) := by
  cases e : u.pc <;> rw [e] at h <;> simp only [PubPc.delivery, reduceCtorEq] at h <;>
    simp only [resume, e]
  case idle => exact ⟨hs, hp, by rw [e]; exact fun _ e => by cases e⟩
  all_goals
    (repeat' split) <;>
      first
        | exact absurd e (hs _ _)
        | exact absurd e (hp _)
        | exact owns_finish
        | exact ⟨fun _ _ e => (by cases e), fun _ e => (by cases e), fun _ e => by cases e⟩

/-- What the message `w` of the last `publish()` is to its publisher: it was drafted in its slot before the
length was stored, and the slot carries it as long as the publisher has references of its own on it. -/
structure Loaded (g : Geometry) (drafted carried : Prop) (w : Msg) (u : Pub) : Prop where
  draft : ∀ x len, u.pc = .storeLen x len → w.slotIdx = x ∧ w.bytes.length = len ∧ drafted
  preset : ∀ x, u.pc = .presetRefcount x → w.slotIdx = x ∧ carried
  ring : ∀ d, u.pc.delivery = some d → w.slotIdx = d.slotIdx ∧ (0 < d.left g u.pc.kept → carried)

variable {D D' C C' : Prop} {w : Msg}

theorem loaded_of_owns {n : Nat} (h : Owns g w.slotIdx n u) (hc : 0 < n → C) : u.Loaded g D C w where
  draft x len e := absurd e (h.1 x len)
  preset x e := absurd e (h.2.1 x)
  ring d e := ⟨(h.2.2 d e).1.symm, fun hp => hc (hp.trans_le (h.2.2 d e).2)⟩

theorem Loaded.resume (h : u.Loaded g D C w) (hok : u.Ok g)
    (hlen : ∀ len, u.pc = .storeLen w.slotIdx len → w.bytes.length = len → D → C')
    (hC : (∀ x len, u.pc ≠ .storeLen x len) → C → C') : (u.resume g r).Loaded g D' C' w := by
  by_cases hs : ∃ x len, u.pc = .storeLen x len
  · obtain ⟨x, len, e⟩ := hs
    obtain ⟨rfl, hl, hD⟩ := h.draft x len e
    have hc := hlen len e hl hD
    simp only [Pub.resume, e]
    exact ⟨fun _ _ e => (by cases e), fun y hy => ⟨PubPc.presetRefcount.inj hy, hc⟩, fun _ e => by cases e⟩
  have hs' : ∀ x len, u.pc ≠ .storeLen x len := fun x len e => hs ⟨x, len, e⟩
  by_cases hp : ∃ x, u.pc = .presetRefcount x
  · obtain ⟨x, e⟩ := hp
    obtain ⟨rfl, hc⟩ := h.preset x e
    simp only [Pub.resume, e]
    exact loaded_of_owns (owns_ring le_rfl) fun _ => hC hs' hc
  cases hd : u.pc.delivery with
  | none => exact loaded_of_owns (n := 0) (owns_rest hd hs' fun x e => hp ⟨x, e⟩) fun h0 => absurd h0 (Nat.lt_irrefl 0)
  | some d =>
    obtain ⟨hw, hc⟩ := h.ring d hd
    have ho := owns_resume (r := r) (hok.delivery_ok d hd).ring_lt hd
    rw [← hw] at ho
    exact loaded_of_owns ho fun hpos => hC hs' (hc hpos)

/-- Whatever the others do, as far as it leaves alone what the publisher has. -/
theorem Loaded.mono (h : u.Loaded g D C w) (hok : u.Ok g)
    (hD : w.slotIdx < g.poolSize → 0 < u.excl w.slotIdx → D → D')
    (hC : w.slotIdx < g.poolSize → 0 < u.excl w.slotIdx ∨ 0 < u.share g w.slotIdx → C → C') :
    u.Loaded g D' C' w where
  draft x len e := by
    obtain ⟨rfl, hl, hd⟩ := h.draft x len e
    have hpc := hok.pc_ok
    rw [e] at hpc
    exact ⟨rfl, hl, hD hpc.1 (by simp [excl, e]) hd⟩
  preset x e := by
    obtain ⟨rfl, hc⟩ := h.preset x e
    have hpc := hok.pc_ok
    rw [e] at hpc
    exact ⟨rfl, hC hpc (.inl (by simp [excl, e])) hc⟩
  ring d e := by
    obtain ⟨hw, hc⟩ := h.ring d e
    refine ⟨hw, fun hpos => hC (hw ▸ (hok.delivery_ok d e).slot_lt) (.inr ?_) (hc hpos)⟩
    have hshare : u.share g d.slotIdx = d.left g u.pc.kept := by
      unfold share
      cases e' : u.pc <;> rw [e'] at e <;> cases e <;> simp [PubPc.delivery]
    rw [hw, hshare]
    exact hpos

end Pub

/-- Only a publisher stores the length of a payload. -/
theorem Local.payloadLen_cases {g : Geometry} {l : Local} {op : Op} {x : Nat} (hop : l.request g = some op)
    (ht : op.target = some (.payloadLen x)) :
    ∃ u len, l = .pub u ∧ u.pc = .storeLen x len ∧ op = .store (.payloadLen x) (u32 len) := by
  cases l with
  | pub u =>
    cases e : u.pc <;> simp only [request, Pub.request, e, Option.some.injEq, reduceCtorEq] at hop <;>
      subst hop <;> simp only [Op.target, Option.some.injEq, reduceCtorEq, Loc.payloadLen.injEq] at ht
    case storeLen y len => exact ⟨u, len, rfl, ht ▸ e, ht ▸ rfl⟩
    all_goals
      first
        | have := push_target ht; simp at this
        | have := pop_target ht; simp at this
  | sub u =>
    exfalso
    cases e : u.pc <;> simp only [request, Sub.request, e, Option.some.injEq, reduceCtorEq] at hop <;>
      subst hop <;> simp only [Op.target, Option.some.injEq, reduceCtorEq] at ht <;>
      (have ht' := push_target ht; simp at ht')
  | view pc =>
    exfalso
    cases pc <;> simp only [request, ViewPc.request, Option.some.injEq, reduceCtorEq] at hop <;>
      subst hop <;> simp only [Op.target, Option.some.injEq, reduceCtorEq] at ht
    have := push_target ht
    simp at this
  | repair u =>
    exfalso
    cases e : u.pc <;> simp only [request, Repair.request, e, Option.some.injEq, reduceCtorEq] at hop <;>
      subst hop <;> simp only [Op.target, Option.some.injEq, reduceCtorEq] at ht
  | reclaim u =>
    exfalso
    cases e : u.pc <;> simp only [request, Reclaim.request, e, Option.some.injEq, reduceCtorEq] at hop <;>
      subst hop <;> simp only [Op.target, Option.some.injEq, reduceCtorEq] at ht
  | orphan u =>
    exfalso
    cases e : u.pc <;> simp only [request, Orphan.request, e, Option.some.injEq, reduceCtorEq] at hop <;>
      subst hop <;> simp only [Op.target, Option.some.injEq, reduceCtorEq] at ht
    have := push_target ht
    simp at this

namespace Sys

variable {ι : Type}

/-! ## Messages in slots -/

/-- The bytes of message `w` are in its slot. -/
def Drafted (g : Geometry) (s : Sys ι) (w : Msg) : Prop :=
  w.bytes.length ≤ g.slotDataSize ∧ Ghost.payload s.data w.slotIdx w.bytes.length = w.bytes

/-- So is their number. -/
def Carries (g : Geometry) (s : Sys ι) (w : Msg) : Prop :=
  s.mem (.payloadLen w.slotIdx) = w.bytes.length ∧ s.Drafted g w

/-- Something refers to slot `x`: an entry, or an actor that holds a reference. -/
def Referenced (g : Geometry) (s : Sys ι) (x : Nat) : Prop :=
  (∃ r < g.maxSubs, ∃ i < g.subRingCapacity, metaSlotBiased (s.mem (.metaWord r i)) = x + 1) ∨
    ∃ t, 0 < ((s.th t).acct g).holds x

/-- What is known of a run in which the words of an entry keep their order and a ring has one subscriber:
the slot ledger, the claims, the sequence words, who claimed what, who holds which ring. -/
structure Regular [Fintype ι] (g : Geometry) (proc : ι → Nat × Nat) (s : Sys ι) : Prop where
  ledger : ∃ chain, Ledger g s chain
  tagged : ∀ r, Tagged g r s
  seq : Sequenced g s
  logged : Logged s
  tenancy : Attributed proc (fun _ _ => True) s
  behind : ∀ t, (s.th t).Behind s.wpos

/-- The steps of such a run: the bound of the free stack's tag, no orphan pass, fewer than `2 ^ 39` positions
on a ring, no steal that replaces a newer word, and no ring freed under a pass that has read its owner. -/
def regular (g : Geometry) (proc : ι → Nat × Nat) (s : Sys ι) (l : Label ι) (s' : Sys ι) : Prop :=
  s.conserving l = true ∧ s.claimsBelow (2 ^ 39) l = true ∧ s.forward g l = true ∧ s.undisturbed proc l s'

theorem inRange_of_claimsBelow {s : Sys ι} {l : Label ι} (h : s.claimsBelow (2 ^ 39) l = true) :
    s.inRange l = true := by
  cases l with
  | run t c =>
    simp only [inRange, claimsBelow] at h ⊢
    cases hu : s.th t with
    | pub u =>
      cases hpc : u.pc with
      | claim d =>
        simp only [hu, hpc, decide_eq_true_eq] at h ⊢
        omega
      | _ => simp [hpc]
    | _ => rfl
  | _ => rfl

theorem ringBelow_of_claimsBelow {s : Sys ι} {l : Label ι} (h : s.claimsBelow (2 ^ 39) l = true) (r : Nat) :
    s.ringBelow (2 ^ 39) r l = true := by
  cases l with
  | run t c =>
    simp only [ringBelow, claimsBelow] at h ⊢
    cases hu : s.th t with
    | pub u =>
      cases hpc : u.pc with
      | claim d =>
        simp only [hu, hpc, decide_eq_true_eq] at h ⊢
        rintro rfl
        exact h
      | _ => simp [hpc]
    | _ => rfl
  | _ => rfl

section Runs

variable [Fintype ι] [DecidableEq ι] {g : Geometry} {proc : ι → Nat × Nat} {s s' : Sys ι}

omit [DecidableEq ι] in
theorem regular_init (hg : g.Valid) (h : Init g proc s) : Regular g proc s where
  ledger := ⟨_, ledger_init hg h⟩
  tagged _ := tagged_init hg h
  seq := sequenced_init hg h
  logged := logged_init h
  tenancy := attributed_init hg h
  behind t := by
    have hf := h.th t
    cases e : s.th t with
    | sub u =>
      rw [e] at hf
      simp [Local.Behind, Sub.Behind, hf.2.2.2]
    | _ => trivial

theorem Regular.next (hg : g.Valid) (h : Regular g proc s) {l : Label ι} (hs : s.next g proc l = some s')
    (ho : s.regular g proc l s') : Regular g proc s' := by
  obtain ⟨hc, hb, -, hu⟩ := ho
  simp only [conserving, Bool.and_eq_true] at hc
  obtain ⟨chain, hL⟩ := h.ledger
  have hr := inRange_of_claimsBelow hb
  exact ⟨hL.next hg hs hc.1 hc.2, fun r => (h.tagged r).next hg hs (ringBelow_of_claimsBelow hb r),
    h.seq.next hs hr, h.logged.next hs hr, h.tenancy.next hs hu, behind_next hg h.seq h.behind hs hr⟩

omit [DecidableEq ι] in
/-- Nobody has a slot for its own that something refers to. -/
theorem Regular.excl_of_referenced (h : Regular g proc s) {x : Nat} (hx : x < g.poolSize)
    (href : s.Referenced g x) (v : ι) : ((s.th v).acct g).excl x = 0 := by
  obtain ⟨chain, hL⟩ := h.ledger
  by_contra hv
  obtain ⟨-, hrc, -⟩ := hL.safe.of_excl hx (t := v) (Nat.pos_of_ne_zero hv)
  have hrefs := hL.safe.refs x hx
  rw [hrc] at hrefs
  rcases href with ⟨r, hr, i, hi, hm⟩ | ⟨t, ht⟩
  · have : 0 < names g s.mem x := card_pos.mpr ⟨(r, i), by simp [entries, hr, hi, hm]⟩
    omega
  · have := le_sum (fun u => (s.accts g u).holds x) t
    have : 0 < (s.accts g t).holds x := ht
    omega

omit [DecidableEq ι] in
/-- A slot is one actor's own at most. -/
theorem Regular.excl_of_excl (h : Regular g proc s) {x : Nat} (hx : x < g.poolSize) {t v : ι} (htv : v ≠ t)
    (ht : 0 < ((s.th t).acct g).excl x) : ((s.th v).acct g).excl x = 0 := by
  obtain ⟨chain, hL⟩ := h.ledger
  exact (hL.safe.of_excl hx (t := t) ht).2.2 v htv

omit [Fintype ι] in
/-- A message stays in its slot over a step of an actor that does not have the slot for its own. -/
theorem Carries.run {w : Msg} {t : ι} {c : Bool} {op : Op} (hop : (s.th t).request g = some op)
    (hx : ((s.th t).acct g).excl w.slotIdx = 0) (h : s.Carries g w) : (s.ran g t op c).Carries g w := by
  refine ⟨Eq.trans (Op.exec_frame _ _ _ _ fun ht => ?_) h.1, h.2⟩
  obtain ⟨u, len, hu, hpc, -⟩ := Local.payloadLen_cases hop ht
  rw [hu] at hx
  simp [Local.acct, Pub.acct, Pub.excl, hpc] at hx

omit [Fintype ι] in
theorem Drafted.write {w : Msg} {t : ι} {off byte : Nat} (hs : s.next g proc (.write t off byte) = some s')
    (hx : ((s.th t).acct g).excl w.slotIdx = 0) (h : s.Drafted g w) : s'.Drafted g w := by
  obtain ⟨-, u, slot, hu, hp, -, -, rfl⟩ := write_cases hs
  have hne : w.slotIdx ≠ slot := by
    rintro rfl
    rw [hu] at hx
    simp [Local.acct, Pub.acct, Pub.excl, Pub.reserved, hp] at hx
  refine ⟨h.1, Eq.trans ?_ h.2⟩
  simp only [Ghost.payload, Function.update_of_ne hne]

end Runs

end Sys

end Kickmsg
