import Kickmsg.Subscriber
import Kickmsg.Ledger

/-!
# The subscriber's bounds and account

`Sub.Ok` are the bounds a subscriber keeps whatever the shared words answer. `Sub.pins` are its pins and
its live views, `Sub.owed` the reference of a claim it has cleared while draining. Each access of a
subscriber, and of a thread that destroys a view, is a `Move` of its account.
-/

namespace Kickmsg

/-- How many of the views are on slot `s`. -/
def pinsOf (views : List View) : Nat → Nat := fun s => views.countP fun v => v.slotIdx = s

@[simp] theorem pinsOf_nil : pinsOf [] = 0 := rfl

theorem pinsOf_cons (v : View) (views : List View) :
    pinsOf (v :: views) = pinsOf views + Pi.single v.slotIdx 1 := by
  funext x
  simp [pinsOf, List.countP_cons, Pi.single_apply, eq_comm]

/-- Taking a view out of the list takes out its pin. -/
theorem pinsOf_eraseIdx {views : List View} {k : Nat} {w : View} (h : views[k]? = some w) :
    pinsOf (views.eraseIdx k) + Pi.single w.slotIdx 1 = pinsOf views := by
  induction views generalizing k with
  | nil => simp at h
  | cons v views ih =>
    cases k with
    | zero =>
      simp only [List.getElem?_cons_zero, Option.some.injEq] at h
      subst h
      rw [List.eraseIdx_cons_zero, pinsOf_cons]
    | succ k =>
      rw [List.getElem?_cons_succ] at h
      rw [List.eraseIdx_cons_succ, pinsOf_cons, pinsOf_cons, ← ih h]
      exact add_right_comm _ _ _

namespace SubPc

/-- The slot the access is about, for accesses about one slot. -/
def slot : SubPc → Option Nat
  | .recvRc _ _ slot | .recvPin _ _ slot _ | .recvSeq2 _ _ slot | .recvUnpin _ slot
  | .recvUnpinPush _ slot _ | .recvLen _ slot | .drainSub _ _ slot | .drainPush _ _ slot _ => some slot
  | .copyOut v | .copyDone v | .copyPush v _ => some v.slotIdx
  | _ => none

/-- The ring the constructor is trying. -/
def joining : SubPc → Option Nat
  | .joinPos i | .joinCas i _ | .joinStart i _ | .joinPid i _ | .joinPos2 i _ => some i
  | _ => none

/-- Between the constructor and the end of `release_ring`. -/
def inRing (pc : SubPc) : Bool :=
  match pc with
  | .out | .joinPos _ | .joinCas _ _ | .joinStart _ _ | .joinPid _ _ | .joinPos2 _ _ => false
  | _ => true

/-- The pin of a receive in progress. -/
def pins : SubPc → Nat → Nat
  | .recvSeq2 _ _ slot | .recvUnpin _ slot | .recvLen _ slot => Pi.single slot 1
  | .copyOut v | .copyDone v => Pi.single v.slotIdx 1
  | _ => 0

/-- The reference of a claim cleared by `drain_unconsumed` and not yet dropped. -/
def owed : SubPc → Nat → Nat
  | .drainSub _ _ slot => Pi.single slot 1
  | _ => 0

/-- A slot whose last reference was just dropped. -/
def excl : SubPc → Nat → Nat
  | .recvUnpinPush _ slot _ | .drainPush _ _ slot _ => Pi.single slot 1
  | .copyPush v _ => Pi.single v.slotIdx 1
  | _ => 0

def stack : SubPc → StackPc
  | .recvUnpinPush _ slot p | .drainPush _ _ slot p => p.stack slot
  | .copyPush v p => p.stack v.slotIdx
  | _ => .away

/-- Accesses at which the subscriber owns nothing but its views. -/
def plain : SubPc → Bool
  | .recvSeq2 _ _ _ | .recvUnpin _ _ | .recvUnpinPush _ _ _ | .recvLen _ _ | .copyOut _ | .copyDone _
  | .copyPush _ _ | .drainSub _ _ _ | .drainPush _ _ _ _ => false
  | _ => true

/-- Accesses that neither take nor give a reference nor work on the free stack. -/
def quiet : SubPc → Bool
  | .recvPin _ _ _ _ | .recvSeq2 _ _ _ | .recvUnpin _ _ | .recvUnpinPush _ _ _ | .recvLen _ _
  | .copyOut _ | .copyDone _ | .copyPush _ _ | .drainCas _ _ _ | .drainSub _ _ _ | .drainPush _ _ _ _ =>
    false
  | _ => true

end SubPc

namespace Sub

/-- The bounds of a subscriber. -/
structure Ok (g : Geometry) (u : Sub) : Prop where
  ring_lt : u.pc.inRing = true → u.ringIdx < g.maxSubs
  joining_lt : ∀ i, u.pc.joining = some i → i < g.maxSubs
  slot_lt : ∀ s, u.pc.slot = some s → s < g.poolSize
  views_ok : ∀ v ∈ u.views, v.slotIdx < g.poolSize ∧ v.len ≤ g.slotDataSize
  pc_ok : match u.pc with
    | .recvPin _ _ _ rc => 0 < rc ∧ rc ≠ 2 ^ 32 - 1
    | .copyOut v | .copyDone v | .copyPush v _ => v.len ≤ g.slotDataSize
    | .drainCas _ _ word => metaSlotBiased word ≠ 0 ∧ metaSlotBiased word - 1 < g.poolSize
    | _ => True

/-- The live pins and views, per slot. -/
def pins (u : Sub) : Nat → Nat := pinsOf u.views + u.pc.pins

def acct (u : Sub) : Acct := ⟨u.pc.excl, u.pins + u.pc.owed, u.pc.stack⟩

/-- The account of a subscriber that owns nothing but views. -/
def still (views : List View) : Acct := ⟨0, pinsOf views, .away⟩

theorem acct_of_plain {u : Sub} (h : u.pc.plain = true) : u.acct = still u.views := by
  obtain ⟨_, _, _, _, _, _, _, views, _, _, _, _, _, pc⟩ := u
  cases pc <;> simp_all [SubPc.plain, acct, still, pins, SubPc.excl, SubPc.pins, SubPc.owed, SubPc.stack]

/-- The local code went on to an access of the plain kind and kept the views, within bounds. -/
structure Onward (g : Geometry) (u u' : Sub) : Prop where
  views : u'.views = u.views
  plain : u'.pc.plain = true
  ok : u'.Ok g

section Dispatch

variable {g : Geometry} {u : Sub}

/-- An access without a slot of its own. -/
theorem Ok.onward (h : u.Ok g) {u' : Sub} (hv : u'.views = u.views)
    (hr : u'.pc.inRing = true → u'.ringIdx < g.maxSubs)
    (hj : ∀ i, u'.pc.joining = some i → i < g.maxSubs) (hs : u'.pc.slot = none)
    (hd : ∀ pos wp word, u'.pc ≠ .drainCas pos wp word) : Onward g u u' := by
  refine ⟨hv, ?_, hr, hj, by simp [hs], by rw [hv]; exact h.views_ok, ?_⟩
  · cases e : u'.pc <;> simp_all [SubPc.plain, SubPc.slot]
  · cases e : u'.pc <;> simp_all [SubPc.slot]

/-- An access on the subscriber's own ring, again without a slot. -/
theorem Ok.stay (h : u.Ok g) (hr : u.ringIdx < g.maxSubs) {u' : Sub} (hv : u'.views = u.views)
    (hi : u'.ringIdx = u.ringIdx) (hj : u'.pc.joining = none) (hs : u'.pc.slot = none)
    (hd : ∀ pos wp word, u'.pc ≠ .drainCas pos wp word) : Onward g u u' :=
  h.onward hv (fun _ => hi ▸ hr) (by simp [hj]) hs hd

theorem Ok.tryJoin (h : u.Ok g) (i : Nat) : Onward g u (u.tryJoin g i) := by
  unfold Sub.tryJoin
  split_ifs with hi
  · exact h.onward rfl (by simp [SubPc.inRing]) (by simpa [SubPc.joining] using hi) rfl (by simp)
  · exact h.onward rfl (by simp [SubPc.inRing]) (by simp [SubPc.joining]) rfl (by simp)

theorem Ok.recvNone (h : u.Ok g) (hr : u.ringIdx < g.maxSubs) : Onward g u u.recvNone := by
  unfold Sub.recvNone
  split_ifs <;> exact h.stay hr rfl rfl rfl rfl (by simp)

theorem Ok.recvLoop (h : u.Ok g) (hr : u.ringIdx < g.maxSubs) (k : Nat) :
    Onward g u (u.recvLoop k) := by
  unfold Sub.recvLoop
  split_ifs
  · exact h.stay hr rfl rfl rfl rfl (by simp)
  · exact h.recvNone hr

theorem Ok.recvWith (h : u.Ok g) (hr : u.ringIdx < g.maxSubs) (k seq1 : Nat) :
    Onward g u (u.recvWith k seq1) := by
  unfold Sub.recvWith
  split_ifs
  · exact h.stay hr rfl rfl rfl rfl (by simp)
  · exact h.recvNone hr
  · exact h.stay hr rfl rfl rfl rfl (by simp)
  · exact h.stay hr rfl rfl rfl rfl (by simp)

theorem Ok.recvClaim (h : u.Ok g) (hr : u.ringIdx < g.maxSubs) (k seq1 word : Nat) :
    Onward g u (u.recvClaim g k seq1 word) := by
  unfold Sub.recvClaim
  split_ifs with hc
  · exact h.stay hr rfl rfl rfl rfl (by simp)
  · refine ⟨rfl, rfl, fun _ => hr, by simp [SubPc.joining], ?_, h.views_ok, trivial⟩
    simp only [SubPc.slot, Option.some.injEq, forall_eq']
    omega

theorem Ok.tryPin (h : u.Ok g) (hr : u.ringIdx < g.maxSubs) {slot : Nat} (hs : slot < g.poolSize)
    (k seq1 rc : Nat) : Onward g u (u.tryPin k seq1 slot rc) := by
  unfold Sub.tryPin
  split_ifs with hc
  · refine ⟨rfl, rfl, fun _ => hr, by simp [SubPc.joining], ?_, h.views_ok, hc⟩
    simpa [SubPc.slot] using hs
  · exact h.stay hr rfl rfl rfl rfl (by simp)

theorem Ok.armWith (h : u.Ok g) (hr : u.ringIdx < g.maxSubs) (cur : Nat) (w : Wait) :
    Onward g u (u.armWith cur w) := by
  unfold Sub.armWith
  split_ifs <;> exact h.stay hr rfl rfl rfl rfl (by simp)

theorem Ok.drainLoop (h : u.Ok g) (hr : u.ringIdx < g.maxSubs) (pos wp : Nat) :
    Onward g u (u.drainLoop pos wp) := by
  unfold Sub.drainLoop
  split_ifs <;> exact h.stay hr rfl rfl rfl rfl (by simp)

/-- The quiet accesses go on quietly. -/
theorem Ok.resume_onward (h : u.Ok g) (hq : u.pc.quiet = true) (r : Resp) :
    Onward g u (u.resume g r) := by
  have hr := h.ring_lt
  have hj := h.joining_lt
  have hs := h.slot_lt
  cases e : u.pc <;> rw [e] at hq hr hj hs <;> simp only [Sub.resume, e]
  case out =>
    exact h.onward rfl (by simp [e, SubPc.inRing]) (by simp [e, SubPc.joining]) (by rw [e]; rfl)
      (by simp [e])
  case joinPos => exact h.onward rfl (by simp [SubPc.inRing]) hj rfl (by simp)
  case joinCas =>
    split_ifs
    · exact h.onward rfl (by simp [SubPc.inRing]) hj rfl (by simp)
    · exact h.tryJoin _
  case joinStart => exact h.onward rfl (by simp [SubPc.inRing]) hj rfl (by simp)
  case joinPid => exact h.onward rfl (by simp [SubPc.inRing]) hj rfl (by simp)
  case joinPos2 i wp => exact h.onward rfl (fun _ => hj i rfl) (by simp [SubPc.joining]) rfl (by simp)
  all_goals have hr := hr rfl
  case live => exact h.stay hr rfl rfl (by rw [e]; rfl) (by rw [e]; rfl) (by simp [e])
  case recvPos =>
    split_ifs
    · exact h.recvNone hr
    · exact h.stay hr rfl rfl rfl rfl (by simp)
    · exact h.stay hr rfl rfl rfl rfl (by simp)
  case recvSkip => exact h.stay hr rfl rfl rfl rfl (by simp)
  case recvSeq => exact h.recvWith hr _ _
  case recvLost k _ =>
    have h' : Ok g { u with lost := u.lost + 1, readPos := u64 (u.readPos + 1) } :=
      ⟨h.ring_lt, h.joining_lt, h.slot_lt, h.views_ok, h.pc_ok⟩
    obtain ⟨hv, hp, hok⟩ := h'.recvLoop hr (k + 1)
    exact ⟨hv, hp, hok⟩
  case recvMeta => exact h.recvClaim hr _ _ _
  case recvRc => exact h.tryPin hr (hs _ rfl) _ _ _
  case parkClock => split_ifs <;> exact h.stay hr rfl rfl rfl rfl (by simp)
  case parkPos =>
    split_ifs
    · exact h.stay hr rfl rfl rfl rfl (by simp)
    · exact h.recvLoop hr _
  case parkWait => split_ifs <;> exact h.stay hr rfl rfl rfl rfl (by simp)
  case parked =>
    split_ifs
    · exact h.stay hr rfl rfl rfl rfl (by simp)
    · exact h.stay hr rfl rfl (by rw [e]; rfl) (by rw [e]; rfl) (by simp [e])
  case parkClear => exact h.recvLoop hr _
  case armHead =>
    split
    · exact h.armWith hr _ _
    · exact h.stay hr rfl rfl rfl rfl (by simp)
  case armSeq => exact h.armWith hr _ _
  case armCheck => split_ifs <;> exact h.stay hr rfl rfl rfl rfl (by simp)
  case armHead2 => split <;> exact h.stay hr rfl rfl rfl rfl (by simp)
  case leaveCas => split_ifs <;> exact h.stay hr rfl rfl rfl rfl (by simp)
  case leaveSpin => split_ifs <;> exact h.stay hr rfl rfl rfl rfl (by simp)
  case leaveClock => split_ifs <;> exact h.stay hr rfl rfl rfl rfl (by simp)
  case clearStart => split_ifs <;> exact h.stay hr rfl rfl rfl rfl (by simp)
  case drainPos =>
    split_ifs
    · exact h.stay hr rfl rfl rfl rfl (by simp)
    · exact h.drainLoop hr _ _
  case drainMeta =>
    split_ifs with hc
    · exact h.drainLoop hr _ _
    · exact ⟨rfl, rfl, fun _ => hr, by simp [SubPc.joining], by simp [SubPc.slot], h.views_ok,
        by constructor <;> omega⟩
  case leaveCas2 => split_ifs <;> exact h.stay hr rfl rfl rfl rfl (by simp)
  case recvPin | recvSeq2 | recvUnpin | recvUnpinPush | recvLen | copyOut | copyDone | copyPush |
      drainCas | drainSub | drainPush =>
    simp [SubPc.quiet] at hq
  all_goals exact h.stay hr rfl rfl rfl rfl (by simp)

end Dispatch

/-! ## The accesses that move references -/

section Moves

variable {g : Geometry} {u : Sub} {r : Resp}

/-- An access that keeps working on the same slot. -/
theorem Ok.hold (h : u.Ok g) (hr : u.ringIdx < g.maxSubs) {u' : Sub} {slot : Nat}
    (hlt : slot < g.poolSize) (hv : u'.views = u.views) (hi : u'.ringIdx = u.ringIdx)
    (hj : u'.pc.joining = none) (hs : u'.pc.slot = some slot) (hp : u'.pc.plain = false)
    (hc : ∀ v, (u'.pc = .copyOut v ∨ u'.pc = .copyDone v ∨ ∃ p, u'.pc = .copyPush v p) →
      v.len ≤ g.slotDataSize) : u'.Ok g := by
  refine ⟨fun _ => hi ▸ hr, by simp [hj], by simpa [hs] using hlt, by rw [hv]; exact h.views_ok, ?_⟩
  cases e : u'.pc <;> simp_all [SubPc.plain]

/-- An access without a slot, after one with a slot. -/
theorem Ok.settle (h : u.Ok g) (hr : u.ringIdx < g.maxSubs) {u' : Sub} (hv : u'.views = u.views)
    (hi : u'.ringIdx = u.ringIdx) (hj : u'.pc.joining = none) (hs : u'.pc.slot = none)
    (hd : ∀ pos wp word, u'.pc ≠ .drainCas pos wp word) : u'.Ok g :=
  (h.stay hr hv hi hj hs hd).ok

/-- The pin's compare-exchange. -/
theorem move_recvPin (h : u.Ok g) {k seq1 slot rc : Nat} (e : u.pc = .recvPin k seq1 slot rc) :
    Move g u.acct r (u.resume g r).acct (.cas true (.refcount slot) rc (u32 (rc + 1))) ∧
      (u.resume g r).Ok g := by
  have hr := h.ring_lt (by rw [e]; rfl)
  have hlt := h.slot_lt slot (by rw [e]; rfl)
  have hpc := h.pc_ok
  rw [e] at hpc
  have ha : u.acct = still u.views := acct_of_plain (by rw [e]; rfl)
  simp only [Sub.resume, e]
  by_cases hok : r.ok = true
  · rw [if_pos hok]
    refine ⟨.pin hlt hpc.1 hpc.2 ?_ ?_ rfl, h.hold hr hlt rfl rfl rfl rfl rfl (by simp)⟩
    · rw [ha]
      rfl
    · rw [ha, if_pos hok]
      simp [acct, still, pins, SubPc.pins, SubPc.owed]
  · rw [if_neg hok]
    obtain ⟨hv, hp, hok'⟩ := h.tryPin hr hlt k seq1 r.val
    refine ⟨?_, hok'⟩
    rw [ha, acct_of_plain hp, hv]
    exact .pin hlt hpc.1 hpc.2 rfl (by simp [still, hok]) rfl

/-- Dropping a reference: the last one out pushes the slot, anyone else goes on. -/
theorem move_drop {slot : Nat} (hlt : slot < g.poolSize) (views : List View) {a a' : Acct}
    (he : a.excl = 0) (hh : a.holds = pinsOf views + Pi.single slot 1)
    (hlast : r.val = 1 → a' = ⟨Pi.single slot 1, pinsOf views, .away⟩)
    (hmore : r.val ≠ 1 → a' = still views) : Move g a r a' (.fetchSub (.refcount slot) 1) := by
  by_cases h1 : r.val = 1
  · rw [hlast h1]
    exact .drop hlt (by decide) (by simp [hh]) (by simp [he, h1]) rfl
  · rw [hmore h1]
    exact .drop hlt (by decide) (by simp [hh, still]) (by simp [he, h1, still]) rfl

/-- Pushing a slot whose last reference was dropped. -/
theorem move_push {slot : Nat} (hlt : slot < g.poolSize) (views : List View) {p : PushPc}
    {a a' : Acct} (ha : a = ⟨Pi.single slot 1, pinsOf views, p.stack slot⟩)
    (hsome : ∀ p', p.resume r = some p' → a' = ⟨Pi.single slot 1, pinsOf views, p'.stack slot⟩)
    (hnone : p.resume r = none → a' = still views) : Move g a r a' (p.request slot) := by
  subst ha
  refine PushPc.move hlt rfl (by simp) ?_ (fun p' hp' => ?_) (fun hp' => ?_)
  · cases hp' : p.resume r with
    | none => rw [hnone hp', still]
    | some p' => rw [hsome p' hp']
  · rw [hsome p' hp']
    exact ⟨rfl, rfl⟩
  · rw [hnone hp']
    exact ⟨rfl, by simp [still]⟩

/-- The pin of the receive becomes the pin of the sample. -/
theorem move_sample {k slot len : Nat} (e : u.pc = .recvLen k slot) :
    Move g u.acct r (u.sample slot len).acct (.load (.payloadLen slot)) := by
  unfold Sub.sample
  refine .quiet rfl ?_ ?_ ?_
  · split_ifs <;> simp [acct, e, SubPc.excl]
  · split_ifs
    · simp [acct, pins, e, SubPc.pins, SubPc.owed]
    · simp [acct, pins, e, SubPc.pins, SubPc.owed, pinsOf_cons]
  · split_ifs <;> rfl

theorem Ok.sample (h : u.Ok g) (hr : u.ringIdx < g.maxSubs) {slot len : Nat}
    (hlt : slot < g.poolSize) (hlen : len ≤ g.slotDataSize) : (u.sample slot len).Ok g := by
  unfold Sub.sample
  split_ifs
  · exact h.hold hr hlt rfl rfl rfl rfl rfl (by simpa using hlen)
  · refine ⟨fun _ => hr, by simp [SubPc.joining], by simp [SubPc.slot], fun v hv => ?_, trivial⟩
    rcases List.mem_cons.mp hv with rfl | hv
    · exact ⟨hlt, hlen⟩
    · exact h.views_ok v hv

/-- The claim that `drain_unconsumed` clears. -/
theorem move_drainCas (hg : g.Valid) (h : u.Ok g) {pos wp word : Nat}
    (e : u.pc = .drainCas pos wp word) :
    Move g u.acct r (u.resume g r).acct
        (.cas false (.metaWord u.ringIdx (g.entryIdx pos)) word (metaClear word)) ∧
      (u.resume g r).Ok g := by
  have hr := h.ring_lt (by rw [e]; rfl)
  have hpc := h.pc_ok
  rw [e] at hpc
  have ha : u.acct = still u.views := acct_of_plain (by rw [e]; rfl)
  simp only [Sub.resume, e]
  by_cases hok : r.ok = true
  · rw [if_pos hok]
    refine ⟨.clear hr (hg.entryIdx_lt pos) ?_ rfl (fun _ => ?_) (by simp [hok]),
      h.hold hr hpc.2 rfl rfl rfl rfl rfl (by simp)⟩
    · rw [ha]
      rfl
    · rw [ha]
      funext x
      have hx : x = metaSlotBiased word - 1 ↔ metaSlotBiased word = x + 1 ∧ x < g.poolSize := by
        have := hpc.1
        have := hpc.2
        omega
      simp [acct, still, pins, SubPc.pins, SubPc.owed, named, Pi.single_apply, hx]
  · rw [if_neg hok]
    obtain ⟨hv, hp, hok'⟩ := h.drainLoop hr (pos + 1) wp
    refine ⟨?_, hok'⟩
    rw [ha, acct_of_plain hp, hv]
    exact .clear hr (hg.entryIdx_lt pos) rfl rfl (by simp [hok]) (fun _ => rfl)

/-- Every access of a subscriber is a move of its account, and keeps its bounds. -/
theorem move (hg : g.Valid) (h : u.Ok g) {op : Op} (hop : u.request g = some op) (r : Resp) :
    Move g u.acct r (u.resume g r).acct op ∧ (u.resume g r).Ok g := by
  by_cases hq : u.pc.quiet = true
  · obtain ⟨hv, hp, hok⟩ := h.resume_onward hq r
    refine ⟨?_, hok⟩
    have hp0 : u.pc.plain = true := by cases e : u.pc <;> simp_all [SubPc.quiet, SubPc.plain]
    have hquiet : op.quiet = true := by
      cases e : u.pc <;> simp only [e, SubPc.quiet, reduceCtorEq] at hq <;>
        simp only [Sub.request, e, Option.some.injEq, reduceCtorEq] at hop <;> subst hop <;> rfl
    rw [acct_of_plain hp, acct_of_plain hp0, hv]
    exact .quiet hquiet rfl rfl rfl
  have hr := h.ring_lt
  have hs := h.slot_lt
  have hpc := h.pc_ok
  cases e : u.pc <;> rw [e] at hr hs hpc hq <;> simp only [Sub.request, e, Option.some.injEq] at hop
  case recvPin =>
    subst hop
    exact move_recvPin h e
  case out | joinPos | joinCas | joinStart | joinPid | joinPos2 | live => exact absurd rfl hq
  all_goals
    have hring := hr rfl
    subst hop
  case recvSeq2 k seq1 slot =>
    have hlt := hs slot rfl
    simp only [Sub.resume, e]
    refine ⟨.quiet rfl ?_ ?_ ?_, ?_⟩
    · split_ifs <;> simp [acct, e, SubPc.excl]
    · split_ifs <;> simp [acct, pins, e, SubPc.pins, SubPc.owed]
    · split_ifs <;> rfl
    · split_ifs <;> exact h.hold hring hlt rfl rfl rfl rfl rfl (by simp)
  case recvUnpin k slot =>
    have hlt := hs slot rfl
    simp only [Sub.resume, e]
    refine ⟨move_drop hlt u.views ?_ ?_ (fun h1 => ?_) (fun h1 => ?_), ?_⟩
    · simp [acct, e, SubPc.excl]
    · simp [acct, pins, e, SubPc.pins, SubPc.owed]
    · simp [h1, acct, pins, SubPc.excl, SubPc.pins, SubPc.owed, SubPc.stack, PushPc.stack]
    · rw [if_neg h1]
      exact acct_of_plain rfl
    · split_ifs
      · exact h.hold hring hlt rfl rfl rfl rfl rfl (by simp)
      · exact h.settle hring rfl rfl rfl rfl (by simp)
  case recvUnpinPush k slot p =>
    have hlt := hs slot rfl
    simp only [Sub.resume, e]
    refine ⟨move_push hlt u.views ?_ (fun p' hp' => ?_) (fun hp' => ?_), ?_⟩
    · simp [acct, pins, e, SubPc.excl, SubPc.pins, SubPc.owed, SubPc.stack]
    · simp [hp', acct, pins, SubPc.excl, SubPc.pins, SubPc.owed, SubPc.stack]
    · simp only [hp']
      exact acct_of_plain rfl
    · split
      · exact h.hold hring hlt rfl rfl rfl rfl rfl (by simp)
      · exact h.settle hring rfl rfl rfl rfl (by simp)
  case recvLen k slot =>
    have hlt := hs slot rfl
    simp only [Sub.resume, e]
    split_ifs with hlen
    · exact ⟨.quiet rfl (by simp [acct, e, SubPc.excl])
        (by simp [acct, pins, e, SubPc.pins, SubPc.owed]) rfl,
        h.hold hring hlt rfl rfl rfl rfl rfl (by simp)⟩
    · exact ⟨move_sample e, Ok.sample h hring hlt (by omega)⟩
  case copyOut v =>
    have hlt := hs v.slotIdx rfl
    simp only [Sub.resume, e]
    exact ⟨.quiet rfl (by simp [acct, e, SubPc.excl])
      (by simp [acct, pins, e, SubPc.pins, SubPc.owed]) rfl,
      h.hold hring hlt rfl rfl rfl rfl rfl (by simpa using hpc)⟩
  case copyDone v =>
    have hlt := hs v.slotIdx rfl
    simp only [Sub.resume, e]
    refine ⟨move_drop hlt u.views ?_ ?_ (fun h1 => ?_) (fun h1 => ?_), ?_⟩
    · simp [acct, e, SubPc.excl]
    · simp [acct, pins, e, SubPc.pins, SubPc.owed]
    · simp [h1, acct, pins, SubPc.excl, SubPc.pins, SubPc.owed, SubPc.stack, PushPc.stack]
    · rw [if_neg h1]
      exact acct_of_plain rfl
    · split_ifs
      · exact h.hold hring hlt rfl rfl rfl rfl rfl (by simpa using hpc)
      · exact h.settle hring rfl rfl rfl rfl (by simp)
  case copyPush v p =>
    have hlt := hs v.slotIdx rfl
    simp only [Sub.resume, e]
    refine ⟨move_push hlt u.views ?_ (fun p' hp' => ?_) (fun hp' => ?_), ?_⟩
    · simp [acct, pins, e, SubPc.excl, SubPc.pins, SubPc.owed, SubPc.stack]
    · simp [hp', acct, pins, SubPc.excl, SubPc.pins, SubPc.owed, SubPc.stack]
    · simp only [hp']
      exact acct_of_plain rfl
    · split
      · exact h.hold hring hlt rfl rfl rfl rfl rfl (by simpa using hpc)
      · exact h.settle hring rfl rfl rfl rfl (by simp)
  case drainCas pos wp word => exact move_drainCas hg h e
  case drainSub pos wp slot =>
    have hlt := hs slot rfl
    have hloop := h.drainLoop hring (pos + 1) wp
    simp only [Sub.resume, e]
    refine ⟨move_drop hlt u.views ?_ ?_ (fun h1 => ?_) (fun h1 => ?_), ?_⟩
    · simp [acct, e, SubPc.excl]
    · simp [acct, pins, e, SubPc.pins, SubPc.owed]
    · simp [h1, acct, pins, SubPc.excl, SubPc.pins, SubPc.owed, SubPc.stack, PushPc.stack]
    · rw [if_neg h1, acct_of_plain hloop.plain, hloop.views]
    · split_ifs
      · exact h.hold hring hlt rfl rfl rfl rfl rfl (by simp)
      · exact hloop.ok
  case drainPush pos wp slot p =>
    have hlt := hs slot rfl
    have hloop := h.drainLoop hring (pos + 1) wp
    simp only [Sub.resume, e]
    refine ⟨move_push hlt u.views ?_ (fun p' hp' => ?_) (fun hp' => ?_), ?_⟩
    · simp [acct, pins, e, SubPc.excl, SubPc.pins, SubPc.owed, SubPc.stack]
    · simp [hp', acct, pins, SubPc.excl, SubPc.pins, SubPc.owed, SubPc.stack]
    · simp only [hp']
      rw [acct_of_plain hloop.plain, hloop.views]
    · split
      · exact h.hold hring hlt rfl rfl rfl rfl rfl (by simp)
      · exact hloop.ok
  all_goals exact absurd rfl hq

/-- A call keeps the views and owns nothing else. -/
theorem Ok.call_onward (h : u.Ok g) :
    (u.pc = .out → ∀ waker, Onward g u (u.join g waker)) ∧
      (u.pc = .live → (∀ copy blocking, Onward g u (u.receive copy blocking)) ∧
        Onward g u u.armWait ∧ Onward g u u.disarmWait ∧ Onward g u u.releaseRing) := by
  refine ⟨fun e waker => ?_, fun e => ?_⟩
  · have h' : Ok g { u with waker := waker } :=
      ⟨h.ring_lt, h.joining_lt, h.slot_lt, h.views_ok, h.pc_ok⟩
    obtain ⟨hv, hp, hok⟩ := h'.tryJoin 0
    exact ⟨hv, hp, hok⟩
  · have hr := h.ring_lt (by rw [e]; rfl)
    refine ⟨fun copy blocking => ?_, ?_, ?_, ?_⟩
    · have h' : Ok g { u with copy := copy, blocking := blocking, returned := none } :=
        ⟨h.ring_lt, h.joining_lt, h.slot_lt, h.views_ok, h.pc_ok⟩
      obtain ⟨hv, hp, hok⟩ := h'.recvLoop hr 0
      exact ⟨hv, hp, hok⟩
    all_goals exact h.stay hr rfl rfl rfl rfl (by simp [Sub.armWait, Sub.disarmWait, Sub.releaseRing])

end Moves

end Sub

/-! ## Destroying a view -/

namespace ViewPc

/-- The bounds of the view being destroyed. -/
def Ok (g : Geometry) : ViewPc → Prop
  | .idle => True
  | .sub v | .push v _ => v.slotIdx < g.poolSize ∧ v.len ≤ g.slotDataSize

def pins : ViewPc → Nat → Nat
  | .sub v => Pi.single v.slotIdx 1
  | _ => 0

def acct : ViewPc → Acct
  | .idle => ⟨0, 0, .away⟩
  | .sub v => ⟨0, Pi.single v.slotIdx 1, .away⟩
  | .push v p => ⟨Pi.single v.slotIdx 1, 0, p.stack v.slotIdx⟩

theorem move {g : Geometry} {pc : ViewPc} (h : pc.Ok g) {op : Op} (hop : pc.request = some op)
    (r : Resp) : Move g pc.acct r (pc.resume r).acct op ∧ (pc.resume r).Ok g := by
  cases pc with
  | idle => simp [request] at hop
  | sub v =>
    simp only [request, Option.some.injEq] at hop
    subst hop
    refine ⟨Sub.move_drop h.1 [] rfl (by simp [acct]) (fun h1 => ?_) (fun h1 => ?_), ?_⟩
    · simp [resume, h1, acct, PushPc.stack]
    · simp [resume, h1, acct, Sub.still]
    · simp only [resume]
      split_ifs
      · exact h
      · trivial
  | push v p =>
    simp only [request, Option.some.injEq] at hop
    subst hop
    refine ⟨Sub.move_push h.1 [] (by simp [acct]) (fun p' hp' => ?_) (fun hp' => ?_), ?_⟩
    · simp [resume, hp', acct]
    · simp [resume, hp', acct, Sub.still]
    · simp only [resume]
      split
      · exact h
      · trivial

end ViewPc

end Kickmsg
