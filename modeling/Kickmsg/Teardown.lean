import Kickmsg.Admission
import Kickmsg.Arming
import Kickmsg.Staleness
import Kickmsg.Takeover

/-!
# A released ring is empty

`drain_unconsumed` visits the window of the tenancy that ends, and no entry outside. That is enough: a claim
that is still in an entry was installed by a publisher of this tenancy, so its position is not below where
the subscriber joined, and some position of the window has the same entry. Hence a ring that is `Free` names
no slot, and when everybody is done every slot is back on the free stack.
-/

namespace Kickmsg

open Finset Lib

/-- Whoever has claimed a position is admitted to its ring. -/
theorem PubPc.admittedTo_of_claimed {pc : PubPc} {r p : Nat} (h : pc.claimed = some (r, p)) :
    pc.admittedTo = some r := by
  cases pc <;> simp only [claimed, Option.some.injEq, Prod.mk.injEq, reduceCtorEq] at h <;>
    simp only [admittedTo, h.1]

/-- The position of `drain_unconsumed` and the end of its window. -/
def SubPc.window : SubPc → Option (Nat × Nat)
  | .drainMeta pos wp | .drainCas pos wp _ | .drainSub pos wp _ | .drainPush pos wp _ _ => some (pos, wp)
  | _ => none

theorem SubPc.quiesced_of_window {pc : SubPc} {x : Nat × Nat} (h : pc.window = some x) : pc.quiesced = true := by
  cases pc <;> first | rfl | cases h

namespace Sub

variable {g : Geometry} {u : Sub} {r : Resp} {p : Nat}

/-- The position a subscriber has joined at. -/
def joinedAt (u : Sub) : Nat :=
  match u.pc with
  | .joinStart _ wp | .joinPid _ wp | .joinPos2 _ wp => wp
  | _ => u.startPos

/-- The ring may still hold a claim of position `p`: it is not from before the subscriber joined, and the
drain has not passed it. -/
def Spares (u : Sub) (p : Nat) : Prop :=
  match u.pc with
  | .drainMeta pos _ | .drainCas pos _ _ => pos ≤ p
  | .drainSub pos _ _ | .drainPush pos _ _ _ => pos < p
  | .leaveFree => False
  | _ => u.joinedAt ≤ p

/-- The release did not give up on publishers in flight. -/
def Prompt (u : Sub) : Prop :=
  match u.pc with
  | .clearWaiter q | .clearPid q | .clearStart q => q = true
  | .leaveLoad2 | .leaveCas2 _ => False
  | _ => True

theorem spares_of_joinedAt (hq : u.pc.quiesced = false) (h : u.joinedAt ≤ p) : u.Spares p := by
  unfold Spares
  cases e : u.pc <;> rw [e] at hq <;> first | exact h | cases hq

theorem drainOldest_eq (wp : Nat) : u.drainOldest g wp = max (wp - g.subRingCapacity) u.startPos := by
  simp only [drainOldest]
  split_ifs <;> omega

theorem startPos_le_drainOldest (wp : Nat) : u.startPos ≤ u.drainOldest g wp := by
  rw [drainOldest_eq]
  exact le_max_right _ _

/-- Some position of the window has the entry of a position of the tenancy. -/
theorem exists_in_window (hg : g.Valid) {wp : Nat} (hs : u.startPos ≤ p) (hp : p < wp) :
    ∃ p', u.drainOldest g wp ≤ p' ∧ p' < wp ∧ g.entryIdx p' = g.entryIdx p := by
  have hcap := hg.capacity_pos
  rw [drainOldest_eq]
  by_cases hlap : wp - g.subRingCapacity ≤ p
  · exact ⟨p, max_le hlap hs, hp, rfl⟩
  · -- the last position of its entry before the end
    have hdiv := Nat.div_add_mod (wp - 1 - p) g.subRingCapacity
    have hmod := Nat.mod_lt (wp - 1 - p) hcap
    refine ⟨p + g.subRingCapacity * ((wp - 1 - p) / g.subRingCapacity), max_le (by omega) (by omega), by omega, ?_⟩
    rw [hg.entryIdx_eq, hg.entryIdx_eq, Nat.add_mul_mod_self_left]

/-- A subscriber that holds its ring keeps the position it joined at. -/
theorem joinedAt_resume (h : u.held ≠ none) : (u.resume g r).held = none ∨ (u.resume g r).joinedAt = u.joinedAt := by
  obtain ⟨_, _, _, _, _, _, _, _, _, _, _, _, _, pc⟩ := u
  cases pc <;> simp only [held, ne_eq, not_true_eq_false] at h <;>
    simp only [resume, recvLoop, recvNone, recvWith, recvClaim, tryPin, sample, armWith, drainLoop] <;>
    (repeat' split) <;> first | exact .inr rfl | exact .inr trivial

theorem spares_drainLoop {pos wp : Nat} (hp : pos ≤ p) (hw : p < wp) : (u.drainLoop pos wp).Spares p := by
  unfold drainLoop
  rw [if_pos (hp.trans_lt hw)]
  exact hp

/-- An access of the drain passes one position, and only with its entry cleared. -/
theorem spares_resume (h : u.Spares p) (hfree : u.held ≠ none)
    (hlt : ∀ pos wp, u.pc.window = some (pos, wp) → p < wp)
    (hpos : u.pc = .drainPos → u.drainOldest g r.val ≤ p ∧ p < r.val)
    (hmeta : ∀ pos wp, u.pc = .drainMeta pos wp →
      metaSlotBiased r.val = 0 ∨ metaSlotBiased r.val - 1 ≥ g.poolSize → p ≠ pos)
    (hcas : ∀ pos wp word, u.pc = .drainCas pos wp word → p ≠ pos) : (u.resume g r).Spares p := by
  by_cases hd : u.pc.draining = true
  · cases e : u.pc <;> rw [e] at hd <;> simp only [SubPc.draining, Bool.false_eq_true] at hd <;>
      simp only [Spares, e] at h <;> simp only [resume, e]
    case drainPos =>
      obtain ⟨h1, h2⟩ := hpos e
      rw [if_neg (by omega)]
      exact spares_drainLoop h1 h2
    case drainMeta pos wp =>
      split_ifs with hz
      · exact spares_drainLoop (Nat.lt_of_le_of_ne h (hmeta pos wp e hz).symm) (hlt pos wp (by rw [e]; rfl))
      · exact h
    case drainCas pos wp word =>
      have hne := (hcas pos wp word e).symm
      split_ifs
      · exact Nat.lt_of_le_of_ne h hne
      · exact spares_drainLoop (Nat.lt_of_le_of_ne h hne) (hlt pos wp (by rw [e]; rfl))
    case drainSub pos wp slot =>
      split_ifs
      · exact h
      · exact spares_drainLoop h (hlt pos wp (by rw [e]; rfl))
    case drainPush pos wp slot q =>
      split
      · exact h
      · exact spares_drainLoop h (hlt pos wp (by rw [e]; rfl))
  · obtain ⟨_, _, _, _, _, _, _, _, _, _, _, _, _, pc⟩ := u
    cases pc <;> simp only [SubPc.draining, not_true_eq_false] at hd <;> simp only [Spares] at h <;>
      simp only [held, ne_eq, not_true_eq_false] at hfree <;>
      simp only [resume, recvLoop, recvNone, recvWith, recvClaim, tryPin, sample, armWith] <;>
      (repeat' split) <;> exact h

/-- A release gives up only when its deadline has passed. -/
theorem prompt_resume (h : u.Prompt) (hc : u.pc = .leaveClock → r.ok = false) : (u.resume g r).Prompt := by
  by_cases hl : u.pc = .leaveClock
  · simp [resume, hl, hc hl, Prompt]
  · obtain ⟨_, _, _, _, _, _, _, _, _, _, _, _, _, pc⟩ := u
    cases pc <;> simp only [not_true_eq_false] at hl <;> simp only [Prompt] at h <;>
      simp only [resume, recvLoop, recvNone, recvWith, recvClaim, tryPin, sample, armWith, drainLoop, tryJoin] <;>
      (repeat' split) <;> trivial

/-- The end of the window is loaded once. -/
theorem window_resume {pos wp : Nat} (h : (u.resume g r).pc.window = some (pos, wp)) :
    (∃ pos₀, u.pc.window = some (pos₀, wp)) ∨ u.pc = .drainPos ∧ wp = r.val := by
  obtain ⟨_, _, _, _, _, _, _, _, _, _, _, _, _, pc⟩ := u
  cases pc <;>
    simp only [resume, recvLoop, recvNone, recvWith, recvClaim, tryPin, sample, armWith, drainLoop, tryJoin] at h <;>
    (repeat' split at h) <;> simp_all [SubPc.window]

/-- The word to exchange is the one that was loaded. -/
theorem drainCas_resume {pos wp word : Nat} (h : (u.resume g r).pc = .drainCas pos wp word) :
    u.pc = .drainMeta pos wp ∧ r.val = word := by
  obtain ⟨_, _, _, _, _, _, _, _, _, _, _, _, _, pc⟩ := u
  cases pc <;>
    simp only [resume, recvLoop, recvNone, recvWith, recvClaim, tryPin, sample, armWith, drainLoop, tryJoin] at h <;>
    (repeat' split at h) <;> simp_all

/-- What a call, or the loss of a view, leaves as it is. -/
structure Alike (u u' : Sub) : Prop where
  joinedAt : u'.joinedAt = u.joinedAt
  spares : ∀ p, u.Spares p → u'.Spares p
  window : ∀ x, u'.pc.window = some x → u'.pc = u.pc
  prompt : u.Prompt → u'.Prompt

variable {u' : Sub}

theorem alike_refl : Alike u u := ⟨rfl, fun _ h => h, fun _ _ => rfl, id⟩

theorem alike_call {c : Call} (hc : (Local.sub u).call g c = some (.sub u')) : Alike u u' := by
  obtain ⟨u₁, e, hcase⟩ := Local.call_sub hc
  obtain rfl := Local.sub.inj e
  rcases hcase with ⟨hpc, waker, rfl⟩ | ⟨hpc, ⟨copy, blocking, rfl⟩ | rfl | rfl | rfl⟩
  · unfold join tryJoin
    split_ifs <;>
      exact ⟨by simp [Sub.joinedAt, hpc], fun p h => by simpa [Spares, Sub.joinedAt, hpc] using h,
        fun _ e => (by cases e), fun _ => trivial⟩
  · unfold receive recvLoop recvNone
    split_ifs <;>
      exact ⟨by simp [Sub.joinedAt, hpc], fun p h => by simpa [Spares, Sub.joinedAt, hpc] using h,
        fun _ e => (by cases e), fun _ => trivial⟩
  all_goals
    exact ⟨by simp [Sub.joinedAt, hpc, armWait, disarmWait, releaseRing],
      fun p h => by simpa [Spares, Sub.joinedAt, hpc, armWait, disarmWait, releaseRing] using h,
        fun _ e => (by cases e), fun _ => trivial⟩

end Sub

/-- No release gave up, and no pass over dead rings is at work. -/
def Local.Prompt : Local → Prop
  | .sub u => u.Prompt
  | .reclaim u => u.pc = .idle
  | _ => True

def Local.isSub : Local → Bool
  | .sub _ => true
  | _ => false

/-- The same of an actor. -/
def Local.Alike (l l' : Local) : Prop :=
  (∃ u u', l = .sub u ∧ l' = .sub u' ∧ Sub.Alike u u') ∨
    (l.isSub = false ∧ l'.isSub = false ∧ (l.Prompt → l'.Prompt))

theorem Local.alike_of_eq {l l' : Local} (h : l' = l) : l.Alike l' := by
  subst h
  cases l' with
  | sub u => exact .inl ⟨u, u, rfl, rfl, Sub.alike_refl⟩
  | _ => exact .inr ⟨rfl, rfl, id⟩

theorem Local.alike_call {g : Geometry} {l l' : Local} {c : Call} (hc : l.call g c = some l')
    (hne : c ≠ .reclaimDeadRings) : l.Alike l' := by
  rcases Local.call_pass hc with ⟨u, rfl⟩ | ⟨u, rfl⟩ | ⟨u, rfl, -, rfl⟩ | ⟨u, rfl, -, rfl, rfl⟩ | ⟨u, rfl, -, -, rfl⟩
  · obtain ⟨-, u', rfl, -⟩ := Local.call_pub hc
    exact .inr ⟨rfl, rfl, fun _ => trivial⟩
  · obtain ⟨u', rfl, -⟩ := Local.call_sub hc
    exact .inl ⟨u, u', rfl, rfl, Sub.alike_call hc⟩
  · exact .inr ⟨rfl, rfl, fun _ => trivial⟩
  · exact absurd rfl hne
  · exact .inr ⟨rfl, rfl, fun _ => trivial⟩

namespace Sys

variable {ι : Type}

/-- The steps of a run without a pass over dead rings in which every release sees its ring quiesce: the
deadline of its wait does not pass. -/
def orderly (s : Sys ι) : Label ι → Bool
  | .call _ .reclaimDeadRings => false
  | .run t c =>
    match s.th t with
    | .sub u => decide (u.pc = .leaveClock → c = false)
    | _ => true
  | _ => true

variable [Fintype ι]

/-- What is in the rings. -/
structure Swept (g : Geometry) (s : Sys ι) : Prop where
  vacant : ∀ r, s.ghost.tenant r = none → s.admissions r = 0
  valid : ∀ r i, s.mem (.metaWord r i) < 2 ^ 64 ∧ metaSlotBiased (s.mem (.metaWord r i)) ≤ g.poolSize
  named : ∀ r i, metaSlotBiased (s.mem (.metaWord r i)) ≠ 0 → ∃ T u p, s.ghost.tenant r = some T ∧
    s.th T = .sub u ∧ u.Spares p ∧ p < s.wpos r ∧ g.entryIdx p = i
  claimed : ∀ v u r p, s.th v = .pub u → u.pc.claimed = some (r, p) →
    ∀ T w, s.ghost.tenant r = some T → s.th T = .sub w → w.joinedAt ≤ p
  begun : ∀ r T w, s.ghost.tenant r = some T → s.th T = .sub w → w.joinedAt ≤ s.wpos r
  window : ∀ r T w pos wp, s.ghost.tenant r = some T → s.th T = .sub w → w.pc.window = some (pos, wp) →
    wp = s.wpos r
  found : ∀ r T w pos wp word, s.ghost.tenant r = some T → s.th T = .sub w → w.pc = .drainCas pos wp word →
    s.mem (.metaWord r (g.entryIdx pos)) = word
  prompt : ∀ v, (s.th v).Prompt

/-- The state of a run that has been orderly. -/
structure Tidy (g : Geometry) (proc : ι → Nat × Nat) (s : Sys ι) : Prop where
  admission : Admission proc s
  seq : Sequenced g s
  behind : ∀ t, (s.th t).Behind s.wpos
  ledger : ∃ chain, Ledger g s chain
  swept : s.Swept g

theorem Tidy.ok {g : Geometry} {proc : ι → Nat × Nat} {s : Sys ι} (h : Tidy g proc s) (t : ι) : (s.th t).Ok g := by
  obtain ⟨chain, hL⟩ := h.ledger
  exact hL.ok t

section Steps

variable [DecidableEq ι] {g : Geometry} {proc : ι → Nat × Nat} {s s' : Sys ι} {t : ι} {op : Op} {c : Bool}

/-! ### An access -/

omit [Fintype ι] in
/-- What an access writes into a meta word. -/
theorem meta_written (hop : (s.th t).request g = some op) (r i : Nat) :
    (s.ran g t op c).mem (.metaWord r i) = s.mem (.metaWord r i) ∨
      (∃ u d pos old, s.th t = .pub u ∧ u.pc = .metaCas d pos old ∧ d.i = r ∧ g.entryIdx pos = i ∧
        (s.ran g t op c).mem (.metaWord r i) = metaPack pos d.slotIdx) ∨
      ∃ u pos wp word, s.th t = .sub u ∧ u.pc = .drainCas pos wp word ∧ u.ringIdx = r ∧
        (s.ran g t op c).mem (.metaWord r i) = metaClear (s.mem (.metaWord r i)) := by
  by_cases ht : op.target = some (.metaWord r i)
  · rcases Local.meta_cases hop ht with ⟨u, d, pos, old, hu, hpc, hd, hi, rfl⟩ | ⟨u, pos, wp, word, hu, hpc, hd, rfl⟩
    · rcases Op.exec_cas s.procs s.mem c true (.metaWord r i) old (metaPack pos d.slotIdx) with ⟨-, he⟩ | he
      · exact .inr (.inl ⟨u, d, pos, old, hu, hpc, hd, hi, by simp [ran, he]⟩)
      · exact .inl (by simp [ran, he])
    · rcases Op.exec_cas s.procs s.mem c false (.metaWord r i) word (metaClear word) with ⟨hm, he⟩ | he
      · exact .inr (.inr ⟨u, pos, wp, word, hu, hpc, hd, by simp [ran, he, hm]⟩)
      · exact .inl (by simp [ran, he])
  · exact .inl (Op.exec_frame _ _ _ _ ht)

omit [Fintype ι] in
/-- A new tenant found the ring free, with nobody in flight. -/
theorem tenant_ran (h : Tenancy proc s) (ha : s.alive proc t = true) (hop : (s.th t).request g = some op)
    {r : Nat} {T : ι} (hT : (s.ran g t op c).ghost.tenant r = some T) : s.ghost.tenant r = some T ∨
      (s.ghost.tenant r = none ∧ T = t ∧ getInFlight (s.mem (.stateFlight r)) = 0 ∧
        ∃ u wp, s.th t = .sub u ∧ u.pc = .joinCas r wp ∧
          (s.ran g t op c).th t = .sub { u with pc := .joinStart r wp }) := by
  rcases tenant_cases h ha hop hT with hT | ⟨rfl, hok, u, wp, hu, hpc⟩
  · exact .inl hT
  · have hop' := hop
    rw [hu] at hop'
    simp only [Local.request, Sub.request, hpc, Option.some.injEq] at hop'
    subst hop'
    rcases Op.exec_cas s.procs s.mem c false (.stateFlight r) (makePacked .free 0) (makePacked .live 0) with
      ⟨hw, he⟩ | he
    · refine .inr ⟨(h.ring r).free_iff.mpr ?_, rfl, ?_, u, wp, hu, hpc, ?_⟩
      · rw [ringState, hw, getState_packed]
      · rw [hw, makePacked_zero]
        rfl
      · simp [ran, hu, he, Local.resume, Sub.resume, hpc]
    · rw [he] at hok
      cases hok

omit [Fintype ι] in
/-- A tenancy ends with its holder's last store. -/
theorem tenant_stays (h : Tenancy proc s) (hp : ∀ v, (s.th v).Prompt) (ha : s.alive proc t = true)
    (hop : (s.th t).request g = some op) {r : Nat} {T : ι} (hT : s.ghost.tenant r = some T) :
    (s.ran g t op c).ghost.tenant r = some T ∨ (T = t ∧ ∃ u, s.th t = .sub u ∧ u.pc = .leaveFree) := by
  by_cases hf : (s.ran g t op c).ringState r = .free
  · right
    have hne := h.ringState_ne hT
    have hlt := (h.ring r).word_lt
    have hprompt := hp t
    have key : ∃ u, s.th t = .sub u ∧ u.pc = .leaveFree ∧ u.ringIdx = r := by
      unfold ringState at hf hne
      rcases stateWrite_run c hop r with ⟨e, -⟩ | ⟨-, -, hw⟩
      · exact absurd (e ▸ hf) hne
      · cases hw with
        | enter hl hpc hi hw => exact absurd ((getState_admitted _).symm.trans (hw ▸ hf)) hne
        | release hl hpc hi hw => exact absurd ((getState_release _).symm.trans (hw ▸ hf)) hne
        | join hl hpc h0 hw => cases (getState_packed _).symm.trans (hw ▸ hf)
        | drain hl hpc hi hw => cases (getState_setState hlt _).symm.trans (hw ▸ hf)
        | @vacate u hl hpc hi hw => exact ⟨u, hl, hpc, hi⟩
        | vacateLate hl hpc hi hw =>
          rw [hl] at hprompt
          simp [Local.Prompt, Sub.Prompt, hpc] at hprompt
        | claim hl hpc hw =>
          rw [hl] at hprompt
          simp [Local.Prompt, hpc] at hprompt
        | free hl hpc hw =>
          rw [hl] at hprompt
          simp [Local.Prompt, hpc] at hprompt
        | restore hl hpc hw =>
          rw [hl] at hprompt
          simp [Local.Prompt, hpc] at hprompt
    obtain ⟨u, hu, hpc, hr⟩ := key
    have hheld : (s.th t).held = some r := by simp [hu, Local.held, Sub.held, hpc, hr]
    exact ⟨Option.some.inj (hT.symm.trans (h.tenant_of_held ha hheld)), u, hu, hpc⟩
  · exact .inl (tenant_run h hT hf)

/-- Nobody is admitted to a ring without a tenant. -/
theorem Tidy.vacant_run (h : Tidy g proc s) (hA' : Admission proc (s.ran g t op c))
    (hop : (s.th t).request g = some op) {r : Nat} (hT : (s.ran g t op c).ghost.tenant r = none) :
    (s.ran g t op c).admissions r = 0 := by
  have hA := h.admission
  have hf := (hA'.attributed.tenancy.ring r).free_iff.mp hT
  have hprompt := h.swept.prompt t
  have hlt := (hA.attributed.tenancy.ring r).word_lt
  have hvac : s.ringState r = .free → getInFlight (s.mem (.stateFlight r)) = 0 := fun hf => by
    rw [hA.count]
    exact h.swept.vacant r ((hA.attributed.tenancy.ring r).free_iff.mpr hf)
  rw [← hA'.count]
  unfold ringState at hf hvac
  rcases stateWrite_run c hop r with ⟨e, -⟩ | ⟨-, -, hw⟩
  · rw [e] at hf ⊢
    exact hvac hf
  · cases hw with
    | enter hl hpc hi hw =>
      have hlive := hA.seesLive t
      simp only [hl, Local.SeesLive, hpc, PubPc.SeesLive] at hlive
      cases hlive.symm.trans ((getState_admitted _).symm.trans (hw ▸ hf))
    | @release u d hl hpc hi hw =>
      have h0 := hvac ((getState_release _).symm.trans (hw ▸ hf))
      have h1 : (s.th t).admitted r = 1 := by
        rcases hpc with hpc | ⟨exc, hpc⟩ <;> simp [hl, Local.admitted, hpc, PubPc.admittedTo, hi]
      have h2 := le_sum (fun v => (s.th v).admitted r) t
      have h3 := hA.count r
      simp only [admissions] at h3
      omega
    | join hl hpc h0 hw => cases (getState_packed _).symm.trans (hw ▸ hf)
    | drain hl hpc hi hw => cases (getState_setState hlt _).symm.trans (hw ▸ hf)
    | vacate hl hpc hi hw =>
      rw [hw, makePacked_zero]
      rfl
    | vacateLate hl hpc hi hw =>
      rw [hl] at hprompt
      simp [Local.Prompt, Sub.Prompt, hpc] at hprompt
    | claim hl hpc hw =>
      rw [hl] at hprompt
      simp [Local.Prompt, hpc] at hprompt
    | free hl hpc hw =>
      rw [hl] at hprompt
      simp [Local.Prompt, hpc] at hprompt
    | restore hl hpc hw =>
      rw [hl] at hprompt
      simp [Local.Prompt, hpc] at hprompt

omit [DecidableEq ι] in
/-- A ring that a publisher is in has a tenant, who has not seen it quiesce. -/
theorem Tidy.tenant_of_admitted (h : Tidy g proc s) {v : ι} {u : Pub} {r : Nat} (hu : s.th v = .pub u)
    (ha : u.pc.admittedTo = some r) :
    0 < s.admissions r ∧ ∃ T w, s.ghost.tenant r = some T ∧ s.th T = .sub w ∧ w.pc.quiesced = false := by
  have h1 : (s.th v).admitted r = 1 := by simp [hu, Local.admitted, ha]
  have h2 := le_sum (fun v => (s.th v).admitted r) v
  have hpos : 0 < s.admissions r := by
    simp only [admissions]
    omega
  refine ⟨hpos, ?_⟩
  cases hT : s.ghost.tenant r with
  | none =>
    have := h.swept.vacant r hT
    omega
  | some T =>
    have hheld := ((h.admission.attributed.tenancy.ring r).tenant T hT).1
    cases hl : s.th T with
    | sub w =>
      refine ⟨T, w, rfl, hl, ?_⟩
      by_contra hq
      have := h.admission.quiet r T hT (by simpa [hl, Local.quiesced] using hq)
      rw [h.admission.count] at this
      omega
    | _ =>
      rw [hl] at hheld
      cases hheld

/-- The subscriber of a ring's tenant before an access: it has just joined, or it was the tenant. -/
theorem Tidy.sub_of_ran (h : Tidy g proc s) (hA' : Admission proc (s.ran g t op c)) (ha : s.alive proc t = true)
    (hop : (s.th t).request g = some op) {r : Nat} {T : ι} {w' : Sub}
    (hT : (s.ran g t op c).ghost.tenant r = some T) (hw : (s.ran g t op c).th T = .sub w') :
    (s.ghost.tenant r = some T ∧ ∃ w, s.th T = .sub w ∧ w'.joinedAt = w.joinedAt ∧ w.held ≠ none ∧
      (T ≠ t ∧ w' = w ∨ T = t ∧ w' = w.resume g (op.exec s.procs s.mem c).2)) ∨
    (s.ghost.tenant r = none ∧ s.admissions r = 0 ∧ w'.joinedAt ≤ s.wpos r ∧ w'.pc.window = none) := by
  rcases tenant_ran h.admission.attributed.tenancy ha hop hT with hT | ⟨hn, rfl, h0, u, wp, hu, hpc, hu'⟩
  · refine .inl ⟨hT, ?_⟩
    have hheld := ((h.admission.attributed.tenancy.ring r).tenant T hT).1
    by_cases e : T = t
    · subst e
      cases hl : s.th T with
      | sub w =>
        rw [hl] at hheld
        have hw' : w' = w.resume g (op.exec s.procs s.mem c).2 := by
          simp only [ran, Function.update_self, hl, Local.resume, Local.sub.injEq] at hw
          exact hw.symm
        have hheld' := ((hA'.attributed.tenancy.ring r).tenant T ‹_›).1
        rw [hw, hw'] at hheld'
        have hne : w.held ≠ none := by
          rw [show w.held = some r from hheld]
          exact Option.some_ne_none r
        refine ⟨w, rfl, ?_, hne, .inr ⟨rfl, hw'⟩⟩
        rw [hw']
        refine (Sub.joinedAt_resume hne).resolve_left ?_
        rw [show (w.resume g _).held = some r from hheld']
        exact Option.some_ne_none r
      | _ =>
        rw [hl] at hheld
        cases hheld
    · have hw : s.th T = .sub w' := by simpa [ran, Function.update_of_ne e] using hw
      rw [hw] at hheld
      exact ⟨w', hw, rfl, by rw [show w'.held = some r from hheld]; exact Option.some_ne_none r, .inl ⟨e, rfl⟩⟩
  · have hb := h.behind T
    rw [hu] at hb
    simp only [Local.Behind, Sub.Behind, hpc] at hb
    obtain rfl := Local.sub.inj (hu'.symm.trans hw)
    exact .inr ⟨hn, by rw [← h.admission.count]; exact h0, hb, rfl⟩

theorem Tidy.claimed_run (h : Tidy g proc s) (hA' : Admission proc (s.ran g t op c)) (ha : s.alive proc t = true)
    (hop : (s.th t).request g = some op) {v : ι} {u : Pub} {r p : Nat} (hu : (s.ran g t op c).th v = .pub u)
    (hc : u.pc.claimed = some (r, p)) {T : ι} {w : Sub} (hT : (s.ran g t op c).ghost.tenant r = some T)
    (hw : (s.ran g t op c).th T = .sub w) : w.joinedAt ≤ p := by
  -- the publisher was in the ring before
  have key : ∀ u₀ : Pub, s.th v = .pub u₀ → u₀.pc.admittedTo = some r →
      (∀ T w₀, s.ghost.tenant r = some T → s.th T = .sub w₀ → w₀.joinedAt ≤ p) → w.joinedAt ≤ p := by
    intro u₀ hu₀ hadm hle
    rcases h.sub_of_ran hA' ha hop hT hw with ⟨hT₀, w₀, hw₀, e, -, -⟩ | ⟨hn, h0, -, -⟩
    · exact e ▸ hle T w₀ hT₀ hw₀
    · have := (h.tenant_of_admitted hu₀ hadm).1
      omega
  rcases pub_of_ran hu with ⟨-, hu⟩ | ⟨rfl, u₀, hu₀, rfl⟩
  · exact key u hu (PubPc.admittedTo_of_claimed hc) (h.swept.claimed v u r p hu hc)
  · rcases Pub.claimed_resume hc with hc | ⟨d, hd, hx⟩
    · exact key u₀ hu₀ (PubPc.admittedTo_of_claimed hc) (h.swept.claimed v u₀ r p hu₀ hc)
    · obtain ⟨rfl, rfl⟩ := Prod.mk.inj hx
      rw [hu₀] at hop
      obtain rfl : op = .fetchAdd (.writePos d.i) 1 := by
        simpa [Local.request, Pub.request, hd] using hop.symm
      exact key u₀ hu₀ (by rw [hd]; rfl) fun T w₀ hT₀ hw₀ => h.swept.begun d.i T w₀ hT₀ hw₀

/-- Nobody else writes into a ring that its tenant has seen quiesce. -/
theorem Tidy.quiet_words (h : Tidy g proc s) (ha : s.alive proc t = true) (hop : (s.th t).request g = some op)
    {r : Nat} {T : ι} {w : Sub} (hT : s.ghost.tenant r = some T) (hw : s.th T = .sub w) (hq : w.pc.quiesced = true)
    (hne : T ≠ t) : (s.ran g t op c).wpos r = s.wpos r ∧
      ∀ i, (s.ran g t op c).mem (.metaWord r i) = s.mem (.metaWord r i) := by
  have hquiet : s.admissions r = 0 := by
    rw [← h.admission.count]
    exact h.admission.quiet r T hT (by rw [hw]; exact hq)
  refine ⟨Op.exec_frame _ _ _ _ fun ht => ?_, fun i => ?_⟩
  · obtain ⟨u, d, hu, hpc, hi, -⟩ := Local.writePos_cases hop ht
    have := (h.tenant_of_admitted hu (r := r) (by rw [hpc, ← hi]; rfl)).1
    omega
  · rcases meta_written (c := c) hop r i with e | ⟨u, d, pos, old, hu, hpc, rfl, -, -⟩ | ⟨u, pos, wp, word, hu, hpc, hr, -⟩
    · exact e
    · have := (h.tenant_of_admitted hu (r := d.i) (by rw [hpc]; rfl)).1
      omega
    · have hheld : (s.th t).held = some r := by simp [hu, Local.held, Sub.held, hpc, hr]
      exact absurd (Option.some.inj (hT.symm.trans (h.admission.attributed.tenancy.tenant_of_held ha hheld))) hne

theorem Tidy.window_run (h : Tidy g proc s) (hA' : Admission proc (s.ran g t op c)) (ha : s.alive proc t = true)
    (hop : (s.th t).request g = some op) {r : Nat} {T : ι} {w : Sub} {pos wp : Nat}
    (hT : (s.ran g t op c).ghost.tenant r = some T) (hw : (s.ran g t op c).th T = .sub w)
    (hpc : w.pc.window = some (pos, wp)) : wp = (s.ran g t op c).wpos r := by
  rcases h.sub_of_ran hA' ha hop hT hw with ⟨hT₀, w₀, hw₀, -, -, ⟨hne, rfl⟩ | ⟨rfl, rfl⟩⟩ | ⟨-, -, -, hnone⟩
  · rw [(h.quiet_words ha hop hT₀ hw₀ (SubPc.quiesced_of_window hpc) hne).1]
    exact h.swept.window r T w pos wp hT₀ hw₀ hpc
  · have hkeep : (s.ran g T op c).wpos r = s.wpos r := Op.exec_frame _ _ _ _ fun ht => by
      obtain ⟨u, d, hu, -⟩ := Local.writePos_cases hop ht
      cases hw₀.symm.trans hu
    rw [hkeep]
    rcases Sub.window_resume hpc with ⟨pos₀, hpc₀⟩ | ⟨hpc₀, e⟩
    · exact h.swept.window r T w₀ pos₀ wp hT₀ hw₀ hpc₀
    · have hheld := ((h.admission.attributed.tenancy.ring r).tenant T hT₀).1
      have hr : w₀.ringIdx = r := by simpa [hw₀, Local.held, Sub.held, hpc₀] using hheld
      rw [hw₀] at hop
      simp only [Local.request, Sub.request, hpc₀, Option.some.injEq] at hop
      subst hop
      rw [e, ← hr]
      rfl
  · rw [hnone] at hpc
    cases hpc

theorem Tidy.found_run (h : Tidy g proc s) (hA' : Admission proc (s.ran g t op c)) (ha : s.alive proc t = true)
    (hop : (s.th t).request g = some op) {r : Nat} {T : ι} {w : Sub} {pos wp word : Nat}
    (hT : (s.ran g t op c).ghost.tenant r = some T) (hw : (s.ran g t op c).th T = .sub w)
    (hpc : w.pc = .drainCas pos wp word) : (s.ran g t op c).mem (.metaWord r (g.entryIdx pos)) = word := by
  rcases h.sub_of_ran hA' ha hop hT hw with ⟨hT₀, w₀, hw₀, -, -, ⟨hne, rfl⟩ | ⟨rfl, rfl⟩⟩ | ⟨-, -, -, hnone⟩
  · rw [(h.quiet_words ha hop hT₀ hw₀ (by rw [hpc]; rfl) hne).2]
    exact h.swept.found r T w pos wp word hT₀ hw₀ hpc
  · obtain ⟨hpc₀, e⟩ := Sub.drainCas_resume hpc
    have hheld := ((h.admission.attributed.tenancy.ring r).tenant T hT₀).1
    have hr : w₀.ringIdx = r := by simpa [hw₀, Local.held, Sub.held, hpc₀] using hheld
    rw [hw₀] at hop
    simp only [Local.request, Sub.request, hpc₀, Option.some.injEq] at hop
    subst hop
    rw [← e, ← hr]
    rfl
  · rw [hpc] at hnone
    cases hnone

/-- An entry that names a slot names it for a position that the tenant's drain has not passed. -/
theorem Tidy.named_run (hg : g.Valid) (h : Tidy g proc s) (hA' : Admission proc (s.ran g t op c))
    (ha : s.alive proc t = true) (hop : (s.th t).request g = some op)
    (hle : ∀ r, s.wpos r ≤ (s.ran g t op c).wpos r) {r i : Nat}
    (hm : metaSlotBiased ((s.ran g t op c).mem (.metaWord r i)) ≠ 0) :
    ∃ T u p, (s.ran g t op c).ghost.tenant r = some T ∧ (s.ran g t op c).th T = .sub u ∧ u.Spares p ∧
      p < (s.ran g t op c).wpos r ∧ g.entryIdx p = i := by
  have hTen := h.admission.attributed.tenancy
  rcases meta_written (c := c) hop r i with e | ⟨u, d, pos, old, hu, hpc, rfl, rfl, -⟩ | ⟨u, pos, wp, word, -, -, -, e⟩
  · rw [e] at hm
    obtain ⟨T, u, p, hT, hu, hsp, hp, hi⟩ := h.swept.named r i hm
    rcases tenant_stays (c := c) hTen h.swept.prompt ha hop hT with hT' | ⟨rfl, u', hu', hpc'⟩
    swap
    · obtain rfl := Local.sub.inj (hu.symm.trans hu')
      simp [Sub.Spares, hpc'] at hsp
    by_cases hne : T = t
    swap
    · exact ⟨T, u, p, hT', by simpa [ran, Function.update_of_ne hne] using hu, hsp, hp.trans_le (hle r), hi⟩
    -- the tenant itself moves
    subst hne
    have hu' : (s.ran g T op c).th T = .sub (u.resume g (op.exec s.procs s.mem c).2) := by
      simp [ran, hu, Local.resume]
    have hheld := (hTen.ring r).tenant T hT |>.1
    rw [hu] at hheld
    have hne : u.held ≠ none := by
      rw [show u.held = some r from hheld]
      exact Option.some_ne_none r
    have hring : ∀ pos wp, u.pc.window = some (pos, wp) → u.ringIdx = r := by
      intro pos wp hw
      cases e : u.pc <;> rw [e] at hw <;> simp [SubPc.window] at hw <;>
        simpa [Local.held, Sub.held, e] using hheld
    have hlt : ∀ pos wp, u.pc.window = some (pos, wp) → p < wp := by
      intro pos wp hw
      rw [h.swept.window r T u pos wp hT hu hw]
      exact hp
    have hop' : u.request g = some op := by rwa [hu] at hop
    by_cases hd : u.pc = .drainPos
    · -- the window is laid out: take the position of the entry that is in it
      have hr : u.ringIdx = r := by simpa [Local.held, Sub.held, hd] using hheld
      have hval : (op.exec s.procs s.mem c).2.val = s.wpos r := by
        simp only [Sub.request, hd, Option.some.injEq] at hop'
        subst hop' hr
        rfl
      have hs : u.startPos ≤ p := by simpa [Sub.Spares, Sub.joinedAt, hd] using hsp
      obtain ⟨p', h1, h2, h3⟩ := Sub.exists_in_window (u := u) hg hs hp
      refine ⟨T, _, p', hT', hu', ?_, h2.trans_le (hle r), h3.trans hi⟩
      refine Sub.spares_resume (by simpa [Sub.Spares, Sub.joinedAt, hd] using (Sub.startPos_le_drainOldest ..).trans h1) hne
        (by simp [hd, SubPc.window]) (fun _ => ?_) (by simp [hd]) (by simp [hd])
      rw [hval]
      exact ⟨h1, h2⟩
    · refine ⟨T, _, p, hT', hu', ?_, hp.trans_le (hle r), hi⟩
      refine Sub.spares_resume hsp hne hlt (fun e => absurd e hd) (fun pos wp hpc hz => ?_) fun pos wp word hpc => ?_
      · -- the entry of the position names nothing
        rintro rfl
        have hr := hring p wp (by rw [hpc]; rfl)
        simp only [Sub.request, hpc, Option.some.injEq] at hop'
        subst hop' hr hi
        simp only [Op.exec] at hz
        have := (h.swept.valid u.ringIdx (g.entryIdx p)).2
        omega
      · rintro rfl
        have hr := hring p wp (by rw [hpc]; rfl)
        have hword := h.swept.found r T u p wp word hT hu hpc
        simp only [Sub.request, hpc, Option.some.injEq] at hop'
        subst hop' hr hi
        have hlt := (h.swept.valid u.ringIdx (g.entryIdx p)).1
        have hclear : metaClear word ≠ word := by
          intro e'
          rw [hword] at hm hlt
          rw [← e', metaSlotBiased_metaClear hlt] at hm
          exact hm rfl
        simp [ran, Op.exec, hword] at e
        exact hclear e
  · -- a publisher's claim, while the tenant has not seen the ring quiesce
    obtain ⟨-, T, w, hT, hw, hq⟩ := h.tenant_of_admitted hu (r := d.i) (by rw [hpc]; rfl)
    have hne : T ≠ t := by
      rintro rfl
      cases hw.symm.trans hu
    have hle' := h.swept.claimed t u d.i pos hu (by rw [hpc]; rfl) T w hT hw
    have hpl := h.seq.placed t
    rw [hu] at hpl
    have hlt := hpl.1 d.i pos (by rw [hpc]; rfl)
    rcases tenant_stays (c := c) hTen h.swept.prompt ha hop hT with hT' | ⟨rfl, -⟩
    · exact ⟨T, w, pos, hT', by simpa [ran, Function.update_of_ne hne] using hw, Sub.spares_of_joinedAt hq hle',
        hlt.trans_le (hle d.i), rfl⟩
    · exact absurd rfl hne
  · rw [e, metaSlotBiased_metaClear (h.swept.valid r i).1] at hm
    exact absurd rfl hm

theorem Tidy.run (hg : g.Valid) (h : Tidy g proc s) (hp : s.publishers < 2 ^ 30)
    (hs : s.next g proc (.run t c) = some s') (hr : s.inRange (.run t c) = true)
    (ho : s.orderly (.run t c) = true) (hL' : ∃ chain, Ledger g s' chain) : Tidy g proc s' := by
  have hA' := h.admission.run hp hs
  have hB' := behind_next hg h.seq h.behind hs hr
  have hS' := h.seq.next hs hr
  obtain ⟨ha, op, hop, rfl⟩ := ran_cases hs
  have hle : ∀ r, s.wpos r ≤ (s.ran g t op c).wpos r := wpos_run_le (by decide) hop hr
  refine ⟨hA', hS', hB', hL', fun r hT => h.vacant_run hA' hop hT,
    fun r i => ?_, fun r i hm => h.named_run hg hA' ha hop hle hm,
    fun v u r p hu hc T w hT hw => h.claimed_run hA' ha hop hu hc hT hw, fun r T w hT hw => ?_,
    fun r T w pos wp hT hw hpc => h.window_run hA' ha hop hT hw hpc,
    fun r T w pos wp word hT hw hpc => h.found_run hA' ha hop hT hw hpc, forall_update h.swept.prompt ?_⟩
  · obtain ⟨hlt, hval⟩ := h.swept.valid r i
    rcases meta_written (c := c) hop r i with e | ⟨u, d, pos, old, hu, hpc, -, -, e⟩ | ⟨-, -, -, -, -, -, -, e⟩
    · rw [e]
      exact ⟨hlt, hval⟩
    · have hok := h.ok t
      rw [hu] at hok
      have hslot := (hok.delivery_ok d (by rw [hpc]; rfl)).slot_lt
      rw [e, metaSlotBiased_metaPack (hg.slot_lt hslot)]
      exact ⟨metaPack_lt _ _, hslot⟩
    · rw [e, metaSlotBiased_metaClear hlt]
      exact ⟨metaClear_lt hlt, Nat.zero_le _⟩
  · rcases h.sub_of_ran hA' ha hop hT hw with ⟨hT₀, w₀, hw₀, e, -, -⟩ | ⟨-, -, hj, -⟩
    · exact e ▸ (h.swept.begun r T w₀ hT₀ hw₀).trans (hle r)
    · exact hj.trans (hle r)
  · have hpt := h.swept.prompt t
    cases hl : s.th t with
    | sub u =>
      rw [hl] at hpt hop
      refine Sub.prompt_resume hpt fun hpc => ?_
      simp only [orderly, hl, decide_eq_true_eq] at ho
      simp only [Local.request, Sub.request, hpc, Option.some.injEq] at hop
      subst hop
      exact ho hpc
    | reclaim u =>
      rw [hl] at hpt hop
      simp only [Local.Prompt] at hpt
      simp [Local.request, Reclaim.request, hpt] at hop
    | _ => trivial

omit [Fintype ι] in
/-- A step that is no access leaves a subscriber alike. -/
theorem alike_of_quiet {l : Label ι} (hs : s.next g proc l = some s') (hl : ∀ t c, l ≠ .run t c)
    (ho : s.orderly l = true) (v : ι) : (s.th v).Alike (s'.th v) := by
  cases l with
  | run t c => exact absurd rfl (hl t c)
  | call t c =>
    obtain ⟨-, l, hc, rfl⟩ := call_cases hs
    dsimp only
    by_cases e : v = t
    · subst e
      rw [Function.update_self]
      refine Local.alike_call hc ?_
      rintro rfl
      cases ho
    · exact Local.alike_of_eq (Function.update_of_ne e _ _)
  | destroy t w k =>
    obtain ⟨-, u, x, ht, hw, -, rfl⟩ := destroy_cases hs
    dsimp only
    by_cases e : v = w
    · subst e
      rw [Function.update_self, hw]
      exact .inr ⟨rfl, rfl, fun _ => trivial⟩
    · by_cases e' : v = t
      · subst e'
        rw [Function.update_of_ne e, Function.update_self, ht]
        exact .inl ⟨u, _, rfl, rfl, ⟨rfl, fun _ h => h, fun _ _ => rfl, fun h => h⟩⟩
      · refine Local.alike_of_eq ?_
        rw [Function.update_of_ne e, Function.update_of_ne e']
  | write t off byte =>
    obtain ⟨-, u, slot, -, -, -, -, rfl⟩ := write_cases hs
    exact Local.alike_of_eq rfl
  | exit pid =>
    obtain ⟨st, -, rfl⟩ := exit_cases hs
    exact Local.alike_of_eq rfl
  | spawn pid st =>
    obtain ⟨-, rfl⟩ := spawn_cases hs
    exact Local.alike_of_eq rfl

theorem Tidy.still (hg : g.Valid) (h : Tidy g proc s) {l : Label ι} (hs : s.next g proc l = some s')
    (hl : ∀ t c, l ≠ .run t c) (hr : s.inRange l = true) (ho : s.orderly l = true)
    (hL' : ∃ chain, Ledger g s' chain) : Tidy g proc s' := by
  have hm := mem_eq_of_next hs hl
  have hw : s'.wpos = s.wpos := by
    unfold wpos
    rw [hm]
  have hten := (world_of_next hs hl).1
  have hsolo : s.soloPass proc l := by
    rintro t rfl
    cases ho
  have hadm : ∀ r, s'.admissions r = s.admissions r := fun r =>
    sum_congr rfl fun v _ => (calm_of_next hs hl v).1 r
  have hback : ∀ v u', s'.th v = .sub u' → ∃ u, s.th v = .sub u ∧ Sub.Alike u u' := by
    intro v u' hu'
    rcases alike_of_quiet hs hl ho v with ⟨u, u₁, hu, hu₁, ha⟩ | ⟨-, hno, -⟩
    · obtain rfl := Local.sub.inj (hu₁.symm.trans hu')
      exact ⟨u, hu, ha⟩
    · rw [hu'] at hno
      cases hno
  have hS := h.swept
  refine ⟨h.admission.still hs hl hsolo, h.seq.next hs hr, behind_next hg h.seq h.behind hs hr, hL',
    fun r hT => ?_, fun r i => hm ▸ hS.valid r i, fun r i hn => ?_, fun v u r p hu hc T w hT hw' => ?_,
    fun r T w hT hw' => ?_, fun r T w pos wp hT hw' hpc => ?_, fun r T w pos wp word hT hw' hpc => ?_, fun v => ?_⟩
  · rw [hadm]
    exact hS.vacant r (hten ▸ hT)
  · rw [hm] at hn
    obtain ⟨T, u, p, hT, hu, hsp, hp, hi⟩ := hS.named r i hn
    rcases alike_of_quiet hs hl ho T with ⟨u₀, u', hu₀, hu', ha⟩ | ⟨hno, -, -⟩
    · obtain rfl := Local.sub.inj (hu₀.symm.trans hu)
      exact ⟨T, u', p, hten ▸ hT, hu', ha.spares p hsp, hw ▸ hp, hi⟩
    · rw [hu] at hno
      cases hno
  · obtain ⟨w₀, hw₀, ha⟩ := hback T w hw'
    rw [ha.joinedAt]
    exact hS.claimed v u r p (pub_of_quiet hs hl hu hc) hc T w₀ (hten ▸ hT) hw₀
  · obtain ⟨w₀, hw₀, ha⟩ := hback T w hw'
    rw [ha.joinedAt, hw]
    exact hS.begun r T w₀ (hten ▸ hT) hw₀
  · obtain ⟨w₀, hw₀, ha⟩ := hback T w hw'
    rw [hw]
    exact hS.window r T w₀ pos wp (hten ▸ hT) hw₀ (ha.window _ hpc ▸ hpc)
  · obtain ⟨w₀, hw₀, ha⟩ := hback T w hw'
    rw [hm]
    exact hS.found r T w₀ pos wp word (hten ▸ hT) hw₀ ((ha.window (pos, wp) (by rw [hpc]; rfl)).symm.trans hpc)
  · have hpv := hS.prompt v
    rcases alike_of_quiet hs hl ho v with ⟨u, u', hu, hu', ha⟩ | ⟨-, -, hp⟩
    · rw [hu] at hpv
      rw [hu']
      exact ha.prompt hpv
    · exact hp hpv

omit [DecidableEq ι] in
theorem tidy_init (hg : g.Valid) (h : Init g proc s) : Tidy g proc s := by
  have hz : ∀ r i, s.mem (.metaWord r i) = 0 := fun r i => by
    rw [h.mem, stampNewRegion_zero hg (by simp) (by simp)]
  have hR := h.th
  refine ⟨admission_init hg h, sequenced_init hg h, fun t => ?_, ⟨_, ledger_init hg h⟩, fun r _ => ?_,
    fun r i => ?_, fun r i hm => ?_, fun v u r p _ _ T w hT => ?_, fun r T w hT => ?_, fun r T w pos wp hT => ?_,
    fun r T w pos wp word hT => ?_, fun v => ?_⟩
  · have hf := hR t
    cases e : s.th t with
    | sub u =>
      rw [e] at hf
      simp [Local.Behind, Sub.Behind, hf.2.2.2]
    | _ => trivial
  · refine sum_eq_zero fun v _ => ?_
    have hf := hR v
    cases e : s.th v with
    | pub u =>
      rw [e] at hf
      simp [Local.admitted, hf.2.2, PubPc.admittedTo]
    | _ => rfl
  · rw [hz, metaSlotBiased_eq]
    exact ⟨by decide, Nat.zero_le _⟩
  · rw [hz, metaSlotBiased_eq] at hm
    exact absurd rfl hm
  all_goals try (rw [h.tenant] at hT; cases hT)
  have hf := hR v
  cases e : s.th v with
  | sub u =>
    rw [e] at hf
    simp [Local.Prompt, Sub.Prompt, hf.2.2.2]
  | reclaim u =>
    rw [e] at hf
    exact hf
  | _ => trivial

/-- The steps of a run that leaves nothing behind: orderly, within the bound of the free stack's tag and of
the positions, and without a pass over orphaned slots. -/
def tidying (s : Sys ι) (l : Label ι) : Bool := s.conserving l && s.inRange l && s.orderly l

theorem tidy_reach (hg : g.Valid) (h : (machine g proc).Reach (fun s l _ => s.tidying l = true) s)
    (hp : s.publishers < 2 ^ 30) : Tidy g proc s := by
  have key := h.invariant (I := fun s => s.publishers < 2 ^ 30 → Tidy g proc s)
    (fun _ h0 _ => tidy_init hg h0) fun s l s' hI hs ho hp => by
      have hp := publishers_next hs ▸ hp
      have hI := hI hp
      simp only [tidying, conserving, Bool.and_eq_true] at ho
      obtain ⟨⟨⟨hw, hn⟩, hr⟩, ho⟩ := ho
      obtain ⟨chain, hL⟩ := hI.ledger
      by_cases hl : ∃ t c, l = .run t c
      · obtain ⟨t, c, rfl⟩ := hl
        exact hI.run hg hp hs hr ho (hL.next hg hs hw hn)
      · exact hI.still hg hs (fun t c e => hl ⟨t, c, e⟩) hr ho (hL.next hg hs hw hn)
  exact key hp

end Steps

end Sys

/-- A publisher without a reservation, a subscriber without a ring and without views, and so on: nobody has
anything of the region in hand. -/
def Local.AtRest : Local → Prop
  | .pub u => u.pc = .idle ∧ u.pending = none
  | .sub u => u.pc = .out ∧ u.views = []
  | .view pc => pc = .idle
  | _ => True

instance (l : Local) : Decidable l.AtRest :=
  match l with
  | .pub u => inferInstanceAs (Decidable (u.pc = .idle ∧ u.pending = none))
  | .sub u => inferInstanceAs (Decidable (u.pc = .out ∧ u.views = []))
  | .view pc => inferInstanceAs (Decidable (pc = .idle))
  | .repair _ | .reclaim _ | .orphan _ => inferInstanceAs (Decidable True)

theorem Local.acct_of_atRest {g : Geometry} {l : Local} (h : l.AtRest) :
    (l.acct g).excl = 0 ∧ (l.acct g).holds = 0 := by
  cases l with
  | pub u =>
    simp [Local.acct, Pub.acct, Pub.excl, Pub.reserved, Pub.share, Pub.owed, h.1, h.2, PubPc.delivery]
  | sub u =>
    rw [Local.acct, Sub.acct_of_plain (by rw [h.1]; rfl), h.2]
    exact ⟨rfl, rfl⟩
  | view pc =>
    rw [show pc = .idle from h]
    exact ⟨rfl, rfl⟩
  | _ => exact ⟨rfl, rfl⟩

namespace Sys

variable {ι : Type} [Fintype ι] [DecidableEq ι] {g : Geometry} {proc : ι → Nat × Nat} {s : Sys ι}

/-- Whatever was published, evicted, stolen and churned: a ring that is `Free` names no slot; and once nobody
has anything in hand, no entry names a slot, no slot is referenced, and the free stack is all of the pool. -/
theorem teardown_clean (hg : g.Valid) (h : (machine g proc).Reach (fun s l _ => s.tidying l = true) s)
    (hp : s.publishers < 2 ^ 30) :
    (∀ r, s.ringState r = .free → ∀ i, metaSlotBiased (s.mem (.metaWord r i)) = 0) ∧
    ((∀ t, (s.th t).AtRest) →
      (∀ r i, metaSlotBiased (s.mem (.metaWord r i)) = 0) ∧
      (∀ x < g.poolSize, s.mem (.refcount x) = 0) ∧
      ∃ chain, Linked (fun x => s.mem (.nextFree x)) invalidSlot (taggedIdx (s.mem .freeTop)) chain ∧
        chain.Perm (List.range g.poolSize)) := by
  have hI := tidy_reach hg h hp
  have hTen := hI.admission.attributed.tenancy
  have hempty : ∀ r, s.ghost.tenant r = none → ∀ i, metaSlotBiased (s.mem (.metaWord r i)) = 0 := by
    intro r hn i
    by_contra hm
    obtain ⟨T, -, -, hT, -⟩ := hI.swept.named r i hm
    cases hn.symm.trans hT
  refine ⟨fun r hf => hempty r ((hTen.ring r).free_iff.mpr hf), fun hrest => ?_⟩
  have hnone : ∀ r, s.ghost.tenant r = none := by
    intro r
    cases hT : s.ghost.tenant r with
    | none => rfl
    | some T =>
      have hheld := ((hTen.ring r).tenant T hT).1
      have hr := hrest T
      cases hl : s.th T with
      | sub u =>
        rw [hl] at hheld hr
        simp [Local.held, Sub.held, hr.1] at hheld
      | _ =>
        rw [hl] at hheld
        cases hheld
  have hclear : ∀ r i, metaSlotBiased (s.mem (.metaWord r i)) = 0 := fun r => hempty r (hnone r)
  obtain ⟨chain, hL⟩ := hI.ledger
  have hrc : ∀ x < g.poolSize, s.mem (.refcount x) = 0 := by
    intro x hx
    have hnames : names g s.mem x = 0 := by
      simp [names, hclear]
    have hholds : ∑ t, (s.accts g t).holds x = 0 :=
      sum_eq_zero fun t _ => congrFun (Local.acct_of_atRest (hrest t)).2 x
    rw [hL.exact.refs x hx, hnames, hholds]
  refine ⟨hclear, hrc, chain, hL.safe.linked, ?_⟩
  have hcount : ∀ x < g.poolSize, chain.count x = 1 := by
    intro x hx
    have hexcl : ∑ t, (s.accts g t).excl x = 0 :=
      sum_eq_zero fun t _ => congrFun (Local.acct_of_atRest (hrest t)).1 x
    have := hL.exact.once x hx
    rwa [hexcl, inUse, if_pos (hrc x hx)] at this
  refine (List.perm_ext_iff_of_nodup (List.nodup_iff_count_le_one.mpr fun x => ?_) List.nodup_range).mpr fun x => ?_
  · by_cases hx : x < g.poolSize
    · exact (hcount x hx).le
    · rw [List.count_eq_zero_of_not_mem fun hmem => hx (hL.safe.lt x hmem)]
      exact Nat.zero_le 1
  · rw [List.mem_range]
    exact ⟨hL.safe.lt x, fun hx => List.count_pos_iff.mp (by rw [hcount x hx]; exact Nat.one_pos)⟩

/-- A message is published to a subscriber that leaves without having received it. -/
theorem teardown_clean_crew : ∃ s : Sys (Fin 9),
    (machine smallGeometry crewProc).Reach (fun s l _ => s.tidying l = true) s ∧ s.publishers < 2 ^ 30 ∧
      (∀ t, (s.th t).AtRest) ∧ s.mem (.writePos 0) = 1 ∧
      ∃ chain, Linked (fun x => s.mem (.nextFree x)) invalidSlot (taggedIdx (s.mem .freeTop)) chain ∧
        chain.Perm (List.range smallGeometry.poolSize) := by
  have h0 : (machine smallGeometry crewProc).Reach (fun s l _ => s.tidying l = true) (crew smallGeometry) :=
    .init (init_crew smallGeometry)
  obtain ⟨s, hs, hP⟩ := h0.play_any
    (.call 3 (.join false) :: runs 3 5 ++ .call 0 .allocate :: runs 0 3 ++ .call 0 (.publish 1) :: runs 0 12 ++
      .call 3 .releaseRing :: runs 3 14)
    (fun s => decide (s.publishers < 2 ^ 30) && decide (∀ t, (s.th t).AtRest) && decide (s.mem (.writePos 0) = 1))
    (by decide +kernel)
  simp only [Bool.and_eq_true, decide_eq_true_eq] at hP
  obtain ⟨⟨hp, hrest⟩, hw⟩ := hP
  exact ⟨s, hs, hp, hrest, hw, ((teardown_clean valid_smallGeometry hs hp).2 hrest).2.2⟩

end Sys

end Kickmsg
