import Kickmsg.Delivery

/-!
# No lost wake-up on the blocking receive

A subscriber that finds its ring empty stores `WaiterFutex`, and goes to sleep if `write_pos` is still
what it loaded; a publisher claims a position first and looks at `has_waiter` last, on the commit path and
on every abandoned delivery. Whenever the subscriber sleeps on a stale value, a publisher that claimed a
position since then is on its way to wake it.

The sleep is `SubPc.parked`: it lasts while no `futex_wake_all` has been called on the ring since it began.
-/

namespace Kickmsg

open Lib

/-- The ring of a delivery that has claimed its position and not completed its `wake_ring`. -/
def PubPc.visiting : PubPc → Option Nat
  | .abandonLeave d _ | .abandonWake d _ | .abandonFutex d _ => some d.i
  | pc => pc.owes

theorem PubPc.visiting_of_owes {pc : PubPc} {i : Nat} (h : pc.owes = some i) :
    pc.visiting = some i := by
  cases pc <;> simp_all [PubPc.owes, PubPc.visiting]

namespace Pub

variable {g : Geometry} {u : Pub} {op : Op} {a : Resp} {i : Nat}

theorem owes_resume (hp : u.pc.publishing = true) : (u.resume g a).pc.owes = u.owesAfter a := by
  have hcount : ∃ c, u.pc.Counted c := by
    cases hpc : u.pc
    case idle | releasePending | allocate | storeLen | presetRefcount => exact ⟨[], rfl⟩
    all_goals exact ⟨List.replicate _ 0, (List.length_replicate ..).symm⟩
  obtain ⟨c, hc⟩ := hcount
  exact (ends_resume hp hc).owes

/-- A claim starts a delivery. -/
theorem visiting_claim {d : Delivery} (hpc : u.pc = .claim d) :
    (u.resume g a).pc.visiting = some d.i := by
  apply PubPc.visiting_of_owes
  rw [owes_resume (by rw [hpc]; rfl)]
  simp only [owesAfter, hpc]

/-- A delivery goes on to its `wake_ring`, which ends with a call into the kernel unless it finds no
futex waiter. -/
theorem visiting_resume (hop : u.request g = some op) (hv : u.pc.visiting = some i) :
    (u.resume g a).pc.visiting = some i ∨ op = .futexWake i ∨
      (op = .load (.hasWaiter i) ∧ a.val ≠ waiterFutex) := by
  cases hpc : u.pc <;> rw [hpc] at hv <;>
    simp only [PubPc.visiting, PubPc.owes, Option.some.injEq, reduceCtorEq] at hv <;> subst hv
  case abandonDrop | abandonLeave =>
    left
    simp only [resume, hpc]
    rfl
  case abandonWake d exc =>
    by_cases ha : a.val = waiterFutex
    · left
      simp only [resume, hpc, ha, if_true]
      rfl
    · exact .inr (.inr ⟨by simpa [request, hpc] using hop.symm, ha⟩)
  case wake d =>
    by_cases ha : a.val = waiterFutex
    · left
      simp only [resume, hpc, ha, if_true]
      rfl
    · exact .inr (.inr ⟨by simpa [request, hpc] using hop.symm, ha⟩)
  case abandonFutex | wakeFutex => exact .inr (.inl (by simpa [request, hpc] using hop.symm))
  all_goals
    left
    apply PubPc.visiting_of_owes
    rw [owes_resume (by rw [hpc]; rfl)]
    simp only [owesAfter, hpc, PubPc.owes]

end Pub

/-- The subscriber is on its way to sleep, or asleep. -/
def SubPc.parking : SubPc → Bool
  | .parkSet _ | .parkWait _ | .parked _ _ => true
  | _ => false

/-- A park starts with the load of `write_pos`. -/
theorem Sub.parking_resume {g : Geometry} {u : Sub} {r : Resp} (hp : u.pc.parking = false)
    (hpos : u.pc ≠ .parkPos) : (u.resume g r).pc.parking = false := by
  have hnone : ∀ v : Sub, v.recvNone.pc.parking = false := fun v => by
    unfold Sub.recvNone
    split_ifs <;> rfl
  have hloop : ∀ (v : Sub) k, (v.recvLoop k).pc.parking = false := fun v k => by
    unfold Sub.recvLoop
    split_ifs
    · rfl
    · exact hnone v
  have harm : ∀ cur w, (u.armWith cur w).pc.parking = false := fun cur w => by
    unfold Sub.armWith
    split_ifs <;> rfl
  have hdrain : ∀ pos wp, (u.drainLoop pos wp).pc.parking = false := fun pos wp => by
    unfold Sub.drainLoop
    split_ifs <;> rfl
  have hpin : ∀ k seq slot rc, (u.tryPin k seq slot rc).pc.parking = false := fun k seq slot rc => by
    unfold Sub.tryPin
    split_ifs <;> rfl
  unfold Sub.resume
  cases hpc : u.pc <;> rw [hpc] at hp <;> simp only [SubPc.parking, Bool.true_eq_false] at hp <;>
    dsimp only
  case parkPos => exact absurd hpc hpos
  case out | live => rw [hpc]; rfl
  case joinCas =>
    unfold Sub.tryJoin
    split_ifs <;> rfl
  case recvPos =>
    split_ifs
    · exact hnone u
    · rfl
    · rfl
  case recvSeq =>
    unfold Sub.recvWith
    split_ifs
    all_goals first
      | exact hnone u
      | rfl
  case recvLost | parkClear => exact hloop _ _
  case recvMeta =>
    unfold Sub.recvClaim
    split_ifs <;> rfl
  case recvRc => exact hpin _ _ _ _
  case recvPin =>
    split_ifs
    · rfl
    · exact hpin _ _ _ _
  case recvLen =>
    unfold Sub.sample
    split_ifs <;> rfl
  case recvUnpinPush k slot p | copyPush v p => cases p.resume r <;> rfl
  case armHead cur =>
    cases u.headPos g r.val
    · rfl
    · exact harm _ _
  case armHead2 => cases u.headPos g r.val <;> rfl
  case armSeq => exact harm _ _
  case drainPos | drainMeta | drainCas | drainSub =>
    split_ifs
    all_goals first
      | rfl
      | exact hdrain _ _
  case drainPush pos wp slot p =>
    cases p.resume r
    · exact hdrain _ _
    · rfl
  all_goals
    try split_ifs
    all_goals rfl

/-- No call starts with a park. -/
theorem Local.parking_call {g : Geometry} {l : Local} {c : Call} {u : Sub}
    (h : l.call g c = some (.sub u)) : u.pc.parking = false := by
  rcases Local.call_pass h with ⟨v, rfl⟩ | ⟨v, rfl⟩ | ⟨v, -, -, hv⟩ | ⟨v, -, -, -, hv⟩ | ⟨v, -, -, -, hv⟩
  · obtain ⟨-, v', hv', -⟩ := Local.call_pub h
    cases hv'
  · obtain ⟨v', hv', hcase⟩ := Local.call_sub h
    obtain rfl : u = v' := by simpa using hv'
    rcases hcase with ⟨-, waker, rfl⟩ | ⟨-, ⟨copy, blocking, rfl⟩ | rfl | rfl | rfl⟩
    · unfold Sub.join Sub.tryJoin
      split_ifs <;> rfl
    all_goals rfl
  all_goals cases hv

namespace Sys

variable {ι : Type}

/-- Subscriber `t` of ring `r` sleeps in `futex_wait` on the value `cur`. -/
def asleep (s : Sys ι) (t : ι) (r cur : Nat) : Prop :=
  ∃ u wakes, s.th t = .sub u ∧ u.ringIdx = r ∧ u.pc = .parked cur wakes ∧
    s.mem (.futexWakes r) = wakes

/-- The ring of a subscriber. -/
def ringOf (s : Sys ι) (t : ι) : Option Nat :=
  match s.th t with
  | .sub u => some u.ringIdx
  | _ => none

/-- Bookkeeping about one subscriber: the positions claimed on its ring since it loaded the `write_pos`
it would sleep on, and who has claimed one since it fell asleep. -/
structure Watch (ι : Type) where
  claims : Nat
  since : ι → Bool

variable [DecidableEq ι]

def watch (t : ι) (s : Sys ι) (w : Watch ι) : Label ι → Watch ι
  | .run v _ =>
    match s.th v with
    | .pub u =>
      match u.pc with
      | .claim d =>
        if s.ringOf t = some d.i then ⟨w.claims + 1, Function.update w.since v true⟩ else w
      | _ => w
    | .sub u =>
      if v = t then
        match u.pc with
        | .parkPos => { w with claims := 0 }
        | .parkWait _ => { w with since := fun _ => false }
        | _ => w
      else w
    | _ => w
  | _ => w

/-- The system, watched beside subscriber `t`. -/
def watched (g : Geometry) (proc : ι → Nat × Nat) (t : ι) : LTS (Sys ι × Watch ι) (Label ι) :=
  .ofNext (fun x => Init g proc x.1 ∧ ∀ p, x.2.since p = false)
    fun x l => (x.1.next g proc l).map fun s' => (s', watch t x.1 x.2 l)

/-- An access beside subscriber `t`: nobody else writes the `has_waiter` word of its ring, and fewer than
`2^32` positions are claimed during one park. -/
def apart (g : Geometry) (t : ι) (x : Sys ι × Watch ι) (v : ι) : Bool :=
  match x.1.th t with
  | .sub u =>
    (decide (v = t) || decide (((x.1.th v).request g).bind Op.target ≠ some (.hasWaiter u.ringIdx))) &&
      match x.1.th v with
      | .pub p =>
        match p.pc with
        | .claim d => decide (d.i = u.ringIdx → u.pc.parking = true → x.2.claims + 1 < 2 ^ 32)
        | _ => true
      | _ => true
  | _ => true

/-- What the claim assumes of a step. Publishers do not crash. -/
def beside (g : Geometry) (proc : ι → Nat × Nat) (t : ι) (x : Sys ι × Watch ι) :
    Label ι → Prop
  | .run v _ => apart g t x v = true
  | .exit pid => ∀ p u, x.1.th p = .pub u → (proc p).1 ≠ pid
  | _ => True

/-- What holds beside subscriber `t`. -/
structure Watched (proc : ι → Nat × Nat) (t : ι) (x : Sys ι × Watch ι) : Prop where
  wpos_lt : ∀ r, x.1.mem (.writePos r) < 2 ^ 64
  since : ∀ p, x.2.since p = true → x.1.alive proc p = true ∧ ∃ u, x.1.th p = .pub u
  count : ∀ u cur, x.1.th t = .sub u → u.pc = .parkSet cur ∨ u.pc = .parkWait cur →
    x.1.mem (.writePos u.ringIdx) = (cur + x.2.claims) % 2 ^ 64 ∧ x.2.claims < 2 ^ 32 ∧ cur < 2 ^ 64
  flag : ∀ u cur, x.1.th t = .sub u → u.pc = .parkWait cur ∨ (∃ wakes, u.pc = .parked cur wakes) →
    x.1.mem (.hasWaiter u.ringIdx) = waiterFutex
  wakes : ∀ u cur wakes, x.1.th t = .sub u → u.pc = .parked cur wakes →
    wakes ≤ x.1.mem (.futexWakes u.ringIdx)
  /-- a sleeper on a stale value has somebody on the way -/
  nap : ∀ r cur, x.1.asleep t r cur → x.1.mem (.writePos r) ≠ cur →
    ∃ p u, x.2.since p = true ∧ x.1.th p = .pub u ∧ u.pc.visiting = some r

variable {g : Geometry} {proc : ι → Nat × Nat} {t : ι} {x : Sys ι × Watch ι}

omit [DecidableEq ι] in
theorem watched_init (hg : g.Valid) (h : Init g proc x.1 ∧ ∀ p, x.2.since p = false) :
    Watched proc t x := by
  obtain ⟨h0, hs⟩ := h
  have hout : ∀ u, x.1.th t = .sub u → u.pc = .out := fun u hu => by
    have := h0.th t
    rw [hu] at this
    exact this.2.2.2
  refine ⟨fun r => ?_, fun p hp => ?_, fun u cur hu hpc => ?_, fun u cur hu hpc => ?_,
    fun u cur wakes hu hpc => ?_, fun r cur hsl => ?_⟩
  · rw [h0.mem, stampNewRegion_zero hg (by simp) (by simp)]
    decide
  · simp [hs p] at hp
  · simp [hout u hu] at hpc
  · simp [hout u hu] at hpc
  · simp [hout u hu] at hpc
  · obtain ⟨u, wakes, hu, -, hpc, -⟩ := hsl
    simp [hout u hu] at hpc

omit [DecidableEq ι] in
/-- A step that touches no word: the park goes on as it was, and so do the deliveries. -/
theorem Watched.quiet (h : Watched proc t x) {s' : Sys ι} (hmem : s'.mem = x.1.mem)
    (halive : ∀ p, x.2.since p = true → s'.alive proc p = true)
    (hpub : ∀ p u, x.1.th p = .pub u → ∃ u', s'.th p = .pub u' ∧
      ∀ i, u.pc.visiting = some i → u'.pc.visiting = some i)
    (hsub : ∀ u', s'.th t = .sub u' → u'.pc.parking = true →
      ∃ u, x.1.th t = .sub u ∧ u'.pc = u.pc ∧ u'.ringIdx = u.ringIdx) :
    Watched proc t (s', x.2) where
  wpos_lt r := by
    simp only [hmem]
    exact h.wpos_lt r
  since p hp := by
    obtain ⟨-, u, hu⟩ := h.since p hp
    obtain ⟨u', hu', -⟩ := hpub p u hu
    exact ⟨halive p hp, u', hu'⟩
  count u' cur hu' hpc := by
    obtain ⟨u, hu, hpc', hring⟩ := hsub u' hu' (by rcases hpc with h | h <;> rw [h] <;> rfl)
    simp only [hmem, hring]
    exact h.count u cur hu (hpc' ▸ hpc)
  flag u' cur hu' hpc := by
    obtain ⟨u, hu, hpc', hring⟩ := hsub u' hu' (by rcases hpc with h | ⟨_, h⟩ <;> rw [h] <;> rfl)
    simp only [hmem, hring]
    exact h.flag u cur hu (hpc' ▸ hpc)
  wakes u' cur wakes hu' hpc := by
    obtain ⟨u, hu, hpc', hring⟩ := hsub u' hu' (by rw [hpc]; rfl)
    simp only [hmem, hring]
    exact h.wakes u cur wakes hu (hpc' ▸ hpc)
  nap r cur hsl hne := by
    obtain ⟨u', wakes, hu', hr, hpc, hw⟩ := hsl
    obtain ⟨u, hu, hpc', hring⟩ := hsub u' hu' (by rw [hpc]; rfl)
    simp only [hmem] at hne hw
    obtain ⟨p, v, hp, hv, hvis⟩ := h.nap r cur ⟨u, wakes, hu, hring ▸ hr, hpc' ▸ hpc, hw⟩ hne
    obtain ⟨v', hv', hvis'⟩ := hpub p v hv
    exact ⟨p, v', hp, hv', hvis' r hvis⟩

omit [DecidableEq ι] in
/-- Nothing is to be said of a subscriber that does not park. -/
theorem watched_of_awake {s' : Sys ι} {w : Watch ι} (hwp : ∀ r, s'.mem (.writePos r) < 2 ^ 64)
    (hsince : ∀ p, w.since p = true → s'.alive proc p = true ∧ ∃ u, s'.th p = .pub u)
    (hawake : ∀ u, s'.th t = .sub u → u.pc.parking = false) : Watched proc t (s', w) := by
  refine ⟨hwp, hsince, fun u cur hu hpc => ?_, fun u cur hu hpc => ?_, fun u cur wakes hu hpc => ?_,
    fun r cur hsl => ?_⟩
  · have := hawake u hu
    rcases hpc with hpc | hpc <;> simp [hpc, SubPc.parking] at this
  · have := hawake u hu
    rcases hpc with hpc | ⟨wakes, hpc⟩ <;> simp [hpc, SubPc.parking] at this
  · have := hawake u hu
    simp [hpc, SubPc.parking] at this
  · obtain ⟨u, wakes, hu, -, hpc, -⟩ := hsl
    have := hawake u hu
    simp [hpc, SubPc.parking] at this

/-- The subscriber's own access. -/
theorem Watched.run_self (h : Watched proc t x) {u : Sub} (hu : x.1.th t = .sub u) {op : Op} {c : Bool}
    (hop : u.request g = some op) :
    Watched proc t (x.1.ran g t op c, watch t x.1 x.2 (.run t c)) := by
  have hth : (x.1.ran g t op c).th t = .sub (u.resume g (op.exec x.1.procs x.1.mem c).2) := by
    simp [ran, hu, Local.resume]
  have hother : ∀ p v, x.1.th p = .pub v → (x.1.ran g t op c).th p = .pub v := by
    intro p v hp
    have hne : p ≠ t := by
      rintro rfl
      rw [hu] at hp
      cases hp
    simp only [ran, Function.update_of_ne hne, hp]
  have hwp : ∀ r, (x.1.ran g t op c).mem (.writePos r) = x.1.mem (.writePos r) := by
    intro r
    refine Op.exec_frame _ _ _ _ fun ht => ?_
    obtain ⟨v, d, hv, -⟩ := Local.writePos_cases (l := .sub u) hop ht
    cases hv
  have hfw : ∀ r, (x.1.ran g t op c).mem (.futexWakes r) = x.1.mem (.futexWakes r) := by
    intro r
    refine Op.exec_frame _ _ _ _ fun ht => ?_
    obtain ⟨v, d, hv, -⟩ := Local.counter_cases (l := .sub u) hop ht (.inr rfl)
    cases hv
  have hlt : ∀ r, (x.1.ran g t op c).mem (.writePos r) < 2 ^ 64 := fun r => by
    rw [hwp r]
    exact h.wpos_lt r
  have hsince : ∀ p, x.2.since p = true →
      (x.1.ran g t op c).alive proc p = true ∧ ∃ v, (x.1.ran g t op c).th p = .pub v := by
    intro p hp
    obtain ⟨ha, v, hv⟩ := h.since p hp
    exact ⟨ha, v, hother p v hv⟩
  -- the subscriber after the access, if it is `v`
  have hself : ∀ {v v' : Sub}, u.resume g (op.exec x.1.procs x.1.mem c).2 = v →
      (x.1.ran g t op c).th t = .sub v' → v' = v := by
    intro v v' hv hv'
    rw [hth, hv] at hv'
    exact (Local.sub.inj hv').symm
  cases hpc : u.pc
  case parkPos =>
    simp only [Sub.request, hpc, Option.some.injEq] at hop
    subst hop
    have hw : watch t x.1 x.2 (.run t c) = { x.2 with claims := 0 } := by simp [watch, hu, hpc]
    rw [hw]
    by_cases hle : x.1.mem (.writePos u.ringIdx) ≤ u.readPos
    · have hres : u.resume g ((Op.load (.writePos u.ringIdx)).exec x.1.procs x.1.mem c).2 =
          { u with pc := .parkSet (x.1.mem (.writePos u.ringIdx)) } := by
        simp [Sub.resume, hpc, Op.exec, hle]
      refine ⟨hlt, hsince, fun v cur hv hpc' => ?_, fun v cur hv hpc' => ?_,
        fun v cur wakes hv hpc' => ?_, fun r cur hsl => ?_⟩
      · obtain rfl := hself hres hv
        obtain rfl : x.1.mem (.writePos u.ringIdx) = cur := by simpa using hpc'
        refine ⟨?_, by simp, h.wpos_lt _⟩
        rw [Nat.add_zero, Nat.mod_eq_of_lt (h.wpos_lt _)]
        exact hwp _
      · obtain rfl := hself hres hv
        simp at hpc'
      · obtain rfl := hself hres hv
        simp at hpc'
      · obtain ⟨v, wakes, hv, -, hpc', -⟩ := hsl
        obtain rfl := hself hres hv
        simp at hpc'
    · refine watched_of_awake hlt hsince fun v hv => ?_
      have hres : u.resume g ((Op.load (.writePos u.ringIdx)).exec x.1.procs x.1.mem c).2 =
          u.recvLoop 0 := by
        simp [Sub.resume, hpc, Op.exec, hle]
      obtain rfl := hself hres hv
      simp [Sub.recvLoop, SubPc.parking]
  case parkSet cur =>
    simp only [Sub.request, hpc, Option.some.injEq] at hop
    subst hop
    have hw : watch t x.1 x.2 (.run t c) = x.2 := by simp [watch, hu, hpc]
    rw [hw]
    have hres : u.resume g ((Op.store (.hasWaiter u.ringIdx) waiterFutex).exec x.1.procs x.1.mem c).2 =
        { u with pc := .parkWait cur } := by
      simp [Sub.resume, hpc]
    refine ⟨hlt, hsince, fun v cur' hv hpc' => ?_, fun v cur' hv hpc' => ?_,
      fun v cur' wakes hv hpc' => ?_, fun r cur' hsl => ?_⟩
    · obtain rfl := hself hres hv
      obtain rfl : cur = cur' := by simpa using hpc'
      rw [hwp]
      exact h.count u cur hu (.inl hpc)
    · obtain rfl := hself hres hv
      simp [ran, Op.exec]
    · obtain rfl := hself hres hv
      simp at hpc'
    · obtain ⟨v, wakes, hv, -, hpc', -⟩ := hsl
      obtain rfl := hself hres hv
      simp at hpc'
  case parkWait cur =>
    simp only [Sub.request, hpc, Option.some.injEq] at hop
    subst hop
    have hw : watch t x.1 x.2 (.run t c) = { x.2 with since := fun _ => false } := by
      simp [watch, hu, hpc]
    rw [hw]
    have hnobody : ∀ p, (fun _ => false : ι → Bool) p = true →
        (x.1.ran g t (.futexWait u.ringIdx cur) c).alive proc p = true ∧
          ∃ v, (x.1.ran g t (.futexWait u.ringIdx cur) c).th p = .pub v := by simp
    obtain ⟨hcount, hfew, hcur⟩ := h.count u cur hu (.inr hpc)
    by_cases hsame : u32 (x.1.mem (.writePos u.ringIdx)) = u32 cur
    · have hres : u.resume g ((Op.futexWait u.ringIdx cur).exec x.1.procs x.1.mem c).2 =
          { u with pc := .parked cur (x.1.mem (.futexWakes u.ringIdx)) } := by
        simp [Sub.resume, hpc, Op.exec, hsame]
      refine ⟨hlt, hnobody, fun v cur' hv hpc' => ?_, fun v cur' hv hpc' => ?_,
        fun v cur' wakes hv hpc' => ?_, fun r cur' hsl hne => ?_⟩
      · obtain rfl := hself hres hv
        simp at hpc'
      · obtain rfl := hself hres hv
        exact h.flag u cur hu (.inl hpc)
      · obtain rfl := hself hres hv
        simp only [SubPc.parked.injEq] at hpc'
        rw [hfw, ← hpc'.2]
      · -- the compared words agree and fewer than 2^32 positions were claimed: none was
        obtain ⟨v, wakes, hv, rfl, hpc', -⟩ := hsl
        obtain rfl := hself hres hv
        obtain ⟨rfl, -⟩ : cur = cur' ∧ _ := by simpa using hpc'
        refine absurd ?_ hne
        rw [hwp]
        unfold u32 at hsame
        simp only at *
        omega
    · refine watched_of_awake hlt hnobody fun v hv => ?_
      have hres : u.resume g ((Op.futexWait u.ringIdx cur).exec x.1.procs x.1.mem c).2 =
          { u with pc := .parkClear } := by
        simp [Sub.resume, hpc, Op.exec, hsame]
      obtain rfl := hself hres hv
      rfl
  case parked cur wakes =>
    simp only [Sub.request, hpc, Option.some.injEq] at hop
    subst hop
    have hw : watch t x.1 x.2 (.run t c) = x.2 := by simp [watch, hu, hpc]
    rw [hw]
    by_cases hup : x.1.mem (.futexWakes u.ringIdx) ≠ wakes ∨ c = true
    · refine watched_of_awake hlt hsince fun v hv => ?_
      have hres : u.resume g ((Op.load (.futexWakes u.ringIdx)).exec x.1.procs x.1.mem c).2 =
          { u with pc := .parkClear } := by
        simp only [Sub.resume, hpc, Op.exec]
        exact if_pos hup
      obtain rfl := hself hres hv
      rfl
    · have hres : u.resume g ((Op.load (.futexWakes u.ringIdx)).exec x.1.procs x.1.mem c).2 = u := by
        simp only [Sub.resume, hpc, Op.exec]
        exact if_neg hup
      refine h.quiet rfl (fun p hp => (hsince p hp).1) (fun p v hv => ⟨v, hother p v hv, fun _ => id⟩)
        fun v hv _ => ?_
      obtain rfl := hself hres hv
      exact ⟨v, hu, rfl, rfl⟩
  all_goals
    have hw : watch t x.1 x.2 (.run t c) = x.2 := by simp [watch, hu, hpc]
    rw [hw]
    refine watched_of_awake hlt hsince fun v hv => ?_
    obtain rfl := hself rfl hv
    exact Sub.parking_resume (by rw [hpc]; rfl) (by simp [hpc])

theorem ran_pub {s : Sys ι} {p v : ι} {w : Pub} (hp : s.th p = .pub w) (op : Op) (c : Bool) :
    ∃ w', (s.ran g v op c).th p = .pub w' := by
  by_cases hpv : p = v
  · subst hpv
    exact ⟨w.resume g (op.exec s.procs s.mem c).2, by simp [ran, hp, Local.resume]⟩
  · exact ⟨w, by simp [ran, Function.update_of_ne hpv, hp]⟩

theorem ran_wpos_lt {s : Sys ι} {v : ι} {op : Op} {c : Bool} (hop : (s.th v).request g = some op)
    (h : ∀ r, s.mem (.writePos r) < 2 ^ 64) (r : Nat) :
    (s.ran g v op c).mem (.writePos r) < 2 ^ 64 := by
  by_cases ht : op.target = some (.writePos r)
  · obtain ⟨u, d, -, -, -, rfl⟩ := Local.writePos_cases hop ht
    simp only [ran, Op.exec, Function.update_self]
    exact Nat.mod_lt _ (Nat.two_pow_pos 64)
  · simp only [ran]
    rw [Op.exec_frame _ _ _ _ ht]
    exact h r

/-- An access of another actor. -/
theorem Watched.run_other (h : Watched proc t x) {v : ι} (hvt : v ≠ t) {op : Op} {c : Bool}
    (ha : x.1.alive proc v = true) (hop : (x.1.th v).request g = some op)
    (hap : apart g t x v = true) : Watched proc t (x.1.ran g v op c, watch t x.1 x.2 (.run v c)) := by
  have hth : (x.1.ran g v op c).th t = x.1.th t := by
    simp [ran, Function.update_of_ne (Ne.symm hvt)]
  have hflag : ∀ u, x.1.th t = .sub u →
      (x.1.ran g v op c).mem (.hasWaiter u.ringIdx) = x.1.mem (.hasWaiter u.ringIdx) := by
    intro u hu
    refine Op.exec_frame _ _ _ _ ?_
    simp only [apart, hu, hop, Option.bind_some, Bool.and_eq_true, Bool.or_eq_true,
      decide_eq_true_eq] at hap
    exact hap.1.resolve_left hvt
  -- the wakes of a ring only grow
  have hwakes : ∀ r, (op = .futexWake r ∧
      (x.1.ran g v op c).mem (.futexWakes r) = x.1.mem (.futexWakes r) + 1) ∨
      (op ≠ .futexWake r ∧ (x.1.ran g v op c).mem (.futexWakes r) = x.1.mem (.futexWakes r)) := by
    intro r
    by_cases ht : op.target = some (.futexWakes r)
    · obtain ⟨u, d, -, -, ⟨exc, -, rfl⟩ | ⟨-, rfl⟩⟩ := Local.counter_cases hop ht (.inr rfl)
      · simp [Op.target] at ht
      · exact .inl ⟨rfl, by simp [ran, Op.exec]⟩
    · refine .inr ⟨?_, Op.exec_frame _ _ _ _ ht⟩
      rintro rfl
      exact ht rfl
  have hstill : ∀ r cur, (x.1.ran g v op c).asleep t r cur →
      x.1.asleep t r cur ∧ op ≠ .futexWake r := by
    intro r cur hsl
    obtain ⟨u, wakes, hu, hr, hpc, hw⟩ := hsl
    rw [hth] at hu
    have hle := h.wakes u cur wakes hu hpc
    rw [hr] at hle
    rcases hwakes r with ⟨-, heq⟩ | ⟨hne, heq⟩
    · omega
    · exact ⟨⟨u, wakes, hu, hr, hpc, by omega⟩, hne⟩
  have hflag' : ∀ u cur, (x.1.ran g v op c).th t = .sub u →
      u.pc = .parkWait cur ∨ (∃ wakes, u.pc = .parked cur wakes) →
      (x.1.ran g v op c).mem (.hasWaiter u.ringIdx) = waiterFutex := by
    intro u cur hu hpc
    rw [hth] at hu
    rw [hflag u hu]
    exact h.flag u cur hu hpc
  have hwakes' : ∀ u cur wakes, (x.1.ran g v op c).th t = .sub u → u.pc = .parked cur wakes →
      wakes ≤ (x.1.ran g v op c).mem (.futexWakes u.ringIdx) := by
    intro u cur wakes hu hpc
    rw [hth] at hu
    have := h.wakes u cur wakes hu hpc
    rcases hwakes u.ringIdx with ⟨-, heq⟩ | ⟨-, heq⟩ <;> omega
  by_cases hclaim : ∃ u d, x.1.th v = .pub u ∧ u.pc = .claim d ∧ x.1.ringOf t = some d.i
  · -- a position of the ring is claimed
    obtain ⟨u, d, hu, hpc, hring⟩ := hclaim
    have hw : watch t x.1 x.2 (.run v c) = ⟨x.2.claims + 1, Function.update x.2.since v true⟩ := by
      simp [watch, hu, hpc, hring]
    have hlt := ran_wpos_lt (c := c) hop h.wpos_lt
    rw [hu] at hop
    simp only [Local.request, Pub.request, hpc, Option.some.injEq] at hop
    subst hop
    have hmem : (x.1.ran g v (.fetchAdd (.writePos d.i) 1) c).mem =
        Function.update x.1.mem (.writePos d.i) ((x.1.mem (.writePos d.i) + 1) % 2 ^ 64) := rfl
    rw [hw]
    refine ⟨hlt, fun p hp => ?_, fun y cur hy hyc => ?_, hflag', hwakes', fun r cur hsl hne => ?_⟩
    · by_cases hpv : p = v
      · subst hpv
        exact ⟨ha, ran_pub hu _ _⟩
      · simp only [Function.update_of_ne hpv] at hp
        obtain ⟨ha', w, hw'⟩ := h.since p hp
        exact ⟨ha', ran_pub hw' _ _⟩
    · rw [hth] at hy
      obtain ⟨hcount, hfew, hcur⟩ := h.count y cur hy hyc
      have hyr : y.ringIdx = d.i := by simpa [ringOf, hy] using hring
      have hbound : x.2.claims + 1 < 2 ^ 32 := by
        simp only [apart, hy, hu, hpc, Bool.and_eq_true, decide_eq_true_eq] at hap
        refine hap.2 hyr.symm ?_
        rcases hyc with hyc | hyc <;> rw [hyc] <;> rfl
      refine ⟨?_, hbound, hcur⟩
      rw [hyr] at hcount ⊢
      simp only [hmem, Function.update_self]
      omega
    · obtain ⟨⟨y, wakes, hy, hr, -⟩, -⟩ := hstill r cur hsl
      have hyr : r = d.i := by
        rw [← hr]
        simpa [ringOf, hy] using hring
      refine ⟨v, u.resume g ((Op.fetchAdd (.writePos d.i) 1).exec x.1.procs x.1.mem c).2, by simp,
        by simp [ran, hu, Local.resume], ?_⟩
      rw [hyr]
      exact Pub.visiting_claim hpc
  · have hw : watch t x.1 x.2 (.run v c) = x.2 := by
      simp only [watch]
      split
      · rename_i u hv
        split
        · rename_i d hpc
          exact if_neg fun hr => hclaim ⟨u, d, hv, hpc, hr⟩
        · rfl
      · exact if_neg hvt
      · rfl
    have hwp : ∀ r, x.1.ringOf t = some r →
        (x.1.ran g v op c).mem (.writePos r) = x.1.mem (.writePos r) := by
      intro r hr
      refine Op.exec_frame _ _ _ _ fun ht => ?_
      obtain ⟨u, d, hu, hd, rfl, -⟩ := Local.writePos_cases hop ht
      exact hclaim ⟨u, d, hu, hd, hr⟩
    rw [hw]
    refine ⟨ran_wpos_lt hop h.wpos_lt, fun p hp => ?_, fun y cur hy hyc => ?_, hflag', hwakes', fun r cur hsl hne => ?_⟩
    · obtain ⟨ha', w, hw'⟩ := h.since p hp
      exact ⟨ha', ran_pub hw' _ _⟩
    · rw [hth] at hy
      rw [hwp _ (by simp [ringOf, hy])]
      exact h.count y cur hy hyc
    · obtain ⟨hsl', hnowake⟩ := hstill r cur hsl
      have hsl'' := hsl'
      obtain ⟨y, wakes, hy, hr, hpc, -⟩ := hsl''
      rw [hwp r (by simp [ringOf, hy, hr])] at hne
      obtain ⟨p, w, hp, hpw, hvis⟩ := h.nap r cur hsl' hne
      by_cases hpv : p = v
      · -- the publisher on the way moves: it finds the flag, and it has not called the kernel yet
        subst hpv
        rw [hpw] at hop
        refine ⟨p, w.resume g (op.exec x.1.procs x.1.mem c).2, hp,
          by simp [ran, hpw, Local.resume], ?_⟩
        rcases Pub.visiting_resume (a := (op.exec x.1.procs x.1.mem c).2) hop hvis with
          hgo | hwake | ⟨rfl, hno⟩
        · exact hgo
        · exact absurd hwake hnowake
        · refine absurd ?_ hno
          have := h.flag y cur hy (.inr ⟨wakes, hpc⟩)
          rw [hr] at this
          exact this
      · exact ⟨p, w, hp, by simp [ran, Function.update_of_ne hpv, hpw], hvis⟩

theorem Watched.step (h : Watched proc t x) {y : Sys ι × Watch ι} {l : Label ι}
    (hst : (watched g proc t).step x l y) (hok : beside g proc t x l) : Watched proc t y := by
  obtain ⟨s', hs', rfl⟩ := Option.map_eq_some_iff.mp hst
  cases l with
  | run v c =>
    obtain ⟨ha, op, hop, rfl⟩ := ran_cases hs'
    by_cases hvt : v = t
    · subst hvt
      by_cases hsub : ∃ u, x.1.th v = .sub u
      · obtain ⟨u, hv⟩ := hsub
        rw [hv] at hop
        exact h.run_self hv hop
      · have hw : watch v x.1 x.2 (.run v c) = x.2 := by
          cases hv : x.1.th v with
          | sub u => exact absurd ⟨u, hv⟩ hsub
          | pub u =>
            simp only [watch, hv, ringOf, reduceCtorEq, if_false]
            split <;> rfl
          | _ => simp only [watch, hv]
        rw [hw]
        refine watched_of_awake (ran_wpos_lt hop h.wpos_lt) (fun p hp => ?_) fun u hu => ?_
        · obtain ⟨ha', w, hw'⟩ := h.since p hp
          exact ⟨ha', ran_pub hw' _ _⟩
        · exfalso
          simp only [ran, Function.update_self] at hu
          cases hv : x.1.th v with
          | sub u => exact hsub ⟨u, hv⟩
          | _ =>
            rw [hv] at hu
            cases hu
    · exact h.run_other hvt ha hop hok
  | call v c =>
    obtain ⟨-, l, hl, rfl⟩ := call_cases hs'
    refine h.quiet rfl (fun p hp => (h.since p hp).1) (fun p u hp => ?_) fun u' hu' hpark => ?_
    · by_cases hpv : p = v
      · subst hpv
        rw [hp] at hl
        obtain ⟨hidle, u', rfl, -⟩ := Local.call_pub hl
        refine ⟨u', by simp, fun i hi => ?_⟩
        simp [hidle, PubPc.visiting, PubPc.owes] at hi
      · exact ⟨u, by simp [Function.update_of_ne hpv, hp], fun _ => id⟩
    · by_cases htv : t = v
      · subst htv
        simp only [Function.update_self] at hu'
        subst hu'
        exfalso
        rw [Local.parking_call hl] at hpark
        cases hpark
      · exact ⟨u', by simpa [Function.update_of_ne htv] using hu', rfl, rfl⟩
  | destroy a v k =>
    obtain ⟨-, u, w, hta, hv, -, rfl⟩ := destroy_cases hs'
    refine h.quiet rfl (fun p hp => (h.since p hp).1) (fun p q hp => ⟨q, ?_, fun _ => id⟩) fun u' hu' _ => ?_
    · have hpa : p ≠ a := by
        rintro rfl
        rw [hp] at hta
        cases hta
      have hpv : p ≠ v := by
        rintro rfl
        rw [hp] at hv
        cases hv
      simp [Function.update_of_ne hpv, Function.update_of_ne hpa, hp]
    · by_cases htv : t = v
      · subst htv
        simp at hu'
      · by_cases hta' : t = a
        · subst hta'
          simp only [Function.update_of_ne htv, Function.update_self, Local.sub.injEq] at hu'
          exact ⟨u, hta, by rw [← hu'], by rw [← hu']⟩
        · exact ⟨u', by simpa [Function.update_of_ne htv, Function.update_of_ne hta'] using hu', rfl, rfl⟩
  | write a off byte =>
    obtain ⟨-, u, slot, -, -, -, -, rfl⟩ := write_cases hs'
    exact h.quiet rfl (fun p hp => (h.since p hp).1) (fun p u hp => ⟨u, hp, fun _ => id⟩)
      fun u' hu' _ => ⟨u', hu', rfl, rfl⟩
  | exit pid =>
    obtain ⟨st, -, rfl⟩ := exit_cases hs'
    refine h.quiet rfl (fun p hp => ?_) (fun p u hp => ⟨u, hp, fun _ => id⟩)
      fun u' hu' _ => ⟨u', hu', rfl, rfl⟩
    obtain ⟨ha, u, hu⟩ := h.since p hp
    simpa [alive, Function.update_of_ne (hok p u hu)] using ha
  | spawn pid st =>
    obtain ⟨hfree, rfl⟩ := spawn_cases hs'
    refine h.quiet rfl (fun p hp => ?_) (fun p u hp => ⟨u, hp, fun _ => id⟩)
      fun u' hu' _ => ⟨u', hu', rfl, rfl⟩
    have ha := (h.since p hp).1
    have hne : (proc p).1 ≠ pid := by
      rintro rfl
      simp [alive, hfree.1] at ha
    simpa [alive, Function.update_of_ne hne] using ha

/-- No lost wake-up. In every run beside subscriber `t` whose steps are beside: if `t` sleeps on
`cur` while `write_pos` differs from it, a live publisher that has claimed a position since `t` fell
asleep has its `wake_ring` on this ring still to complete. `has_waiter` is `WaiterFutex`, and no step of
that publisher completes the `wake_ring` without ending the sleep. -/
theorem no_lost_wakeup (hg : g.Valid)
    (h : (watched g proc t).Reach (fun x l _ => beside g proc t x l) x) {r cur : Nat}
    (hsl : x.1.asleep t r cur) (hne : x.1.mem (.writePos r) ≠ cur) :
    x.1.mem (.hasWaiter r) = waiterFutex ∧
    ∃ p u, x.2.since p = true ∧ x.1.alive proc p = true ∧ x.1.th p = .pub u ∧
      u.pc.visiting = some r ∧ ∀ c s', x.1.next g proc (.run p c) = some s' →
        (∃ u', s'.th p = .pub u' ∧ u'.pc.visiting = some r) ∨ ¬ s'.asleep t r cur := by
  have hI : Watched proc t x := h.invariant (I := Watched proc t) (fun _ h0 => watched_init hg h0)
    fun _ _ _ hI hst hok => hI.step hst hok
  obtain ⟨p, u, hp, hu, hvis⟩ := hI.nap r cur hsl hne
  obtain ⟨y, wakes, hy, rfl, hpc, hw⟩ := hsl
  have hflag := hI.flag y cur hy (.inr ⟨wakes, hpc⟩)
  refine ⟨hflag, p, u, hp, (hI.since p hp).1, hu, hvis, fun c s' hs' => ?_⟩
  obtain ⟨-, op, hop, rfl⟩ := ran_cases hs'
  rw [hu] at hop
  rcases Pub.visiting_resume (a := (op.exec x.1.procs x.1.mem c).2) hop hvis with
    hgo | rfl | ⟨rfl, hno⟩
  · exact .inl ⟨_, by simp [ran, hu, Local.resume], hgo⟩
  · right
    rintro ⟨y', wakes', hy', -, hpc', hw'⟩
    have htp : t ≠ p := by
      rintro rfl
      rw [hy] at hu
      cases hu
    simp only [ran, Function.update_of_ne htp, hy, Local.sub.injEq] at hy'
    subst hy'
    rw [hpc, SubPc.parked.injEq] at hpc'
    simp only [ran, Op.exec, Function.update_self] at hw'
    omega
  · exact absurd hflag hno

section Crew

/-- The subscriber joins and falls asleep in `receive`; a publisher claims a position. -/
def sleepers : List (Label (Fin 9)) :=
  .call 3 (.join false) :: runs 3 5 ++ .call 3 (.receive true true) :: runs 3 5 ++
    .call 0 .allocate :: runs 0 3 ++ .call 0 (.publish 1) :: runs 0 5

theorem no_lost_wakeup_crew : ∃ x : Sys (Fin 9) × Watch (Fin 9),
    (x.1.asleep 3 0 0 ∧ x.1.mem (.writePos 0) = 1) ∧
      ∃ p u, x.1.th p = .pub u ∧ u.pc.visiting = some 0 := by
  have h0 : (watched smallGeometry crewProc (3 : Fin 9)).Reach
      (fun x l _ => (match l with
        | .run v _ => apart smallGeometry 3 x v
        | .exit _ => false
        | _ => true) = true)
      (crew smallGeometry, ⟨0, fun _ => false⟩) :=
    .init ⟨init_crew smallGeometry, fun _ => rfl⟩
  obtain ⟨x, hx, hP⟩ := LTS.Reach.play_any h0 sleepers
    (fun x : Sys (Fin 9) × Watch (Fin 9) => match x.1.th 3 with
      | .sub u => decide ((u.ringIdx = 0 ∧ u.pc = .parked 0 0 ∧ x.1.mem (.futexWakes 0) = 0) ∧
          x.1.mem (.writePos 0) = 1)
      | _ => false) (by decide +kernel)
  split at hP
  case h_2 => simp at hP
  rename_i u hu
  obtain ⟨⟨hring, hpc, hw⟩, hwp⟩ := of_decide_eq_true hP
  have hsl : x.1.asleep 3 0 0 := ⟨u, 0, hu, hring, hpc, hw⟩
  obtain ⟨-, p, v, -, -, hv, hvis, -⟩ := no_lost_wakeup valid_smallGeometry
    (hx.mono fun y l _ _ hok => by cases l <;> simp_all [beside]) hsl (by omega)
  exact ⟨x, ⟨hsl, hwp⟩, p, v, hv, hvis⟩

end Crew

end Sys

end Kickmsg
