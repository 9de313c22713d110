import Kickmsg.Arming

/-!
# Waiting on several subscribers

`wait_any` of `WaitAny.cc` beside the whole region: it arms its subscribers one by one, waits on their
descriptors, disarms them one by one and drains the descriptors. A `signal()` makes every descriptor
readable until it is drained.

The result: `wait_any` does not block on an uncapped budget past a claimed position, unless a descriptor
it polls is readable or a publisher that claimed one is on its way to `signal()`. Without steals, no
publisher that is on its way to `signal()` blocks in `wait_for_commit`.
-/

namespace Kickmsg

open Lib

/-- Where `wait_any` is. `arm` and `disarm` stand before a call on subscriber `i`, `arming` and
`disarming` inside it; `spent` is `budget == 0`. -/
inductive WaitPc
  | idle
  | arm (i : Nat) (ready capped : Bool)
  | arming (i : Nat) (ready capped : Bool)
  | wait (capped : Bool)
  | disarm (i : Nat) (ready spent : Bool)
  | disarming (i : Nat) (ready spent : Bool)
  | drain (ws : List Nat) (ready spent : Bool)
  deriving DecidableEq, Repr

/-- The region with a thread in `wait_any`: the `Waker` each subscriber is attached to, the descriptors
that are readable, and the thread's locals. `found` and `claimed` are bookkeeping about the running
`publish()` of an actor: it found a ring in carrier mode and has not called `signal()` since, and the rings
it claimed a position of. -/
structure WaitAny (ι : Type) where
  sys : Sys ι
  waker : ι → Nat
  readable : Nat → Bool
  subs : List ι
  wakers : List Nat
  covered : Bool
  result : Bool
  pc : WaitPc
  found : ι → Bool
  claimed : ι → Nat → Bool

/-- A step of the region, a call of `wait_any`, or a step of the thread inside it; `choice` is the
environment's: the deadline has passed, or the wait timed out. -/
inductive WaitLabel (ι : Type)
  | sys (l : Label ι)
  | start (subs : List ι)
  | go (choice : Bool)

namespace WaitAny

variable {ι : Type} [DecidableEq ι]

/-- `waker_ != nullptr and waker->valid()`. -/
def hasWaker (x : WaitAny ι) (t : ι) : Bool :=
  match x.sys.th t with
  | .sub u => u.waker
  | _ => false

/-- The subscriber holds a ring and is not inside a call. -/
def atRest (x : WaitAny ι) (t : ι) : Bool :=
  match x.sys.th t with
  | .sub u => decide (u.pc = .live)
  | _ => false

/-- The subscribers belong to the thread while it is in `wait_any`. -/
def owns (x : WaitAny ι) : Label ι → Bool
  | .call t _ => decide (x.pc ≠ .idle ∧ t ∈ x.subs)
  | _ => false

def readableAfter (g : Geometry) (x : WaitAny ι) : Label ι → Nat → Bool
  | .run v _ => if (x.sys.th v).request g = some .signal then fun _ => true else x.readable
  | _ => x.readable

/-- `found` of an actor after its next access. -/
def finds (g : Geometry) (x : WaitAny ι) (v : ι) : Bool :=
  match (x.sys.th v).request g with
  | some .signal => false
  | some (.load (.hasWaiter r)) => decide (x.sys.mem (.hasWaiter r) = waiterCarrier) || x.found v
  | _ => x.found v

def foundAfter (g : Geometry) (x : WaitAny ι) : Label ι → ι → Bool
  | .run v _ => Function.update x.found v (x.finds g v)
  | .call v _ => Function.update x.found v false
  | _ => x.found

/-- `claimed` of an actor after its next access. -/
def claims (g : Geometry) (x : WaitAny ι) (v : ι) (r : Nat) : Bool :=
  decide ((x.sys.th v).request g = some (.fetchAdd (.writePos r) 1)) || x.claimed v r

def claimedAfter (g : Geometry) (x : WaitAny ι) : Label ι → ι → Nat → Bool
  | .run v _ => Function.update x.claimed v (x.claims g v)
  | .call v _ => Function.update x.claimed v fun _ => false
  | _ => x.claimed

/-- The region takes the step `l` to `s'`. -/
def observe (g : Geometry) (x : WaitAny ι) (s' : Sys ι) (l : Label ι) : WaitAny ι :=
  { x with
    sys := s'
    readable := x.readableAfter g l
    found := x.foundAfter g l
    claimed := x.claimedAfter g l }

/-- The call up to its loop: one descriptor for each `Waker`. -/
def start (x : WaitAny ι) (subs : List ι) : WaitAny ι :=
  if subs = [] then { x with result := false }
  else
    { x with
      subs := subs
      wakers := ((subs.filter x.hasWaker).map x.waker).eraseDups
      covered := subs.all x.hasWaker
      pc := .arm 0 false false }

/-- The next step of the thread. -/
def go (g : Geometry) (proc : ι → Nat × Nat) (x : WaitAny ι) (choice : Bool) : Option (WaitAny ι) :=
  match x.pc with
  | .idle => none
  | .arm i ready capped =>
    match x.subs[i]? with
    | some t =>
      (x.sys.next g proc (.call t .armWait)).map fun s' =>
        { x with sys := s', pc := .arming i ready capped }
    | none =>
      if ready = true ∨ choice = true then some { x with pc := .disarm 0 ready true }
      else some { x with pc := .wait (capped || !x.covered) }
  | .arming i ready capped =>
    match x.subs[i]? with
    | some t =>
      match x.sys.th t with
      | .sub u =>
        if u.pc = .live then
          some { x with pc := .arm (i + 1) (ready || decide (u.waitState = .ready))
                                (capped || decide (u.waitState = .poll)) }
        else none
      | _ => none
    | none => none
  | .wait _ =>
    if choice = true ∨ x.wakers.any x.readable = true then some { x with pc := .disarm 0 false false }
    else none
  | .disarm i ready spent =>
    match x.subs[i]? with
    | some t =>
      (x.sys.next g proc (.call t .disarmWait)).map fun s' =>
        { x with sys := s', pc := .disarming i ready spent }
    | none => some { x with pc := .drain x.wakers ready spent }
  | .disarming i ready spent =>
    match x.subs[i]? with
    | some t => if x.atRest t then some { x with pc := .disarm (i + 1) ready spent } else none
    | none => none
  | .drain [] ready spent =>
    if ready = true ∨ spent = true then some { x with pc := .idle, result := ready }
    else some { x with pc := .arm 0 false false }
  | .drain (w :: ws) ready spent =>
    some { x with readable := Function.update x.readable w false, pc := .drain ws ready spent }

def next (g : Geometry) (proc : ι → Nat × Nat) (x : WaitAny ι) : WaitLabel ι → Option (WaitAny ι)
  | .sys l => if x.owns l then none else (x.sys.next g proc l).map fun s' => x.observe g s' l
  | .start subs => if x.pc = .idle ∧ subs.all x.atRest = true then some (x.start subs) else none
  | .go choice => x.go g proc choice

/-- A new region, every publisher with a wake backend. -/
structure Init (g : Geometry) (proc : ι → Nat × Nat) (x : WaitAny ι) : Prop where
  sys : Sys.Init g proc x.sys
  backend : ∀ p u, x.sys.th p = .pub u → u.backend = true
  pc : x.pc = .idle
  found : ∀ p, x.found p = false
  claimed : ∀ p r, x.claimed p r = false

def machine (g : Geometry) (proc : ι → Nat × Nat) : LTS (WaitAny ι) (WaitLabel ι) :=
  .ofNext (Init g proc) (next g proc)

/-- What is assumed of a step: every listed subscriber has a valid `Waker` and its ring to itself, no
publisher crashes, and positions fit their field. -/
def fair (g : Geometry) (proc : ι → Nat × Nat) (x : WaitAny ι) : WaitLabel ι → Prop
  | .sys (.run v c) => x.sys.inRange (.run v c) = true ∧
      (x.pc ≠ .idle → ∀ t ∈ x.subs, v ≠ t → ∀ u, x.sys.th t = .sub u →
        ((x.sys.th v).request g).bind Op.target ≠ some (.hasWaiter u.ringIdx))
  | .sys (.exit pid) => ∀ p u, x.sys.th p = .pub u → (proc p).1 ≠ pid
  | .start subs => ∀ t ∈ subs, x.hasWaker t = true
  | _ => True

/-- `wait_any` is in its wait, with what is left of the caller's timeout as the budget. -/
def Blocked (x : WaitAny ι) : Prop := x.pc = .wait false

/-- A descriptor that is polled is readable. -/
def Ready (x : WaitAny ι) : Prop := ∃ w ∈ x.wakers, x.readable w = true

/-- Publisher `p` is inside a `publish()` that has claimed a position of ring `r`; it has not looked at
the ring's `has_waiter` yet, or it has found a ring in carrier mode and not called `signal()` since. -/
def Owing (x : WaitAny ι) (p : ι) (r : Nat) : Prop :=
  x.claimed p r = true ∧ ∃ u, x.sys.th p = .pub u ∧ u.pc.publishing = true ∧
    (u.pc.unread = some r ∨ x.found p = true)

/-- Subscriber `t` is armed: whoever claims a position of its ring will signal. -/
def Armed (x : WaitAny ι) (t : ι) : Prop :=
  ∃ u, x.sys.th t = .sub u ∧ u.pc = .live ∧ x.sys.mem (.hasWaiter u.ringIdx) = waiterCarrier ∧
    (u.readPos < x.sys.wpos u.ringIdx → x.Ready ∨ ∃ p, x.Owing p u.ringIdx)

/-- The subscriber that `arm_wait` is being called on. -/
def arming (x : WaitAny ι) : Option ι :=
  match x.pc with
  | .arming i _ _ => x.subs[i]?
  | _ => none

/-- The subscribers that have answered `Armed`, while nobody has answered anything else. -/
def armed (x : WaitAny ι) : List ι :=
  match x.pc with
  | .arm i false false => x.subs.take i
  | .arming i false false => (x.subs.take i).filter fun t => x.subs[i]? ≠ some t
  | .wait false => x.subs
  | _ => []

/-- `pc` is an access of the call that the thread is making on `t`. -/
def Working (x : WaitAny ι) (t : ι) (pc : SubPc) : Prop :=
  match x.pc with
  | .arming i _ _ => x.subs[i]? = some t ∧ pc.inArm = true
  | .disarming i _ _ => x.subs[i]? = some t ∧ pc = .disarm
  | _ => False

/-- What holds of the region, whatever the thread does. -/
structure Base (g : Geometry) (proc : ι → Nat × Nat) (s : Sys ι) (found : ι → Bool)
    (claimed : ι → Nat → Bool) : Prop where
  seq : Sys.Sequenced g s
  behind : ∀ t, (s.th t).Behind s.wpos
  backend : ∀ p u, s.th p = .pub u → u.backend = true
  found : ∀ p, found p = true → ∃ u, s.th p = .pub u ∧ u.pc.carrying = true
  claimed : ∀ p r, claimed p r = true → s.alive proc p = true ∧ ∃ u, s.th p = .pub u

/-- What holds of the thread: its subscribers are polled and at rest but for the one it is working on, and
those that answered `Armed` are armed. -/
structure Inv (g : Geometry) (proc : ι → Nat × Nat) (x : WaitAny ι) : Prop where
  base : Base g proc x.sys x.found x.claimed
  polled : x.pc ≠ .idle → ∀ t ∈ x.subs, x.waker t ∈ x.wakers
  listed : x.pc ≠ .idle → ∀ t ∈ x.subs, ∃ u, x.sys.th t = .sub u ∧ u.waker = true ∧
    (u.pc = .live ∨ x.Working t u.pc)
  mode : ∀ t u, x.arming = some t → x.sys.th t = .sub u →
    (∀ cur, u.pc = .armCheck cur → x.sys.mem (.hasWaiter u.ringIdx) = waiterCarrier) ∧
      (u.pc = .live → u.waitState = .armed → x.Armed t)
  armed : ∀ t ∈ x.armed, x.Armed t

variable {g : Geometry} {proc : ι → Nat × Nat} {x : WaitAny ι} {v : ι} {op : Op} {c : Bool}

omit [DecidableEq ι] in
theorem arming_cases {t : ι} (h : x.arming = some t) :
    ∃ i ready capped, x.pc = .arming i ready capped ∧ x.subs[i]? = some t := by
  unfold arming at h
  split at h
  · rename_i i ready capped hpc
    exact ⟨i, ready, capped, hpc, h⟩
  · cases h

omit [DecidableEq ι] in
theorem mem_of_arming {t : ι} (h : x.arming = some t) : x.pc ≠ .idle ∧ t ∈ x.subs := by
  obtain ⟨i, ready, capped, hpc, hi⟩ := arming_cases h
  exact ⟨by simp [hpc], List.mem_of_getElem? hi⟩

theorem mem_of_armed {t : ι} (h : t ∈ x.armed) : x.pc ≠ .idle ∧ t ∈ x.subs := by
  unfold armed at h
  split at h
  · rename_i hpc
    exact ⟨by simp [hpc], List.mem_of_mem_take h⟩
  · rename_i hpc
    exact ⟨by simp [hpc], List.mem_of_mem_take (List.mem_of_mem_filter h)⟩
  · rename_i hpc
    exact ⟨by simp [hpc], h⟩
  · cases h

/-! ## An access of an actor -/

section Access

variable (hop : (x.sys.th v).request g = some op)

/-- The state after actor `v` has performed access `op`. -/
def ran (g : Geometry) (x : WaitAny ι) (v : ι) (op : Op) (c : Bool) : WaitAny ι :=
  x.observe g (x.sys.ran g v op c) (.run v c)

theorem ran_th_of_ne {t : ι} (h : t ≠ v) : (x.ran g v op c).sys.th t = x.sys.th t := by
  simp [ran, observe, Sys.ran, Function.update_of_ne h]

theorem ran_th_self : (x.ran g v op c).sys.th v =
    (x.sys.th v).resume g (op.exec x.sys.procs x.sys.mem c).2 := by
  simp [ran, observe, Sys.ran]

theorem ran_found_of_ne {p : ι} (h : p ≠ v) : (x.ran g v op c).found p = x.found p :=
  Function.update_of_ne h ..

theorem ran_claimed {p : ι} {r : Nat} (h : x.claimed p r = true) :
    (x.ran g v op c).claimed p r = true := by
  simp only [ran, observe, claimedAfter]
  by_cases hp : p = v
  · subst hp
    simp [claims, h]
  · simpa [Function.update_of_ne hp] using h

include hop

/-- Only a `fetch_add` adds a claim. -/
theorem claimed_of_ran {p : ι} {r : Nat} (h : (x.ran g v op c).claimed p r = true) :
    x.claimed p r = true ∨ (p = v ∧ op = .fetchAdd (.writePos r) 1) := by
  simp only [ran, observe, claimedAfter] at h
  by_cases hp : p = v
  · subst hp
    simp only [Function.update_self, claims, hop, Option.some.injEq, Bool.or_eq_true,
      decide_eq_true_eq] at h
    exact h.symm.imp_right fun e => ⟨rfl, e⟩
  · left
    simpa [Function.update_of_ne hp] using h

theorem ran_found (hs : op ≠ .signal) {p : ι} (h : x.found p = true) :
    (x.ran g v op c).found p = true := by
  by_cases hp : p = v
  · subst hp
    simp only [ran, observe, foundAfter, Function.update_self, finds]
    split
    · rename_i heq
      rw [hop] at heq
      exact absurd (Option.some.inj heq) hs
    · simp [h]
    · exact h
  · rw [ran_found_of_ne hp]
    exact h

theorem ran_found_load {r : Nat} (ho : op = .load (.hasWaiter r))
    (hw : x.sys.mem (.hasWaiter r) = waiterCarrier) : (x.ran g v op c).found v = true := by
  subst ho
  simp [ran, observe, foundAfter, finds, hop, hw]

/-- Only a look at `has_waiter` finds the carrier mode. -/
theorem found_of_ran {p : ι} (h : (x.ran g v op c).found p = true) :
    (x.found p = true ∧ (p = v → op ≠ .signal)) ∨
      (p = v ∧ ∃ r, op = .load (.hasWaiter r) ∧ x.sys.mem (.hasWaiter r) = waiterCarrier) := by
  by_cases hp : p = v
  · subst hp
    simp only [ran, observe, foundAfter, Function.update_self, finds] at h
    split at h
    · simp at h
    · rename_i r heq
      rw [hop] at heq
      obtain rfl := Option.some.inj heq
      simp only [Bool.or_eq_true, decide_eq_true_eq] at h
      rcases h with hw | hf
      · exact .inr ⟨rfl, r, rfl, hw⟩
      · exact .inl ⟨hf, fun _ => by simp⟩
    · rename_i hns _
      exact .inl ⟨h, fun _ e => hns (by rw [hop, e])⟩
  · rw [ran_found_of_ne hp] at h
    exact .inl ⟨h, fun e => absurd e hp⟩

/-- A descriptor that is readable stays so, and a `signal()` makes all of them readable. -/
theorem ran_ready (h : x.Ready) : (x.ran g v op c).Ready := by
  obtain ⟨w, hw, hr⟩ := h
  refine ⟨w, hw, ?_⟩
  simp only [ran, observe, readableAfter, hop]
  split_ifs
  · rfl
  · exact hr

theorem ran_ready_signal (ho : op = .signal) {w : Nat} (hw : w ∈ x.wakers) :
    (x.ran g v op c).Ready := by
  subst ho
  exact ⟨w, hw, by simp [ran, observe, readableAfter, hop]⟩

/-- A publisher on its way to `signal()` comes closer, as long as the mode stays set. -/
theorem Owing.ran (hB : Base g proc x.sys x.found x.claimed) {p : ι} {r : Nat} (h : x.Owing p r) (hw : x.sys.mem (.hasWaiter r) = waiterCarrier) :
    (x.ran g v op c).Owing p r ∨ (v = p ∧ op = .signal) := by
  obtain ⟨hc, u, hu, hpub, howes⟩ := h
  by_cases hpv : p = v
  · subst hpv
    by_cases hs : op = .signal
    · exact .inr ⟨rfl, hs⟩
    left
    have hth : (x.ran g p op c).sys.th p = .pub (u.resume g (op.exec x.sys.procs x.sys.mem c).2) := by
      rw [ran_th_self, hu]
      rfl
    have hop' : u.request g = some op := by
      rw [hu] at hop
      exact hop
    refine ⟨ran_claimed hc, _, hth, ?_⟩
    rcases howes with hun | hfound
    · rcases Pub.unread_resume (a := (op.exec x.sys.procs x.sys.mem c).2) hop' (hB.backend p u hu) hun with
        hgo | ⟨rfl, hcar⟩
      · exact ⟨PubPc.publishing_of_unread hgo, .inl hgo⟩
      · exact ⟨PubPc.publishing_of_carrying (hcar hw), .inr (ran_found_load hop rfl hw)⟩
    · obtain ⟨u', hu', hcar⟩ := hB.found p hfound
      obtain rfl : u' = u := by
        rw [hu] at hu'
        exact (Local.pub.inj hu').symm
      rcases Pub.carrying_resume (a := (op.exec x.sys.procs x.sys.mem c).2) hop' (hB.backend p u' hu) hcar with
        hgo | hsig
      · exact ⟨PubPc.publishing_of_carrying hgo, .inr (ran_found hop hs hfound)⟩
      · exact absurd hsig hs
  · left
    refine ⟨ran_claimed hc, u, by rw [ran_th_of_ne hpv, hu], hpub, ?_⟩
    rw [ran_found_of_ne hpv]
    exact howes

/-- A `fetch_add` of a ring's `write_pos` puts its publisher on the way. -/
theorem owing_claim {u : Pub} {d : Delivery} (hu : x.sys.th v = .pub u) (hpc : u.pc = .claim d) :
    (x.ran g v op c).Owing v d.i := by
  have hop' : op = .fetchAdd (.writePos d.i) 1 := by
    rw [hu] at hop
    simpa [Local.request, Pub.request, hpc] using hop.symm
  have hun := Pub.unread_claim (g := g) (a := (op.exec x.sys.procs x.sys.mem c).2) hpc
  refine ⟨?_, _, by rw [ran_th_self, hu]; rfl, PubPc.publishing_of_unread hun, .inl hun⟩
  subst hop'
  simp [WaitAny.ran, observe, claimedAfter, claims, hop]

theorem Base.ran (hg : g.Valid) (hB : Base g proc x.sys x.found x.claimed)
    (hs : x.sys.next g proc (.run v c) = some (x.sys.ran g v op c))
    (hr : x.sys.inRange (.run v c) = true) :
    Base g proc (x.ran g v op c).sys (x.ran g v op c).found (x.ran g v op c).claimed where
  seq := hB.seq.run hs hr
  behind := Sys.behind_next hg hB.seq hB.behind hs hr
  backend p u hu := by
    by_cases hpv : p = v
    · subst hpv
      rw [ran_th_self] at hu
      cases hw : x.sys.th p with
      | pub w =>
        rw [hw] at hu
        obtain rfl := Local.pub.inj hu
        rw [Pub.resume_backend]
        exact hB.backend p w hw
      | _ =>
        rw [hw] at hu
        cases hu
    · rw [ran_th_of_ne hpv] at hu
      exact hB.backend p u hu
  found p hp := by
    rcases found_of_ran hop hp with ⟨hf, hns⟩ | ⟨rfl, r, rfl, hw⟩
    · obtain ⟨u, hu, hcar⟩ := hB.found p hf
      by_cases hpv : p = v
      · subst hpv
        rw [hu] at hop
        refine ⟨_, by rw [ran_th_self, hu]; rfl, ?_⟩
        exact (Pub.carrying_resume hop (hB.backend p u hu) hcar).resolve_right (hns rfl)
      · exact ⟨u, by rw [ran_th_of_ne hpv, hu], hcar⟩
    · obtain ⟨u, hu⟩ := Local.look_cases hop
      refine ⟨_, by rw [ran_th_self, hu]; rfl, ?_⟩
      rw [hu] at hop
      exact Pub.carrying_look hop (hB.backend p u hu) hw
  claimed p r hp := by
    have hpub : ∃ u, x.sys.th p = .pub u ∧ x.sys.alive proc p = true := by
      rcases claimed_of_ran hop hp with hc | ⟨rfl, rfl⟩
      · obtain ⟨ha, u, hu⟩ := hB.claimed p r hc
        exact ⟨u, hu, ha⟩
      · obtain ⟨u, d, hu, -⟩ := Local.writePos_cases hop rfl
        exact ⟨u, hu, (Sys.ran_cases hs).1⟩
    obtain ⟨u, hu, ha⟩ := hpub
    exact ⟨ha, Sys.ran_pub hu _ _⟩

/-- An armed subscriber stays armed through the accesses of the others. -/
theorem Armed.ran (hB : Base g proc x.sys x.found x.claimed) {t : ι} (h : x.Armed t) (hvt : v ≠ t)
    (hpoll : x.waker t ∈ x.wakers) (hr : x.sys.inRange (.run v c) = true)
    (hw : ∀ u, x.sys.th t = .sub u → op.target ≠ some (.hasWaiter u.ringIdx)) :
    (x.ran g v op c).Armed t := by
  obtain ⟨u, hu, hpc, hmode, hduty⟩ := h
  have hmem : (x.ran g v op c).sys.mem (.hasWaiter u.ringIdx) = x.sys.mem (.hasWaiter u.ringIdx) :=
    Op.exec_frame _ _ _ _ (hw u hu)
  refine ⟨u, by rw [ran_th_of_ne (Ne.symm hvt), hu], hpc, by rw [hmem, hmode], fun hlt => ?_⟩
  rcases Sys.wpos_run (by decide) hop hr u.ringIdx with ⟨-, heq⟩ | ⟨rfl, -, -⟩
  · have hlt' : u.readPos < x.sys.wpos u.ringIdx := by
      rw [← heq]
      exact hlt
    rcases hduty hlt' with hready | ⟨p, hp⟩
    · exact .inl (ran_ready hop hready)
    · rcases hp.ran hop hB hmode with hp' | ⟨-, hsig⟩
      · exact .inr ⟨p, hp'⟩
      · exact .inl (ran_ready_signal hop hsig hpoll)
  · obtain ⟨w, d, hwv, hd, hdi, -⟩ := Local.writePos_cases hop rfl
    refine .inr ⟨v, ?_⟩
    rw [← hdi]
    exact owing_claim (by rw [hdi]; exact hop) hwv hd

/-- An access of an actor keeps what holds of the thread. -/
theorem Inv.ran (hg : g.Valid) (hI : Inv g proc x)
    (hs : x.sys.next g proc (.run v c) = some (x.sys.ran g v op c)) (hf : fair g proc x (.sys (.run v c))) :
    Inv g proc (x.ran g v op c) := by
  obtain ⟨hr, hown⟩ := hf
  rw [hop, Option.bind_some] at hown
  have hlive : ∀ {t : ι} {u : Sub}, x.sys.th t = .sub u → u.pc = .live → v ≠ t := by
    rintro t u hu hpc rfl
    rw [hu] at hop
    simp [Local.request, Sub.request, hpc] at hop
  -- the access, if it is the listed subscriber's own
  have hself : ∀ {u : Sub}, x.sys.th v = .sub u → u.pc.inArm = true → u.waker = true →
      Sub.Arms x.sys.wpos op u (u.resume g (op.exec x.sys.procs x.sys.mem c).2) := by
    intro u hu harm hwk
    have hb := hI.base.behind v
    rw [hu] at hb hop
    refine Sub.arms_resume hb harm hop (fun i hi => ?_) hwk
    rw [show u.request g = some op from hop] at hi
    obtain rfl := Option.some.inj hi
    rfl
  refine ⟨hI.base.ran hop hg hs hr, hI.polled, fun hpc t ht => ?_, fun t u ht hu => ?_, fun t ht => ?_⟩
  · obtain ⟨u, hu, hwk, hat⟩ := hI.listed hpc t ht
    by_cases hvt : v = t
    · subst hvt
      have hwork : x.Working v u.pc := hat.resolve_left fun hl => hlive hu hl rfl
      refine ⟨_, by rw [ran_th_self, hu]; rfl, ?_⟩
      simp only [Working] at hwork
      split at hwork
      · rename_i i ready capped hxpc
        have harms := hself hu hwork.2 hwk
        refine ⟨harms.waker, harms.goes.symm.imp_right fun hin => ?_⟩
        simp only [Working, WaitAny.ran, observe, hxpc]
        exact ⟨hwork.1, hin⟩
      · refine ⟨?_, .inl ?_⟩
        · simp only [Sub.resume, hwork.2]
          exact hwk
        · simp only [Sub.resume, hwork.2]
      · exact hwork.elim
    · exact ⟨u, by rw [ran_th_of_ne (Ne.symm hvt), hu], hwk, hat⟩
  · have ht : x.arming = some t := ht
    obtain ⟨hpc, hmem⟩ := mem_of_arming ht
    obtain ⟨w, hw, hwk, hat⟩ := hI.listed hpc t hmem
    obtain ⟨hcheck, harmed⟩ := hI.mode t w ht hw
    by_cases hvt : v = t
    · subst hvt
      rw [ran_th_self, hw] at hu
      obtain rfl := Local.sub.inj hu
      have hwork : x.Working v w.pc := hat.resolve_left fun hl => hlive hw hl rfl
      have hin : w.pc.inArm = true := by
        obtain ⟨i, ready, capped, hxpc, -⟩ := arming_cases ht
        simp only [Working, hxpc] at hwork
        exact hwork.2
      have harms := hself hw hin hwk
      refine ⟨fun cur hcur => ?_, fun hl hstate => ?_⟩
      · rw [harms.ringIdx]
        have hset := harms.sets cur hcur
        subst hset
        simp [WaitAny.ran, observe, Sys.ran, Op.exec]
      · obtain ⟨⟨cur, hcur⟩, hle, hload⟩ := harms.armed hl hstate
        subst hload
        refine ⟨_, by rw [ran_th_self, hw]; rfl, hl, ?_, fun hlt => ?_⟩
        · rw [harms.ringIdx]
          exact hcheck cur hcur
        · rw [harms.ringIdx, harms.readPos] at hlt
          exact absurd hlt (Nat.not_lt.2 hle)
    · rw [ran_th_of_ne (Ne.symm hvt)] at hu
      obtain rfl : w = u := by
        rw [hw] at hu
        exact Local.sub.inj hu
      refine ⟨fun cur hcur => ?_, fun hl hstate => ?_⟩
      · rw [← hcheck cur hcur]
        exact Op.exec_frame _ _ _ _ (hown hpc t hmem hvt w hw)
      · exact (harmed hl hstate).ran hop hI.base hvt (hI.polled hpc t hmem) hr
          fun y hy => hown hpc t hmem hvt y hy
  · have ht : t ∈ x.armed := ht
    have hin := mem_of_armed ht
    have harmed := hI.armed t ht
    obtain ⟨u, hu, hl, -⟩ := id harmed
    have hvt := hlive hu hl
    exact harmed.ran hop hI.base hvt (hI.polled hin.1 t hin.2) hr fun y hy => hown hin.1 t hin.2 hvt y hy

end Access

/-! ## The other steps of the region -/

section Still

variable {s' : Sys ι} {l : Label ι} {found : ι → Bool} {claimed : ι → Nat → Bool}

/-- A step of the region that is no access. -/
theorem Base.still (hg : g.Valid) (hB : Base g proc x.sys x.found x.claimed)
    (hs : x.sys.next g proc l = some s') (hl : ∀ t c, l ≠ .run t c) (hf : fair g proc x (.sys l))
    (hfound : ∀ p, found p = true → x.found p = true)
    (hclaimed : ∀ p r, claimed p r = true → x.claimed p r = true) : Base g proc s' found claimed := by
  have hr : x.sys.inRange l = true := by
    cases l with
    | run t c => exact absurd rfl (hl t c)
    | _ => rfl
  have hst := Sys.still_next hs hl
  have halive : ∀ p u, x.sys.th p = .pub u → x.sys.alive proc p = true → s'.alive proc p = true := by
    intro p u hu ha
    cases l with
    | run t c => exact absurd rfl (hl t c)
    | call t c =>
      obtain ⟨-, l, -, rfl⟩ := Sys.call_cases hs
      exact ha
    | destroy a v k =>
      obtain ⟨-, w, y, -, -, -, rfl⟩ := Sys.destroy_cases hs
      exact ha
    | write a off byte =>
      obtain ⟨-, w, slot, -, -, -, -, rfl⟩ := Sys.write_cases hs
      exact ha
    | exit pid =>
      obtain ⟨st, -, rfl⟩ := Sys.exit_cases hs
      simpa [Sys.alive, Function.update_of_ne (hf p u hu)] using ha
    | spawn pid st =>
      obtain ⟨hfree, rfl⟩ := Sys.spawn_cases hs
      have hne : (proc p).1 ≠ pid := by
        rintro rfl
        simp [Sys.alive, hfree.1] at ha
      simpa [Sys.alive, Function.update_of_ne hne] using ha
  refine ⟨hB.seq.next hs hr, Sys.behind_next hg hB.seq hB.behind hs hr, fun p u hu => ?_,
    fun p hp => ?_, fun p r hp => ?_⟩
  · obtain ⟨w, hw, hbe⟩ := hst.pub p u hu
    rw [hbe]
    exact hB.backend p w hw
  · obtain ⟨u, hu, hcar⟩ := hB.found p (hfound p hp)
    exact ⟨u, hst.publishing p u hu (PubPc.publishing_of_carrying hcar), hcar⟩
  · obtain ⟨ha, u, hu⟩ := hB.claimed p r (hclaimed p r hp)
    exact ⟨halive p u hu ha, hst.kind p u hu⟩

omit [DecidableEq ι] in
/-- A publisher on its way to `signal()` stays on it through a step that is no access. -/
theorem Owing.still {y : WaitAny ι} {p : ι} {r : Nat} (h : x.Owing p r) (hst : Sys.Still l x.sys y.sys)
    (hsame : ∀ p u, x.sys.th p = .pub u → u.pc.publishing = true →
      y.found p = x.found p ∧ y.claimed p = x.claimed p) : y.Owing p r := by
  obtain ⟨hc, q, hq, hpub, howes⟩ := h
  obtain ⟨hfe, hce⟩ := hsame p q hq hpub
  exact ⟨by rw [hce]; exact hc, q, hst.publishing p q hq hpub, hpub, by rw [hfe]; exact howes⟩

omit [DecidableEq ι] in
/-- An armed subscriber stays armed through a step that is no access and no call on it. -/
theorem Armed.still {y : WaitAny ι} {t : ι} (h : x.Armed t) (hst : Sys.Still l x.sys y.sys)
    (hl : ∀ c, l ≠ .call t c) (hwk : y.wakers = x.wakers) (hrd : y.readable = x.readable)
    (hsame : ∀ p u, x.sys.th p = .pub u → u.pc.publishing = true →
      y.found p = x.found p ∧ y.claimed p = x.claimed p) : y.Armed t := by
  obtain ⟨u, hu, hpc, hmode, hduty⟩ := h
  obtain ⟨vs, hvs⟩ := hst.sub t u hu hl
  refine ⟨_, hvs, hpc, by rw [hst.mem]; exact hmode, fun hlt => ?_⟩
  have hlt' : u.readPos < x.sys.wpos u.ringIdx := by
    simp only [Sys.wpos, hst.mem] at hlt
    exact hlt
  rcases hduty hlt' with ⟨w, hw, hr⟩ | ⟨p, hp⟩
  · exact .inl ⟨w, by rw [hwk]; exact hw, by rw [hrd]; exact hr⟩
  · exact .inr ⟨p, hp.still hst hsame⟩

/-- The bookkeeping of a publisher inside `publish()` changes only by its accesses. -/
theorem observe_same (hs : x.sys.next g proc l = some s') (hl : ∀ t c, l ≠ .run t c) (p : ι) (u : Pub)
    (hu : x.sys.th p = .pub u) (hpub : u.pc.publishing = true) :
    (x.observe g s' l).found p = x.found p ∧ (x.observe g s' l).claimed p = x.claimed p := by
  cases l with
  | run t c => exact absurd rfl (hl t c)
  | call t c =>
    have hpt : p ≠ t := by
      rintro rfl
      obtain ⟨-, l, hc, -⟩ := Sys.call_cases hs
      rw [hu] at hc
      obtain ⟨hidle, -⟩ := Local.call_pub hc
      rw [hidle] at hpub
      cases hpub
    exact ⟨Function.update_of_ne hpt .., Function.update_of_ne hpt ..⟩
  | _ => exact ⟨rfl, rfl⟩

theorem Inv.still (hg : g.Valid) (hI : Inv g proc x) (hs : x.sys.next g proc l = some s')
    (hl : ∀ t c, l ≠ .run t c) (hf : fair g proc x (.sys l)) (ho : x.owns l = false) :
    Inv g proc (x.observe g s' l) := by
  have hst := Sys.still_next hs hl
  have hrd : (x.observe g s' l).readable = x.readable := by
    cases l with
    | run t c => exact absurd rfl (hl t c)
    | _ => rfl
  have hcall : ∀ t c, l = .call t c → x.pc ≠ .idle → t ∉ x.subs := by
    rintro t c rfl hpc ht
    simp [owns, hpc, ht] at ho
  have hnot : ∀ t ∈ x.subs, x.pc ≠ .idle → ∀ c, l ≠ .call t c :=
    fun t ht hpc c hc => hcall t c hc hpc ht
  have hsame := observe_same hs hl
  have hle : (∀ p, (x.observe g s' l).found p = true → x.found p = true) ∧
      ∀ p r, (x.observe g s' l).claimed p r = true → x.claimed p r = true := by
    cases l with
    | run t c => exact absurd rfl (hl t c)
    | call t c =>
      refine ⟨fun p hp => ?_, fun p r hp => ?_⟩
      · by_cases hpt : p = t
        · simp [observe, foundAfter, hpt] at hp
        · simpa [observe, foundAfter, Function.update_of_ne hpt] using hp
      · by_cases hpt : p = t
        · simp [observe, claimedAfter, hpt] at hp
        · simpa [observe, claimedAfter, Function.update_of_ne hpt] using hp
    | _ => exact ⟨fun _ => id, fun _ _ => id⟩
  refine ⟨hI.base.still hg hs hl hf hle.1 hle.2, hI.polled, fun hpc t ht => ?_, fun t u ht hu => ?_,
    fun t ht => ?_⟩
  · obtain ⟨u, hu, hwk, hat⟩ := hI.listed hpc t ht
    obtain ⟨vs, hvs⟩ := hst.sub t u hu (hnot t ht hpc)
    exact ⟨_, hvs, hwk, hat⟩
  · have ht : x.arming = some t := ht
    obtain ⟨hpc, hmem⟩ := mem_of_arming ht
    obtain ⟨w, hw, -, -⟩ := hI.listed hpc t hmem
    obtain ⟨vs, hvs⟩ := hst.sub t w hw (hnot t hmem hpc)
    obtain ⟨hcheck, harmed⟩ := hI.mode t w ht hw
    obtain rfl : { w with views := vs } = u := by
      rw [show (x.observe g s' l).sys.th t = s'.th t from rfl, hvs] at hu
      exact Local.sub.inj hu
    refine ⟨fun cur hcur => ?_, fun hlv hstate => ?_⟩
    · rw [show (x.observe g s' l).sys.mem = x.sys.mem from hst.mem]
      exact hcheck cur hcur
    · exact (harmed hlv hstate).still hst (hnot t hmem hpc) rfl hrd hsame
  · have ht : t ∈ x.armed := ht
    obtain ⟨hpc, hmem⟩ := mem_of_armed ht
    exact (hI.armed t ht).still hst (hnot t hmem hpc) rfl hrd hsame

end Still

/-! ## The steps of the thread -/

section Thread

/-- A step of the thread between two calls on its subscribers. -/
theorem Inv.goto (hI : Inv g proc x) {readable : Nat → Bool} {result : Bool} {pc : WaitPc}
    (hx : x.pc ≠ .idle) (hrest : ∀ t ∈ x.subs, ∃ u, x.sys.th t = .sub u ∧ u.pc = .live)
    (hpc : ∀ i ready capped, pc ≠ .arming i ready capped)
    (harmed : ∀ t ∈ WaitAny.armed { x with readable := readable, result := result, pc := pc },
      WaitAny.Armed { x with readable := readable, result := result, pc := pc } t) :
    Inv g proc { x with readable := readable, result := result, pc := pc } := by
  refine ⟨hI.base, fun _ => hI.polled hx, fun _ t ht => ?_, fun t u ht hu => ?_, harmed⟩
  · obtain ⟨u, hu, hwk, -⟩ := hI.listed hx t ht
    obtain ⟨w, hw, hl⟩ := hrest t ht
    obtain rfl : w = u := by
      rw [hu] at hw
      exact (Local.sub.inj hw).symm
    exact ⟨w, hu, hwk, .inl hl⟩
  · obtain ⟨i, ready, capped, hxpc, -⟩ := arming_cases ht
    exact absurd hxpc (hpc i ready capped)

/-- Between two calls every subscriber is at rest. -/
theorem Inv.rest (hI : Inv g proc x) (hx : x.pc ≠ .idle) (hw : ∀ t pc, ¬x.Working t pc) :
    ∀ t ∈ x.subs, ∃ u, x.sys.th t = .sub u ∧ u.pc = .live := by
  intro t ht
  obtain ⟨u, hu, -, hat⟩ := hI.listed hx t ht
  exact ⟨u, hu, hat.resolve_right (hw t _)⟩

/-- The end of a call: the subscriber it was made on is back at rest. -/
theorem Inv.rest_of_live (hI : Inv g proc x) (hx : x.pc ≠ .idle) {t : ι} {u : Sub}
    (hu : x.sys.th t = .sub u) (hl : u.pc = .live) (hw : ∀ v pc, x.Working v pc → v = t) :
    ∀ v ∈ x.subs, ∃ w, x.sys.th v = .sub w ∧ w.pc = .live := by
  intro v hv
  obtain ⟨w, hwv, -, hat⟩ := hI.listed hx v hv
  rcases hat with hat | hat
  · exact ⟨w, hwv, hat⟩
  · obtain rfl := hw v _ hat
    exact ⟨u, hu, hl⟩

/-- The start of a call on a listed subscriber. -/
theorem Inv.calls (hg : g.Valid) (hI : Inv g proc x) {s' : Sys ι} {t : ι} {k : Call} {pc : WaitPc}
    (hx : x.pc ≠ .idle) (hs : x.sys.next g proc (.call t k) = some s')
    (hrest : ∀ t ∈ x.subs, ∃ u, x.sys.th t = .sub u ∧ u.pc = .live) (ht : t ∈ x.subs)
    (hwork : ∀ u : Sub, ∀ l, u.pc = .live → (Local.sub u).call g k = some l → ∃ u', l = .sub u' ∧
      u'.waker = u.waker ∧ WaitAny.Working { x with sys := s', pc := pc } t u'.pc ∧
        u'.pc ≠ .live ∧ ∀ cur, u'.pc ≠ .armCheck cur)
    (harming : ∀ v, WaitAny.arming { x with sys := s', pc := pc } = some v → v = t)
    (harmed : ∀ v ∈ WaitAny.armed { x with sys := s', pc := pc }, v ∈ x.armed ∧ v ≠ t) :
    Inv g proc { x with sys := s', pc := pc } := by
  have hst := Sys.still_next hs fun _ _ h => by cases h
  have hself : ∃ u u', x.sys.th t = .sub u ∧ u.waker = true ∧ s'.th t = .sub u' ∧ u'.waker = true ∧
      WaitAny.Working { x with sys := s', pc := pc } t u'.pc ∧ u'.pc ≠ .live ∧
        ∀ cur, u'.pc ≠ .armCheck cur := by
    obtain ⟨u, hu, hwk, -⟩ := hI.listed hx t ht
    obtain ⟨w, hw, hl⟩ := hrest t ht
    obtain rfl : w = u := by
      rw [hu] at hw
      exact (Local.sub.inj hw).symm
    obtain ⟨-, l, hc, rfl⟩ := Sys.call_cases hs
    rw [hu] at hc
    obtain ⟨u', rfl, hwk', hwork', hne, hnc⟩ := hwork w l hl hc
    exact ⟨w, u', hu, hwk, by simp, by rw [hwk', hwk], hwork', hne, hnc⟩
  refine ⟨hI.base.still hg hs (fun _ _ h => by cases h) trivial (fun _ => id) fun _ _ => id,
    fun _ => hI.polled hx, fun _ v hv => ?_, fun v u hv hu => ?_, fun v hv => ?_⟩
  · by_cases hvt : v = t
    · subst hvt
      obtain ⟨-, u', -, -, hu', hwk, hwork', -, -⟩ := hself
      exact ⟨u', hu', hwk, .inr hwork'⟩
    · obtain ⟨u, hu, hwk, -⟩ := hI.listed hx v hv
      obtain ⟨w, hw, hl⟩ := hrest v hv
      obtain rfl : w = u := by
        rw [hu] at hw
        exact (Local.sub.inj hw).symm
      obtain ⟨vs, hvs⟩ := hst.sub v w hu fun c h => by
        obtain ⟨rfl, -⟩ := Label.call.inj h
        exact hvt rfl
      exact ⟨_, hvs, hwk, .inl hl⟩
  · obtain rfl := harming v hv
    obtain ⟨-, u', -, -, hu', -, -, hne, hnc⟩ := hself
    obtain rfl : u' = u := by
      rw [show WaitAny.sys { x with sys := s', pc := pc } = s' from rfl, hu'] at hu
      exact Local.sub.inj hu
    exact ⟨fun cur hcur => absurd hcur (hnc cur), fun hl => absurd hl hne⟩
  · obtain ⟨hv', hvt⟩ := harmed v hv
    refine (hI.armed v hv').still hst (fun c h => ?_) rfl rfl fun _ _ _ _ => ⟨rfl, rfl⟩
    obtain ⟨rfl, -⟩ := Label.call.inj h
    exact hvt rfl

theorem Inv.start (hI : Inv g proc x) {subs : List ι} (hx : x.pc = .idle)
    (hrest : subs.all x.atRest = true) (hf : fair g proc x (.start subs)) :
    Inv g proc (x.start subs) := by
  unfold WaitAny.start
  split_ifs with hnil
  · refine ⟨hI.base, fun h => absurd hx h, fun h => absurd hx h, fun t u ht hu => ?_, fun t ht => ?_⟩
    · exact absurd hx (mem_of_arming ht).1
    · exact absurd hx (mem_of_armed ht).1
  · refine ⟨hI.base, fun _ t ht => ?_, fun _ t ht => ?_, fun t u ht hu => ?_, fun t ht => ?_⟩
    · refine List.mem_eraseDups.2 (List.mem_map_of_mem (List.mem_filter.2 ⟨ht, hf t ht⟩))
    · have hr := List.all_eq_true.1 hrest t ht
      have hw := hf t ht
      simp only [atRest] at hr
      simp only [hasWaker] at hw
      cases hu : x.sys.th t with
      | sub u =>
        rw [hu] at hr hw
        exact ⟨u, rfl, hw, .inl (of_decide_eq_true hr)⟩
      | _ =>
        rw [hu] at hr
        cases hr
    · obtain ⟨i, ready, capped, hpc, -⟩ := arming_cases ht
      cases hpc
    · cases ht

/-- The thread calls `arm_wait` on the next subscriber, or has called it on all. -/
theorem Inv.go_arm (hg : g.Valid) (hI : Inv g proc x) {y : WaitAny ι} {c : Bool} {i : Nat}
    {ready capped : Bool} (hpc : x.pc = .arm i ready capped) (h : x.go g proc c = some y) :
    Inv g proc y := by
  have hx : x.pc ≠ .idle := by simp [hpc]
  have hrest := hI.rest hx fun t pc => by simp [Working, hpc]
  simp only [go, hpc] at h
  split at h
  · rename_i t hi
    obtain ⟨s', hs, rfl⟩ := Option.map_eq_some_iff.1 h
    refine hI.calls hg hx hs hrest (List.mem_of_getElem? hi) (fun u l hl hc => ?_) (fun v hv => ?_)
      fun v hv => ?_
    · simp only [Local.call, hl, reduceCtorEq, if_false, if_true] at hc
      obtain rfl := Option.some.inj hc
      exact ⟨_, rfl, rfl, ⟨hi, rfl⟩, by simp [Sub.armWait], by simp [Sub.armWait]⟩
    · exact Option.some.inj (hv.symm.trans hi)
    · cases ready <;> cases capped <;>
        first | (simp only [WaitAny.armed, List.not_mem_nil] at hv; done) | skip
      simp only [WaitAny.armed, List.mem_filter, decide_eq_true_eq] at hv
      refine ⟨?_, fun hvt => hv.2 (by rw [hi, hvt])⟩
      simp only [WaitAny.armed, hpc]
      exact hv.1
  · rename_i hi
    split_ifs at h with hdone
    · obtain rfl := Option.some.inj h
      exact hI.goto hx hrest (by simp) fun t ht => by cases ht
    · obtain rfl := Option.some.inj h
      refine hI.goto hx hrest (by simp) fun t ht => ?_
      cases hcap : (capped || !x.covered)
      · -- everybody has answered `Armed`
        rw [hcap] at ht
        have hready : ready = false := by
          cases ready
          · rfl
          · exact absurd (.inl rfl) hdone
        have hcapped : capped = false := by
          cases capped
          · rfl
          · cases hcap
        refine hI.armed t ?_
        simp only [WaitAny.armed, hpc, hready, hcapped]
        rw [List.take_of_length_le (List.getElem?_eq_none_iff.1 hi)]
        exact ht
      · rw [hcap] at ht
        cases ht

/-- An `arm_wait` returns. -/
theorem Inv.go_arming (hI : Inv g proc x) {y : WaitAny ι} {c : Bool} {i : Nat} {ready capped : Bool}
    (hpc : x.pc = .arming i ready capped) (h : x.go g proc c = some y) : Inv g proc y := by
  have hx : x.pc ≠ .idle := by simp [hpc]
  simp only [go, hpc] at h
  split at h
  case h_2 => cases h
  rename_i t hi
  split at h
  case h_2 => cases h
  rename_i u hu
  split_ifs at h with hl
  obtain rfl := Option.some.inj h
  have hrest := hI.rest_of_live hx hu hl fun v pc hw => by
    simp only [Working, hpc] at hw
    exact Option.some.inj (hw.1.symm.trans hi)
  refine hI.goto hx hrest (by simp) fun v hv => ?_
  cases hready : (ready || decide (u.waitState = .ready))
  case true =>
    rw [hready] at hv
    cases hv
  cases hcapped : (capped || decide (u.waitState = .poll))
  case true =>
    rw [hready, hcapped] at hv
    cases hv
  -- this one answered `Armed`, and so did those before it
  rw [hready, hcapped] at hv
  simp only [Bool.or_eq_false_iff, decide_eq_false_iff_not] at hready hcapped
  have hstate : u.waitState = .armed := by
    cases hs : u.waitState with
    | ready => exact absurd hs hready.2
    | poll => exact absurd hs hcapped.2
    | armed => rfl
  by_cases hvt : v = t
  · subst hvt
    have harming : x.arming = some v := by
      simp only [WaitAny.arming, hpc, hi]
    exact (hI.mode v u harming hu).2 hl hstate
  · refine hI.armed v ?_
    simp only [WaitAny.armed, hpc, hready.1, hcapped.1, List.mem_filter, decide_eq_true_eq]
    have hv' : v ∈ x.subs.take (i + 1) := hv
    rw [List.take_add_one, hi, List.mem_append] at hv'
    refine ⟨hv'.resolve_right fun hm => hvt ?_, fun e => hvt (Option.some.inj (hi.symm.trans e)).symm⟩
    simpa using hm

/-- A step of the thread. -/
theorem Inv.go (hg : g.Valid) (hI : Inv g proc x) {y : WaitAny ι} {c : Bool}
    (h : x.go g proc c = some y) : Inv g proc y := by
  cases hpc : x.pc with
  | idle => simp [WaitAny.go, hpc] at h
  | arm i ready capped => exact hI.go_arm hg hpc h
  | arming i ready capped => exact hI.go_arming hpc h
  | wait capped =>
    have hx : x.pc ≠ .idle := by simp [hpc]
    have hrest := hI.rest hx fun t pc => by simp [Working, hpc]
    simp only [WaitAny.go, hpc] at h
    split_ifs at h
    obtain rfl := Option.some.inj h
    exact hI.goto hx hrest (by simp) fun t ht => by cases ht
  | disarm i ready spent =>
    have hx : x.pc ≠ .idle := by simp [hpc]
    have hrest := hI.rest hx fun t pc => by simp [Working, hpc]
    simp only [WaitAny.go, hpc] at h
    split at h
    · rename_i t hi
      obtain ⟨s', hs, rfl⟩ := Option.map_eq_some_iff.1 h
      refine hI.calls hg hx hs hrest (List.mem_of_getElem? hi) (fun u l hl hc => ?_) (fun v hv => ?_)
        fun v hv => by cases hv
      · simp only [Local.call, hl, reduceCtorEq, if_false, if_true] at hc
        obtain rfl := Option.some.inj hc
        exact ⟨_, rfl, rfl, ⟨hi, rfl⟩, by simp [Sub.disarmWait], by simp [Sub.disarmWait]⟩
      · obtain ⟨_, _, _, hv', -⟩ := arming_cases hv
        cases hv'
    · obtain rfl := Option.some.inj h
      exact hI.goto hx hrest (by simp) fun t ht => by cases ht
  | disarming i ready spent =>
    have hx : x.pc ≠ .idle := by simp [hpc]
    simp only [WaitAny.go, hpc] at h
    split at h
    case h_2 => cases h
    rename_i t hi
    split_ifs at h with hl
    obtain rfl := Option.some.inj h
    simp only [atRest] at hl
    split at hl
    case h_2 => cases hl
    rename_i u hu
    have hrest := hI.rest_of_live hx hu (of_decide_eq_true hl) fun v pc hw => by
      simp only [Working, hpc] at hw
      exact Option.some.inj (hw.1.symm.trans hi)
    exact hI.goto hx hrest (by simp) fun t ht => by cases ht
  | drain ws ready spent =>
    have hx : x.pc ≠ .idle := by simp [hpc]
    have hrest := hI.rest hx fun t pc => by simp [Working, hpc]
    cases ws with
    | nil =>
      simp only [WaitAny.go, hpc] at h
      split_ifs at h
      · obtain rfl := Option.some.inj h
        exact hI.goto hx hrest (by simp) fun t ht => by cases ht
      · obtain rfl := Option.some.inj h
        exact hI.goto hx hrest (by simp) fun t ht => by cases ht
    | cons w ws =>
      simp only [WaitAny.go, hpc] at h
      obtain rfl := Option.some.inj h
      exact hI.goto hx hrest (by simp) fun t ht => by cases ht

theorem inv_init (hg : g.Valid) (h : Init g proc x) : Inv g proc x := by
  have hidle := h.pc
  refine ⟨⟨Sys.sequenced_init hg h.sys, fun t => ?_, h.backend, fun p hp => ?_, fun p r hp => ?_⟩,
    fun hx => absurd hidle hx, fun hx => absurd hidle hx, fun t u ht => ?_, fun t ht => ?_⟩
  · have := h.sys.th t
    cases hu : x.sys.th t with
    | sub u =>
      rw [hu] at this
      simp only [Local.Behind, Sub.Behind, this.2.2.2]
    | _ => trivial
  · simp [h.found p] at hp
  · simp [h.claimed p r] at hp
  · exact absurd hidle (mem_of_arming ht).1
  · exact absurd hidle (mem_of_armed ht).1

theorem Inv.next (hg : g.Valid) (hI : Inv g proc x) {y : WaitAny ι} {l : WaitLabel ι}
    (h : x.next g proc l = some y) (hf : fair g proc x l) : Inv g proc y := by
  cases l with
  | sys l =>
    simp only [WaitAny.next] at h
    split_ifs at h with ho
    obtain ⟨s', hs, rfl⟩ := Option.map_eq_some_iff.1 h
    by_cases hl : ∃ t c, l = .run t c
    · obtain ⟨t, c, rfl⟩ := hl
      obtain ⟨-, op, hop, rfl⟩ := Sys.ran_cases hs
      exact hI.ran hop hg hs hf
    · exact hI.still hg hs (fun t c hc => hl ⟨t, c, hc⟩) hf (by simpa using ho)
  | start subs =>
    simp only [WaitAny.next] at h
    split_ifs at h with hc
    obtain rfl := Option.some.inj h
    exact hI.start hc.1 hc.2 hf
  | go c => exact hI.go hg h

end Thread

/-! ## Runs -/

section Runs

theorem inv_reach (hg : g.Valid) (h : (machine g proc).Reach (fun x l _ => fair g proc x l) x) :
    Inv g proc x :=
  h.invariant (fun _ h0 => inv_init hg h0) fun _ _ _ hI hst hok => hI.next hg hst hok

/-- No actor steals. -/
def unstolen (x : WaitAny ι) : WaitLabel ι → Prop
  | .sys (.run v _) => (x.sys.th v).steal = none
  | _ => True

omit [DecidableEq ι] in
theorem unstolen_init (h : Init g proc x) : Sys.Unstolen g x.sys := by
  have hidle : ∀ p u, x.sys.th p = .pub u → u.pc = .idle := fun p u hu => by
    have := h.sys.th p
    rw [hu] at this
    exact this.2.2
  refine ⟨fun p q u w y hu hw hy => ?_, fun p u r pos hu hc => ?_, fun p u pos hu hwr => ?_,
    fun p u d pos hu hpc => ?_, fun p u d hu hbl => ?_⟩
  · rw [hidle p u hu] at hy
    cases hy
  · rw [hidle p u hu] at hc
    cases hc
  · rw [hidle p u hu] at hwr
    cases hwr
  · rw [hidle p u hu] at hpc
    cases hpc
  · rw [hidle p u hu] at hbl
    cases hbl

theorem Inv.unstolen_next (hg : g.Valid) (hI : Inv g proc x) (hU : Sys.Unstolen g x.sys) {y : WaitAny ι}
    {l : WaitLabel ι} (h : x.next g proc l = some y) (hok : unstolen x l) : Sys.Unstolen g y.sys := by
  cases l with
  | sys l =>
    simp only [WaitAny.next] at h
    split_ifs at h with ho
    obtain ⟨s', hs, rfl⟩ := Option.map_eq_some_iff.1 h
    by_cases hl : ∃ t c, l = .run t c
    · obtain ⟨t, c, rfl⟩ := hl
      obtain ⟨-, op, hop, rfl⟩ := Sys.ran_cases hs
      exact hU.run hg hI.base.seq hop hok
    · exact hU.still (Sys.still_next hs fun t c hc => hl ⟨t, c, hc⟩)
  | start subs =>
    simp only [WaitAny.next] at h
    split_ifs at h with hc
    obtain rfl := Option.some.inj h
    unfold WaitAny.start
    split_ifs
    · exact hU
    · exact hU
  | go c =>
    have hcall : ∀ {t k s'}, x.sys.next g proc (.call t k) = some s' → Sys.Unstolen g s' := fun hs =>
      hU.still (Sys.still_next hs fun _ _ h => by cases h)
    simp only [WaitAny.next, WaitAny.go] at h
    (repeat' split at h) <;>
      first
        | (obtain rfl := Option.some.inj h; exact hU)
        | (obtain ⟨s', hs, rfl⟩ := Option.map_eq_some_iff.1 h; exact hcall hs)
        | cases h

/-- A blocked `wait_any` has armed every subscriber. -/
theorem Inv.blocked (hI : Inv g proc x) (hx : x.Blocked) {t : ι} (ht : t ∈ x.subs) {u : Sub}
    (hu : x.sys.th t = .sub u) : x.sys.mem (.hasWaiter u.ringIdx) = waiterCarrier ∧
      (u.readPos < x.sys.wpos u.ringIdx → x.Ready ∨ ∃ p, x.Owing p u.ringIdx) := by
  have harmed : t ∈ x.armed := by
    simp only [WaitAny.armed, show x.pc = .wait false from hx]
    exact ht
  obtain ⟨w, hw, -, hmode, hduty⟩ := hI.armed t harmed
  obtain rfl : w = u := by
    rw [hu] at hw
    exact (Local.sub.inj hw).symm
  exact ⟨hmode, hduty⟩

/-- A publisher on its way to `signal()` makes it before it leaves `publish()`, if `wait_any` stays
blocked. -/
theorem Inv.owing_next (hI : Inv g proc x) (hx : x.Blocked) {t : ι} (ht : t ∈ x.subs) {u : Sub}
    (hu : x.sys.th t = .sub u) {p : ι} (hp : x.Owing p u.ringIdx) {y : WaitAny ι} {l : WaitLabel ι}
    (h : x.next g proc l = some y) (hy : y.Blocked) :
    y.Owing p u.ringIdx ∨ ∃ c, l = .sys (.run p c) ∧ (x.sys.th p).request g = some .signal := by
  obtain ⟨hmode, -⟩ := hI.blocked hx ht hu
  cases l with
  | sys l =>
    simp only [WaitAny.next] at h
    split_ifs at h with ho
    obtain ⟨s', hs, rfl⟩ := Option.map_eq_some_iff.1 h
    by_cases hl : ∃ t c, l = .run t c
    · obtain ⟨v, c, rfl⟩ := hl
      obtain ⟨-, op, hop, rfl⟩ := Sys.ran_cases hs
      rcases hp.ran hop hI.base hmode with hp' | ⟨rfl, rfl⟩
      · exact .inl hp'
      · exact .inr ⟨c, rfl, hop⟩
    · have hl' : ∀ t c, l ≠ .run t c := fun t c hc => hl ⟨t, c, hc⟩
      exact .inl (hp.still (Sys.still_next hs hl') (observe_same hs hl'))
  | start subs =>
    simp only [WaitAny.next] at h
    split_ifs at h with hc
    rw [hx] at hc
    cases hc.1
  | go c =>
    -- the wait is over
    simp only [WaitAny.next, WaitAny.go, show x.pc = .wait false from hx] at h
    split_ifs at h
    obtain rfl := Option.some.inj h
    cases hy

/-- `wait_any` misses no publication. While it is blocked on an uncapped budget and a listed subscriber
has `write_pos > read_pos`, a polled descriptor is readable or a live publisher is inside `publish()` past
its claim on that ring and on its way to `signal()`; such a publisher stays on its way, whatever happens,
until it makes the call. In runs without steals, a publisher in the blocking part of `wait_for_commit` has
not found a ring in carrier mode since it last called `signal()`. -/
theorem wait_any_misses_nothing (hg : g.Valid) :
    (∀ x, (machine g proc).Reach (fun x l _ => fair g proc x l) x → x.Blocked →
      (∀ t ∈ x.subs, ∀ u, x.sys.th t = .sub u → u.readPos < x.sys.wpos u.ringIdx →
        x.Ready ∨ ∃ p, x.Owing p u.ringIdx ∧ x.sys.alive proc p = true) ∧
      ∀ t ∈ x.subs, ∀ u, x.sys.th t = .sub u → ∀ p, x.Owing p u.ringIdx → ∀ l y,
        x.next g proc l = some y → fair g proc x l → y.Blocked →
        y.Owing p u.ringIdx ∨ ∃ c, l = .sys (.run p c) ∧ (x.sys.th p).request g = some .signal) ∧
    ∀ x, (machine g proc).Reach (fun x l _ => fair g proc x l ∧ unstolen x l) x →
      ∀ p u d, x.sys.th p = .pub u → u.pc.blocking = some d → x.found p = false := by
  refine ⟨fun x h hx => ?_, fun x h p u d hu hbl => ?_⟩
  · have hI := inv_reach hg h
    refine ⟨fun t ht u hu hlt => ?_, fun t ht u hu p hp l y hs _ hy => hI.owing_next hx ht hu hp hs hy⟩
    obtain ⟨-, hduty⟩ := hI.blocked hx ht hu
    exact (hduty hlt).imp_right fun ⟨p, hp⟩ => ⟨p, hp, (hI.base.claimed p _ hp.1).1⟩
  · have hI := inv_reach hg (h.mono fun _ _ _ _ hok => hok.1)
    have hU : Sys.Unstolen g x.sys := LTS.Reach.invariant_of (J := Inv g proc)
      (I := fun x => Sys.Unstolen g x.sys)
      (fun hr => inv_reach hg (hr.mono fun _ _ _ _ hok => hok.1)) (fun _ h0 => unstolen_init h0)
      (fun _ _ _ hJ hU hs hok => hJ.unstolen_next hg hU hs hok.2) h
    have hcar : d.carrier = false :=
      (hU.blocking p u d hu hbl).resolve_right (by simp [hI.base.backend p u hu])
    by_contra hf
    obtain ⟨w, hw, hc⟩ := hI.base.found p (by simpa using hf)
    obtain rfl : w = u := by
      rw [hu] at hw
      exact (Local.pub.inj hw).symm
    cases e : w.pc <;> rw [e] at hbl hc <;>
      simp only [PubPc.blocking, Option.some.injEq, reduceCtorEq] at hbl <;> subst hbl <;>
      simp [PubPc.carrying, PubPc.locals, hcar] at hc

end Runs

section Crew

/-- Publishers 0 and 1 have a backend. Subscriber 3 joins with a `Waker`, `wait_any` arms it and blocks,
and publisher 0 claims a position. -/
def waiting : WaitAny (Fin 9) where
  sys :=
    { Sys.crew Sys.smallGeometry with
      th := fun t =>
        match (Sys.crew Sys.smallGeometry).th t with
        | .pub u => .pub { u with backend := true }
        | l => l }
  waker := fun _ => 7
  readable := fun _ => false
  subs := []
  wakers := []
  covered := true
  result := false
  pc := .idle
  found := fun _ => false
  claimed := fun _ _ => false

theorem init_waiting : Init Sys.smallGeometry Sys.crewProc waiting where
  sys :=
    { Sys.init_crew Sys.smallGeometry with
      th := fun t => by fin_cases t <;> simp [waiting, Sys.crew, Local.Fresh, Sys.crewProc] }
  backend p u hu := by
    fin_cases p <;> simp only [waiting, Sys.crew] at hu <;> cases hu <;> rfl
  pc := rfl
  found _ := rfl
  claimed _ _ := rfl

def waits : List (WaitLabel (Fin 9)) :=
  (.call 3 (.join true) :: Sys.runs 3 5).map .sys ++ [.start [3], .go false] ++
    (Sys.runs 3 4).map .sys ++ [.go false, .go false] ++
    (.call 0 .allocate :: Sys.runs 0 3 ++ .call 0 (.publish 1) :: Sys.runs 0 5).map .sys

/-- `fair` as a test, for runs in which nobody exits. -/
def steady (g : Geometry) (x : WaitAny (Fin 9)) : WaitLabel (Fin 9) → Bool
  | .sys (.run v c) => x.sys.inRange (.run v c) && x.subs.all fun t => decide (v = t) ||
      match x.sys.th t with
      | .sub u => decide (((x.sys.th v).request g).bind Op.target ≠ some (.hasWaiter u.ringIdx))
      | _ => true
  | .sys (.exit _) => false
  | .start subs => subs.all x.hasWaker
  | _ => true

theorem fair_of_steady {proc : Fin 9 → Nat × Nat} {x : WaitAny (Fin 9)} {l : WaitLabel (Fin 9)}
    (h : steady g x l = true) : fair g proc x l := by
  cases l with
  | sys l =>
    cases l with
    | run v c =>
      simp only [steady, Bool.and_eq_true, List.all_eq_true, Bool.or_eq_true, decide_eq_true_eq] at h
      refine ⟨h.1, fun _ t ht hvt u hu => ?_⟩
      have := (h.2 t ht).resolve_left hvt
      rw [hu] at this
      exact of_decide_eq_true this
    | exit pid => cases h
    | _ => trivial
  | start subs => exact fun t ht => List.all_eq_true.1 h t ht
  | go c => trivial

theorem wait_any_misses_nothing_crew : ∃ x : WaitAny (Fin 9),
    (x.Blocked ∧ 3 ∈ x.subs ∧ ∃ u, x.sys.th 3 = .sub u ∧ u.readPos < x.sys.wpos u.ringIdx) ∧
      (x.Ready ∨ ∃ p r, x.Owing p r) := by
  have h0 : (machine Sys.smallGeometry Sys.crewProc).Reach
      (fun x l _ => steady Sys.smallGeometry x l = true) waiting := .init init_waiting
  obtain ⟨x, hx, hP⟩ := LTS.Reach.play_any h0 waits
    (fun x : WaitAny (Fin 9) => decide (x.pc = .wait false) && decide (3 ∈ x.subs) &&
      match x.sys.th 3 with
      | .sub u => decide (u.readPos < x.sys.wpos u.ringIdx)
      | _ => false) (by decide +kernel)
  simp only [Bool.and_eq_true, decide_eq_true_eq] at hP
  obtain ⟨⟨hblocked, hmem⟩, hP⟩ := hP
  split at hP
  case h_2 => simp at hP
  rename_i u hu
  have hlt := of_decide_eq_true hP
  obtain ⟨hwait, -⟩ := @wait_any_misses_nothing (Fin 9) _ _ Sys.crewProc Sys.valid_smallGeometry
  obtain ⟨hduty, -⟩ := hwait x (hx.mono fun _ _ _ _ hok => fair_of_steady hok) hblocked
  refine ⟨x, ⟨hblocked, hmem, u, hu, hlt⟩, ?_⟩
  exact (hduty 3 hmem u hu hlt).imp_right fun ⟨p, hp, _⟩ => ⟨p, _, hp⟩

end Crew

end WaitAny

end Kickmsg
