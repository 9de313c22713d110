import Kickmsg.Blackboard.Exclusivity
import Kickmsg.Lib.Trace
import Mathlib.Data.Finset.Card

/-!
# Waiting for a change

`Blackboard::wait` beside the actors of a board. A caller counts itself in `waiters`, looks at `change_seq`
once more and goes to sleep if its low half is still what it was given; `notify_change` moves `change_seq`
first and looks at `waiters` last. Whenever a caller sleeps on a stale value, a notifier that has moved
`change_seq` is on its way to wake it.
-/

namespace Kickmsg.Blackboard

open Lib

/-- What `wait` returns: `{}`, or `errc::timed_out`. -/
inductive WaitOutcome
  | moved
  | timedOut
  deriving DecidableEq

/-- The next step of a `wait`. A `parked` caller has fallen asleep when `futex_wake_all` had been called `wakes`
times. `seen` is bookkeeping: the changes counted at the re-check. -/
inductive WaitPc
  | idle
  | start
  | look
  | clock
  | register
  | recheck
  | quit
  | park (seen : Nat)
  | parked (seen wakes : Nat)
  | unregister
  deriving DecidableEq

/-- A caller of `wait`: `last_seen`, `timeout`, the first clock reading, the last answer. `calls` is bookkeeping. -/
structure Waiter where
  lastSeen : Nat
  timeout : Nat
  start : Nat
  calls : Nat
  result : Option WaitOutcome
  pc : WaitPc
  deriving DecidableEq

/-- Between the increment of `waiters` and the decrement. -/
def WaitPc.registered : WaitPc → Bool
  | .recheck | .quit | .park _ | .parked _ _ | .unregister => true
  | _ => false

/-- Between the `fetch_add` of `change_seq` and the end of `notify_change`. -/
def Pc.notifying : Pc → Bool
  | .notifyWaiters _ _ | .notifyWake _ _ => true
  | _ => false

namespace Waiter

/-- `wait` up to its first step. -/
def call (u : Waiter) (lastSeen timeout : Nat) : Option Waiter :=
  match u.pc with
  | .idle => some ⟨u64 lastSeen, timeout, 0, u.calls + 1, none, .start⟩
  | _ => none

/-- About to return success, or it has returned it. -/
def Succeeds (u : Waiter) : Prop := u.pc = .quit ∨ u.result = some .moved

/-- One step of `wait`, on the words of the board. The word `change_seq` is the count of changes modulo `2 ^ 64`, and
the kernel compares its low half. A sleep ends by a wake, by its timeout or by a signal, whatever `wait` is told. -/
def step (m : Loc → Nat) (wakes now : Nat) (u : Waiter) : Option ((Loc → Nat) × Waiter) :=
  match u.pc with
  | .idle => none
  | .start => some (m, { u with start := now, pc := .look })
  | .look =>
    if u64 (m .changeSeq) ≠ u.lastSeen then some (m, { u with result := some .moved, pc := .idle })
    else some (m, { u with pc := .clock })
  | .clock =>
    if u.timeout ≤ now - u.start then some (m, { u with result := some .timedOut, pc := .idle })
    else some (m, { u with pc := .register })
  | .register => some (Function.update m .waiters (m .waiters + 1), { u with pc := .recheck })
  | .recheck =>
    if u64 (m .changeSeq) ≠ u.lastSeen then some (m, { u with pc := .quit })
    else some (m, { u with pc := .park (m .changeSeq) })
  | .quit =>
    some (Function.update m .waiters (m .waiters - 1), { u with result := some .moved, pc := .idle })
  | .park seen =>
    if u32 (m .changeSeq) = u32 u.lastSeen then some (m, { u with pc := .parked seen wakes })
    else some (m, { u with pc := .unregister })
  | .parked _ _ => some (m, { u with pc := .unregister })
  | .unregister => some (Function.update m .waiters (m .waiters - 1), { u with pc := .look })

theorem call_succeeds {u v : Waiter} {lastSeen timeout : Nat} (h : u.call lastSeen timeout = some v) :
    ¬ v.Succeeds := by
  unfold call at h
  split at h
  · obtain rfl := Option.some.inj h
    rintro (hv | hv) <;> cases hv
  · cases h

/-- A success comes from a look that found another value. -/
theorem step_succeeds {u v : Waiter} {m m' : Loc → Nat} {wakes now : Nat}
    (h : u.step m wakes now = some (m', v)) : v.calls = u.calls ∧ v.lastSeen = u.lastSeen ∧
      (v.Succeeds → u.Succeeds ∨ ((u.pc = .look ∨ u.pc = .recheck) ∧ u64 (m .changeSeq) ≠ u.lastSeen)) := by
  unfold step at h
  cases hpc : u.pc <;> rw [hpc] at h <;> dsimp only at h
  case idle => cases h
  case look | recheck =>
    split_ifs at h with hne <;> obtain ⟨-, rfl⟩ := Prod.mk.inj (Option.some.inj h)
    · exact ⟨rfl, rfl, fun _ => .inr ⟨by simp, hne⟩⟩
    · exact ⟨rfl, rfl, fun hv => .inl (.inr (hv.resolve_left nofun))⟩
  case quit =>
    obtain ⟨-, rfl⟩ := Prod.mk.inj (Option.some.inj h)
    exact ⟨rfl, rfl, fun _ => .inl (.inl hpc)⟩
  case clock =>
    split_ifs at h <;> obtain ⟨-, rfl⟩ := Prod.mk.inj (Option.some.inj h)
    · exact ⟨rfl, rfl, fun hv => by rcases hv with hv | hv <;> cases hv⟩
    · exact ⟨rfl, rfl, fun hv => .inl (.inr (hv.resolve_left nofun))⟩
  case park =>
    split_ifs at h <;> obtain ⟨-, rfl⟩ := Prod.mk.inj (Option.some.inj h) <;>
      exact ⟨rfl, rfl, fun hv => .inl (.inr (hv.resolve_left nofun))⟩
  all_goals
    obtain ⟨-, rfl⟩ := Prod.mk.inj (Option.some.inj h)
    exact ⟨rfl, rfl, fun hv => .inl (.inr (hv.resolve_left nofun))⟩

end Waiter

/-- A board with the callers of `wait`, and how often `futex_wake_all` has been called on `change_seq`. -/
structure WaitSys (ι κ : Type) where
  board : Shared ι Loc Actor (Trace ι)
  wakes : Nat
  wt : κ → Waiter

/-- A step of the board, a call of `wait`, or a step of one. -/
inductive WaitLabel (ι κ : Type)
  | board (l : Action ι Call)
  | wait (k : κ) (lastSeen timeout : Nat)
  | step (k : κ) (now : Nat)

namespace WaitSys

variable {ι κ : Type}

/-- The step is the `futex_wake_all` of a notifier. -/
def waking (s : WaitSys ι κ) : Action ι Call → Bool
  | .run t _ => match (s.board.th t).pc with
    | .notifyWake _ _ => true
    | _ => false
  | _ => false

/-- Caller `k` sleeps: nobody has called `futex_wake_all` since. -/
def Asleep (s : WaitSys ι κ) (k : κ) : Prop := ∃ seen, (s.wt k).pc = .parked seen s.wakes

/-- The word `change_seq`. -/
def seq (s : WaitSys ι κ) : Nat := u64 (s.board.mem .changeSeq)

variable [DecidableEq ι] [DecidableEq κ]

def next (g : Geometry) (proc : ι → Nat × Nat) (wproc : κ → Nat × Nat) (s : WaitSys ι κ) :
    WaitLabel ι κ → Option (WaitSys ι κ)
  | .board l => ((program ι g).next proc s.board l).map fun b =>
      { s with board := b, wakes := if s.waking l then s.wakes + 1 else s.wakes }
  | .wait k lastSeen timeout =>
    if s.board.world.alive (wproc k) then
      ((s.wt k).call lastSeen timeout).map fun u => { s with wt := Function.update s.wt k u }
    else none
  | .step k now =>
    if s.board.world.alive (wproc k) then
      ((s.wt k).step s.board.mem s.wakes now).map fun x =>
        { s with board := { s.board with mem := x.1 }, wt := Function.update s.wt k x.2 }
    else none

/-- A board that nobody has used. -/
structure Init (proc : ι → Nat × Nat) (s : WaitSys ι κ) : Prop where
  board : Blackboard.Init proc s.board
  wt : ∀ k, s.wt k = ⟨0, 0, 0, 0, none, .idle⟩

def machine (g : Geometry) (proc : ι → Nat × Nat) (wproc : κ → Nat × Nat) :
    LTS (WaitSys ι κ) (WaitLabel ι κ) :=
  .ofNext (Init proc) (next g proc wproc)

/-- No process dies inside `notify_change`, and fewer than `2 ^ 32` changes happen between the re-check of a caller
and the comparison in the kernel. -/
def Steady (proc : ι → Nat × Nat) (s : WaitSys ι κ) : WaitLabel ι κ → Prop
  | .board (.exit pid) => ∀ t, (s.board.th t).pc.notifying = true → (proc t).1 ≠ pid
  | .step k _ => ∀ seen, (s.wt k).pc = .park seen → s.board.mem .changeSeq < seen + 2 ^ 32
  | _ => True

/-- What holds in every state: `waiters` counts the callers between increment and decrement; a notifier runs; a
caller before its `futex_wait` has re-checked; and for one that sleeps on a stale value there is a notifier. -/
structure Inv (proc : ι → Nat × Nat) (s : WaitSys ι κ) : Prop where
  counted : ∃ q : Finset κ, q.card = s.board.mem .waiters ∧ ∀ k, k ∈ q ↔ (s.wt k).pc.registered = true
  alive : ∀ t, (s.board.th t).pc.notifying = true → s.board.world.alive (proc t) = true
  park : ∀ k seen, (s.wt k).pc = .park seen → u64 seen = (s.wt k).lastSeen ∧ seen ≤ s.board.mem .changeSeq
  woken : ∀ k seen n, (s.wt k).pc = .parked seen n → n ≤ s.wakes
  asleep : ∀ k, s.Asleep k → s.seq ≠ (s.wt k).lastSeen → ∃ t, (s.board.th t).pc.notifying = true

end WaitSys

/-! ## What the actors of the board do to the two words -/

namespace Actor

variable {g : Geometry} {a : Actor} {x : Access Loc Query} {r : Answer}

/-- Nobody but the callers of `wait` writes `waiters`. -/
theorem target_ne_waiters (h : a.request = some x) : x.target ≠ some .waiters := by
  unfold request at h
  cases hpc : a.pc <;> rw [hpc] at h <;> simp only [Option.some.injEq, reduceCtorEq] at h <;> subst h <;>
    simp [Access.target]

/-- Only `notify_change` moves `change_seq`. -/
theorem target_changeSeq (h : a.request = some x) (ht : x.target = some .changeSeq) :
    x = .fetchAdd .changeSeq 1 none ∧ ∃ locked o, a.pc = .notifySeq locked o := by
  unfold request at h
  cases hpc : a.pc <;> rw [hpc] at h <;> simp only [Option.some.injEq, reduceCtorEq] at h <;> subst h <;>
    simp only [Access.target, Option.some.injEq, reduceCtorEq] at ht
  exact ⟨rfl, _, _, rfl⟩

theorem notifying_of_changeSeq {locked : Bool} {o : Outcome} (h : a.pc = .notifySeq locked o) :
    (a.resume g r).pc.notifying = true := by
  simp only [resume, h]
  rfl

/-- A notifier that finds a waiter goes on to wake it. -/
theorem notifying_resume (h : a.request = some x) (hn : a.pc.notifying = true) :
    (x = .load .waiters ∧ (r.val ≠ 0 → (a.resume g r).pc.notifying = true)) ∨
      ∃ locked o, a.pc = .notifyWake locked o := by
  cases hpc : a.pc <;> rw [hpc] at hn <;> simp only [Pc.notifying, Bool.false_eq_true] at hn
  case notifyWaiters locked o =>
    refine .inl ⟨by simpa [request, hpc] using h.symm, fun hr => ?_⟩
    simp only [resume, hpc, if_neg hr]
    rfl
  case notifyWake locked o => exact .inr ⟨locked, o, rfl⟩

/-- No call starts inside `notify_change`. -/
theorem call_notifying {b : Actor} {c : Call} (h : a.call g c = some b) : b.pc.notifying = false := by
  have hseek : ∀ (u : Actor) q i, (u.seekAt g q i).pc.notifying = false := fun u q i => by
    unfold seekAt
    split_ifs <;> rfl
  have hresolve : ∀ (u : Actor) q, (u.resolve g q).pc.notifying = false := fun u q => by
    unfold resolve
    split
    · split_ifs
      · rfl
      · exact hseek ..
    · exact hseek ..
  have hlist : ∀ (u : Actor) l rows i, (u.listAt g l rows i).pc.notifying = false := fun u l rows i => by
    unfold listAt
    split_ifs
    · rfl
    · cases l <;> rfl
  rcases (call_cases h).2 with hb | ⟨j, hb, -⟩ | ⟨w, d, hb, -⟩ | ⟨u, r, size, -, rfl⟩ | ⟨u, l, rfl⟩
  · rw [hb]
    rfl
  · rw [hb]
    rfl
  · rw [hb]
    rfl
  · exact hresolve ..
  · exact hlist ..

end Actor

/-! ## The invariant -/

namespace WaitSys

variable {ι κ : Type} [DecidableEq ι] [DecidableEq κ] {g : Geometry} {proc : ι → Nat × Nat} {wproc : κ → Nat × Nat}
  {s s' : WaitSys ι κ}

omit [DecidableEq ι] [DecidableEq κ] in
theorem inv_init (h : Init proc s) : Inv proc s where
  counted := ⟨∅, (h.board.mem .waiters).symm, fun k => by simp [h.wt k, WaitPc.registered]⟩
  alive t ht := by
    rw [h.board.th t] at ht
    cases ht
  park k seen hk := by
    rw [h.wt k] at hk
    cases hk
  woken k seen n hk := by
    rw [h.wt k] at hk
    cases hk
  asleep k hk := by
    obtain ⟨seen, hk⟩ := hk
    rw [h.wt k] at hk
    cases hk

omit [DecidableEq ι] [DecidableEq κ] in
/-- While a caller is registered the word is not zero. -/
theorem Inv.waiters_ne_zero (h : Inv proc s) {k : κ} (hk : (s.wt k).pc.registered = true) :
    s.board.mem .waiters ≠ 0 := by
  obtain ⟨q, hq, hmem⟩ := h.counted
  rw [← hq]
  exact Finset.card_ne_zero_of_mem ((hmem k).mpr hk)

omit [DecidableEq κ] in
/-- An actor performs its next access. -/
theorem Inv.run {t : ι} {now : Nat} {a : Access Loc Query} (h : Inv proc s)
    (ha : s.board.world.alive (proc t) = true) (hreq : (s.board.th t).request = some a) :
    Inv proc { s with
      board := (program ι g).ran s.board t a now
      wakes := if s.waking (.run t now) then s.wakes + 1 else s.wakes } := by
  have hwaiters : ((program ι g).ran s.board t a now).mem .waiters = s.board.mem .waiters :=
    Access.exec_frame (Actor.target_ne_waiters hreq)
  have hth : ∀ v, v ≠ t → ((program ι g).ran s.board t a now).th v = s.board.th v := fun v hv =>
    Function.update_of_ne hv ..
  have hself : ((program ι g).ran s.board t a now).th t =
      (s.board.th t).resume g (a.exec verdict s.board.world.procs s.board.mem now).2 := Function.update_self ..
  refine ⟨?_, fun v hv => ?_, fun k seen hk => ?_, fun k seen n hk => ?_, fun k hk hstale => ?_⟩
  · rw [hwaiters]
    exact h.counted
  · by_cases hvt : v = t
    · rw [hvt]
      exact ha
    · rw [hth v hvt] at hv
      exact h.alive v hv
  · obtain ⟨he, hle⟩ := h.park k seen hk
    refine ⟨he, hle.trans ?_⟩
    by_cases hc : a.target = some .changeSeq
    · obtain ⟨rfl, -⟩ := Actor.target_changeSeq hreq hc
      simp [Program.ran, Access.exec]
    · exact (Access.exec_frame hc).ge
  · dsimp only
    split_ifs
    · exact (h.woken k seen n hk).trans (Nat.le_succ _)
    · exact h.woken k seen n hk
  · obtain ⟨seen, hk⟩ := hk
    cases hw : s.waking (.run t now) with
    | true =>
      -- nobody sleeps through the wake
      have hle := h.woken k seen _ hk
      simp only [hw, if_true] at hle
      omega
    | false =>
      have hsleep : (s.wt k).pc = .parked seen s.wakes := by simpa [hw] using hk
      by_cases hc : a.target = some .changeSeq
      · obtain ⟨-, locked, o, hpc⟩ := Actor.target_changeSeq hreq hc
        exact ⟨t, by
          rw [hself]
          exact Actor.notifying_of_changeSeq hpc⟩
      · have hseq : ((program ι g).ran s.board t a now).mem .changeSeq = s.board.mem .changeSeq :=
          Access.exec_frame hc
        obtain ⟨v, hv⟩ := h.asleep k ⟨seen, hsleep⟩ (by
          simp only [seq, hseq] at hstale
          exact hstale)
        by_cases hvt : v = t
        · subst hvt
          refine ⟨v, ?_⟩
          rw [hself]
          rcases Actor.notifying_resume (g := g) hreq hv with ⟨rfl, hn⟩ | ⟨locked, o, hpc⟩
          · exact hn (h.waiters_ne_zero (by
              rw [hsleep]
              rfl))
          · simp [waking, hpc] at hw
        · exact ⟨v, by
            rw [hth v hvt]
            exact hv⟩

/-- A call of the board starts outside `notify_change`, and the processes move on. -/
theorem Inv.board {l : Action ι Call} (h : Inv proc s) (hs : s.next g proc wproc (.board l) = some s')
    (hok : s.Steady proc (.board l)) : Inv proc s' := by
  obtain ⟨b, hb, rfl⟩ := Option.map_eq_some_iff.mp hs
  cases l with
  | run t now =>
    obtain ⟨ha, a, hreq, rfl⟩ := Program.run_cases hb
    exact h.run ha hreq
  | call t c =>
    obtain ⟨ha, a, hc, rfl⟩ := Program.call_cases hb
    have hnew : a.pc.notifying = false := Actor.call_notifying hc
    have hidle : (s.board.th t).pc = .idle := (Actor.call_cases hc).1
    have hth : ∀ v, ((Function.update s.board.th t a) v).pc.notifying = (s.board.th v).pc.notifying := fun v => by
      by_cases hv : v = t
      · rw [hv, Function.update_self, hnew, hidle]
        rfl
      · rw [Function.update_of_ne hv]
    refine ⟨h.counted, fun v hv => h.alive v ((hth v).symm.trans hv), h.park, h.woken, fun k hk hstale => ?_⟩
    obtain ⟨v, hv⟩ := h.asleep k hk hstale
    exact ⟨v, (hth v).trans hv⟩
  | exit pid =>
    obtain ⟨w, hw, rfl⟩ := Program.exit_cases hb
    refine ⟨h.counted, fun v hv => ?_, h.park, h.woken, h.asleep⟩
    exact World.alive_exit hw (hok v hv) (h.alive v hv)
  | spawn pid st =>
    obtain ⟨w, hw, rfl⟩ := Program.spawn_cases hb
    exact ⟨h.counted, fun v hv => World.alive_spawn hw (h.alive v hv), h.park, h.woken, h.asleep⟩

omit [DecidableEq ι] in
/-- A step that neither registers nor unregisters its caller. -/
theorem Inv.counted_keep (h : Inv proc s) {k : κ} {u : Waiter}
    (hreg : u.pc.registered = (s.wt k).pc.registered) :
    ∃ q : Finset κ, q.card = s.board.mem .waiters ∧
      ∀ j, j ∈ q ↔ (Function.update s.wt k u j).pc.registered = true := by
  obtain ⟨q, hq, hmem⟩ := h.counted
  refine ⟨q, hq, fun j => ?_⟩
  rw [hmem j]
  by_cases hj : j = k
  · rw [hj, Function.update_self, hreg]
  · rw [Function.update_of_ne hj]

omit [DecidableEq ι] in
theorem Inv.counted_enter (h : Inv proc s) {k : κ} {u : Waiter} (hout : (s.wt k).pc.registered = false)
    (hin : u.pc.registered = true) :
    ∃ q : Finset κ, q.card = s.board.mem .waiters + 1 ∧
      ∀ j, j ∈ q ↔ (Function.update s.wt k u j).pc.registered = true := by
  obtain ⟨q, hq, hmem⟩ := h.counted
  have hk : k ∉ q := fun hk => by simp [(hmem k).mp hk] at hout
  refine ⟨insert k q, by rw [Finset.card_insert_of_notMem hk, hq], fun j => ?_⟩
  by_cases hj : j = k
  · rw [hj, Function.update_self]
    simp [hin]
  · rw [Function.update_of_ne hj, Finset.mem_insert, hmem j]
    simp [hj]

omit [DecidableEq ι] in
theorem Inv.counted_leave (h : Inv proc s) {k : κ} {u : Waiter} (hin : (s.wt k).pc.registered = true)
    (hout : u.pc.registered = false) :
    ∃ q : Finset κ, q.card = s.board.mem .waiters - 1 ∧
      ∀ j, j ∈ q ↔ (Function.update s.wt k u j).pc.registered = true := by
  obtain ⟨q, hq, hmem⟩ := h.counted
  refine ⟨q.erase k, by rw [Finset.card_erase_of_mem ((hmem k).mpr hin), hq], fun j => ?_⟩
  by_cases hj : j = k
  · rw [hj, Function.update_self]
    simp [hout]
  · rw [Function.update_of_ne hj, Finset.mem_erase, hmem j]
    simp [hj]

omit [DecidableEq ι] in
/-- A step of caller `k` leaves the rest alone, and `change_seq` too. -/
theorem Inv.set (h : Inv proc s) {k : κ} {u : Waiter} {m : Loc → Nat}
    (hseq : m .changeSeq = s.board.mem .changeSeq)
    (hcount : ∃ q : Finset κ, q.card = m .waiters ∧ ∀ j, j ∈ q ↔ (Function.update s.wt k u j).pc.registered = true)
    (hpark : ∀ seen, u.pc = .park seen → u64 seen = u.lastSeen ∧ seen ≤ s.board.mem .changeSeq)
    (hparked : ∀ seen n, u.pc = .parked seen n → n ≤ s.wakes ∧ s.seq = u.lastSeen) :
    Inv proc { s with board := { s.board with mem := m }, wt := Function.update s.wt k u } := by
  refine ⟨hcount, h.alive, fun j seen hj => ?_, fun j seen n hj => ?_, fun j ⟨seen, hj⟩ hstale => ?_⟩
  · by_cases hjk : j = k
    · subst hjk
      simp only [Function.update_self] at hj ⊢
      rw [hseq]
      exact hpark seen hj
    · simp only [Function.update_of_ne hjk] at hj ⊢
      rw [hseq]
      exact h.park j seen hj
  · by_cases hjk : j = k
    · subst hjk
      simp only [Function.update_self] at hj
      exact (hparked seen n hj).1
    · simp only [Function.update_of_ne hjk] at hj
      exact h.woken j seen n hj
  · have hs : seq { s with board := { s.board with mem := m }, wt := Function.update s.wt k u } = s.seq := by
      simp only [seq, hseq]
    rw [hs] at hstale
    by_cases hjk : j = k
    · subst hjk
      simp only [Function.update_self] at hj hstale
      exact absurd (hparked seen _ hj).2 hstale
    · simp only [Function.update_of_ne hjk] at hj hstale
      exact h.asleep j ⟨seen, hj⟩ hstale

/-- What the kernel finds equal in the low halves is equal: fewer than `2 ^ 32` changes have happened. -/
theorem low_half {n seen lastSeen : Nat} (hs : u64 seen = lastSeen) (hle : seen ≤ n) (hlt : n < seen + 2 ^ 32)
    (h : u32 n = u32 lastSeen) : u64 n = lastSeen := by
  unfold u32 u64 at *
  omega

/-- A step of a caller. -/
theorem Inv.step {k : κ} {now : Nat} (h : Inv proc s) (hs : s.next g proc wproc (.step k now) = some s')
    (hok : s.Steady proc (.step k now)) : Inv proc s' := by
  simp only [next] at hs
  split_ifs at hs with ha
  obtain ⟨⟨m, u⟩, hu, rfl⟩ := Option.map_eq_some_iff.mp hs
  unfold Waiter.step at hu
  cases hpc : (s.wt k).pc <;> rw [hpc] at hu <;> dsimp only at hu
  case idle => cases hu
  case start =>
    obtain ⟨rfl, rfl⟩ := Prod.mk.inj (Option.some.inj hu)
    exact h.set rfl (h.counted_keep (by rw [hpc]; rfl)) nofun nofun
  case look =>
    split_ifs at hu <;> obtain ⟨rfl, rfl⟩ := Prod.mk.inj (Option.some.inj hu) <;>
      exact h.set rfl (h.counted_keep (by rw [hpc]; rfl)) nofun nofun
  case clock =>
    split_ifs at hu <;> obtain ⟨rfl, rfl⟩ := Prod.mk.inj (Option.some.inj hu) <;>
      exact h.set rfl (h.counted_keep (by rw [hpc]; rfl)) nofun nofun
  case register =>
    obtain ⟨rfl, rfl⟩ := Prod.mk.inj (Option.some.inj hu)
    refine h.set (by simp) ?_ nofun nofun
    dsimp only
    rw [Function.update_self]
    exact h.counted_enter (by rw [hpc]; rfl) rfl
  case recheck =>
    split_ifs at hu with hne <;> obtain ⟨rfl, rfl⟩ := Prod.mk.inj (Option.some.inj hu)
    · exact h.set rfl (h.counted_keep (by rw [hpc]; rfl)) nofun nofun
    · refine h.set rfl (h.counted_keep (by rw [hpc]; rfl)) (fun seen hseen => ?_) nofun
      obtain rfl := WaitPc.park.inj hseen
      exact ⟨not_not.mp hne, le_rfl⟩
  case quit =>
    obtain ⟨rfl, rfl⟩ := Prod.mk.inj (Option.some.inj hu)
    refine h.set (by simp) ?_ nofun nofun
    dsimp only
    rw [Function.update_self]
    exact h.counted_leave (by rw [hpc]; rfl) rfl
  case park seen =>
    obtain ⟨he, hle⟩ := h.park k seen hpc
    split_ifs at hu with hlow <;> obtain ⟨rfl, rfl⟩ := Prod.mk.inj (Option.some.inj hu)
    · refine h.set rfl (h.counted_keep (by rw [hpc]; rfl)) nofun fun seen' n hn => ?_
      obtain ⟨-, rfl⟩ := WaitPc.parked.inj hn
      exact ⟨le_rfl, low_half he hle (hok seen hpc) hlow⟩
    · exact h.set rfl (h.counted_keep (by rw [hpc]; rfl)) nofun nofun
  case parked seen n =>
    obtain ⟨rfl, rfl⟩ := Prod.mk.inj (Option.some.inj hu)
    exact h.set rfl (h.counted_keep (by rw [hpc]; rfl)) nofun nofun
  case unregister =>
    obtain ⟨rfl, rfl⟩ := Prod.mk.inj (Option.some.inj hu)
    refine h.set (by simp) ?_ nofun nofun
    dsimp only
    rw [Function.update_self]
    exact h.counted_leave (by rw [hpc]; rfl) rfl

theorem Inv.next {l : WaitLabel ι κ} (h : Inv proc s) (hs : s.next g proc wproc l = some s')
    (hok : s.Steady proc l) : Inv proc s' := by
  cases l with
  | board l => exact h.board hs hok
  | step k now => exact h.step hs hok
  | wait k lastSeen timeout =>
    simp only [WaitSys.next] at hs
    split_ifs at hs
    obtain ⟨u, hu, rfl⟩ := Option.map_eq_some_iff.mp hs
    unfold Waiter.call at hu
    split at hu
    · rename_i hpc
      obtain rfl := Option.some.inj hu
      exact h.set rfl (h.counted_keep (by rw [hpc]; rfl)) nofun nofun
    · cases hu

/-! ## A success is a change -/

/-- In the running or last call of `k`, a look at `change_seq` has found another value than `last_seen`. -/
def Moved (x : WaitSys ι κ × List (WaitSys ι κ)) (k : κ) : Prop :=
  ∃ a ∈ LTS.states x, (a.wt k).calls = (x.1.wt k).calls ∧ (a.wt k).lastSeen = (x.1.wt k).lastSeen ∧
    ((a.wt k).pc = .look ∨ (a.wt k).pc = .recheck) ∧ a.seq ≠ (a.wt k).lastSeen

omit [DecidableEq ι] [DecidableEq κ] in
theorem Moved.cons {x y : WaitSys ι κ × List (WaitSys ι κ)} {k : κ} (h : Moved x k) (hpast : y.2 = x.1 :: x.2)
    (hcalls : (y.1.wt k).calls = (x.1.wt k).calls) (hseen : (y.1.wt k).lastSeen = (x.1.wt k).lastSeen) :
    Moved y k := by
  obtain ⟨a, ha, hc, hl, hrest⟩ := h
  refine ⟨a, ?_, hc.trans hcalls.symm, hl.trans hseen.symm, hrest⟩
  rw [LTS.states, hpast]
  exact List.mem_cons_of_mem _ ha

/-- Whoever is about to return success, or has, has seen a change. -/
theorem moved_next {x y : WaitSys ι κ × List (WaitSys ι κ)} {l : WaitLabel ι κ}
    (h : ∀ k, (x.1.wt k).Succeeds → Moved x k) (hs : (machine g proc wproc).traced.step x l y) :
    ∀ k, (y.1.wt k).Succeeds → Moved y k := by
  obtain ⟨hstep, hpast⟩ := hs
  intro j hj
  have hkeep : y.1.wt j = x.1.wt j → Moved y j := fun e =>
    (h j (e ▸ hj)).cons hpast (by rw [e]) (by rw [e])
  cases l with
  | board l =>
    obtain ⟨b, -, hy⟩ := Option.map_eq_some_iff.mp hstep
    exact hkeep (by rw [← hy])
  | wait k lastSeen timeout =>
    simp only [machine, LTS.ofNext, WaitSys.next] at hstep
    split_ifs at hstep
    obtain ⟨u, hu, hy⟩ := Option.map_eq_some_iff.mp hstep
    by_cases hjk : j = k
    · subst hjk
      rw [← hy] at hj
      simp only [Function.update_self] at hj
      exact absurd hj (Waiter.call_succeeds hu)
    · exact hkeep (by rw [← hy]; exact Function.update_of_ne hjk ..)
  | step k now =>
    simp only [machine, LTS.ofNext, WaitSys.next] at hstep
    split_ifs at hstep
    obtain ⟨⟨m, u⟩, hu, hy⟩ := Option.map_eq_some_iff.mp hstep
    by_cases hjk : j = k
    · subst hjk
      have hyj : y.1.wt j = u := by rw [← hy]; exact Function.update_self ..
      rw [hyj] at hj
      obtain ⟨hc, hl, hsucc⟩ := Waiter.step_succeeds hu
      rcases hsucc hj with hold | ⟨hpc, hne⟩
      · exact (h j hold).cons hpast (by rw [hyj, hc]) (by rw [hyj, hl])
      · refine ⟨x.1, ?_, by rw [hyj, hc], by rw [hyj, hl], hpc, hne⟩
        rw [LTS.states, hpast]
        exact List.mem_cons_of_mem _ List.mem_cons_self
    · exact hkeep (by rw [← hy]; exact Function.update_of_ne hjk ..)

/-! ## No change is lost -/

/-- What `wait` is for, in a run with its past. -/
structure Safe (proc : ι → Nat × Nat) (x : WaitSys ι κ × List (WaitSys ι κ)) : Prop where
  /-- Behind a caller that sleeps on a stale value there is a notifier that runs, has moved `change_seq`, and either
  will find `waiters` not zero or is at its `futex_wake_all`. -/
  asleep : ∀ k, x.1.Asleep k → x.1.seq ≠ (x.1.wt k).lastSeen →
    ∃ t, x.1.board.world.alive (proc t) = true ∧
      ((∃ locked o, (x.1.board.th t).pc = .notifyWaiters locked o) ∧ x.1.board.mem .waiters ≠ 0 ∨
        ∃ locked o, (x.1.board.th t).pc = .notifyWake locked o)
  /-- `waiters` counts the callers between their increment and their decrement. -/
  counted : ∃ q : Finset κ, q.card = x.1.board.mem .waiters ∧ ∀ k, k ∈ q ↔ (x.1.wt k).pc.registered = true
  /-- `wait` returns success only if `change_seq` differs from `last_seen`. -/
  moved : ∀ k, (x.1.wt k).result = some .moved → Moved x k

theorem wait_loses_no_change {x : WaitSys ι κ × List (WaitSys ι κ)}
    (h : (machine g proc wproc).traced.Reach (LTS.onNow fun s l _ => s.Steady proc l) x) : Safe proc x := by
  have hI : Inv proc x.1 ∧ ∀ k, (x.1.wt k).Succeeds → Moved x k := by
    refine LTS.Reach.invariant (I := fun x => Inv proc x.1 ∧ ∀ k, (x.1.wt k).Succeeds → Moved x k)
      (fun x (h0 : Init proc x.1 ∧ _) => ⟨inv_init h0.1, fun k hk => ?_⟩)
      (fun x l y hI (hs : x.1.next g proc wproc l = some y.1 ∧ _) hok => ⟨hI.1.next hs.1 hok, moved_next hI.2 hs⟩) h
    rw [h0.1.wt k] at hk
    rcases hk with hk | hk <;> cases hk
  obtain ⟨hI, hM⟩ := hI
  refine ⟨fun k hk hstale => ?_, hI.counted, fun k hk => hM k (.inr hk)⟩
  obtain ⟨t, ht⟩ := hI.asleep k hk hstale
  refine ⟨t, hI.alive t ht, ?_⟩
  cases hpc : (x.1.board.th t).pc <;> rw [hpc] at ht <;> simp only [Pc.notifying, Bool.false_eq_true] at ht
  case notifyWaiters locked o =>
    obtain ⟨seen, hk⟩ := hk
    exact .inl ⟨⟨locked, o, rfl⟩, hI.waiters_ne_zero (by rw [hk]; rfl)⟩
  case notifyWake locked o => exact .inr ⟨locked, o, rfl⟩

/-- A step that is steady without a look at the processes: no exit at all. -/
def calm (s : WaitSys ι κ) : WaitLabel ι κ → Bool
  | .board (.exit _) => false
  | .step k _ => match (s.wt k).pc with
    | .park seen => decide (s.board.mem .changeSeq < seen + 2 ^ 32)
    | _ => true
  | _ => true

omit [DecidableEq ι] [DecidableEq κ] in
theorem steady_of_calm {l : WaitLabel ι κ} (h : s.calm l = true) : s.Steady proc l := by
  cases l with
  | board l =>
    cases l with
    | exit pid => cases h
    | _ => trivial
  | wait k lastSeen timeout => trivial
  | step k now =>
    intro seen hpc
    simpa [calm, hpc] using h

/-- A caller of process 2 waits for the first change. -/
def crewWaits : WaitSys (Fin 4) (Fin 1) := ⟨crew, 0, fun _ => ⟨0, 0, 0, 0, none, .idle⟩⟩

/-- The caller has fallen asleep; thread 0 has declared a key and moved `change_seq`. -/
theorem wait_loses_no_change_crew : ∃ x : WaitSys (Fin 4) (Fin 1) × List (WaitSys (Fin 4) (Fin 1)),
    x.1.Asleep 0 ∧ x.1.seq ≠ (x.1.wt 0).lastSeen ∧
      ∃ t, x.1.board.world.alive (crewProc t) = true ∧
        ((∃ locked o, (x.1.board.th t).pc = .notifyWaiters locked o) ∧ x.1.board.mem .waiters ≠ 0 ∨
          ∃ locked o, (x.1.board.th t).pc = .notifyWake locked o) := by
  have h0 : (machine small crewProc fun _ : Fin 1 => (2, 1)).Reach
      (fun s l _ => calm s l = true) crewWaits := .init ⟨init_crew, fun _ => rfl⟩
  obtain ⟨s, hs, hP⟩ := h0.play_any (.wait 0 0 10 :: List.replicate 6 (.step 0 0) ++
      .board (.call 0 (.declare [107])) :: List.replicate 32 (.board (.run 0 5)))
    (fun s => decide ((s.wt 0).pc = .parked 0 s.wakes ∧ s.seq ≠ (s.wt 0).lastSeen)) (by decide +kernel)
  obtain ⟨hpc, hstale⟩ := of_decide_eq_true hP
  have hsteady : (machine small crewProc fun _ : Fin 1 => (2, 1)).Reach (fun s l _ => s.Steady crewProc l) s :=
    hs.mono fun _ _ _ _ h => steady_of_calm h
  obtain ⟨past, hr⟩ := hsteady.traced
  exact ⟨(s, past), ⟨0, hpc⟩, hstale, (wait_loses_no_change hr).asleep 0 ⟨0, hpc⟩ hstale⟩

end WaitSys

end Kickmsg.Blackboard
