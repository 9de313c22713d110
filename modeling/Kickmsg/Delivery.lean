import Kickmsg.Sequence
import Kickmsg.Lib.Count

/-!
# Every position is counted once

A position that `publish()` claims on a ring ends as a delivery that the call's return value counts, or as
one more `dropped_count`; `Tally` keeps, for every return, the rings it counts. On the other side a
subscriber moves `read_pos` by returning a sample or by counting a loss.
-/

namespace Kickmsg

open Lib

/-! ## The publisher's side -/

/-- The publisher is inside `publish()`. -/
def PubPc.publishing : PubPc → Bool
  | .idle | .releasePending _ _ _ | .allocate _ => false
  | _ => true

/-- The ring of a position that is claimed and not counted yet. -/
def PubPc.owes : PubPc → Option Nat
  | .peek d _ | .signalEarly d _ | .waitFirst d _ | .waitLoad d _ _ _ | .waitClock d _ _ _ _
  | .lock d _ _ _ _ | .relook d _ _ _ | .selfRepair d _ _ | .stealCas d _ _ | .stealSkip d _
  | .stealCount d | .abandonDrop d _ | .check d _ | .metaLoad d _ | .metaCas d _ _
  | .releaseSlot d _ _ | .releasePush d _ _ _ | .commit d _ | .leave d | .wake d | .wakeFutex d =>
    some d.i
  | _ => none

/-- The ring whose delivery `publish()` counts at this access. -/
def Pub.counts (u : Pub) (r : Resp) : Option Nat :=
  match u.pc with
  | .wake d => if r.val = waiterFutex then none else some d.i
  | .wakeFutex d => some d.i
  | _ => none

/-- Bookkeeping: the rings the running `publish()` of an actor has counted, and for every `publish()`
that came to its ring loop the value it returned with the rings it counts. -/
structure Tally (ι : Type) where
  counted : ι → List Nat
  returns : List (Nat × List Nat)

namespace Tally

variable {ι : Type} [DecidableEq ι]

/-- The deliveries on ring `r` that return values count. -/
def total (k : Tally ι) (r : Nat) : Nat := (k.returns.map fun x => x.2.count r).sum

/-- The access of `t` that took it from `l` to `l'`. -/
def after (k : Tally ι) (t : ι) (r : Resp) : Local → Local → Tally ι
  | .pub u, .pub u' =>
    let c := (u.counts r).toList ++ k.counted t
    if u.pc.publishing = true ∧ u'.pc = .idle then
      { counted := Function.update k.counted t [], returns := (u'.result, c) :: k.returns }
    else { k with counted := Function.update k.counted t c }
  | _, _ => k

end Tally

/-- How many deliveries the call has counted. -/
def PubPc.Counted (c : List Nat) : PubPc → Prop
  | .idle | .releasePending _ _ _ | .allocate _ | .storeLen _ _ | .presetRefcount _ => c = []
  | .signal n => n = c.length
  | .snapshot d | .admitCas d _ | .claim d | .peek d _ | .signalEarly d _ | .waitFirst d _
  | .waitLoad d _ _ _ | .waitClock d _ _ _ _ | .lock d _ _ _ _ | .relook d _ _ _ | .selfRepair d _ _
  | .stealCas d _ _ | .stealSkip d _ | .stealCount d | .abandonDrop d _ | .abandonLeave d _
  | .abandonWake d _ | .abandonFutex d _ | .check d _ | .metaLoad d _ | .metaCas d _ _
  | .releaseSlot d _ _ | .releasePush d _ _ _ | .commit d _ | .leave d | .wake d | .wakeFutex d
  | .returnExcess d | .excessPush d _ => d.delivered = c.length

/-- What an access adds to a counter. -/
def Op.adds (op : Op) (l : Loc) : Nat :=
  match op with
  | .fetchAdd l' k => if l' = l then k else 0
  | _ => 0

namespace Pub

variable {g : Geometry} {u : Pub} {d : Delivery} {c : List Nat}

/-- The call has returned the number of its deliveries, or it knows them. -/
def Told (c : List Nat) (u : Pub) : Prop :=
  if u.pc = .idle then u.result = c.length else u.pc.publishing = true ∧ u.pc.Counted c

/-- Where an access leads: nothing is owed, or a position of ring `r` is. -/
structure Ends (c : List Nat) (o : Option Nat) (u : Pub) : Prop where
  told : u.Told c
  owes : u.pc.owes = o

theorem ends_goto {o : Option Nat} (hp : u.pc.publishing = true) (hc : u.pc.Counted c)
    (ho : u.pc.owes = o) : Ends c o u := by
  refine ⟨?_, ho⟩
  have hne : u.pc ≠ .idle := fun he => by simp [he, PubPc.publishing] at hp
  simp only [Told, hne, if_false]
  exact ⟨hp, hc⟩

theorem ends_finish (hd : d.delivered = c.length) : Ends c none (u.finish d) := by
  unfold finish
  split_ifs
  · exact ends_goto rfl hd rfl
  · exact ⟨by simpa [Told] using hd, rfl⟩

theorem ends_ring (hd : d.delivered = c.length) : Ends c none (u.ring g d) := by
  unfold ring
  split_ifs
  · exact ends_goto rfl hd rfl
  · exact ends_goto rfl hd rfl
  · exact ends_finish hd

theorem ends_nextRing {exc : Bool} (hd : d.delivered = c.length) :
    Ends c none (u.nextRing g d exc) :=
  ends_ring hd

theorem ends_tryAdmit {old : Nat} (hd : d.delivered = c.length) :
    Ends c none (u.tryAdmit g d old) := by
  unfold tryAdmit
  split_ifs
  · exact ends_nextRing hd
  · exact ends_goto rfl hd rfl

theorem ends_tryLock {pos attempt observed : Nat} {w : CommitWait} (hd : d.delivered = c.length) :
    Ends c (some d.i) (u.tryLock g d pos w attempt observed) := by
  unfold tryLock
  split_ifs <;> exact ends_goto rfl hd rfl

theorem ends_repairWith {pos seq : Nat} {w : CommitWait} (hd : d.delivered = c.length) :
    Ends c (some d.i) (u.repairWith g d pos w seq) := by
  unfold repairWith
  split_ifs <;> exact ends_goto rfl hd rfl

theorem ends_tryTake {pos word : Nat} (hd : d.delivered = c.length) :
    Ends c (some d.i) (u.tryTake d pos word) := by
  unfold tryTake
  split_ifs <;> exact ends_goto rfl hd rfl

theorem ends_releasePrev {pos word : Nat} (hd : d.delivered = c.length) :
    Ends c (some d.i) (u.releasePrev g d pos word) := by
  unfold releasePrev
  split_ifs <;> exact ends_goto rfl hd rfl

/-- What is owed after an access of `publish()`: a claim adds a position, a drop and a counted delivery
take one away. -/
def owesAfter (u : Pub) (r : Resp) : Option Nat :=
  match u.pc with
  | .claim d => some d.i
  | .abandonDrop _ _ | .wakeFutex _ => none
  | .wake d => if r.val = waiterFutex then some d.i else none
  | pc => pc.owes

theorem ends_resume {r : Resp} (hp : u.pc.publishing = true) (hc : u.pc.Counted c) :
    Ends ((u.counts r).toList ++ c) (u.owesAfter r) (u.resume g r) := by
  unfold resume counts owesAfter
  cases hpc : u.pc <;> rw [hpc] at hp hc <;> simp only [PubPc.publishing, Bool.false_eq_true] at hp <;>
    dsimp only [PubPc.owes, Option.toList, List.nil_append]
  case storeLen => exact ends_goto rfl hc rfl
  case presetRefcount =>
    obtain rfl : c = [] := hc
    exact ends_ring rfl
  case snapshot => exact ends_tryAdmit hc
  case admitCas =>
    split_ifs
    · exact ends_goto rfl hc rfl
    · exact ends_tryAdmit hc
  case claim d =>
    split_ifs
    · exact ends_goto rfl hc rfl
    · exact ends_tryLock hc
  case peek => split_ifs <;> exact ends_goto rfl hc rfl
  case waitFirst | waitLoad | waitClock =>
    split_ifs
    all_goals first
      | exact ends_tryLock hc
      | exact ends_goto rfl hc rfl
  case lock =>
    split_ifs
    · exact ends_goto rfl hc rfl
    · exact ends_tryLock hc
  case relook => exact ends_tryLock hc
  case selfRepair => exact ends_repairWith hc
  case stealCas | check | releaseSlot | commit => split_ifs <;> exact ends_goto rfl hc rfl
  case abandonWake =>
    split_ifs
    · exact ends_goto rfl hc rfl
    · exact ends_nextRing hc
  case abandonFutex => exact ends_nextRing hc
  case metaLoad => exact ends_tryTake hc
  case metaCas =>
    split_ifs
    · exact ends_releasePrev hc
    · exact ends_tryTake hc
  case releasePush d pos idx p => cases p.resume r <;> exact ends_goto rfl hc rfl
  case wake d =>
    split_ifs
    · exact ends_goto rfl hc rfl
    · exact ends_nextRing (congrArg (· + 1) hc)
  case wakeFutex d => exact ends_nextRing (congrArg (· + 1) hc)
  case returnExcess =>
    split_ifs
    · exact ends_goto rfl hc rfl
    · exact ends_finish hc
  case excessPush d p =>
    cases p.resume r with
    | none => exact ends_finish hc
    | some p' => exact ends_goto rfl hc rfl
  case signal n => exact ⟨by simpa [Told, PubPc.Counted] using hc, rfl⟩
  all_goals exact ends_goto rfl hc rfl

/-- A position that is claimed is owed, and what is owed is dropped or counted. -/
theorem balance {op : Op} {r : Resp} (hop : u.request g = some op) (hp : u.pc.publishing = true)
    (i : Nat) :
    u.pc.owes.toList.count i + op.adds (.writePos i) =
      op.adds (.droppedCount i) + ((u.counts r).toList.count i + (u.owesAfter r).toList.count i) := by
  cases hpc : u.pc <;> rw [hpc] at hp <;> simp only [PubPc.publishing, Bool.false_eq_true] at hp <;>
    simp only [request, hpc, Option.some.injEq] at hop <;> subst hop
  case claim d => simp [Op.adds, PubPc.owes, counts, owesAfter, hpc, List.count_singleton]
  case abandonDrop d exc => simp [Op.adds, PubPc.owes, counts, owesAfter, hpc, List.count_singleton]
  case wake d =>
    by_cases hr : r.val = waiterFutex
    · simp [Op.adds, PubPc.owes, counts, owesAfter, hpc, hr]
    · simp [Op.adds, PubPc.owes, counts, owesAfter, hpc, hr]
  case releasePush d pos idx p =>
    cases p <;> simp [Op.adds, PubPc.owes, counts, owesAfter, hpc, PushPc.request]
  case excessPush d p =>
    cases p <;> simp [Op.adds, PubPc.owes, counts, owesAfter, hpc, PushPc.request]
  all_goals simp [Op.adds, PubPc.owes, counts, owesAfter, hpc]

end Pub

namespace Local

variable {g : Geometry} {l : Local} {op : Op}

/-- The ring of a position the actor has claimed and not counted. -/
def owes : Local → Option Nat
  | .pub u => u.pc.owes
  | _ => none

/-- What the actor has counted is known to it; only publishers count. -/
def Counted (c : List Nat) : Local → Prop
  | .pub u => u.pc.Counted c
  | _ => c = []

/-- The positions of ring `r` that the actor has claimed and no return and no drop has counted. -/
def unsettled (r : Nat) (x : Local × List Nat) : Nat := x.2.count r + x.1.owes.toList.count r

/-- Only a publisher counts a drop, and only a publisher wakes a ring. -/
theorem counter_cases {loc : Loc} {r : Nat} (hop : l.request g = some op) (ht : op.target = some loc)
    (hl : loc = .droppedCount r ∨ loc = .futexWakes r) :
    ∃ u d, l = .pub u ∧ d.i = r ∧
      ((∃ exc, u.pc = .abandonDrop d exc ∧ op = .fetchAdd (.droppedCount r) 1) ∨
        ((u.pc = .wakeFutex d ∨ ∃ exc, u.pc = .abandonFutex d exc) ∧ op = .futexWake r)) := by
  cases l with
  | pub u =>
    cases e : u.pc <;> simp only [request, Pub.request, e, Option.some.injEq, reduceCtorEq] at hop <;>
      subst hop <;> simp only [Op.target, Option.some.injEq, reduceCtorEq] at ht
    case abandonDrop d exc =>
      refine ⟨u, d, rfl, ?_, .inl ⟨exc, e, ?_⟩⟩ <;> rcases hl with rfl | rfl <;> simp_all
    case wakeFutex d =>
      refine ⟨u, d, rfl, ?_, .inr ⟨.inl e, ?_⟩⟩ <;> rcases hl with rfl | rfl <;> simp_all
    case abandonFutex d exc =>
      refine ⟨u, d, rfl, ?_, .inr ⟨.inr ⟨exc, e⟩, ?_⟩⟩ <;> rcases hl with rfl | rfl <;> simp_all
    all_goals
      first
        | (subst ht; simp at hl)
        | (rcases push_target ht with rfl | rfl <;> simp at hl)
        | (obtain rfl := pop_target ht; simp at hl)
  | repair u =>
    exfalso
    cases e : u.pc <;> simp only [request, Repair.request, e, Option.some.injEq, reduceCtorEq] at hop <;>
      subst hop <;> simp only [Op.target, Option.some.injEq, reduceCtorEq] at ht <;> subst ht <;>
      simp at hl
  | sub u =>
    exfalso
    cases e : u.pc <;> simp only [request, Sub.request, e, Option.some.injEq, reduceCtorEq] at hop <;>
      subst hop <;> simp only [Op.target, Option.some.injEq, reduceCtorEq] at ht
    all_goals
      first
        | (subst ht; simp at hl)
        | (rcases push_target ht with rfl | rfl <;> simp at hl)
  | view pc =>
    exfalso
    cases pc <;> simp only [request, ViewPc.request, Option.some.injEq, reduceCtorEq] at hop <;>
      subst hop <;> simp only [Op.target, Option.some.injEq] at ht
    · subst ht
      simp at hl
    · rcases push_target ht with rfl | rfl <;> simp at hl
  | reclaim u =>
    exfalso
    cases e : u.pc <;> simp only [request, Reclaim.request, e, Option.some.injEq, reduceCtorEq] at hop <;>
      subst hop <;> simp only [Op.target, Option.some.injEq, reduceCtorEq] at ht <;> subst ht <;>
      simp at hl
  | orphan u =>
    exfalso
    cases e : u.pc <;> simp only [request, Orphan.request, e, Option.some.injEq, reduceCtorEq] at hop <;>
      subst hop <;> simp only [Op.target, Option.some.injEq, reduceCtorEq] at ht
    · subst ht
      simp at hl
    · rcases push_target ht with rfl | rfl <;> simp at hl

theorem droppedCount_cases {r : Nat} (hop : l.request g = some op)
    (ht : op.target = some (.droppedCount r)) :
    (∃ u, l = .pub u) ∧ op = .fetchAdd (.droppedCount r) 1 := by
  obtain ⟨u, d, hu, -, ⟨exc, -, rfl⟩ | ⟨-, rfl⟩⟩ := counter_cases hop ht (.inl rfl)
  · exact ⟨⟨u, hu⟩, rfl⟩
  · simp [Op.target] at ht

/-- Both counters of a ring only ever grow, by what the access adds. -/
theorem exec_adds (hop : l.request g = some op) (procs : Procs) (m : Mem) (c : Bool) (r : Nat) :
    (op.exec procs m c).1 (.writePos r) % 2 ^ 64 =
        (m (.writePos r) + op.adds (.writePos r)) % 2 ^ 64 ∧
      (op.exec procs m c).1 (.droppedCount r) % 2 ^ 64 =
        (m (.droppedCount r) + op.adds (.droppedCount r)) % 2 ^ 64 := by
  constructor
  · by_cases ht : op.target = some (.writePos r)
    · obtain ⟨u, d, -, -, -, rfl⟩ := writePos_cases hop ht
      simp [Op.exec, Op.adds, Loc.modulus]
    · have hadd : op.adds (.writePos r) = 0 := by
        cases op <;> simp_all [Op.adds, Op.target]
      rw [Op.exec_frame _ _ _ _ ht, hadd, Nat.add_zero]
  · by_cases ht : op.target = some (.droppedCount r)
    · obtain ⟨-, rfl⟩ := droppedCount_cases hop ht
      simp [Op.exec, Op.adds, Loc.modulus]
    · have hadd : op.adds (.droppedCount r) = 0 := by
        cases op <;> simp_all [Op.adds, Op.target]
      rw [Op.exec_frame _ _ _ _ ht, hadd, Nat.add_zero]

end Local

namespace Tally

variable {ι : Type} [DecidableEq ι]

/-- A publisher's access settles what it counts: positions claimed and positions dropped, counted or
still open, before and after, balance; and a call that returns, returns what it counted. -/
theorem after_pub (k : Tally ι) {t : ι} {g : Geometry} {u : Pub} {op : Op} {r : Resp}
    (hop : u.request g = some op) (hc : u.pc.Counted (k.counted t)) :
    (u.resume g r).pc.Counted ((k.after t r (.pub u) (.pub (u.resume g r))).counted t) ∧
      (∀ e ∈ (k.after t r (.pub u) (.pub (u.resume g r))).returns, e ∈ k.returns ∨ e.1 = e.2.length) ∧
      ∀ i, Local.unsettled i (.pub u, k.counted t) + op.adds (.writePos i) + k.total i =
        op.adds (.droppedCount i) + Local.unsettled i (.pub (u.resume g r),
          (k.after t r (.pub u) (.pub (u.resume g r))).counted t) +
        (k.after t r (.pub u) (.pub (u.resume g r))).total i := by
  cases hp : u.pc.publishing with
  | false =>
    have hnil : k.counted t = [] := by
      cases hpc : u.pc <;> simp_all [PubPc.publishing, PubPc.Counted]
    have hrest : (u.resume g r).pc.publishing = false ∧ op.adds = (fun _ => 0) := by
      cases hpc : u.pc <;> simp only [hpc, PubPc.publishing, Bool.true_eq_false] at hp <;>
        simp only [Pub.request, Pub.resume, hpc, Option.some.injEq, reduceCtorEq] at hop ⊢
      case releasePending x k p =>
        subst hop
        refine ⟨?_, ?_⟩
        · cases p.resume r <;> cases k <;> rfl
        · cases p <;> rfl
      case allocate p =>
        subst hop
        refine ⟨?_, ?_⟩
        · cases p.resume g.poolSize r <;> rfl
        · cases p <;> rfl
    have hcounts : u.counts r = none := by
      cases hpc : u.pc <;> simp_all [PubPc.publishing, Pub.counts]
    have howes : ∀ pc : PubPc, pc.publishing = false → pc.owes = none ∧ pc.Counted [] := by
      intro pc h
      cases pc <;> simp_all [PubPc.publishing, PubPc.owes, PubPc.Counted]
    have hafter : k.after t r (.pub u) (.pub (u.resume g r)) =
        { k with counted := Function.update k.counted t [] } := by
      simp [Tally.after, hp, hcounts, hnil]
    rw [hafter, hrest.2]
    refine ⟨?_, fun e he => .inl he, fun i => ?_⟩
    · simpa using (howes _ hrest.1).2
    · simp [Local.unsettled, Local.owes, howes _ hp, howes _ hrest.1, hnil, Tally.total]
  | true =>
    obtain ⟨htold, howes⟩ := Pub.ends_resume (g := g) (r := r) hp hc
    have hbal : ∀ i, Local.unsettled i (.pub u, k.counted t) + op.adds (.writePos i) =
        op.adds (.droppedCount i) +
          Local.unsettled i (.pub (u.resume g r), (u.counts r).toList ++ k.counted t) := by
      intro i
      simp only [Local.unsettled, Local.owes, howes, List.count_append]
      have hone := Pub.balance (r := r) hop hp i
      omega
    by_cases hidle : (u.resume g r).pc = .idle
    · have hafter : k.after t r (.pub u) (.pub (u.resume g r)) =
          { counted := Function.update k.counted t []
            returns := ((u.resume g r).result, (u.counts r).toList ++ k.counted t) :: k.returns } := by
        simp [Tally.after, hp, hidle]
      rw [hafter]
      simp only [Pub.Told, hidle, if_true] at htold
      refine ⟨?_, fun e he => ?_, fun i => ?_⟩
      · simp [hidle, PubPc.Counted]
      · rcases List.mem_cons.mp he with rfl | he
        · exact .inr htold
        · exact .inl he
      · have := hbal i
        simp only [Local.unsettled, Local.owes, hidle, PubPc.owes, Tally.total, List.map_cons,
          List.sum_cons, Function.update_self, List.count_nil, Option.toList_none] at this ⊢
        omega
    · have hafter : k.after t r (.pub u) (.pub (u.resume g r)) =
          { k with counted := Function.update k.counted t ((u.counts r).toList ++ k.counted t) } := by
        simp [Tally.after, hidle]
      rw [hafter]
      simp only [Pub.Told, hidle, if_false] at htold
      refine ⟨?_, fun e he => .inl he, fun i => ?_⟩
      · simpa using htold.2
      · have := hbal i
        simp only [Function.update_self, Tally.total]
        omega

end Tally

/-! ## The system with its tally -/

namespace Sys

variable {ι : Type} [DecidableEq ι] {g : Geometry} {proc : ι → Nat × Nat}

/-- What the tally makes of a step. -/
def tally (g : Geometry) (s : Sys ι) (k : Tally ι) : Label ι → Tally ι
  | .run t c =>
    match (s.th t).request g with
    | some op =>
      k.after t (op.exec s.procs s.mem c).2 (s.th t) ((s.th t).resume g (op.exec s.procs s.mem c).2)
    | none => k
  | _ => k

/-- The system and the tally of its publications. -/
def tallied (g : Geometry) (proc : ι → Nat × Nat) : LTS (Sys ι × Tally ι) (Label ι) :=
  .ofNext (fun x => Init g proc x.1 ∧ (∀ t, x.2.counted t = []) ∧ x.2.returns = [])
    fun x l => (x.1.next g proc l).map fun s' => (s', x.1.tally g x.2 l)

variable [Fintype ι]

/-- Every claimed position is counted by a return, counted as dropped, or open. -/
structure Balanced (x : Sys ι × Tally ι) : Prop where
  counted : ∀ t, (x.1.th t).Counted (x.2.counted t)
  returns : ∀ e ∈ x.2.returns, e.1 = e.2.length
  sum : ∀ r, x.1.mem (.writePos r) = (x.2.total r + x.1.mem (.droppedCount r) +
    ∑ t, Local.unsettled r (x.1.th t, x.2.counted t)) % 2 ^ 64

theorem unsettled_eq_zero {l : Local} {c : List Nat} (r : Nat) (hc : l.Counted c)
    (h : ∀ u, l = .pub u → u.pc.publishing = false) : Local.unsettled r (l, c) = 0 := by
  cases l with
  | pub u =>
    have hp := h u rfl
    simp only [Local.Counted] at hc
    cases hpc : u.pc <;> simp_all [PubPc.publishing, PubPc.Counted, Local.unsettled, Local.owes, PubPc.owes]
  | _ =>
    obtain rfl : c = [] := hc
    simp [Local.unsettled, Local.owes]

theorem balanced_init (hg : g.Valid) {x : Sys ι × Tally ι} (h : (tallied g proc).init x) :
    Balanced x := by
  obtain ⟨h0, hc, hr⟩ := h
  have hidle : ∀ t, (x.1.th t).Counted (x.2.counted t) ∧
      ∀ u, x.1.th t = .pub u → u.pc.publishing = false := by
    intro t
    have hf := h0.th t
    rw [hc t]
    cases ht : x.1.th t with
    | pub u =>
      rw [ht] at hf
      simp [Local.Counted, hf.2.2, PubPc.Counted, PubPc.publishing]
    | _ => simp [Local.Counted]
  refine ⟨fun t => (hidle t).1, by simp [hr], fun r => ?_⟩
  have hsum : ∑ t, Local.unsettled r (x.1.th t, x.2.counted t) = 0 :=
    Finset.sum_eq_zero fun t _ => unsettled_eq_zero r (hidle t).1 (hidle t).2
  have hzero : ∀ l, l ≠ .freeTop → (∀ s, l ≠ .nextFree s) → x.1.mem l = 0 := fun l hl hn => by
    rw [h0.mem, stampNewRegion_zero hg hl hn]
  rw [hsum, hzero _ (by simp) (by simp), hzero _ (by simp) (by simp)]
  simp [Tally.total, hr]

omit [DecidableEq ι] in
/-- Nothing is claimed, dropped or counted. -/
theorem Balanced.quiet {x : Sys ι × Tally ι} (h : Balanced x) {s' : Sys ι} (hmem : s'.mem = x.1.mem)
    (hth : ∀ t, (s'.th t).Counted (x.2.counted t) ∧ (s'.th t).owes = (x.1.th t).owes) :
    Balanced (s', x.2) := by
  refine ⟨fun t => (hth t).1, h.returns, fun r => ?_⟩
  have hsum : ∑ t, Local.unsettled r (s'.th t, x.2.counted t) =
      ∑ t, Local.unsettled r (x.1.th t, x.2.counted t) :=
    Finset.sum_congr rfl fun t _ => by simp only [Local.unsettled, (hth t).2]
  rw [hsum, hmem]
  exact h.sum r

/-- One actor moves, and what it adds to the counters is what it settles. -/
theorem Balanced.move {x : Sys ι × Tally ι} (h : Balanced x) {t : ι} {op : Op} {c : Bool} {l : Local}
    {k : Tally ι} {s' : Sys ι} (hop : (x.1.th t).request g = some op)
    (hmem : s'.mem = (op.exec x.1.procs x.1.mem c).1) (hth : s'.th = Function.update x.1.th t l)
    (hk : ∀ v, v ≠ t → k.counted v = x.2.counted v) (hc : l.Counted (k.counted t))
    (hr : ∀ e ∈ k.returns, e ∈ x.2.returns ∨ e.1 = e.2.length)
    (hbal : ∀ i, Local.unsettled i (x.1.th t, x.2.counted t) + op.adds (.writePos i) + x.2.total i =
      op.adds (.droppedCount i) + Local.unsettled i (l, k.counted t) + k.total i) :
    Balanced (s', k) := by
  have hpair : (fun v => (s'.th v, k.counted v)) =
      Function.update (fun v => (x.1.th v, x.2.counted v)) t (l, k.counted t) := by
    funext v
    by_cases he : v = t
    · subst he
      simp [hth]
    · simp [hth, hk v he, he]
  refine ⟨fun v => ?_, fun e he => (hr e he).elim (h.returns e) id, fun r => ?_⟩
  · simp only [hth]
    by_cases he : v = t
    · subst he
      simpa using hc
    · simpa [he, hk v he] using h.counted v
  · obtain ⟨hw, hd⟩ := Local.exec_adds hop x.1.procs x.1.mem c r
    have hlt : s'.mem (.writePos r) < 2 ^ 64 := by
      rw [hmem]
      by_cases ht : op.target = some (.writePos r)
      · obtain ⟨u, d, -, -, -, rfl⟩ := Local.writePos_cases hop ht
        simp only [Op.exec, Function.update_self, Loc.modulus]
        exact Nat.mod_lt _ (by decide)
      · rw [Op.exec_frame _ _ _ _ ht, h.sum r]
        exact Nat.mod_lt _ (by decide)
    have hsum : ∑ v, Local.unsettled r (s'.th v, k.counted v) +
        Local.unsettled r (x.1.th t, x.2.counted t) =
        ∑ v, Local.unsettled r (x.1.th v, x.2.counted v) + Local.unsettled r (l, k.counted t) := by
      have hup := sum_update (fun _ => Local.unsettled r) (fun v => (x.1.th v, x.2.counted v))
        (l, k.counted t) t
      rw [← hpair] at hup
      exact hup
    have hone := hbal r
    have hold := h.sum r
    simp only [hmem] at hlt ⊢
    omega

theorem Balanced.step {x y : Sys ι × Tally ι} {l : Label ι} (h : Balanced x)
    (hst : (tallied g proc).step x l y) : Balanced y := by
  obtain ⟨s', hs', rfl⟩ := Option.map_eq_some_iff.mp hst
  cases l with
  | run t c =>
    obtain ⟨-, op, hop, hs'⟩ := run_cases hs'
    simp only [tally, hop]
    have hloc := h.counted t
    cases ht : x.1.th t with
    | pub u =>
      rw [ht] at hop hloc
      obtain ⟨h1, h2, h3⟩ := x.2.after_pub (r := (op.exec x.1.procs x.1.mem c).2) hop hloc
      refine h.move (g := g) (t := t) (l := .pub (u.resume g (op.exec x.1.procs x.1.mem c).2))
        (by rw [ht]; exact hop) (by rw [hs']) (by rw [hs', ht]; rfl) (fun v hv => ?_) h1 h2
        (by rw [ht]; exact h3)
      simp only [Tally.after, Local.resume]
      split <;> simp [hv]
    | sub u | view pc | repair u | reclaim u | orphan u =>
      rw [ht] at hop hloc
      refine h.move (g := g) (t := t) (c := c) (l := (x.1.th t).resume g (op.exec x.1.procs x.1.mem c).2)
        (by rw [ht]; exact hop) (by rw [hs']) (by rw [hs']) (fun v hv => rfl) (by rw [ht]; exact hloc)
        (fun e he => .inl he) (fun i => ?_)
      have hadds : op.adds (.writePos i) = 0 ∧ op.adds (.droppedCount i) = 0 := by
        constructor
        · by_contra hne
          have htar : op.target = some (.writePos i) := by
            cases op <;> simp_all [Op.adds, Op.target]
          obtain ⟨u', d, hu', -⟩ := Local.writePos_cases hop htar
          simp at hu'
        · by_contra hne
          have htar : op.target = some (.droppedCount i) := by
            cases op <;> simp_all [Op.adds, Op.target]
          obtain ⟨⟨u', hu'⟩, -⟩ := Local.droppedCount_cases hop htar
          simp at hu'
      rw [hadds.1, hadds.2, ht]
      simp [Local.unsettled, Local.owes, Local.resume, Tally.after]
  | call t c =>
    obtain ⟨-, l, hl, rfl⟩ := call_cases hs'
    refine h.quiet rfl fun v => ?_
    by_cases he : v = t
    · subst he
      simp only [Function.update_self]
      have hloc := h.counted v
      rcases Local.call_pass hl with ⟨u, hu⟩ | ⟨u, hu⟩ | ⟨u, hu, -, rfl⟩ | ⟨u, hu, -, -, rfl⟩ |
        ⟨u, hu, -, -, rfl⟩
      · rw [hu] at hl hloc
        obtain ⟨hidle, u', rfl, hu'⟩ := Local.call_pub hl
        simp only [Local.Counted, hidle, PubPc.Counted] at hloc
        rw [hloc, hu]
        rcases hu' with ⟨n, rfl⟩ | ⟨y, k, n, -, rfl⟩ | ⟨-, rfl⟩ | ⟨y, len, -, -, -, rfl⟩ <;>
          simp [Local.Counted, Local.owes, PubPc.Counted, PubPc.owes, hidle]
      · rw [hu] at hl hloc
        obtain ⟨u', rfl, -⟩ := Local.call_sub hl
        exact ⟨hloc, by rw [hu]; rfl⟩
      all_goals
        rw [hu] at hloc
        exact ⟨hloc, by rw [hu]; rfl⟩
    · simp only [Function.update_of_ne he]
      exact ⟨h.counted v, trivial⟩
  | destroy t v k =>
    obtain ⟨-, u, w, ht, hv, -, rfl⟩ := destroy_cases hs'
    refine h.quiet rfl fun a => ?_
    have hloc := h.counted a
    by_cases hav : a = v
    · subst hav
      rw [hv] at hloc
      simp only [Function.update_self]
      exact ⟨hloc, by rw [hv]; rfl⟩
    · by_cases hat : a = t
      · subst hat
        rw [ht] at hloc
        simp only [Function.update_of_ne hav, Function.update_self]
        exact ⟨hloc, by rw [ht]; rfl⟩
      · simp only [Function.update_of_ne hav, Function.update_of_ne hat]
        exact ⟨hloc, trivial⟩
  | write t off byte =>
    obtain ⟨-, u, slot, -, -, -, -, rfl⟩ := write_cases hs'
    exact h.quiet rfl fun v => ⟨h.counted v, rfl⟩
  | exit pid =>
    obtain ⟨st, -, rfl⟩ := exit_cases hs'
    exact h.quiet rfl fun v => ⟨h.counted v, rfl⟩
  | spawn pid st =>
    obtain ⟨-, rfl⟩ := spawn_cases hs'
    exact h.quiet rfl fun v => ⟨h.counted v, rfl⟩

theorem balanced_reach (hg : g.Valid) {x : Sys ι × Tally ι} (h : (tallied g proc).Reach LTS.any x) :
    Balanced x :=
  h.invariant (I := Balanced) (fun _ h0 => balanced_init hg h0) fun _ _ _ hI hst _ => hI.step hst

omit [DecidableEq ι] in
/-- With no `publish()` running nothing is open. -/
theorem Balanced.at_rest {x : Sys ι × Tally ι} (h : Balanced x)
    (hrest : ∀ t u, x.1.th t = .pub u → u.pc.publishing = false) (r : Nat) :
    x.1.mem (.writePos r) = (x.2.total r + x.1.mem (.droppedCount r)) % 2 ^ 64 := by
  have hsum : ∑ t, Local.unsettled r (x.1.th t, x.2.counted t) = 0 :=
    Finset.sum_eq_zero fun t _ => unsettled_eq_zero r (h.counted t) (hrest t)
  rw [h.sum r, hsum, Nat.add_zero]

end Sys

/-! ## The subscriber's side -/

/-- A subscriber from the end of its constructor on, beside what it has done: the samples its calls
returned (latest first), the positions that `read_pos` left while `lost()` stood, and what it added to the
ring's `lost_count`. -/
structure Receiver where
  sub : Sub
  origin : Nat
  got : List View
  consumed : List Nat
  added : Nat

/-- The subscriber's next access with whatever answer, or its next call. -/
inductive ReceiverStep
  | access (r : Resp)
  | call (c : Call)

/-- The sample that a receive copies, until it returns it. -/
def SubPc.copied : SubPc → Option View
  | .copyOut v | .copyDone v | .copyPush v _ => some v
  | _ => none

/-- The constructor has returned, no lap is being skipped and nothing copied. -/
def SubPc.unmoved : SubPc → Bool
  | .joinPos _ | .joinCas _ _ | .joinStart _ _ | .joinPid _ _ | .joinPos2 _ _ | .recvSkip _ _
  | .copyOut _ | .copyDone _ | .copyPush _ _ => false
  | _ => true

theorem SubPc.copied_of_unmoved {pc : SubPc} (h : pc.unmoved = true) : pc.copied = none := by
  cases pc <;> first | rfl | cases h

namespace Sub

variable {g : Geometry} {u v : Sub}

/-- The position that `read_pos` leaves between `u` and `v`, if it is not given up as lost. -/
def consumes (u v : Sub) : List Nat :=
  if v.readPos ≠ u.readPos ∧ v.lost = u.lost then [u.readPos] else []

/-- The subscriber goes on without a sample and without a loss. -/
structure Stays (u v : Sub) : Prop where
  readPos : v.readPos = u.readPos
  lost : v.lost = u.lost
  returned : v.returned = u.returned
  plain : v.pc.unmoved = true

theorem handed_of_none (h : u.returned = none) : u.handed = none := by
  unfold handed
  split
  · exact h
  · rfl

/-- A call that has nothing to return yet, and goes on without a sample. -/
theorem Stays.handed (h : Stays u v) (hu : u.returned = none) : v.handed = none :=
  handed_of_none (h.returned.trans hu)

theorem Stays.consumes (h : Stays u v) : u.consumes v = [] :=
  if_neg fun hm => hm.1 h.readPos

theorem stays_recvNone : Stays u u.recvNone := by
  unfold recvNone
  split_ifs <;> exact ⟨rfl, rfl, rfl, rfl⟩

theorem stays_recvLoop {k : Nat} : Stays u (u.recvLoop k) := by
  unfold recvLoop
  split_ifs
  · exact ⟨rfl, rfl, rfl, rfl⟩
  · exact stays_recvNone

theorem stays_recvWith {k seq : Nat} : Stays u (u.recvWith k seq) := by
  unfold recvWith
  split_ifs
  all_goals first
    | exact stays_recvNone
    | exact ⟨rfl, rfl, rfl, rfl⟩

theorem stays_recvClaim {k seq word : Nat} : Stays u (u.recvClaim g k seq word) := by
  unfold recvClaim
  split_ifs <;> exact ⟨rfl, rfl, rfl, rfl⟩

theorem stays_tryPin {k seq slot rc : Nat} : Stays u (u.tryPin k seq slot rc) := by
  unfold tryPin
  split_ifs <;> exact ⟨rfl, rfl, rfl, rfl⟩

theorem stays_armWith {cur : Nat} {w : Wait} : Stays u (u.armWith cur w) := by
  unfold armWith
  split_ifs <;> exact ⟨rfl, rfl, rfl, rfl⟩

theorem stays_drainLoop {pos wp : Nat} : Stays u (u.drainLoop pos wp) := by
  unfold drainLoop
  split_ifs <;> exact ⟨rfl, rfl, rfl, rfl⟩

/-- Every access but those that skip a lap, count a loss or hand out a sample. -/
theorem stays_resume {r : Resp}
    (hpos : ∀ k, u.pc = .recvPos k → r.val ≤ u.readPos + g.subRingCapacity)
    (hlost : ∀ k, u.pc ≠ .recvLost k)
    (hlen : ∀ k slot, u.pc = .recvLen k slot → g.slotDataSize < r.val)
    (hplain : u.pc.unmoved = true) : Stays u (u.resume g r) := by
  unfold resume
  cases hpc : u.pc <;> rw [hpc] at hplain <;>
    simp only [SubPc.unmoved, Bool.false_eq_true] at hplain <;>
    dsimp only
  case out | live => exact ⟨rfl, rfl, rfl, by rw [hpc]; rfl⟩
  case recvPos k =>
    have := hpos k hpc
    split_ifs
    · exact stays_recvNone
    · omega
    · exact ⟨rfl, rfl, rfl, rfl⟩
  case recvSeq => exact stays_recvWith
  case recvLost k => exact absurd hpc (hlost k)
  case recvMeta => exact stays_recvClaim
  case recvRc => exact stays_tryPin
  case recvPin =>
    split_ifs
    · exact ⟨rfl, rfl, rfl, rfl⟩
    · exact stays_tryPin
  case recvLen k slot =>
    have := hlen k slot hpc
    rw [if_pos this]
    exact ⟨rfl, rfl, rfl, rfl⟩
  case recvUnpinPush k slot p =>
    cases p.resume r <;> exact ⟨rfl, rfl, rfl, rfl⟩
  case parkPos =>
    split_ifs
    · exact ⟨rfl, rfl, rfl, rfl⟩
    · exact stays_recvLoop
  case parkClear => exact stays_recvLoop
  case parked =>
    split_ifs
    · exact ⟨rfl, rfl, rfl, rfl⟩
    · exact ⟨rfl, rfl, rfl, by rw [hpc]; rfl⟩
  case armHead | armHead2 =>
    cases u.headPos g r.val
    · exact ⟨rfl, rfl, rfl, rfl⟩
    · first
        | exact stays_armWith
        | exact ⟨rfl, rfl, rfl, rfl⟩
  case armSeq => exact stays_armWith
  case drainPos | drainMeta | drainCas | drainSub =>
    split_ifs
    all_goals first
      | exact stays_drainLoop
      | exact ⟨rfl, rfl, rfl, rfl⟩
  case drainPush pos wp slot p =>
    cases p.resume r
    · exact stays_drainLoop
    · exact ⟨rfl, rfl, rfl, rfl⟩
  all_goals
    try split_ifs
    all_goals exact ⟨rfl, rfl, rfl, rfl⟩

/-- A copy is finished, its slot released, and the sample returned. -/
theorem copied_resume {r : Resp} {w : View} (h : u.pc.copied = some w) :
    (u.resume g r).readPos = u.readPos ∧ (u.resume g r).lost = u.lost ∧
      (((u.resume g r).pc.copied = some w ∧ (u.resume g r).returned = u.returned) ∨
        ((u.resume g r).pc = .live ∧ (u.resume g r).returned = some w)) := by
  cases hpc : u.pc <;> simp only [hpc, SubPc.copied, Option.some.injEq, reduceCtorEq] at h <;> subst h <;>
    unfold resume <;> rw [hpc] <;> dsimp only
  case copyOut v => exact ⟨rfl, rfl, .inl ⟨rfl, rfl⟩⟩
  case copyDone v =>
    split_ifs
    · exact ⟨rfl, rfl, .inl ⟨rfl, rfl⟩⟩
    · exact ⟨rfl, rfl, .inr ⟨rfl, rfl⟩⟩
  case copyPush v p =>
    cases p.resume r
    · exact ⟨rfl, rfl, .inr ⟨rfl, rfl⟩⟩
    · exact ⟨rfl, rfl, .inl ⟨rfl, rfl⟩⟩

end Sub

namespace Receiver

variable {g : Geometry}

/-- One step; what a load returns is a 64-bit word and nothing else is known of it. -/
def next (g : Geometry) (x : Receiver) : ReceiverStep → Option Receiver
  | .access r =>
    match x.sub.request g with
    | some op =>
      if r.val < 2 ^ 64 then
        some { x with
          sub := x.sub.resume g r
          got := (x.sub.resume g r).handed.toList ++ x.got
          consumed := x.sub.consumes (x.sub.resume g r) ++ x.consumed
          added := x.added + op.adds (.lostCount x.sub.ringIdx) }
      else none
    | none => none
  | .call c =>
    match x.sub.pc, (Local.sub x.sub).call g c with
    | .live, some (.sub u) => some { x with sub := u }
    | _, _ => none

/-- A subscriber whose constructor has returned. -/
structure Init (x : Receiver) : Prop where
  pc : x.sub.pc = .live
  lost : x.sub.lost = 0
  readPos : x.sub.readPos = x.origin
  origin : x.origin < 2 ^ 64
  got : x.got = []
  consumed : x.consumed = []
  added : x.added = 0

/-- The life of a subscriber, until it has given up its ring. -/
def machine (g : Geometry) : LTS Receiver ReceiverStep :=
  .ofNext Init (next g)

/-- `lost()` is what went to `lost_count`, it and the consumed positions are the way of `read_pos`, and
the consumed positions are those of the samples returned or still being copied. -/
structure Inv (g : Geometry) (x : Receiver) : Prop where
  lost : x.sub.lost = x.added
  readPos : x.sub.readPos = (x.origin + x.consumed.length + x.sub.lost) % 2 ^ 64
  samples : x.sub.pc.copied.toList.map View.ringPos ++ x.got.map View.ringPos = x.consumed
  returned : x.sub.pc ≠ .live → x.sub.returned = none
  stage : x.sub.pc.unmoved = true ∨ (∃ v, x.sub.pc.copied = some v) ∨ ∃ k wp, x.sub.pc = .recvSkip k wp ∧
    wp < 2 ^ 64 ∧ x.sub.readPos + g.subRingCapacity < wp

theorem inv_init {x : Receiver} (h : Init x) : Inv g x := by
  refine ⟨by rw [h.lost, h.added], ?_, ?_, fun hne => absurd h.pc hne, .inl (by rw [h.pc]; rfl)⟩
  · rw [h.readPos, h.consumed, h.lost]
    exact (Nat.mod_eq_of_lt h.origin).symm
  · simp [h.pc, SubPc.copied, h.got, h.consumed]

/-- Only a skipped lap and a loss are added to `lost_count`. -/
theorem adds_lostCount {u : Sub} {op : Op} (hop : u.request g = some op) (i : Nat)
    (hskip : ∀ k wp, u.pc ≠ .recvSkip k wp) (hlost : ∀ k, u.pc ≠ .recvLost k) :
    op.adds (.lostCount i) = 0 := by
  cases hpc : u.pc <;> simp only [Sub.request, hpc, Option.some.injEq, reduceCtorEq] at hop <;> subst hop
  case recvSkip k wp => exact absurd hpc (hskip k wp)
  case recvLost k => exact absurd hpc (hlost k)
  case recvUnpinPush k slot p => cases p <;> rfl
  case copyPush v p => cases p <;> rfl
  case drainPush pos wp slot p => cases p <;> rfl
  all_goals rfl

/-- An access that neither consumes a position nor returns anything. -/
theorem Inv.quiet {x : Receiver} (h : Inv g x) {u : Sub} (hpos : u.readPos = x.sub.readPos)
    (hlost : u.lost = x.sub.lost) (hret : u.returned = x.sub.returned)
    (hcop : u.pc.copied = x.sub.pc.copied) (hbusy : x.sub.pc ≠ .live)
    (hstage : u.pc.unmoved = true ∨ (∃ v, u.pc.copied = some v) ∨ ∃ k wp, u.pc = .recvSkip k wp ∧
      wp < 2 ^ 64 ∧ u.readPos + g.subRingCapacity < wp) :
    Inv g { x with sub := u, got := u.handed.toList ++ x.got, consumed := x.sub.consumes u ++ x.consumed } := by
  have hnone := hret.trans (h.returned hbusy)
  have hcons : x.sub.consumes u = [] := if_neg fun hm => hm.1 hpos
  refine ⟨?_, ?_, ?_, fun _ => hnone, hstage⟩
  · exact hlost.trans h.lost
  · simp only [hcons, List.nil_append, hpos, hlost]
    exact h.readPos
  · simp only [hcons, List.nil_append, Sub.handed_of_none hnone, Option.toList, hcop]
    exact h.samples

theorem Inv.call {x : Receiver} (h : Inv g x) (hlive : x.sub.pc = .live) {c : Call} {u : Sub}
    (hc : (Local.sub x.sub).call g c = some (.sub u)) : Inv g { x with sub := u } := by
  have hkeeps : u.readPos = x.sub.readPos ∧ u.lost = x.sub.lost ∧ u.returned = none ∧
      u.pc.unmoved = true := by
    obtain ⟨u', hu', hcase⟩ := Local.call_sub hc
    obtain rfl : u = u' := by simpa using hu'
    rcases hcase with ⟨hout, -⟩ | ⟨-, ⟨copy, blocking, rfl⟩ | rfl | rfl | rfl⟩
    · simp [hlive] at hout
    · obtain ⟨h1, h2, h3, h4⟩ :=
        Sub.stays_recvLoop (u := { x.sub with copy := copy, blocking := blocking, returned := none })
          (k := 0)
      exact ⟨h1, h2, h3, h4⟩
    all_goals exact ⟨rfl, rfl, rfl, rfl⟩
  obtain ⟨hpos, hlost, hret, hplain⟩ := hkeeps
  refine ⟨hlost.trans h.lost, ?_, ?_, fun _ => hret, .inl hplain⟩
  · simp only [hpos, hlost]
    exact h.readPos
  · rw [SubPc.copied_of_unmoved hplain, ← h.samples, hlive]
    rfl

theorem Inv.access {x y : Receiver} (h : Inv g x) {r : Resp} (hn : x.next g (.access r) = some y) :
    Inv g y := by
  simp only [next] at hn
  split at hn
  case h_2 => simp at hn
  rename_i op hop
  split at hn
  case isFalse => simp at hn
  rename_i hr
  obtain rfl := Option.some.inj hn
  have hlt : x.sub.readPos < 2 ^ 64 := by
    rw [h.readPos]
    exact Nat.mod_lt _ (by decide)
  have hbusy : x.sub.pc ≠ .live := by
    intro hpc
    simp [Sub.request, hpc] at hop
  have hnone := h.returned hbusy
  have h1 := h.lost
  have h2 := h.readPos
  have h3 := h.samples
  by_cases hskip : ∃ k wp, x.sub.pc = .recvSkip k wp
  · -- a lap is skipped
    obtain ⟨k, wp, hpc⟩ := hskip
    have hstage := h.stage
    simp only [hpc, SubPc.unmoved, SubPc.copied, Bool.false_eq_true, reduceCtorEq, exists_false, false_or,
      SubPc.recvSkip.injEq] at hstage
    obtain ⟨k', wp', ⟨rfl, rfl⟩, hwp, hlap⟩ := hstage
    simp only [Sub.request, hpc, Option.some.injEq] at hop
    subst hop
    have hres : x.sub.resume g r = { x.sub with
        lost := x.sub.lost + (wp - x.sub.readPos - g.subRingCapacity)
        readPos := wp - g.subRingCapacity, pc := .recvSeq k } := by
      simp only [Sub.resume, hpc]
    have hcons : x.sub.consumes (x.sub.resume g r) = [] := if_neg fun hm => by
      have := hm.2
      simp only [hres] at this
      omega
    refine ⟨?_, ?_, ?_, fun _ => (by rw [hres]; exact hnone), .inl (by rw [hres]; rfl)⟩
    · simp only [hres, Op.adds, if_true]
      omega
    · simp only [hcons, List.nil_append]
      simp only [hres]
      omega
    · simp only [hcons, List.nil_append]
      simp only [hres, Sub.handed, SubPc.copied, Option.toList, List.map_nil, List.nil_append]
      simpa [hpc, SubPc.copied] using h3
  push Not at hskip
  by_cases hlost : ∃ k, x.sub.pc = .recvLost k
  · -- a position is counted as lost
    obtain ⟨k, hpc⟩ := hlost
    simp only [Sub.request, hpc, Option.some.injEq] at hop
    subst hop
    obtain ⟨hpos', hlost', hret', hplain'⟩ : (x.sub.resume g r).readPos = u64 (x.sub.readPos + 1) ∧
        (x.sub.resume g r).lost = x.sub.lost + 1 ∧ (x.sub.resume g r).returned = x.sub.returned ∧
        (x.sub.resume g r).pc.unmoved = true := by
      simp only [Sub.resume, hpc]
      exact ⟨Sub.stays_recvLoop.readPos, Sub.stays_recvLoop.lost, Sub.stays_recvLoop.returned,
        Sub.stays_recvLoop.plain⟩
    have hcons : x.sub.consumes (x.sub.resume g r) = [] := if_neg fun hm => by
      have := hm.2
      omega
    rw [hpc] at h3
    refine ⟨?_, ?_, ?_, fun _ => hret'.trans hnone, .inl hplain'⟩
    · simp only [hlost', Op.adds, if_true]
      omega
    · simp only [hlost', hpos', hcons, List.nil_append, u64]
      omega
    · simp only [hcons, List.nil_append, Sub.handed_of_none (hret'.trans hnone), Option.toList]
      rw [SubPc.copied_of_unmoved hplain']
      exact h3
  push Not at hlost
  have hadd := adds_lostCount hop x.sub.ringIdx hskip hlost
  simp only [hadd, Nat.add_zero]
  by_cases hlap : ∃ k, x.sub.pc = .recvPos k ∧ x.sub.readPos + g.subRingCapacity < r.val
  · -- the subscriber has been lapped
    obtain ⟨k, hpc, hgt⟩ := hlap
    have hres : x.sub.resume g r = { x.sub with pc := .recvSkip k r.val } := by
      simp only [Sub.resume, hpc]
      rw [if_neg (by omega), if_pos (by omega)]
    rw [hres]
    exact h.quiet rfl rfl rfl (by rw [hpc]; rfl) hbusy (.inr (.inr ⟨k, r.val, rfl, hr, hgt⟩))
  by_cases hsample : ∃ k slot, x.sub.pc = .recvLen k slot ∧ r.val ≤ g.slotDataSize
  · -- a sample, to be copied out or returned as a view
    obtain ⟨k, slot, hpc, hle⟩ := hsample
    rw [hpc] at h3
    have hres : x.sub.resume g r = x.sub.sample slot r.val := by
      simp only [Sub.resume, hpc]
      rw [if_neg (by omega)]
    have hmoved : u64 (x.sub.readPos + 1) ≠ x.sub.readPos := by
      unfold u64
      omega
    rw [hres]
    unfold Sub.sample
    by_cases hcopy : x.sub.copy = true
    · simp only [hcopy, if_true, Sub.consumes, hmoved, ne_eq, not_false_eq_true, and_self]
      refine ⟨h1, ?_, ?_, fun _ => hnone, .inr (.inl ⟨_, rfl⟩)⟩
      · simp only [List.cons_append, List.nil_append, List.length_cons, u64]
        omega
      · simpa [Sub.handed, SubPc.copied] using h3
    · simp only [hcopy, Bool.false_eq_true, if_false, Sub.consumes, hmoved, ne_eq, not_false_eq_true,
        and_self, if_true]
      refine ⟨h1, ?_, ?_, fun hne => absurd rfl hne, .inl rfl⟩
      · simp only [List.cons_append, List.nil_append, List.length_cons, u64]
        omega
      · simpa [Sub.handed, SubPc.copied] using h3
  by_cases hcopied : ∃ v, x.sub.pc.copied = some v
  · -- a copy goes on, or is returned
    obtain ⟨v, hv⟩ := hcopied
    rw [hv] at h3
    have hstep : (x.sub.resume g r).readPos = x.sub.readPos ∧ (x.sub.resume g r).lost = x.sub.lost ∧
        (((x.sub.resume g r).pc.copied = some v ∧ (x.sub.resume g r).returned = x.sub.returned) ∨
          ((x.sub.resume g r).pc = .live ∧ (x.sub.resume g r).returned = some v)) :=
      Sub.copied_resume hv
    obtain ⟨hpos, hlost', ⟨hcop, hret⟩ | ⟨hlive, hret⟩⟩ := hstep
    · exact h.quiet hpos hlost' hret (hcop.trans hv.symm) hbusy (.inr (.inl ⟨v, hcop⟩))
    · have hcons : x.sub.consumes (x.sub.resume g r) = [] := if_neg fun hm => hm.1 hpos
      refine ⟨hlost'.trans h1, ?_, ?_, fun hne => absurd hlive hne, .inl (by rw [hlive]; rfl)⟩
      · simp only [hcons, List.nil_append, hpos, hlost']
        exact h2
      · simp only [hcons, List.nil_append, Sub.handed, hlive, hret]
        exact h3
  push Not at hlap hsample
  have hplain : x.sub.pc.unmoved = true := by
    rcases h.stage with hs | hs | ⟨k, wp, hpc, -⟩
    · exact hs
    · exact absurd hs hcopied
    · exact absurd hpc (hskip k wp)
  have hkeeps : Sub.Stays x.sub (x.sub.resume g r) :=
    Sub.stays_resume (fun k hpc => hlap k hpc) hlost (fun k slot hpc => hsample k slot hpc) hplain
  refine h.quiet hkeeps.readPos hkeeps.lost hkeeps.returned ?_ hbusy (.inl hkeeps.plain)
  rw [SubPc.copied_of_unmoved hplain, SubPc.copied_of_unmoved hkeeps.plain]

/-- For every subscriber, whatever its loads return: samples and losses account for `read_pos`, the losses
are those it added to the ring's `lost_count`, and each sample carries the position it consumed. -/
theorem read_pos_exact {x : Receiver} (h : (machine g).Reach LTS.any x) : Inv g x := by
  refine h.invariant (I := Inv g) (fun _ h0 => inv_init h0) fun x l y hI hst _ => ?_
  cases l with
  | access r => exact hI.access hst
  | call c =>
    replace hst : x.next g (.call c) = some y := hst
    simp only [next] at hst
    split at hst
    · rename_i u hlive hc
      obtain rfl := Option.some.inj hst
      exact hI.call hlive hc
    · simp at hst

end Receiver

/-- Delivery accounting is exact. With no `publish()` running, what return values and `dropped_count`
count of a ring is its `write_pos` (counters wrap at `2^64`), and a return value counts its rings one by
one. For every subscriber, whatever its loads return, the samples its calls have returned and `lost()` are
the distance `read_pos` has come, `lost()` is what went to the ring's `lost_count`, and the positions of
the samples are those that `read_pos` left without a loss. -/
theorem delivery_exact {ι : Type} [DecidableEq ι] [Fintype ι] {g : Geometry} {proc : ι → Nat × Nat}
    (hg : g.Valid) {x : Sys ι × Tally ι} (h : (Sys.tallied g proc).Reach LTS.any x) :
    ((∀ t u, x.1.th t = .pub u → u.pc.publishing = false) → ∀ r,
      x.1.mem (.writePos r) = (x.2.total r + x.1.mem (.droppedCount r)) % 2 ^ 64) ∧
    (∀ e ∈ x.2.returns, e.1 = e.2.length) ∧
    ∀ y, (Receiver.machine g).Reach LTS.any y → y.sub.pc = .live →
      y.sub.readPos = (y.origin + y.got.length + y.sub.lost) % 2 ^ 64 ∧
      y.sub.lost = y.added ∧ y.got.map View.ringPos = y.consumed := by
  have hb := Sys.balanced_reach hg h
  refine ⟨fun hrest => hb.at_rest hrest, hb.returns, fun y hy hlive => ?_⟩
  have hI := Receiver.read_pos_exact hy
  have hs := hI.samples
  rw [hlive] at hs
  replace hs : y.got.map View.ringPos = y.consumed := hs
  refine ⟨?_, hI.lost, hs⟩
  rw [hI.readPos, ← hs, List.length_map]

/-- No `publish()` is running. -/
def Sys.resting (s : Sys (Fin 9)) : Bool :=
  (List.finRange 9).all fun t =>
    match s.th t with
    | .pub u => !u.pc.publishing
    | _ => true

/-- A subscriber joins ring 0, and publisher 0 delivers one message to it. -/
def oneDelivery : List (Label (Fin 9)) :=
  .call 3 (.join false) :: Sys.runs 3 5 ++ .call 0 .allocate :: Sys.runs 0 3 ++
    .call 0 (.publish 1) :: Sys.runs 0 12

/-- Subscriber 3 after it has joined ring 0 at position 0. -/
def joinedSub : Sub := ⟨4, 1, 0, 0, 0, 0, 0, [], false, false, false, .ready, none, .live⟩

/-- It finds `write_pos` at 4 in a ring of two entries and gives up a lap, gives up position 2 for a skip
marker, and returns the eight bytes of position 3 by a copy. -/
def lossyReceive : List ReceiverStep :=
  .call (.receive true false) :: [⟨4, true⟩, ⟨0, true⟩, ⟨seqSkip 2, true⟩, ⟨2, true⟩, ⟨4, true⟩, ⟨4, true⟩,
    ⟨metaPack 3 1, true⟩, ⟨1, true⟩, ⟨1, true⟩, ⟨4, true⟩, ⟨8, true⟩, ⟨0, true⟩, ⟨2, true⟩].map .access

theorem delivery_exact_crew : ∃ (x : Sys (Fin 9) × Tally (Fin 9)) (y : Receiver),
    (x.1.mem (.writePos 0) = 1 ∧ x.2.returns = [(1, [0])] ∧
      x.1.mem (.writePos 0) = (x.2.total 0 + x.1.mem (.droppedCount 0)) % 2 ^ 64) ∧
    (y.got = [⟨0, 3, 1, 8⟩] ∧ y.sub.lost = 3 ∧
      y.sub.readPos = (y.origin + y.got.length + y.sub.lost) % 2 ^ 64 ∧
      y.sub.lost = y.added ∧ y.got.map View.ringPos = y.consumed) := by
  have h0 : (Sys.tallied Sys.smallGeometry Sys.crewProc).Reach (fun _ _ _ => true = true)
      (Sys.crew Sys.smallGeometry, ⟨fun _ => [], []⟩) :=
    .init ⟨Sys.init_crew Sys.smallGeometry, fun _ => rfl, rfl⟩
  obtain ⟨x, hx, hP⟩ := LTS.Reach.play_any h0 oneDelivery
    (fun x : Sys (Fin 9) × Tally (Fin 9) => decide
      ((x.1.mem (.writePos 0) = 1 ∧ x.2.returns = [(1, [0])]) ∧ x.1.resting = true)) (by decide +kernel)
  obtain ⟨hx0, hrest⟩ := of_decide_eq_true hP
  have hy0 : (Receiver.machine Sys.smallGeometry).Reach (fun _ _ _ => true = true)
      ⟨joinedSub, 0, [], [], 0⟩ := .init ⟨rfl, rfl, rfl, by decide, rfl, rfl, rfl⟩
  obtain ⟨y, hy, hQ⟩ := LTS.Reach.play_any hy0 lossyReceive
    (fun y : Receiver => decide (y.sub.pc = .live ∧ y.got = [⟨0, 3, 1, 8⟩] ∧ y.sub.lost = 3))
    (by decide +kernel)
  obtain ⟨hlive, hgot, hlost⟩ := of_decide_eq_true hQ
  have hall := delivery_exact Sys.valid_smallGeometry (hx.mono fun _ _ _ _ _ => trivial)
  refine ⟨x, y, ⟨hx0.1, hx0.2, hall.1 (fun t u ht => ?_) 0⟩, hgot, hlost,
    hall.2.2 y (hy.mono fun _ _ _ _ _ => trivial) hlive⟩
  have hone := List.all_eq_true.mp hrest t (List.mem_finRange t)
  rw [ht] at hone
  simpa using hone

end Kickmsg
