import Kickmsg.System
import Kickmsg.Account.Publisher
import Kickmsg.Account.Subscriber

/-!
# Slot reference conservation

The accounts of all actors of a region balance: in every run without an orphan pass, a slot's reference
count is the number of entries that name it, plus the pins and views on it, plus the shares of running
publications, plus the references owed. The only assumption is the documented bound of the free stack's
generation tag: no pop spans `2 ^ 32` changes of `free_top`.
-/

namespace Kickmsg

open Finset Lib

namespace Local

/-- The actor's bounds. -/
def Ok (g : Geometry) : Local → Prop
  | .pub u => u.Ok g
  | .sub u => u.Ok g
  | .view pc => pc.Ok g
  | _ => True

/-- Live pins and views. -/
def pins : Local → Nat → Nat
  | .sub u => u.pins
  | .view pc => pc.pins
  | _ => 0

/-- The share of the `max_subs` preset references that a running `publish()` still holds. -/
def share (g : Geometry) : Local → Nat → Nat
  | .pub u => u.share g
  | _ => 0

/-- References of claims replaced or cleared whose `fetch_sub` is still to come. -/
def owed : Local → Nat → Nat
  | .pub u => u.owed
  | .sub u => u.pc.owed
  | _ => 0

/-- The actor's account; a running orphan pass has none. -/
def acct (g : Geometry) : Local → Acct
  | .pub u => u.acct g
  | .sub u => u.acct
  | .view pc => pc.acct
  | _ => ⟨0, 0, .away⟩

/-- No orphan pass is running here. -/
def NoOrphan : Local → Prop
  | .orphan u => u.pc = .idle
  | _ => True

theorem holds_eq (g : Geometry) (l : Local) :
    (l.acct g).holds = l.pins + l.share g + l.owed := by
  cases l with
  | pub u => simp [acct, pins, share, owed, Pub.acct]
  | sub u => simp [acct, pins, share, owed, Sub.acct]
  | view pc => cases pc <;> simp [acct, pins, share, owed, ViewPc.acct, ViewPc.pins]
  | repair u => simp [acct, pins, share, owed]
  | reclaim u => simp [acct, pins, share, owed]
  | orphan u => simp [acct, pins, share, owed]

theorem repair_quiet {g : Geometry} {u : Repair} {op : Op} (hop : u.request g = some op) :
    op.quiet = true := by
  cases e : u.pc <;> simp only [Repair.request, e, Option.some.injEq, reduceCtorEq] at hop <;>
    subst hop <;> rfl

theorem reclaim_quiet {u : Reclaim} {op : Op} (hop : u.request = some op) : op.quiet = true := by
  cases e : u.pc <;> simp only [Reclaim.request, e, Option.some.injEq, reduceCtorEq] at hop <;>
    subst hop <;> rfl

/-- Every access of an actor is a move of its account, and keeps its bounds. -/
theorem move {g : Geometry} (hg : g.Valid) {l : Local} (h : l.Ok g) (hn : l.NoOrphan) {op : Op}
    (hop : l.request g = some op) (r : Resp) :
    Move g (l.acct g) r ((l.resume g r).acct g) op ∧ (l.resume g r).Ok g ∧
      (l.resume g r).NoOrphan := by
  cases l with
  | pub u => exact ⟨Pub.move hg h hop r, Pub.Ok.resume hg h r, trivial⟩
  | sub u =>
    obtain ⟨hm, hok⟩ := Sub.move hg h hop r
    exact ⟨hm, hok, trivial⟩
  | view pc =>
    obtain ⟨hm, hok⟩ := ViewPc.move h hop r
    exact ⟨hm, hok, trivial⟩
  | repair u => exact ⟨.quiet (repair_quiet hop) rfl rfl rfl, trivial, trivial⟩
  | reclaim u => exact ⟨.quiet (reclaim_quiet hop) rfl rfl rfl, trivial, trivial⟩
  | orphan u =>
    simp only [NoOrphan] at hn
    simp [request, Orphan.request, hn] at hop

/-- A call moves nothing. -/
theorem call_acct {g : Geometry} {l l' : Local} {c : Call} (h : l.Ok g)
    (hc : l.call g c = some l') : (l'.acct g).excl = (l.acct g).excl ∧
      (l'.acct g).holds = (l.acct g).holds ∧ (l'.acct g).stack = .away ∧ l'.Ok g := by
  cases l with
  | pub u =>
    simp only [call] at hc
    split_ifs at hc with hidle
    split at hc <;> simp only [Option.some.injEq, reduceCtorEq] at hc <;> subst hc
    · refine ⟨?_, ?_, ?_, Pub.Ok.allocate h⟩
      all_goals
        unfold Pub.allocate
        split <;> simp [acct, Pub.acct, Pub.excl, Pub.reserved, Pub.share, Pub.owed, Pub.stack, hidle,
          PubPc.delivery, PushPc.stack, PopPc.stack]
    · refine ⟨?_, ?_, ?_, Pub.Ok.publish h _⟩
      all_goals
        unfold Pub.publish Pub.releasePending
        split_ifs
        · split <;> simp_all [acct, Pub.acct, Pub.excl, Pub.reserved, Pub.share, Pub.owed, Pub.stack,
            PubPc.delivery, PushPc.stack]
        · split <;> simp_all [acct, Pub.acct, Pub.excl, Pub.reserved, Pub.share, Pub.owed, Pub.stack,
            PubPc.delivery]
    · refine ⟨?_, ?_, ?_, Pub.Ok.releasePending h⟩
      all_goals
        unfold Pub.releasePending
        split <;> simp [acct, Pub.acct, Pub.excl, Pub.reserved, Pub.share, Pub.owed, Pub.stack, hidle,
          PubPc.delivery, PushPc.stack]
  | sub u =>
    obtain ⟨hjoin, hlive⟩ := Sub.Ok.call_onward h
    have key : ∀ u' : Sub, u.pc.plain = true → Sub.Onward g u u' →
        (acct g (.sub u')).excl = (acct g (.sub u)).excl ∧
          (acct g (.sub u')).holds = (acct g (.sub u)).holds ∧
          (acct g (.sub u')).stack = .away ∧ Ok g (.sub u') := fun u' hp ho => by
      simp only [acct]
      rw [Sub.acct_of_plain ho.plain, Sub.acct_of_plain hp, ho.views]
      exact ⟨rfl, rfl, rfl, ho.ok⟩
    simp only [call] at hc
    split_ifs at hc with hout hl
    · split at hc <;> simp only [Option.some.injEq, reduceCtorEq] at hc
      subst hc
      exact key _ (by rw [hout]; rfl) (hjoin hout _)
    · obtain ⟨hrecv, harm, hdis, hrel⟩ := hlive hl
      split at hc <;> simp only [Option.some.injEq, reduceCtorEq] at hc <;> subst hc
      · exact key _ (by rw [hl]; rfl) (hrecv _ _)
      · exact key _ (by rw [hl]; rfl) harm
      · exact key _ (by rw [hl]; rfl) hdis
      · exact key _ (by rw [hl]; rfl) hrel
  | view pc => simp [call] at hc
  | repair u =>
    cases c <;> simp only [call, reduceCtorEq] at hc
    split_ifs at hc
    cases hc
    exact ⟨rfl, rfl, rfl, trivial⟩
  | reclaim u =>
    cases c <;> simp only [call, reduceCtorEq] at hc
    split_ifs at hc
    cases hc
    exact ⟨rfl, rfl, rfl, trivial⟩
  | orphan u =>
    cases c <;> simp only [call, reduceCtorEq] at hc
    split at hc
    · cases hc
      exact ⟨rfl, rfl, rfl, trivial⟩
    · simp at hc

theorem call_noOrphan {g : Geometry} {l l' : Local} {c : Call} (h : l.NoOrphan)
    (hne : c ≠ .reclaimOrphanedSlots) (hc : l.call g c = some l') : l'.NoOrphan := by
  cases l with
  | pub u =>
    simp only [call] at hc
    split_ifs at hc
    split at hc <;> simp only [Option.some.injEq, reduceCtorEq] at hc <;> subst hc <;> trivial
  | sub u =>
    simp only [call] at hc
    split_ifs at hc <;> split at hc <;> simp only [Option.some.injEq, reduceCtorEq] at hc <;>
      subst hc <;> trivial
  | view pc => simp [call] at hc
  | repair u =>
    cases c <;> simp only [call, reduceCtorEq] at hc
    split_ifs at hc
    cases hc
    trivial
  | reclaim u =>
    cases c <;> simp only [call, reduceCtorEq] at hc
    split_ifs at hc
    cases hc
    trivial
  | orphan u => cases c <;> simp_all [call]

theorem popCas_of_stack {g : Geometry} {l : Local} {old nxt : Nat}
    (h : (l.acct g).stack = .popCas old nxt) : ∃ u, l = .pub u ∧ u.pc = .allocate (.cas old nxt) := by
  have push : ∀ (p : PushPc) s, p.stack s ≠ .popCas old nxt := fun p s => by
    cases p <;> simp [PushPc.stack]
  cases l with
  | pub u =>
    refine ⟨u, rfl, ?_⟩
    simp only [acct, Pub.acct, Pub.stack] at h
    split at h <;> rename_i e
    · exact absurd h (push _ _)
    · rename_i p
      cases p <;> simp [PopPc.stack] at h
      rw [e, h.1, h.2]
    · exact absurd h (push _ _)
    · exact absurd h (push _ _)
    · simp at h
  | sub u =>
    simp only [acct, Sub.acct, SubPc.stack] at h
    split at h <;> first | exact absurd h (push _ _) | simp at h
  | view pc => cases pc <;> simp_all [acct, ViewPc.acct]
  | repair u => simp [acct] at h
  | reclaim u => simp [acct] at h
  | orphan u => simp [acct] at h

end Local

namespace Sys

variable {ι : Type}

/-- Fewer than `2 ^ 32` successful changes of `free_top` between a pop's load and its CAS. -/
def noWrap (s : Sys ι) : Label ι → Bool
  | .run t _ =>
    match s.th t with
    | .pub u =>
      match u.pc with
      | .allocate (.cas _ _) => decide (s.ghost.changes - s.ghost.seen t < 2 ^ 32)
      | _ => true
    | _ => true
  | _ => true

/-- `reclaim_orphaned_slots` is not called. -/
def noOrphanPass : Label ι → Bool
  | .call _ .reclaimOrphanedSlots => false
  | _ => true

def accts (g : Geometry) (s : Sys ι) : ι → Acct := fun t => (s.th t).acct g

variable [DecidableEq ι]

theorem accts_update (g : Geometry) (th : ι → Local) (t : ι) (l : Local) :
    (fun v => (Function.update th t l v).acct g) =
      Function.update (fun v => (th v).acct g) t (l.acct g) := by
  funext v
  by_cases hv : v = t
  · subst hv
    simp
  · simp [hv]

variable [Fintype ι]

/-- The ledger of the whole region. -/
structure Ledger (g : Geometry) (s : Sys ι) (chain : List Nat) : Prop where
  safe : PoolSafe g s.mem s.ghost.changes s.ghost.seen (s.accts g) chain
  exact : PoolExact g s.mem (s.accts g) chain
  ok : ∀ t, (s.th t).Ok g
  noOrphan : ∀ t, (s.th t).NoOrphan

section Steps

variable {g : Geometry} {proc : ι → Nat × Nat} {s s' : Sys ι} {chain : List Nat}

theorem fresh_acct {l : Local} {pid st : Nat} (h : l.Fresh pid st) :
    l.acct g = ⟨0, 0, .away⟩ ∧ l.Ok g ∧ l.NoOrphan := by
  cases l with
  | pub u =>
    obtain ⟨hp, -, hpc⟩ := h
    refine ⟨?_, ⟨by simp [hp], by simp [hpc, PubPc.delivery], by simp [hpc]⟩, trivial⟩
    simp [Local.acct, Pub.acct, Pub.excl, Pub.reserved, Pub.share, Pub.owed, Pub.stack, hp, hpc,
      PubPc.delivery]
  | sub u =>
    obtain ⟨-, -, hv, hpc⟩ := h
    refine ⟨?_, ⟨by simp [hpc, SubPc.inRing], by simp [hpc, SubPc.joining],
      by simp [hpc, SubPc.slot], by simp [hv], by simp [hpc]⟩, trivial⟩
    simp only [Local.acct]
    rw [Sub.acct_of_plain (by rw [hpc]; rfl), hv]
    rfl
  | view pc =>
    simp only [Local.Fresh] at h
    subst h
    exact ⟨rfl, trivial, trivial⟩
  | repair u => exact ⟨rfl, trivial, trivial⟩
  | reclaim u => exact ⟨rfl, trivial, trivial⟩
  | orphan u => exact ⟨rfl, trivial, h⟩

omit [DecidableEq ι] in
theorem ledger_init (hg : g.Valid) (h : Init g proc s) :
    Ledger g s (List.range g.poolSize).reverse := by
  have hf := fun t => fresh_acct (g := g) (h.th t)
  have key := poolSafe_stampNewRegion hg s.ghost.seen (s.accts g) (fun t x => by simp [accts, (hf t).1])
    (fun t x => by simp [accts, (hf t).1]) (fun t => by simp [accts, (hf t).1])
  rw [← h.mem] at key
  exact ⟨by rw [h.changes]; exact key.1, key.2, fun t => (hf t).2.1, fun t => (hf t).2.2⟩

theorem Ledger.run (hg : g.Valid) (h : Ledger g s chain) {t : ι} {c : Bool}
    (hs : s.next g proc (.run t c) = some s') (haba : s.noWrap (.run t c) = true) :
    ∃ chain', Ledger g s' chain' := by
  obtain ⟨-, op, hop, rfl⟩ := run_cases hs
  obtain ⟨hmove, hok, hno⟩ := Local.move hg (h.ok t) (h.noOrphan t) hop (op.exec s.procs s.mem c).2
  obtain ⟨chain', hsafe, hbal⟩ := h.safe.move hg hmove fun old nxt hp => by
    obtain ⟨u, hu, hpc⟩ := Local.popCas_of_stack hp
    simpa [noWrap, hu, hpc, -Nat.reducePow] using haba
  refine ⟨chain', ?_, ?_, forall_update h.ok hok, forall_update h.noOrphan hno⟩
  · unfold accts
    rw [accts_update]
    exact hsafe
  · unfold accts
    rw [accts_update]
    exact h.exact.balanced hbal

theorem Ledger.call (h : Ledger g s chain) {t : ι} {c : Call}
    (hs : s.next g proc (.call t c) = some s') (hne : c ≠ .reclaimOrphanedSlots) :
    Ledger g s' chain := by
  obtain ⟨-, l, hl, rfl⟩ := call_cases hs
  obtain ⟨he, hh, hst, hok⟩ := Local.call_acct (h.ok t) hl
  have key := h.safe.stay (t := t) (n := s.ghost.seen t) (fun _ _ => rfl) he hh
    (Acct.good_of_away hst)
  rw [Function.update_eq_self] at key
  have hgh : (s.ghost.published s.data t l).changes = s.ghost.changes ∧
      (s.ghost.published s.data t l).seen = s.ghost.seen := by
    unfold Ghost.published
    split
    · split <;> exact ⟨rfl, rfl⟩
    · exact ⟨rfl, rfl⟩
  refine ⟨?_, ?_, forall_update h.ok hok,
    forall_update h.noOrphan (Local.call_noOrphan (h.noOrphan t) hne hl)⟩
  · unfold accts
    rw [accts_update, hgh.1, hgh.2]
    exact key.1
  · unfold accts
    rw [accts_update]
    exact h.exact.balanced key.2

/-- A view changes hands. -/
theorem Ledger.destroy (h : Ledger g s chain) {t v : ι} {k : Nat}
    (hs : s.next g proc (.destroy t v k) = some s') : Ledger g s' chain := by
  obtain ⟨-, u, w, ht, hv, hw, rfl⟩ := destroy_cases hs
  have htv : v ≠ t := by
    rintro rfl
    rw [ht] at hv
    exact absurd hv (by simp)
  have hat : s.accts g t = u.acct := by simp [accts, ht, Local.acct]
  have hav : s.accts g v = ⟨0, 0, .away⟩ := by simp [accts, hv, Local.acct, ViewPc.acct]
  have hpins := pinsOf_eraseIdx hw
  have hok : u.Ok g := by simpa [Local.Ok, ht] using h.ok t
  have hgood := h.safe.good t
  rw [hat] at hgood
  -- the view's pin leaves the subscriber's account and enters the destroyer's
  have key := h.safe.handOver htv (Sub.acct { u with views := u.views.eraseIdx k })
    (ViewPc.acct (.sub w)) (by rw [hat, hav]; rfl)
    (by
      rw [hat, hav]
      simp only [Sub.acct, Sub.pins, ViewPc.acct, ← hpins]
      funext x
      simp only [Pi.add_apply, Pi.zero_apply]
      omega)
    hgood (Acct.good_of_away rfl)
  refine ⟨?_, ?_, forall_update (forall_update h.ok ?_) ?_,
    forall_update (forall_update h.noOrphan ?_) trivial⟩
  · unfold accts
    rw [accts_update, accts_update]
    exact key.1
  · unfold accts
    rw [accts_update, accts_update]
    exact h.exact.balanced key.2
  · exact ⟨hok.ring_lt, hok.joining_lt, hok.slot_lt,
      fun v hv => hok.views_ok v (List.mem_of_mem_eraseIdx hv), hok.pc_ok⟩
  · exact hok.views_ok w (List.mem_of_getElem? hw)
  · trivial

theorem Ledger.next (hg : g.Valid) (h : Ledger g s chain) {l : Label ι}
    (hs : s.next g proc l = some s') (haba : s.noWrap l = true) (hno : noOrphanPass l = true) :
    ∃ chain', Ledger g s' chain' := by
  cases l with
  | run t c => exact h.run hg hs haba
  | call t c =>
    refine ⟨chain, h.call hs ?_⟩
    rintro rfl
    simp [noOrphanPass] at hno
  | destroy t v k => exact ⟨chain, h.destroy hs⟩
  | write t off byte =>
    obtain ⟨-, u, slot, -, -, -, -, rfl⟩ := write_cases hs
    exact ⟨chain, h.safe, h.exact, h.ok, h.noOrphan⟩
  | exit pid =>
    obtain ⟨st, -, rfl⟩ := exit_cases hs
    exact ⟨chain, h.safe, h.exact, h.ok, h.noOrphan⟩
  | spawn pid st =>
    obtain ⟨-, rfl⟩ := spawn_cases hs
    exact ⟨chain, h.safe, h.exact, h.ok, h.noOrphan⟩

end Steps

/-- The runs conservation is about. -/
def conserving (s : Sys ι) (l : Label ι) : Bool := s.noWrap l && noOrphanPass l

theorem ledger_reach {g : Geometry} {proc : ι → Nat × Nat} {s : Sys ι} (hg : g.Valid)
    (h : (machine g proc).Reach (fun s l _ => s.conserving l = true) s) : ∃ chain, Ledger g s chain :=
  h.invariant (I := fun s => ∃ chain, Ledger g s chain) (fun _ h0 => ⟨_, ledger_init hg h0⟩)
    fun s l s' ⟨_, hI⟩ hs ho => by
      simp only [conserving, Bool.and_eq_true] at ho
      exact hI.next hg hs ho.1 ho.2

/-- The reference equation of slot `x`. -/
def Conserved (g : Geometry) (s : Sys ι) (x : Nat) : Prop :=
  s.mem (.refcount x) = names g s.mem x + ∑ t, (s.th t).pins x + ∑ t, (s.th t).share g x +
    ∑ t, (s.th t).owed x

/-- References are conserved, no `fetch_sub` of a reference count underflows, and a slot is on the free
stack, held by one actor alone, or referenced, and exactly one of these. -/
theorem refcount_conserved {g : Geometry} {proc : ι → Nat × Nat} {s : Sys ι} (hg : g.Valid)
    (h : (machine g proc).Reach (fun s l _ => s.conserving l = true) s) :
    (∀ x < g.poolSize, s.Conserved g x) ∧
      (∀ t x k, (s.th t).request g = some (.fetchSub (.refcount x) k) →
        k ≤ s.mem (.refcount x)) ∧
      ∃ chain, Linked (fun x => s.mem (.nextFree x)) invalidSlot (taggedIdx (s.mem .freeTop)) chain ∧
        ∀ x < g.poolSize, chain.count x + ∑ t, ((s.th t).acct g).excl x + inUse s.mem x = 1 := by
  obtain ⟨chain, hL⟩ := ledger_reach hg h
  refine ⟨fun x hx => ?_, fun t x k hop => ?_, chain, hL.safe.linked, hL.exact.once⟩
  · have := hL.exact.refs x hx
    simp only [accts, Local.holds_eq, Pi.add_apply, sum_add_distrib] at this
    unfold Conserved
    omega
  · obtain ⟨hmove, -, -⟩ := Local.move hg (hL.ok t) (hL.noOrphan t) hop ⟨0, false⟩
    cases hmove with
    | quiet hop => simp [Op.quiet, Op.target, Loc.ledger] at hop
    | drop hlt hk hh he hs =>
      have := congrFun hh x
      simp only [Pi.add_apply, Pi.single_eq_same] at this
      have := hL.safe.holds_le hlt t
      simp only [accts] at this
      omega

/-- A run that ends with one message in the ring and its publisher inside the next `publish()`. -/
theorem refcount_conserved_two : ∃ s : Sys (Fin 9),
    (machine smallGeometry crewProc).Reach (fun s l _ => s.conserving l = true) s ∧
      names smallGeometry s.mem 2 = 1 ∧ (s.th 0).share smallGeometry 1 = 1 ∧
      (∀ x < smallGeometry.poolSize, s.Conserved smallGeometry x) ∧
      (∀ t x k, (s.th t).request smallGeometry = some (.fetchSub (.refcount x) k) →
        k ≤ s.mem (.refcount x)) ∧
      ∃ chain, Linked (fun x => s.mem (.nextFree x)) invalidSlot (taggedIdx (s.mem .freeTop)) chain ∧
        ∀ x < smallGeometry.poolSize,
          chain.count x + ∑ t, ((s.th t).acct smallGeometry).excl x + inUse s.mem x = 1 := by
  have h0 : (machine smallGeometry crewProc).Reach (fun s l _ => s.conserving l = true)
      (crew smallGeometry) := .init (init_crew smallGeometry)
  obtain ⟨s, hs, hP⟩ := h0.play_any
    (.call 3 (.join false) :: runs 3 5 ++ .call 0 .allocate :: runs 0 3 ++
      .call 0 (.publish 1) :: runs 0 12 ++ .call 0 .allocate :: runs 0 3 ++
      .call 0 (.publish 1) :: runs 0 4)
    (fun s => decide (names smallGeometry s.mem 2 = 1 ∧ (s.th 0).share smallGeometry 1 = 1))
    (by decide +kernel)
  simp only [decide_eq_true_eq] at hP
  exact ⟨s, hs, hP.1, hP.2, refcount_conserved valid_smallGeometry hs⟩

end Sys

end Kickmsg
