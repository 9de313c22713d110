import Kickmsg.Orphans

/-!
# Recovery after crashes

`reclaim_orphaned_slots` in the runs of the whole region: processes crash at any access and others start, and in
between, when nobody has anything in hand, passes are made, each of which may itself be cut short. The pool stays
safe throughout, a pass that returns leaves the region in order, and what it leaves depends on the entries alone.
-/

namespace Kickmsg

open Finset Lib

/-- A pass is under way. -/
def Orphan.sweeping (u : Orphan) : Bool :=
  match u.pc with
  | .idle => false
  | _ => true

namespace Local

/-- An orphan pass is under way here. -/
def sweeping : Local → Bool
  | .orphan u => u.sweeping
  | _ => false

/-- Nothing in hand: no running call, no reservation, no view. -/
def parked : Local → Bool
  | .pub u => decide (u.pc = .idle ∧ u.pending = none)
  | .sub u => decide ((u.pc = .out ∨ u.pc = .live) ∧ u.views = [])
  | .view pc => decide (pc = .idle)
  | .repair u => decide (u.pc = .idle)
  | .reclaim u => decide (u.pc = .idle)
  | .orphan u => !u.sweeping

/-- What an actor has of the slots, an orphan pass included. -/
def holding (g : Geometry) : Local → Acct
  | .orphan u => u.acct
  | l => l.acct g

variable {g : Geometry} {l l' : Local} {c : Call} {op : Op}

theorem noOrphan_of_sweeping (h : l.sweeping = false) : l.NoOrphan := by
  cases l with
  | orphan u =>
    simp only [sweeping, Orphan.sweeping] at h
    split at h
    · assumption
    · cases h
  | _ => trivial

theorem sweeping_of_noOrphan (h : l.NoOrphan) : l.sweeping = false := by
  cases l with
  | orphan u =>
    simp only [NoOrphan] at h
    simp [sweeping, Orphan.sweeping, h]
  | _ => rfl

theorem holding_of_sweeping (h : l.sweeping = false) : l.holding g = l.acct g := by
  cases l with
  | orphan u =>
    have := noOrphan_of_sweeping h
    simp only [NoOrphan] at this
    simp [holding, acct, Orphan.acct, this]
  | _ => rfl

theorem sweeping_of_parked (h : l.parked = true) : l.sweeping = false := by
  cases l with
  | orphan u =>
    simp only [parked, Bool.not_eq_true'] at h
    exact h
  | _ => rfl

theorem holding_of_parked (h : l.parked = true) : l.holding g = ⟨0, 0, .away⟩ := by
  cases l with
  | pub u =>
    simp only [parked, decide_eq_true_eq] at h
    simp [holding, acct, Pub.acct, Pub.excl, Pub.reserved, Pub.share, Pub.owed, Pub.stack, h.1, h.2,
      PubPc.delivery]
  | sub u =>
    simp only [parked, decide_eq_true_eq] at h
    show u.acct = _
    rw [Sub.acct_of_plain (by rcases h.1 with e | e <;> rw [e] <;> rfl), h.2]
    rfl
  | view pc =>
    simp only [parked, decide_eq_true_eq] at h
    rw [h]
    rfl
  | orphan u => exact holding_of_sweeping (sweeping_of_parked h)
  | _ => rfl

/-- A call moves nothing, be it the call of a pass. -/
theorem call_holding (h : l.Ok g) (hc : l.call g c = some l') :
    (l'.holding g).excl = (l.holding g).excl ∧ (l'.holding g).holds = (l.holding g).holds ∧
      (l'.holding g).stack = .away ∧ l'.Ok g := by
  obtain ⟨he, hh, hs, hok⟩ := call_acct h hc
  rcases call_pass hc with ⟨u, rfl⟩ | ⟨u, rfl⟩ | ⟨u, rfl, -, rfl⟩ | ⟨u, rfl, -, -, rfl⟩ | ⟨u, rfl, hi, -, rfl⟩
  · obtain ⟨-, u', rfl, -⟩ := call_pub hc
    exact ⟨he, hh, hs, hok⟩
  · obtain ⟨u', rfl, -⟩ := call_sub hc
    exact ⟨he, hh, hs, hok⟩
  · exact ⟨he, hh, hs, hok⟩
  · exact ⟨he, hh, hs, hok⟩
  · have hz : u.acct = ⟨0, 0, .away⟩ := by rw [Orphan.acct, hi]
    simp only [holding, Orphan.acct_start, hz]
    exact ⟨trivial, trivial, trivial, hok⟩

end Local

namespace Sys

variable {ι : Type} [DecidableEq ι]

/-- The documented use of `reclaim_orphaned_slots`: it is called when every other actor has nothing in hand or
belongs to a process that is gone, nobody else works on the region until it returns, and nobody destroys the
views of a process that is gone. Crashes and restarts are free at any step. -/
def quiescing [Fintype ι] (proc : ι → Nat × Nat) (s : Sys ι) (l : Label ι) : Bool :=
  s.noWrap l &&
  match l with
  | .call t .reclaimOrphanedSlots => decide (∀ v, v ≠ t → (s.th v).parked = true ∨ proc v ∈ s.gone)
  | .run t _ | .call t _ | .write t _ _ => decide (∀ v, v ≠ t → (s.th v).sweeping = true → proc v ∈ s.gone)
  | .destroy t _ _ => decide (proc t ∉ s.gone ∧ ∀ v, (s.th v).sweeping = true → proc v ∈ s.gone)
  | .exit _ | .spawn _ _ => true

/-- What the actors of the processes that are not gone have of the slots. What a dead one had is nobody's. -/
def booked (g : Geometry) (proc : ι → Nat × Nat) (s : Sys ι) (t : ι) : Acct :=
  if proc t ∈ s.gone then ⟨0, 0, .away⟩ else (s.th t).holding g

/-- What holds in every such run, however many processes have crashed and whatever passes have been made. -/
structure Kept [Fintype ι] (g : Geometry) (proc : ι → Nat × Nat) (s : Sys ι) (chain : List Nat) : Prop where
  running : ∀ pid st, s.procs pid = some st → (pid, st) ∉ s.gone
  safe : PoolSafe g s.mem s.ghost.changes s.ghost.seen (s.booked g proc) chain
  ok : ∀ t, (s.th t).Ok g

/-- A pass of `t` is under way, or has just returned; it found the memory `m₀` with the free stack `chain₀`. -/
structure Works [Fintype ι] (g : Geometry) (proc : ι → Nat × Nat) (m₀ : Mem) (chain₀ : List Nat) (s : Sys ι)
    (chain : List Nat) (t : ι) (u : Orphan) : Prop where
  here : s.th t = .orphan u
  stands : u.Stands g m₀ chain₀ s.mem chain
  idle : ∀ v, v ≠ t → s.booked g proc v = ⟨0, 0, .away⟩
  others : ∀ v, v ≠ t → (s.th v).sweeping = true → proc v ∈ s.gone

section Steps

variable {g : Geometry} {proc : ι → Nat × Nat} {s s' : Sys ι} {chain : List Nat} {t : ι}

theorem booked_update (s s' : Sys ι) {l : Local} (hgone : s'.gone = s.gone) (hth : s'.th = Function.update s.th t l)
    (ht : proc t ∉ s.gone) : s'.booked g proc = Function.update (s.booked g proc) t (l.holding g) := by
  funext v
  unfold booked
  rw [hgone, hth]
  by_cases hv : v = t
  · subst hv
    rw [if_neg ht, Function.update_self, Function.update_self]
  · rw [Function.update_of_ne hv, Function.update_of_ne hv]

omit [DecidableEq ι] in
theorem booked_of_running (ht : proc t ∉ s.gone) : s.booked g proc t = (s.th t).holding g := if_neg ht

variable [Fintype ι]

omit [DecidableEq ι] in
theorem Kept.notGone (h : Kept g proc s chain) (ha : s.alive proc t = true) : proc t ∉ s.gone :=
  h.running _ _ (of_decide_eq_true ha)

/-- An access of an actor that is not making a pass. -/
theorem Kept.run (hg : g.Valid) (h : Kept g proc s chain) {c : Bool} (hs : s.next g proc (.run t c) = some s')
    (hn : (s.th t).sweeping = false) (haba : s.noWrap (.run t c) = true) :
    (∃ chain', Kept g proc s' chain') ∧ (s'.th t).sweeping = false := by
  obtain ⟨ha, op, hop, rfl⟩ := ran_cases hs
  have ht := h.notGone ha
  obtain ⟨hmove, hok, hno⟩ :=
    Local.move hg (h.ok t) (Local.noOrphan_of_sweeping hn) hop (op.exec s.procs s.mem c).2
  have hn' := Local.sweeping_of_noOrphan hno
  have hacct : s.booked g proc t = (s.th t).acct g := (booked_of_running ht).trans (Local.holding_of_sweeping hn)
  rw [← hacct] at hmove
  obtain ⟨chain', hsafe, -⟩ := h.safe.move hg hmove fun old nxt hp => by
    rw [hacct] at hp
    obtain ⟨u, hu, hpc⟩ := Local.popCas_of_stack hp
    simpa [noWrap, hu, hpc, -Nat.reducePow] using haba
  refine ⟨⟨chain', h.running, ?_, forall_update h.ok hok⟩, ?_⟩
  · have hb := booked_update (g := g) s (s.ran g t op c) rfl rfl ht
    rw [hb, Local.holding_of_sweeping hn']
    exact hsafe
  · simp only [ran, Function.update_self]
    exact hn'

/-- An access of a pass. -/
theorem Kept.sweep (hg : g.Valid) (h : Kept g proc s chain) {m₀ : Mem} {chain₀ : List Nat} {u : Orphan}
    (hW : Works g proc m₀ chain₀ s chain t u) {c : Bool} (hs : s.next g proc (.run t c) = some s') :
    ∃ op chain', u.request = some op ∧ Kept g proc s' chain' ∧
      Works g proc m₀ chain₀ s' chain' t (u.resume g (op.exec s.procs s.mem c).2) := by
  obtain ⟨ha, op, hop, rfl⟩ := ran_cases hs
  have ht := h.notGone ha
  rw [hW.here] at hop
  have hacct : s.booked g proc t = u.acct := by
    rw [booked_of_running ht, hW.here]
    rfl
  obtain ⟨chain', hsafe, hst⟩ := hW.stands.step hg h.safe hacct hW.idle hop
  have hl : (s.th t).resume g (op.exec s.procs s.mem c).2 = .orphan (u.resume g (op.exec s.procs s.mem c).2) := by
    rw [hW.here]
    rfl
  have hb := booked_update (g := g) s (s.ran g t op c) rfl rfl ht
  rw [hl] at hb
  refine ⟨op, chain', hop, ⟨h.running, ?_, forall_update h.ok (by rw [hl]; trivial)⟩, ?_, hst, fun v hv => ?_,
    fun v hv hsw => ?_⟩
  · rw [hb]
    exact hsafe
  · rw [ran, hl]
    exact Function.update_self ..
  · rw [hb, Function.update_of_ne hv]
    exact hW.idle v hv
  · simp only [ran, Function.update_of_ne hv] at hsw
    exact hW.others v hv hsw

theorem Kept.call (h : Kept g proc s chain) {c : Call} (hs : s.next g proc (.call t c) = some s') :
    Kept g proc s' chain := by
  obtain ⟨ha, l, hl, rfl⟩ := call_cases hs
  have ht := h.notGone ha
  obtain ⟨he, hh, hst, hok⟩ := Local.call_holding (h.ok t) hl
  rw [← booked_of_running ht] at he hh
  have key := (h.safe.stay (t := t) (n := s.ghost.seen t) (fun _ _ => rfl) he hh (Acct.good_of_away hst)).1
  have hgh : (s.ghost.published s.data t l).changes = s.ghost.changes ∧
      (s.ghost.published s.data t l).seen = s.ghost.seen := by
    unfold Ghost.published
    split
    · split <;> exact ⟨rfl, rfl⟩
    · exact ⟨rfl, rfl⟩
  refine ⟨h.running, ?_, forall_update h.ok hok⟩
  have hb := booked_update (g := g) s
    { s with th := Function.update s.th t l, ghost := s.ghost.published s.data t l } rfl rfl ht
  rw [hb, hgh.1, hgh.2]
  rwa [Function.update_eq_self] at key

/-- A view of a process that exists changes hands. -/
theorem Kept.destroy (h : Kept g proc s chain) {v : ι} {k : Nat} (hs : s.next g proc (.destroy t v k) = some s')
    (ht : proc t ∉ s.gone) : Kept g proc s' chain := by
  obtain ⟨ha, u, w, hu, hv, hw, rfl⟩ := destroy_cases hs
  have hgv := h.notGone ha
  have htv : v ≠ t := by
    rintro rfl
    rw [hu] at hv
    cases hv
  have hat : s.booked g proc t = u.acct := by
    rw [booked_of_running ht, hu]
    rfl
  have hav : s.booked g proc v = ⟨0, 0, .away⟩ := by
    rw [booked_of_running hgv, hv]
    rfl
  have hpins := pinsOf_eraseIdx hw
  have hok : u.Ok g := by simpa [Local.Ok, hu] using h.ok t
  have hgood := h.safe.good t
  rw [hat] at hgood
  have key := (h.safe.handOver htv (Sub.acct { u with views := u.views.eraseIdx k }) (ViewPc.acct (.sub w))
    (by rw [hat, hav]; rfl)
    (by
      rw [hat, hav]
      simp only [Sub.acct, Sub.pins, ViewPc.acct, ← hpins]
      funext x
      simp only [Pi.add_apply, Pi.zero_apply]
      omega)
    hgood (Acct.good_of_away rfl)).1
  let left : Sys ι := { s with th := Function.update s.th t (.sub { u with views := u.views.eraseIdx k }) }
  have hb₁ := booked_update (g := g) s left rfl rfl ht
  have hb₂ := booked_update (g := g) left { left with th := Function.update left.th v (.view (.sub w)) } rfl rfl hgv
  refine ⟨h.running, ?_, forall_update (forall_update h.ok ?_) ?_⟩
  · rw [hb₁] at hb₂
    exact hb₂ ▸ key
  · exact ⟨hok.ring_lt, hok.joining_lt, hok.slot_lt,
      fun v hv => hok.views_ok v (List.mem_of_mem_eraseIdx hv), hok.pc_ok⟩
  · exact hok.views_ok w (List.mem_of_getElem? hw)

omit [DecidableEq ι] [Fintype ι] in
/-- The accounts of the actors of a process that exits are closed. -/
theorem booked_exit (pid st : Nat) (t : ι) :
    let s' : Sys ι := { s with procs := Function.update s.procs pid none, gone := (pid, st) :: s.gone }
    s'.booked g proc t = s.booked g proc t ∨ s'.booked g proc t = ⟨0, 0, .away⟩ := by
  intro s'
  by_cases h : proc t ∈ s'.gone
  · exact .inr (if_pos h)
  · have h' : proc t ∉ s.gone := fun hm => h (List.mem_cons_of_mem _ hm)
    exact .inl ((booked_of_running h).trans (booked_of_running h').symm)

theorem Kept.exit (h : Kept g proc s chain) {pid : Nat} (hs : s.next g proc (.exit pid) = some s') :
    Kept g proc s' chain := by
  obtain ⟨st, hp, rfl⟩ := exit_cases hs
  refine ⟨fun pid' st' hp' => ?_, h.safe.forget (booked_exit pid st), h.ok⟩
  simp only [Function.update_apply] at hp'
  split_ifs at hp' with hne
  rw [List.mem_cons, Prod.mk.injEq]
  rintro (⟨e, -⟩ | hm)
  · exact hne e
  · exact h.running _ _ hp' hm

theorem Kept.spawn (h : Kept g proc s chain) {pid st : Nat} (hs : s.next g proc (.spawn pid st) = some s') :
    Kept g proc s' chain := by
  obtain ⟨⟨-, -, -, hnew⟩, rfl⟩ := spawn_cases hs
  refine ⟨fun pid' st' hp' => ?_, h.safe, h.ok⟩
  simp only [Function.update_apply] at hp'
  split_ifs at hp' with he
  · obtain rfl := Option.some.inj hp'
    rw [he]
    exact hnew
  · exact h.running _ _ hp'

/-- Crashes and restarts do not disturb a pass. -/
theorem Works.exit {m₀ : Mem} {chain₀ : List Nat} {u : Orphan} (hW : Works g proc m₀ chain₀ s chain t u)
    {pid : Nat} (hs : s.next g proc (.exit pid) = some s') : Works g proc m₀ chain₀ s' chain t u := by
  obtain ⟨st, hp, rfl⟩ := exit_cases hs
  refine ⟨hW.here, hW.stands, fun v hv => ?_, fun v hv hsw => List.mem_cons_of_mem _ (hW.others v hv hsw)⟩
  rcases booked_exit pid st v with e | e
  · exact e.trans (hW.idle v hv)
  · exact e

theorem Works.spawn {m₀ : Mem} {chain₀ : List Nat} {u : Orphan} (hW : Works g proc m₀ chain₀ s chain t u)
    {pid st : Nat} (hs : s.next g proc (.spawn pid st) = some s') : Works g proc m₀ chain₀ s' chain t u := by
  obtain ⟨-, rfl⟩ := spawn_cases hs
  exact ⟨hW.here, hW.stands, hW.idle, hW.others⟩

/-- A pass starts from what it finds. -/
theorem Works.call (hg : g.Valid) (h : Kept g proc s chain)
    (hs : s.next g proc (.call t .reclaimOrphanedSlots) = some s')
    (ho : s.quiescing proc (.call t .reclaimOrphanedSlots) = true) :
    ∃ u : Orphan, Works g proc s.mem chain s' chain t (u.start g) := by
  obtain ⟨ha, l, hl, rfl⟩ := call_cases hs
  have ht := h.notGone ha
  simp only [quiescing, Bool.and_eq_true, decide_eq_true_eq] at ho
  obtain ⟨u, rfl⟩ : ∃ u : Orphan, l = .orphan (u.start g) := by
    rcases Local.call_pass hl with ⟨u, e⟩ | ⟨u, e⟩ | ⟨u, e, -⟩ | ⟨u, e, -⟩ | ⟨u, e, -, -, rfl⟩
    case inr.inr.inr.inr => exact ⟨u, rfl⟩
    all_goals simp [e, Local.call] at hl
  refine ⟨u, Function.update_self .., Orphan.stands_start hg, fun v hv => ?_, fun v hv hsw => ?_⟩
  · have hb := booked_update (g := g) s { s with
      th := Function.update s.th t (.orphan (u.start g))
      ghost := s.ghost.published s.data t (.orphan (u.start g)) } rfl rfl ht
    rw [hb, Function.update_of_ne hv]
    rcases ho.2 v hv with hp | hgone
    · unfold booked
      split_ifs
      · rfl
      · exact Local.holding_of_parked hp
    · exact if_pos hgone
  · simp only [Function.update_of_ne hv] at hsw
    rcases ho.2 v hv with hp | hgone
    · rw [Local.sweeping_of_parked hp] at hsw
      cases hsw
    · exact hgone

/-- The invariant: a pass under way has the region to itself. -/
def Sound (g : Geometry) (proc : ι → Nat × Nat) (s : Sys ι) : Prop :=
  ∃ chain, Kept g proc s chain ∧ ∀ t, proc t ∉ s.gone → (s.th t).sweeping = true →
    ∃ m₀ chain₀ u, Works g proc m₀ chain₀ s chain t u

theorem quiescing_call {c : Call} (hne : c ≠ .reclaimOrphanedSlots) (h : s.quiescing proc (.call t c) = true) :
    ∀ v, v ≠ t → (s.th v).sweeping = true → proc v ∈ s.gone := by
  cases c with
  | reclaimOrphanedSlots => exact absurd rfl hne
  | _ =>
    simp only [quiescing, Bool.and_eq_true, decide_eq_true_eq] at h
    exact h.2

omit [DecidableEq ι] [Fintype ι] in
theorem sweeping_of_call {l l' : Local} {c : Call} (hc : l.call g c = some l') (hne : c ≠ .reclaimOrphanedSlots) :
    l'.sweeping = false := by
  rcases Local.call_pass hc with ⟨u, rfl⟩ | ⟨u, rfl⟩ | ⟨u, rfl, -, rfl⟩ | ⟨u, rfl, -, -, rfl⟩ | ⟨u, -, -, e, -⟩
  · obtain ⟨-, u', rfl, -⟩ := Local.call_pub hc
    rfl
  · obtain ⟨u', rfl, -⟩ := Local.call_sub hc
    rfl
  · rfl
  · rfl
  · exact absurd e hne

theorem Sound.next (hg : g.Valid) (h : Sound g proc s) {l : Label ι} (hs : s.next g proc l = some s')
    (ho : s.quiescing proc l = true) : Sound g proc s' := by
  obtain ⟨chain, hK, hW⟩ := h
  have haba : s.noWrap l = true := by
    simp only [quiescing, Bool.and_eq_true] at ho
    exact ho.1
  cases l with
  | run t c =>
    simp only [quiescing, Bool.and_eq_true, decide_eq_true_eq] at ho
    have ht : proc t ∉ s.gone := hK.notGone (run_cases hs).1
    have hth : ∀ v, v ≠ t → s'.th v = s.th v ∧ s'.gone = s.gone := fun v hv => by
      obtain ⟨-, op, -, rfl⟩ := run_cases hs
      exact ⟨Function.update_of_ne hv .., rfl⟩
    cases hn : (s.th t).sweeping with
    | false =>
      obtain ⟨⟨chain', hK'⟩, hn'⟩ := hK.run hg hs hn haba
      refine ⟨chain', hK', fun v hv hsw => ?_⟩
      by_cases hvt : v = t
      · rw [hvt, hn'] at hsw
        cases hsw
      · rw [(hth v hvt).1] at hsw
        rw [(hth v hvt).2] at hv
        exact absurd (ho.2 v hvt hsw) hv
    | true =>
      obtain ⟨m₀, chain₀, u, hWt⟩ := hW t ht hn
      obtain ⟨op, chain', -, hK', hW'⟩ := hK.sweep hg hWt hs
      refine ⟨chain', hK', fun v hv hsw => ?_⟩
      by_cases hvt : v = t
      · exact ⟨m₀, chain₀, _, hvt ▸ hW'⟩
      · rw [(hth v hvt).1] at hsw
        rw [(hth v hvt).2] at hv
        exact absurd (ho.2 v hvt hsw) hv
  | call t c =>
    have hK' := hK.call hs
    have hs' := hs
    obtain ⟨-, l, hl, rfl⟩ := call_cases hs'
    refine ⟨chain, hK', fun v hv hsw => ?_⟩
    by_cases hc : c = .reclaimOrphanedSlots
    · subst hc
      by_cases hvt : v = t
      · obtain ⟨u, hWt⟩ := Works.call hg hK hs ho
        rw [hvt]
        exact ⟨_, _, _, hWt⟩
      · simp only [quiescing, Bool.and_eq_true, decide_eq_true_eq] at ho
        simp only [Function.update_of_ne hvt] at hsw
        rcases ho.2 v hvt with hp | hgone
        · rw [Local.sweeping_of_parked hp] at hsw
          cases hsw
        · exact absurd hgone hv
    · by_cases hvt : v = t
      · subst hvt
        simp only [Function.update_self, sweeping_of_call hl hc] at hsw
        cases hsw
      · simp only [Function.update_of_ne hvt] at hsw
        exact absurd (quiescing_call hc ho v hvt hsw) hv
  | destroy t v k =>
    simp only [quiescing, Bool.and_eq_true, decide_eq_true_eq] at ho
    have hK' := hK.destroy hs ho.2.1
    obtain ⟨-, u, w, -, -, -, rfl⟩ := destroy_cases hs
    refine ⟨chain, hK', fun x hx hsw => ?_⟩
    dsimp only at hsw
    by_cases hxv : x = v
    · rw [hxv, Function.update_self] at hsw
      cases hsw
    · rw [Function.update_of_ne hxv] at hsw
      by_cases hxt : x = t
      · rw [hxt, Function.update_self] at hsw
        cases hsw
      · rw [Function.update_of_ne hxt] at hsw
        exact absurd (ho.2.2 x hsw) hx
  | write t off byte =>
    simp only [quiescing, Bool.and_eq_true, decide_eq_true_eq] at ho
    obtain ⟨-, u, slot, hu, -, -, -, rfl⟩ := write_cases hs
    refine ⟨chain, ⟨hK.running, hK.safe, hK.ok⟩, fun v hv hsw => ?_⟩
    by_cases hvt : v = t
    · subst hvt
      rw [hu] at hsw
      cases hsw
    · exact absurd (ho.2 v hvt hsw) hv
  | exit pid =>
    refine ⟨chain, hK.exit hs, fun v hv hsw => ?_⟩
    have hs' := hs
    obtain ⟨st, -, rfl⟩ := exit_cases hs'
    obtain ⟨m₀, chain₀, u, hWv⟩ := hW v (fun hm => hv (List.mem_cons_of_mem _ hm)) hsw
    exact ⟨m₀, chain₀, u, hWv.exit hs⟩
  | spawn pid st =>
    refine ⟨chain, hK.spawn hs, fun v hv hsw => ?_⟩
    have hs' := hs
    obtain ⟨-, rfl⟩ := spawn_cases hs'
    obtain ⟨m₀, chain₀, u, hWv⟩ := hW v hv hsw
    exact ⟨m₀, chain₀, u, hWv.spawn hs⟩

omit [DecidableEq ι] in
theorem sound_init (hg : g.Valid) (h : Init g proc s) : Sound g proc s := by
  have hL := ledger_init hg h
  have hn : ∀ t, (s.th t).sweeping = false := fun t => Local.sweeping_of_noOrphan (hL.noOrphan t)
  have hgone : ∀ x, x ∉ s.gone := fun x => by
    rw [h.gone]
    exact List.not_mem_nil
  refine ⟨(List.range g.poolSize).reverse, ⟨fun pid st _ => hgone _, ?_, hL.ok⟩, fun t _ hsw => ?_⟩
  · have hb : s.booked g proc = s.accts g := by
      funext t
      rw [booked_of_running (hgone _), Local.holding_of_sweeping (hn t)]
      rfl
    rw [hb]
    exact hL.safe
  · rw [hn t] at hsw
    cases hsw

theorem sound_reach (hg : g.Valid) (h : (machine g proc).Reach (fun s l _ => s.quiescing proc l = true) s) :
    Sound g proc s :=
  h.invariant (fun _ => sound_init hg) fun _ _ _ hI hs ho => hI.next hg hs ho

end Steps

/-- The pool survives any number of crashes and passes: no slot is in two places, and every name and every
reference of an actor that may still act on it is counted, so that no `fetch_sub` underflows and no slot is
handed out or freed while it is named or held. -/
theorem pool_survives [Fintype ι] {g : Geometry} {proc : ι → Nat × Nat} {s : Sys ι} (hg : g.Valid)
    (h : (machine g proc).Reach (fun s l _ => s.quiescing proc l = true) s) :
    ∃ chain, FreeChain g s.mem chain ∧
      (∀ x < g.poolSize, chain.count x + ∑ t, (s.booked g proc t).excl x + inUse s.mem x ≤ 1) ∧
      (∀ x < g.poolSize, names g s.mem x + ∑ t, (s.booked g proc t).holds x ≤ s.mem (.refcount x)) ∧
      ∀ t x k, s.alive proc t = true → (s.th t).request g = some (.fetchSub (.refcount x) k) →
        k ≤ s.mem (.refcount x) := by
  obtain ⟨chain, hK, -⟩ := sound_reach hg h
  refine ⟨chain, ⟨hK.safe.linked, hK.safe.lt⟩, hK.safe.once, hK.safe.refs, fun t x k ha hop => ?_⟩
  have hgone := hK.notGone ha
  have hn : (s.th t).sweeping = false := by
    cases hl : s.th t with
    | orphan u =>
      -- a pass only loads, stores and exchanges
      rw [hl] at hop
      cases e : u.pc <;> simp only [Local.request, Orphan.request, e, Option.some.injEq, reduceCtorEq] at hop
      rename_i p
      cases p <;> cases hop
    | _ => rfl
  obtain ⟨hmove, -, -⟩ := Local.move hg (hK.ok t) (Local.noOrphan_of_sweeping hn) hop ⟨0, false⟩
  have hacct : s.booked g proc t = (s.th t).acct g :=
    (booked_of_running hgone).trans (Local.holding_of_sweeping hn)
  rw [← hacct] at hmove
  cases hmove with
  | quiet hq => cases hq
  | drop hlt hk hh he hs =>
    have := congrFun hh x
    simp only [Pi.add_apply, Pi.single_eq_same] at this
    have := hK.safe.holds_le hlt t
    omega

/-- `s` is a state of a pass that `t` was called to make in `s₀`: it is under way, or it is the state in which
it returned or its process died. -/
def InPass [Fintype ι] (g : Geometry) (proc : ι → Nat × Nat) (t : ι) (s₀ s : Sys ι) : Prop :=
  s₀.quiescing proc (.call t .reclaimOrphanedSlots) = true ∧
    ∃ s₁, s₀.next g proc (.call t .reclaimOrphanedSlots) = some s₁ ∧
      (LTS.ofNext (· = s₁) (next g proc)).Reach (fun s l _ => s.quiescing proc l = true ∧
        s.alive proc t = true ∧ (s.th t).sweeping = true) s

section Pass

variable [Fintype ι] {g : Geometry} {proc : ι → Nat × Nat} {s₀ s s' : Sys ι} {m₀ : Mem} {chain₀ chain : List Nat}
  {t : ι} {u : Orphan}

/-- While a pass is under way it alone moves, and processes come and go. -/
theorem Works.next (hg : g.Valid) (hK : Kept g proc s chain) (hW : Works g proc m₀ chain₀ s chain t u)
    {l : Label ι} (hs : s.next g proc l = some s') (ho : s.quiescing proc l = true)
    (ha : s.alive proc t = true) (hsw : (s.th t).sweeping = true) :
    ∃ chain' u', Kept g proc s' chain' ∧ Works g proc m₀ chain₀ s' chain' t u' := by
  have hgone := hK.notGone ha
  cases l with
  | run v c =>
    by_cases hv : v = t
    · subst hv
      obtain ⟨op, chain', -, hK', hW'⟩ := hK.sweep hg hW hs
      exact ⟨chain', _, hK', hW'⟩
    · simp only [quiescing, Bool.and_eq_true, decide_eq_true_eq] at ho
      exact absurd (ho.2 t (Ne.symm hv) hsw) hgone
  | call v c =>
    exfalso
    by_cases hv : v = t
    · obtain ⟨-, l, hl, -⟩ := call_cases hs
      rw [hv, hW.here] at hl
      rw [hW.here] at hsw
      rcases Local.call_pass hl with ⟨_, e⟩ | ⟨_, e⟩ | ⟨_, e, -⟩ | ⟨_, e, -⟩ | ⟨_, e, hi, -⟩
      case inr.inr.inr.inr =>
        obtain rfl := Local.orphan.inj e
        simp [Local.sweeping, Orphan.sweeping, hi] at hsw
      all_goals cases e
    · by_cases hc : c = .reclaimOrphanedSlots
      · subst hc
        simp only [quiescing, Bool.and_eq_true, decide_eq_true_eq] at ho
        rcases ho.2 t (Ne.symm hv) with hp | hm
        · rw [Local.sweeping_of_parked hp] at hsw
          cases hsw
        · exact hgone hm
      · exact hgone (quiescing_call hc ho t (Ne.symm hv) hsw)
  | destroy w v k =>
    simp only [quiescing, Bool.and_eq_true, decide_eq_true_eq] at ho
    exact absurd (ho.2.2 t hsw) hgone
  | write v off byte =>
    simp only [quiescing, Bool.and_eq_true, decide_eq_true_eq] at ho
    by_cases hv : v = t
    · obtain ⟨-, w, slot, hu, -⟩ := write_cases hs
      rw [hv, hW.here] at hu
      cases hu
    · exact absurd (ho.2 t (Ne.symm hv) hsw) hgone
  | exit pid => exact ⟨chain, u, hK.exit hs, hW.exit hs⟩
  | spawn pid st => exact ⟨chain, u, hK.spawn hs, hW.spawn hs⟩

theorem works_of_inPass (hg : g.Valid) (h₀ : (machine g proc).Reach (fun s l _ => s.quiescing proc l = true) s₀)
    (h : InPass g proc t s₀ s) : ∃ chain₀, FreeChain g s₀.mem chain₀ ∧
      ∃ chain u, Kept g proc s chain ∧ Works g proc s₀.mem chain₀ s chain t u := by
  obtain ⟨hq, s₁, h₁, hr⟩ := h
  obtain ⟨chain₀, hK, -⟩ := sound_reach hg h₀
  refine ⟨chain₀, ⟨hK.safe.linked, hK.safe.lt⟩, ?_⟩
  refine hr.invariant (I := fun s => ∃ chain u, Kept g proc s chain ∧ Works g proc s₀.mem chain₀ s chain t u)
    (fun x hx => ?_) fun x l y ⟨chain, u, hK, hW⟩ hs ho => hW.next hg hK hs ho.1 ho.2.1 ho.2.2
  obtain rfl := hx
  obtain ⟨u, hW⟩ := Works.call hg hK h₁ hq
  exact ⟨chain₀, _, hK.call h₁, hW⟩

omit [DecidableEq ι] in
/-- A pass under way has an access to perform. -/
theorem request_of_sweeping (h : u.sweeping = true) : ∃ op, u.request = some op := by
  cases e : u.pc <;> simp [Orphan.sweeping, e] at h <;> exact ⟨_, by rw [Orphan.request, e]⟩

/-- A pass whose process lives on returns, if no compare-exchange fails for no reason. -/
theorem returns (hg : g.Valid) : ∀ (n : Nat) {s : Sys ι} {chain : List Nat} {u : Orphan}, u.remaining g ≤ n →
    InPass g proc t s₀ s → Kept g proc s chain → Works g proc m₀ chain₀ s chain t u → s.alive proc t = true →
    ∃ k ≤ n, ∃ s' u', LTS.play (next g proc) (fun _ _ => true) s (List.replicate k (.run t false)) = some s' ∧
      InPass g proc t s₀ s' ∧ s'.th t = .orphan u' ∧ u'.sweeping = false
  | n, s, chain, u, hle, hP, hK, hW, ha => by
    cases hsw : u.sweeping with
    | false => exact ⟨0, Nat.zero_le _, s, u, rfl, hP, hW.here, hsw⟩
    | true =>
      obtain ⟨op, hop⟩ := request_of_sweeping hsw
      have hs : s.next g proc (.run t false) = some (s.ran g t op false) := by
        have hop' : (Local.orphan u).request g = some op := hop
        simp only [next, ha, if_true, hW.here, hop', ran]
      have hq : s.quiescing proc (.run t false) = true := by
        simp only [quiescing, noWrap, hW.here, Bool.true_and, decide_eq_true_eq]
        exact hW.others
      have hsw' : (s.th t).sweeping = true := by
        rw [hW.here]
        exact hsw
      have hP' : InPass g proc t s₀ (s.ran g t op false) := by
        obtain ⟨hq₀, s₁, h₁, hr⟩ := hP
        exact ⟨hq₀, s₁, h₁, hr.step hs ⟨hq, ha, hsw'⟩⟩
      obtain ⟨op', chain', hop', hK', hW'⟩ := hK.sweep hg hW hs
      obtain rfl := Option.some.inj (hop.symm.trans hop')
      have hlow : (u.resume g (op.exec s.procs s.mem false).2).remaining g < u.remaining g := hW.stands.lowers hop
      cases n with
      | zero => omega
      | succ n =>
        obtain ⟨k, hk, s', u', hp, hreturn⟩ := returns hg n (by omega) hP' hK' hW' ha
        refine ⟨k + 1, Nat.succ_le_succ hk, s', u', ?_, hreturn⟩
        rw [List.replicate_succ]
        simp only [LTS.play, hs, if_true, Option.bind_some]
        exact hp

/-- A pass pushes slots that no entry names, and no others, and leaves the entries alone; a region in order it
does not change at all. When it returns the region is in order and the pass has counted its pushes; and it does
return, if its process lives on. -/
theorem orphans_reclaimed (hg : g.Valid)
    (h₀ : (machine g proc).Reach (fun s l _ => s.quiescing proc l = true) s₀) (h : InPass g proc t s₀ s) :
    ∃ chain pushed, FreeChain g s₀.mem chain ∧ FreeChain g s.mem (pushed ++ chain) ∧
      (∀ x ∈ pushed, names g s₀.mem x = 0) ∧
      (∀ i j, s.mem (.sequence i j) = s₀.mem (.sequence i j) ∧ s.mem (.metaWord i j) = s₀.mem (.metaWord i j)) ∧
      (Restored g s₀.mem chain → s.mem = s₀.mem) ∧
      (∀ u, s.th t = .orphan u → u.sweeping = false →
        Restored g s.mem (pushed ++ chain) ∧ u.reclaimed = pushed.length) ∧
      (s.alive proc t = true → ∃ k ≤ 5 * g.poolSize + 1 + g.maxSubs * g.subRingCapacity, ∃ s' u,
        LTS.play (next g proc) (fun _ _ => true) s (List.replicate k (.run t false)) = some s' ∧
          InPass g proc t s₀ s' ∧ s'.th t = .orphan u ∧ u.sweeping = false) := by
  obtain ⟨chain₀, hfree, chain, u, hK, hW⟩ := works_of_inPass hg h₀ h
  obtain ⟨idx, hV⟩ := hW.stands.progress
  obtain ⟨pushed, hp, hlen, hall⟩ := hV.pushed
  refine ⟨chain₀, pushed, hfree, hp ▸ ⟨hK.safe.linked, hK.safe.lt⟩, fun x hx => (hall x hx).2.2, hV.entries, hV.same,
    fun u' hu' hn => ?_, fun ha => returns hg _ Orphan.remaining_le h hK hW ha⟩
  obtain rfl := Local.orphan.inj (hW.here.symm.trans hu')
  have hfin : Visited g s₀.mem chain₀ s.mem chain g.poolSize u.reclaimed := by
    have hst := hW.stands
    cases e : u.pc <;> simp only [Orphan.sweeping, e, reduceCtorEq] at hn
    simpa only [Orphan.Stands, e] using hst
  exact ⟨hp ▸ Orphan.restored_of_visited hfin hK.safe, hlen.symm⟩

/-- A process exits or starts. -/
def ofProcess : Label ι → Bool
  | .exit _ | .spawn _ _ => true
  | _ => false

/-- From `s₀` on nothing happens but passes, one after the other, each of them cut short or not, and processes
that come and go. -/
inductive Recovery (g : Geometry) (proc : ι → Nat × Nat) (s₀ : Sys ι) : Sys ι → Prop
  | start : Recovery g proc s₀ s₀
  | pass {s s' : Sys ι} {t : ι} (h : Recovery g proc s₀ s) (hp : InPass g proc t s s') : Recovery g proc s₀ s'
  | process {s s' : Sys ι} {l : Label ι} (h : Recovery g proc s₀ s) (hl : ofProcess l = true)
    (hs : s.next g proc l = some s') : Recovery g proc s₀ s'

theorem InPass.reach (h₀ : (machine g proc).Reach (fun s l _ => s.quiescing proc l = true) s₀)
    (h : InPass g proc t s₀ s) : (machine g proc).Reach (fun s l _ => s.quiescing proc l = true) s := by
  obtain ⟨hq, s₁, h₁, hr⟩ := h
  refine hr.invariant (fun x hx => ?_) fun x l y hx hs ho => .step hx hs ho.1
  obtain rfl := hx
  exact .step h₀ h₁ hq

theorem mem_of_ofProcess {l : Label ι} (hl : ofProcess l = true) (hs : s.next g proc l = some s') :
    s'.mem = s.mem ∧ s.quiescing proc l = true := by
  cases l with
  | exit pid =>
    obtain ⟨st, -, rfl⟩ := exit_cases hs
    exact ⟨rfl, rfl⟩
  | spawn pid st =>
    obtain ⟨-, rfl⟩ := spawn_cases hs
    exact ⟨rfl, rfl⟩
  | _ => cases hl

/-- Passes leave the entries alone, and a region in order as it is. -/
theorem Recovery.keeps (hg : g.Valid) (h₀ : (machine g proc).Reach (fun s l _ => s.quiescing proc l = true) s₀)
    (h : Recovery g proc s₀ s) : (machine g proc).Reach (fun s l _ => s.quiescing proc l = true) s ∧
      (∀ i j, s.mem (.sequence i j) = s₀.mem (.sequence i j) ∧ s.mem (.metaWord i j) = s₀.mem (.metaWord i j)) ∧
      ∀ chain, FreeChain g s₀.mem chain → Restored g s₀.mem chain → s.mem = s₀.mem := by
  induction h with
  | start => exact ⟨h₀, fun _ _ => ⟨rfl, rfl⟩, fun _ _ _ => rfl⟩
  | @pass s s' t _ hp ih =>
    obtain ⟨hr, he, hm⟩ := ih
    obtain ⟨chain', -, hfree', -, -, he', hm', -⟩ := orphans_reclaimed hg hr hp
    refine ⟨hp.reach hr, fun i j => ⟨(he' i j).1.trans (he i j).1, (he' i j).2.trans (he i j).2⟩,
      fun chain hfree hR => ?_⟩
    have hs := hm chain hfree hR
    rw [hs] at hfree' hm'
    exact hm' (hfree.unique hfree' ▸ hR)
  | process _ hl hs ih =>
    obtain ⟨hr, he, hm⟩ := ih
    obtain ⟨hmem, hq⟩ := mem_of_ofProcess hl hs
    rw [hmem]
    exact ⟨hr.step hs hq, he, hm⟩

/-- However many passes were cut short before it, a pass that returns leaves the slots free that no entry named
when the first of them was called, and no others, and the counts at the names of that moment; no pass after it
changes a word, and each returns 0. -/
theorem orphans_reclaimed_again (hg : g.Valid)
    (h₀ : (machine g proc).Reach (fun s l _ => s.quiescing proc l = true) s₀) (hR : Recovery g proc s₀ s)
    (h : InPass g proc t s s') (hu : s'.th t = .orphan u) (hn : u.sweeping = false) :
    ∃ chain, FreeChain g s'.mem chain ∧
      (∀ x < g.poolSize, (x ∈ chain ↔ names g s₀.mem x = 0) ∧ s'.mem (.refcount x) = names g s₀.mem x) ∧
      ∀ s₂, Recovery g proc s' s₂ → s₂.mem = s'.mem ∧ ∀ t₂ s₃ u₂, InPass g proc t₂ s₂ s₃ → s₃.th t₂ = .orphan u₂ →
        u₂.sweeping = false → u₂.reclaimed = 0 := by
  obtain ⟨hr, he, -⟩ := hR.keeps hg h₀
  obtain ⟨chain, pushed, -, hfree, -, he', -, hret, -⟩ := orphans_reclaimed hg hr h
  obtain ⟨hrest, -⟩ := hret u hu hn
  have hnames : ∀ x, names g s'.mem x = names g s₀.mem x :=
    names_congr fun i j => (he' i j).2.trans (he i j).2
  refine ⟨pushed ++ chain, hfree, fun x hx => ?_, fun s₂ hR₂ => ?_⟩
  · rw [← hnames x]
    exact hrest x hx
  · obtain ⟨hr₂, -, hm₂⟩ := hR₂.keeps hg (h.reach hr)
    have hmem₂ := hm₂ _ hfree hrest
    refine ⟨hmem₂, fun t₂ s₃ u₂ h₃ hu₂ hn₂ => ?_⟩
    obtain ⟨chain₂, pushed₂, hfree₂, hfree₃, -, -, hm₃, hret₃, -⟩ := orphans_reclaimed hg hr₂ h₃
    rw [hmem₂] at hfree₂ hm₃
    obtain rfl := hfree.unique hfree₂
    rw [hm₃ hrest] at hfree₃
    -- the stack has not grown
    have hlen := congrArg List.length (hfree₂.unique hfree₃)
    rw [List.length_append, List.length_append, List.length_append] at hlen
    have := (hret₃ u₂ hu₂ hn₂).2
    omega

end Pass

/-! ## A pass after a crash -/

section Crew

section Play

variable {ι : Type} [DecidableEq ι] [Fintype ι] {g : Geometry} {proc : ι → Nat × Nat} {s s' : Sys ι} {t : ι} {k n : Nat}

/-- The steps of a pass of `t`. -/
def passing (proc : ι → Nat × Nat) (t : ι) (s : Sys ι) (l : Label ι) : Bool :=
  s.quiescing proc l && s.alive proc t && (s.th t).sweeping

/-- A pass of `t`, up to its `n`-th access. -/
def passed (g : Geometry) (proc : ι → Nat × Nat) (t : ι) (n : Nat) (s : Sys ι) : Option (Sys ι) :=
  if s.quiescing proc (.call t .reclaimOrphanedSlots) then
    (s.next g proc (.call t .reclaimOrphanedSlots)).bind fun s₁ =>
      LTS.play (next g proc) (passing proc t) s₁ (List.replicate n (.run t false))
  else none

/-- The pass of `t` has returned `k`. -/
def returned (t : ι) (k : Nat) (s : Sys ι) : Bool :=
  match s.th t with
  | .orphan u => !u.sweeping && decide (u.reclaimed = k)
  | _ => false

theorem inPass_of_passed (h : passed g proc t n s = some s') : InPass g proc t s s' := by
  unfold passed at h
  split_ifs at h with hq
  obtain ⟨s₁, h₁, hp⟩ := Option.bind_eq_some_iff.mp h
  have hr : (LTS.ofNext (· = s₁) (next g proc)).Reach (fun s l _ => passing proc t s l = true) s' :=
    LTS.Reach.play (.init rfl) hp
  refine ⟨hq, s₁, h₁, hr.mono fun x l y _ ho => ?_⟩
  simp only [passing, Bool.and_eq_true] at ho
  exact ⟨ho.1.1, ho.1.2, ho.2⟩

omit [DecidableEq ι] [Fintype ι] in
theorem of_returned (h : returned t k s = true) : ∃ u, s.th t = .orphan u ∧ u.sweeping = false ∧ u.reclaimed = k := by
  unfold returned at h
  split at h
  · rename_i u hu
    simp only [Bool.and_eq_true, Bool.not_eq_true', decide_eq_true_eq] at h
    exact ⟨u, hu, h.1, h.2⟩
  · cases h

end Play

/-- One message is in the ring, and the process of publisher 1 has died with a reservation. -/
def bereft : List (Label (Fin 9)) :=
  .call 3 (.join false) :: runs 3 5 ++ .call 0 .allocate :: runs 0 3 ++ .call 0 (.publish 1) :: runs 0 12 ++
    .call 1 .allocate :: runs 1 3 ++ [.exit 2]

/-- A pass that finds one orphan. -/
theorem pass_crew : ∃ s₀ s : Sys (Fin 9),
    (machine smallGeometry crewProc).Reach (fun s l _ => s.quiescing crewProc l = true) s₀ ∧
      InPass smallGeometry crewProc 8 s₀ s ∧ ∃ u, s.th 8 = .orphan u ∧ u.sweeping = false ∧ u.reclaimed = 1 := by
  have h0 : (machine smallGeometry crewProc).Reach (fun s l _ => s.quiescing crewProc l = true)
      (crew smallGeometry) := .init (init_crew smallGeometry)
  obtain ⟨s₀, h₀, hP⟩ := h0.play_any bereft
    (fun s₀ => (passed smallGeometry crewProc 8 9 s₀).any fun s => returned 8 1 s) (by decide +kernel)
  obtain ⟨s, hs, hP⟩ := (Option.any_eq_true _ _).mp hP
  exact ⟨s₀, s, h₀, inPass_of_passed hs, of_returned hP⟩

theorem pool_survives_crew : ∃ s : Sys (Fin 9),
    (machine smallGeometry crewProc).Reach (fun s l _ => s.quiescing crewProc l = true) s ∧
      (∃ u, s.th 8 = .orphan u ∧ u.reclaimed = 1) ∧
      ∃ chain, FreeChain smallGeometry s.mem chain ∧
        ∀ x < smallGeometry.poolSize,
          chain.count x + ∑ t, (s.booked smallGeometry crewProc t).excl x + inUse s.mem x ≤ 1 := by
  obtain ⟨s₀, s, h₀, hP, u, hu, -, hr⟩ := pass_crew
  obtain ⟨chain, hfree, honce, -⟩ := pool_survives valid_smallGeometry (hP.reach h₀)
  exact ⟨s, hP.reach h₀, ⟨u, hu, hr⟩, chain, hfree, honce⟩

theorem orphans_reclaimed_crew : ∃ s₀ s : Sys (Fin 9),
    (machine smallGeometry crewProc).Reach (fun s l _ => s.quiescing crewProc l = true) s₀ ∧
      InPass smallGeometry crewProc 8 s₀ s ∧ ∃ chain x, FreeChain smallGeometry s₀.mem chain ∧
        FreeChain smallGeometry s.mem (x :: chain) ∧ Restored smallGeometry s.mem (x :: chain) := by
  obtain ⟨s₀, s, h₀, hP, u, hu, hn, hr⟩ := pass_crew
  obtain ⟨chain, pushed, hfree, hfree', -, -, -, hret, -⟩ := orphans_reclaimed valid_smallGeometry h₀ hP
  obtain ⟨hrest, hlen⟩ := hret u hu hn
  obtain ⟨x, rfl⟩ := List.length_eq_one_iff.mp (hlen.symm.trans hr)
  exact ⟨s₀, s, h₀, hP, chain, x, hfree, hfree', hrest⟩

/-- Subscriber 0, publisher 1 and two orphan passes, each in a process of its own. -/
def rescueProc (t : Fin 4) : Nat × Nat := (t.val + 1, 1)

def rescue (g : Geometry) : Sys (Fin 4) where
  mem := stampNewRegion g
  data := fun _ _ => 0
  procs := fun pid => if 0 < pid ∧ pid ≤ 4 then some 1 else none
  gone := []
  th := fun t =>
    match t with
    | 0 => .sub ⟨1, 1, 0, 0, 0, 0, 0, [], false, false, false, .ready, none, .out⟩
    | 1 => .pub ⟨none, 0, 0, false, 0, .idle⟩
    | _ => .orphan ⟨0, .idle⟩
  ghost := ⟨g.poolSize, fun _ => 0, fun _ => ⟨0, 0, []⟩, fun _ _ => none, fun _ => none, fun _ => [],
    fun _ => [], fun _ => 0⟩

theorem init_rescue (g : Geometry) : Init g rescueProc (rescue g) where
  mem := rfl
  procs pid st h := by
    simp only [rescue] at h
    split_ifs at h with hp
    simp only [Option.some.injEq] at h
    omega
  gone := rfl
  th t := by fin_cases t <;> simp [rescue, Local.Fresh, rescueProc]
  changes := rfl
  log _ _ := rfl
  tenant _ := rfl
  got _ := rfl

/-- The message of publisher 1 is in the ring of subscriber 0, and it has died with a reservation. -/
def stranded : List (Label (Fin 4)) :=
  .call 0 (.join false) :: List.replicate 5 (.run 0 false) ++ .call 1 .allocate :: List.replicate 3 (.run 1 false) ++
    .call 1 (.publish 1) :: List.replicate 12 (.run 1 false) ++
    .call 1 .allocate :: List.replicate 3 (.run 1 false) ++ [.exit 2]

/-- Pass 2 is cut short before its push, pass 3 finishes what it has begun, and finds nothing to do after that. -/
theorem orphans_reclaimed_again_crew : ∃ s₀ s s' s₃ : Sys (Fin 4),
    (machine smallGeometry rescueProc).Reach (fun s l _ => s.quiescing rescueProc l = true) s₀ ∧
      Recovery smallGeometry rescueProc s₀ s ∧ (s.th 2).sweeping = true ∧
      InPass smallGeometry rescueProc 3 s s' ∧ returned 3 1 s' = true ∧
      (∃ chain, FreeChain smallGeometry s'.mem chain ∧
        ∀ x < smallGeometry.poolSize, (x ∈ chain ↔ names smallGeometry s₀.mem x = 0) ∧
          s'.mem (.refcount x) = names smallGeometry s₀.mem x) ∧
      InPass smallGeometry rescueProc 3 s' s₃ ∧ returned 3 0 s₃ = true ∧ s₃.mem = s'.mem := by
  have h0 : (machine smallGeometry rescueProc).Reach (fun s l _ => s.quiescing rescueProc l = true)
      (rescue smallGeometry) := .init (init_rescue smallGeometry)
  obtain ⟨s₀, h₀, hP⟩ := h0.play_any stranded
    (fun s₀ => (passed smallGeometry rescueProc 2 7 s₀).any fun c =>
      (c.next smallGeometry rescueProc (.exit 3)).any fun s => (s.th 2).sweeping &&
        (passed smallGeometry rescueProc 3 9 s).any fun s' => returned 3 1 s' &&
          (passed smallGeometry rescueProc 3 6 s').any fun s₃ => returned 3 0 s₃) (by decide +kernel)
  obtain ⟨c, hc, hP⟩ := (Option.any_eq_true _ _).mp hP
  obtain ⟨s, hs, hP⟩ := (Option.any_eq_true _ _).mp hP
  obtain ⟨hcut, hP⟩ := (Bool.and_eq_true _ _).mp hP
  obtain ⟨s', hs', hP⟩ := (Option.any_eq_true _ _).mp hP
  obtain ⟨hret, hP⟩ := (Bool.and_eq_true _ _).mp hP
  obtain ⟨s₃, hs₃, hret₃⟩ := (Option.any_eq_true _ _).mp hP
  have hR : Recovery smallGeometry rescueProc s₀ s :=
    .process (.pass .start (inPass_of_passed hc)) rfl hs
  have h₃ := inPass_of_passed hs₃
  obtain ⟨u, hu, hn, -⟩ := of_returned hret
  obtain ⟨chain, hfree, hrest, hlater⟩ :=
    orphans_reclaimed_again valid_smallGeometry h₀ hR (inPass_of_passed hs') hu hn
  exact ⟨s₀, s, s', s₃, h₀, hR, hcut, inPass_of_passed hs', hret, ⟨chain, hfree, hrest⟩, h₃, hret₃,
    (hlater s₃ (.pass .start h₃)).1⟩

end Crew

end Sys

end Kickmsg
