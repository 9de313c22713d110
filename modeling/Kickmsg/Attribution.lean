import Kickmsg.Tenancy

/-!
# Ring tenancy attribution

A `reclaim_dead_rings` pass claims a ring, looks at its recorded owner a second time, and then clears the
owner and publishes `Free`. Nothing ties these writes to the owner it looked at: if the ring is freed in
between, by its owner or by another pass, the next tenant's record is cleared. In every run in which no
ring is freed under a pass that has read its owner, the attribution holds.
-/

namespace Kickmsg

open Lib

namespace ReclaimPc

/-- The ring whose owner the pass has read and may still act on. -/
def watching : ReclaimPc → Option Nat
  | .start2 i _ _ _ | .probe2 i _ _ _ _ | .clearWaiter i _ | .clearPid i _ | .clearStart i _
  | .free i _ => some i
  | _ => none

/-- What the pass has found out about the ring it is watching. -/
def Verdict {ι : Type} (proc : ι → Nat × Nat) (s : Sys ι) : ReclaimPc → Prop
  | .start2 i _ _ pid => pid ≠ 0 → ∃ t, s.ghost.tenant i = some t ∧ pid = (proc t).1
  | .probe2 i _ _ pid st =>
    pid ≠ 0 → ∃ t, s.ghost.tenant i = some t ∧ pid = (proc t).1 ∧ (st = 0 ∨ st = (proc t).2)
  | .clearWaiter i _ | .clearPid i _ => ∃ t, s.ghost.tenant i = some t ∧ s.Dead proc t
  | .clearStart i _ => ∃ t, s.ghost.tenant i = some t ∧ s.Dead proc t ∧ s.mem (.ownerPid i) = 0
  | .free i _ => ∃ t, s.ghost.tenant i = some t ∧ s.Dead proc t ∧ s.mem (.ownerPid i) = 0 ∧
      s.mem (.ownerStarttime i) = 0
  | _ => True

end ReclaimPc

/-- The ring whose recorded owner or wait flag a word is. -/
def Loc.ownerWord : Loc → Option Nat
  | .ownerPid r | .ownerStarttime r | .hasWaiter r => some r
  | _ => none

/-- The recorded owner and the wait flag of a ring are written by its holder, and by a pass that has
judged the owner dead. -/
theorem Local.ownerWord_cases {g : Geometry} {l : Local} {op : Op} {loc : Loc} {r : Nat}
    (hop : l.request g = some op) (ht : op.target = some loc) (hr : loc.ownerWord = some r) :
    l.held = some r ∨ ∃ u, l = .reclaim u ∧
      ((∃ k, u.pc = .clearWaiter r k) ∨ (∃ k, u.pc = .clearPid r k) ∨ ∃ k, u.pc = .clearStart r k) := by
  have hpush : ∀ {p : PushPc} {x : Nat}, (p.request x).target = some loc → False := by
    intro p x hp
    rcases push_target hp with rfl | rfl <;> cases hr
  have hpop : ∀ {p : PopPc}, p.request.target = some loc → False := by
    intro p hp
    rw [pop_target hp] at hr
    cases hr
  cases l with
  | pub u =>
    exfalso
    cases e : u.pc <;> simp only [request, Pub.request, e, Option.some.injEq, reduceCtorEq] at hop <;>
      subst hop <;>
      first
        | exact hpush ht
        | exact hpop ht
        | (simp only [Op.target, Option.some.injEq, reduceCtorEq] at ht <;> subst ht <;> cases hr)
  | sub u =>
    left
    cases e : u.pc <;> simp only [request, Sub.request, e, Option.some.injEq, reduceCtorEq] at hop <;>
      subst hop <;>
      first
        | exact (hpush ht).elim
        | (simp only [Op.target, Option.some.injEq, reduceCtorEq] at ht <;> subst ht <;>
            simp only [Loc.ownerWord, Option.some.injEq, reduceCtorEq] at hr <;>
            simp [held, Sub.held, e, hr])
  | reclaim u =>
    right
    cases e : u.pc <;> simp only [request, Reclaim.request, e, Option.some.injEq, reduceCtorEq] at hop <;>
      subst hop <;> simp only [Op.target, Option.some.injEq, reduceCtorEq] at ht <;> subst ht <;>
      simp only [Loc.ownerWord, Option.some.injEq, reduceCtorEq] at hr <;> subst hr <;>
      simp [e]
  | view pc =>
    exfalso
    cases pc <;> simp only [request, ViewPc.request, Option.some.injEq, reduceCtorEq] at hop <;>
      subst hop
    · simp only [Op.target, Option.some.injEq] at ht
      subst ht
      cases hr
    · exact hpush ht
  | repair u =>
    exfalso
    cases e : u.pc <;> simp only [request, Repair.request, e, Option.some.injEq, reduceCtorEq] at hop <;>
      subst hop <;> simp only [Op.target, Option.some.injEq, reduceCtorEq] at ht <;> subst ht <;> cases hr
  | orphan u =>
    exfalso
    cases e : u.pc <;> simp only [request, Orphan.request, e, Option.some.injEq, reduceCtorEq] at hop <;>
      subst hop
    case push => exact hpush ht
    all_goals
      simp only [Op.target, Option.some.injEq, reduceCtorEq] at ht
      try (subst ht; cases hr)

namespace Sys

variable {ι : Type} [DecidableEq ι] {g : Geometry} {proc : ι → Nat × Nat} {s s' : Sys ι} {t : ι}

omit [DecidableEq ι] in
/-- The probe is right about an owner it was given the record of. -/
theorem Tenancy.dead_of_probe (h : Tenancy proc s) {r pid st : Nat} {T : ι}
    (hT : s.ghost.tenant r = some T) (hpid : pid = (proc T).1) (hst : st = 0 ∨ st = (proc T).2)
    (hv : ownerIsDead s.procs pid st = true) : s.Dead proc T := by
  rcases ((h.ring r).tenant T hT).2 with ha | hd
  · exfalso
    simp only [alive, decide_eq_true_eq] at ha
    rw [ownerIsDead, hpid, ha] at hv
    split_ifs at hv with h0
    simp only [Bool.if_false_left, Bool.and_eq_true, Bool.not_eq_true', decide_eq_false_iff_not,
      bne_iff_ne, ne_eq, not_or] at hv
    rcases hst with rfl | rfl
    · exact hv.1.1 rfl
    · exact hv.2 rfl
  · exact hd

omit [DecidableEq ι] in
theorem Tenancy.ringState_ne (h : Tenancy proc s) {i : Nat} {T : ι} (hT : s.ghost.tenant i = some T) :
    s.ringState i ≠ .free := by
  rw [Ne, ← (h.ring i).free_iff, hT]
  simp

/-- A tenancy that the step does not end. -/
theorem tenant_run (h : Tenancy proc s) {op : Op} {c : Bool} {i : Nat} {T : ι}
    (hT : s.ghost.tenant i = some T) (hf : (s.ran g t op c).ringState i ≠ .free) :
    (s.ran g t op c).ghost.tenant i = some T := by
  by_cases ht : op.target = some (.stateFlight i)
  · exact (tenantAfter_self ht).trans ((if_neg hf).trans ((if_neg (h.ringState_ne hT)).trans hT))
  · exact (tenantAfter_of_ne ht).trans hT

/-- What a pass finds out by its own accesses. -/
theorem verdict_own (h : Tenancy proc s) {u : Reclaim} {op : Op} {c : Bool}
    (hop : u.request = some op) (hv : u.pc.Verdict proc s) :
    (u.resume g (op.exec s.procs s.mem c).2).pc.Verdict proc (s.ran g t op c) := by
  obtain ⟨n, pc⟩ := u
  cases pc <;> simp only [Reclaim.request, Option.some.injEq, reduceCtorEq] at hop <;> subst hop <;>
    simp only [ReclaimPc.Verdict] at hv <;>
    simp only [Reclaim.resume, Reclaim.scanRing, Reclaim.tryFree, Reclaim.tryRestore]
  case pid2 i st claim =>
    intro hne
    cases hT : s.ghost.tenant i with
    | none => exact absurd ((h.ring i).vacant hT).1 hne
    | some T => exact ⟨T, hT, (((h.ring i).owner T hT).1.resolve_left hne)⟩
  case start2 i st claim pid =>
    intro hne
    obtain ⟨T, hT, hpid⟩ := hv hne
    exact ⟨T, hT, hpid, ((h.ring i).owner T hT).2⟩
  case probe2 i st claim pid start =>
    split_ifs with hok
    · have hne : pid ≠ 0 := by
        rintro rfl
        simp [Op.exec, ownerIsDead] at hok
      obtain ⟨T, hT, hpid, hst⟩ := hv hne
      exact ⟨T, hT, h.dead_of_probe hT hpid hst hok⟩
    all_goals trivial
  case clearWaiter i claim => exact hv
  case clearPid i claim =>
    obtain ⟨T, hT, hd⟩ := hv
    exact ⟨T, hT, hd, by simp [ran, Op.exec]⟩
  case clearStart i claim =>
    obtain ⟨T, hT, hd, hp⟩ := hv
    split_ifs
    · exact ⟨T, hT, hd, by simp [ran, Op.exec, hp], by simp [ran, Op.exec]⟩
    all_goals trivial
  case free i old =>
    obtain ⟨T, hT, hd, hp, hq⟩ := hv
    rcases Op.exec_cas s.procs s.mem c true (.stateFlight i) old (setState old .free) with ⟨-, he⟩ | he
    · simp only [he, if_true]
      split_ifs <;> trivial
    · have hten : (s.ran g t (.cas true (.stateFlight i) old (setState old .free)) c).ghost.tenant i =
          some T := tenant_run h hT (by simpa [ringState, ran, he] using h.ringState_ne hT)
      simp only [he, Bool.false_eq_true, if_false]
      split_ifs
      · exact ⟨T, hten, hd, by simpa [ran, he] using hp, by simpa [ran, he] using hq⟩
      all_goals trivial
  all_goals
    (repeat' split) <;> trivial

omit [DecidableEq ι] in
/-- What a pass knows survives a step that leaves the ring's tenant and a cleared owner alone. -/
theorem verdict_frame {pc : ReclaimPc} (hv : pc.Verdict proc s)
    (hd : ∀ v, s.Dead proc v → s'.Dead proc v)
    (hten : ∀ i v, pc.watching = some i → s.ghost.tenant i = some v → s'.ghost.tenant i = some v)
    (hpid : ∀ i v, pc.watching = some i → s.ghost.tenant i = some v → s.Dead proc v →
      s.mem (.ownerPid i) = 0 → s'.mem (.ownerPid i) = 0)
    (hstart : ∀ i v, pc.watching = some i → s.ghost.tenant i = some v → s.Dead proc v →
      s.mem (.ownerStarttime i) = 0 → s'.mem (.ownerStarttime i) = 0) : pc.Verdict proc s' := by
  cases pc with
  | start2 i st claim pid =>
    intro hne
    obtain ⟨T, hT, hp⟩ := hv hne
    exact ⟨T, hten i T rfl hT, hp⟩
  | probe2 i st claim pid start =>
    intro hne
    obtain ⟨T, hT, hp⟩ := hv hne
    exact ⟨T, hten i T rfl hT, hp⟩
  | clearWaiter i claim =>
    obtain ⟨T, hT, hD⟩ := hv
    exact ⟨T, hten i T rfl hT, hd T hD⟩
  | clearPid i claim =>
    obtain ⟨T, hT, hD⟩ := hv
    exact ⟨T, hten i T rfl hT, hd T hD⟩
  | clearStart i claim =>
    obtain ⟨T, hT, hD, hp⟩ := hv
    exact ⟨T, hten i T rfl hT, hd T hD, hpid i T rfl hT hD hp⟩
  | free i old =>
    obtain ⟨T, hT, hD, hp, hq⟩ := hv
    exact ⟨T, hten i T rfl hT, hd T hD, hpid i T rfl hT hD hp, hstart i T rfl hT hD hq⟩
  | _ => trivial

/-- A cleared owner of a dead tenant stays cleared. -/
theorem cleared_run (h : Tenancy proc s) (ha : s.alive proc t = true) {op : Op} {c : Bool}
    (hop : (s.th t).request g = some op) {i : Nat} {T : ι} (hT : s.ghost.tenant i = some T)
    (hd : s.Dead proc T) {loc : Loc} (hloc : loc.ownerWord = some i) (h0 : s.mem loc = 0) :
    (s.ran g t op c).mem loc = 0 := by
  by_cases ht : op.target = some loc
  · rcases Local.ownerWord_cases hop ht hloc with hh | ⟨u, hu, hpc⟩
    · -- a running holder would be the tenant
      have := h.tenant_of_held ha hh
      obtain rfl : T = t := Option.some.inj (hT.symm.trans this)
      exact absurd hd (h.not_dead ha)
    · simp only [hu, Local.request, Reclaim.request] at hop
      rcases hpc with ⟨k, e⟩ | ⟨k, e⟩ | ⟨k, e⟩ <;> simp only [e, Option.some.injEq] at hop <;>
        subst hop <;> simp only [Op.target, Option.some.injEq] at ht <;> subst ht <;>
        simp [ran, Op.exec, waiterNone]
  · exact (Op.exec_frame _ _ _ _ ht).trans h0

/-- Another actor's access leaves a pass's verdict alone, unless it frees the ring. -/
theorem verdict_other (h : Tenancy proc s) (ha : s.alive proc t = true) {op : Op} {c : Bool}
    (hop : (s.th t).request g = some op) {pc : ReclaimPc} (hv : pc.Verdict proc s)
    (hf : ∀ i, pc.watching = some i → s.ringState i ≠ .free →
      (s.ran g t op c).ringState i ≠ .free) : pc.Verdict proc (s.ran g t op c) := by
  refine verdict_frame hv (fun _ hd => hd) (fun i T hi hT => ?_)
    (fun i T _ hT hd h0 => cleared_run h ha hop hT hd rfl h0)
    (fun i T _ hT hd h0 => cleared_run h ha hop hT hd rfl h0)
  exact tenant_run h hT (hf i hi (h.ringState_ne hT))

/-- What is known along a run: the tenancies, that the passes at work were started by a process, and the
verdicts of the running passes, each under a condition `Q` that its ring has stayed as it was. -/
structure Attributed (proc : ι → Nat × Nat) (Q : Sys ι → ReclaimPc → Prop) (s : Sys ι) : Prop where
  tenancy : Tenancy proc s
  busy : ∀ v u, s.th v = .reclaim u → u.pc ≠ .idle → s.alive proc v = true ∨ s.Dead proc v
  verdict : ∀ v u, s.alive proc v = true → s.th v = .reclaim u → Q s u.pc → u.pc.Verdict proc s

variable {Q : Sys ι → ReclaimPc → Prop}

omit [DecidableEq ι] in
theorem verdict_of_watching {pc : ReclaimPc} (h : pc.watching = none) : pc.Verdict proc s := by
  cases pc <;> trivial

omit [DecidableEq ι] in
theorem attributed_init (hg : g.Valid) (h : Init g proc s) : Attributed proc Q s := by
  have hidle : ∀ v u, s.th v = .reclaim u → u.pc = .idle := by
    intro v u hu
    have := h.th v
    rw [hu] at this
    exact this
  exact ⟨tenancy_init hg h, fun v u hu hne => absurd (hidle v u hu) hne,
    fun v u _ hu _ => verdict_of_watching (by rw [hidle v u hu]; rfl)⟩

/-- A step keeps what is known if `Q` is not gained by it, and a ring that `Q` speaks of is not freed
under a pass that watches it. -/
theorem Attributed.run (h : Attributed proc Q s) {c : Bool}
    (hs : s.next g proc (.run t c) = some s') (hf : s.FreesRight proc (.run t c))
    (hQ : ∀ v u u', s.alive proc v = true → s.th v = .reclaim u → s'.th v = .reclaim u' →
      u'.pc.watching ≠ none → Q s' u'.pc → Q s u.pc)
    (hkeep : ∀ v u i, v ≠ t → s.alive proc v = true → s.th v = .reclaim u → u.pc.watching = some i →
      Q s' u.pc → s.ringState i ≠ .free → s'.ringState i ≠ .free) : Attributed proc Q s' := by
  have hT' := h.tenancy.run hs hf
  obtain ⟨ha, op, hop, rfl⟩ := ran_cases hs
  refine ⟨hT', fun v u hu hne => ?_, fun v u hav hu hq => ?_⟩
  · by_cases e : v = t
    · subst e
      exact .inl ha
    · simp only [ran, Function.update_of_ne e] at hu
      exact h.busy v u hu hne
  · by_cases hw : u.pc.watching = none
    · exact verdict_of_watching hw
    by_cases e : v = t
    · subst e
      have hu' := hu
      simp only [ran, Function.update_self] at hu
      cases hl : s.th v with
      | reclaim u₀ =>
        rw [hl] at hu hop
        simp only [Local.resume, Local.reclaim.injEq] at hu
        have hv := h.verdict v u₀ ha hl (hQ v u₀ u ha hl hu' hw hq)
        rw [← hu]
        exact verdict_own h.tenancy hop hv
      | _ =>
        rw [hl] at hu
        simp [Local.resume] at hu
    · have hu' := hu
      simp only [ran, Function.update_of_ne e] at hu
      have hv := h.verdict v u hav hu (hQ v u u hav hu hu' hw hq)
      exact verdict_other h.tenancy ha hop hv fun i hi => hkeep v u i e hav hu hi hq

/-- A pass after a step that is no access: as before, or just started. -/
theorem reclaim_of_next {l : Label ι} (hs : s.next g proc l = some s') (hl : ∀ t c, l ≠ .run t c)
    {v : ι} {u : Reclaim} (hu : s'.th v = .reclaim u) : s.th v = .reclaim u ∨
      (s.alive proc v = true ∧ l = .call v .reclaimDeadRings ∧
        ∃ u₀, s.th v = .reclaim u₀ ∧ u₀.pc = .idle ∧ u = u₀.start g) := by
  cases l with
  | run t c => exact absurd rfl (hl t c)
  | call t c =>
    obtain ⟨ha, l, hl, rfl⟩ := call_cases hs
    by_cases e : v = t
    · subst e
      simp only [Function.update_self] at hu
      subst hu
      rcases Local.call_pass hl with ⟨u, e⟩ | ⟨u, e⟩ | ⟨u, e, -, hc⟩ | ⟨u, e, hi, rfl, hc⟩ |
        ⟨u, e, -, -, hc⟩
      · rw [e] at hl
        obtain ⟨-, u', h', -⟩ := Local.call_pub hl
        cases h'
      · rw [e] at hl
        obtain ⟨u', h', -⟩ := Local.call_sub hl
        cases h'
      · cases hc
      · exact .inr ⟨ha, rfl, u, e, hi, Local.reclaim.inj hc⟩
      · cases hc
    · simp only [Function.update_of_ne e] at hu
      exact .inl hu
  | destroy t w k =>
    obtain ⟨-, u', x, ht, hw, -, rfl⟩ := destroy_cases hs
    left
    by_cases e : v = w
    · subst e
      simp at hu
    · by_cases e' : v = t
      · subst e'
        simp [Function.update_of_ne e] at hu
      · simpa [Function.update_of_ne e, Function.update_of_ne e'] using hu
  | write t off byte =>
    obtain ⟨-, u', slot, -, -, -, -, rfl⟩ := write_cases hs
    exact .inl hu
  | exit pid =>
    obtain ⟨st, -, rfl⟩ := exit_cases hs
    exact .inl hu
  | spawn pid st =>
    obtain ⟨-, rfl⟩ := spawn_cases hs
    exact .inl hu

/-- The processes and the tenants after a step that is no access. -/
theorem world_of_next {l : Label ι} (hs : s.next g proc l = some s')
    (hl : ∀ t c, l ≠ .run t c) : s'.ghost.tenant = s.ghost.tenant ∧
      (∀ v, s.Dead proc v → s'.Dead proc v) ∧
      ∀ v, s.alive proc v = true → s'.alive proc v = true ∨ s'.Dead proc v := by
  cases l with
  | run t c => exact absurd rfl (hl t c)
  | call t c =>
    obtain ⟨ha, l, hl, rfl⟩ := call_cases hs
    exact ⟨published_tenant .., fun _ hd => hd, fun _ ha => .inl ha⟩
  | destroy t w k =>
    obtain ⟨-, u', x, ht, hw, -, rfl⟩ := destroy_cases hs
    exact ⟨rfl, fun _ hd => hd, fun _ ha => .inl ha⟩
  | write t off byte =>
    obtain ⟨-, u', slot, -, -, -, -, rfl⟩ := write_cases hs
    exact ⟨rfl, fun _ hd => hd, fun _ ha => .inl ha⟩
  | exit pid =>
    obtain ⟨st, hst, rfl⟩ := exit_cases hs
    refine ⟨rfl, fun _ hd => List.mem_cons_of_mem _ hd, fun v hv => ?_⟩
    simp only [alive, decide_eq_true_eq] at hv
    by_cases e : (proc v).1 = pid
    · right
      rw [e, hst, Option.some.injEq] at hv
      simp only [Dead]
      rw [← e, hv]
      exact List.mem_cons_self
    · left
      simpa [alive, Function.update_of_ne e] using hv
  | spawn pid st =>
    obtain ⟨⟨h0, -⟩, rfl⟩ := spawn_cases hs
    refine ⟨rfl, fun _ hd => hd, fun v hv => .inl ?_⟩
    simp only [alive, decide_eq_true_eq] at hv ⊢
    have e : (proc v).1 ≠ pid := fun e => by simp [e, h0] at hv
    rw [Function.update_of_ne e, hv]

/-- A step that is no access. -/
theorem Attributed.still (h : Attributed proc Q s) {l : Label ι} (hs : s.next g proc l = some s')
    (hl : ∀ t c, l ≠ .run t c) (hQ : ∀ pc, Q s' pc → Q s pc) : Attributed proc Q s' := by
  have hm := mem_eq_of_next hs hl
  have hT' : Tenancy proc s' := h.tenancy.next hs fun t c _ _ e => absurd e (hl t c)
  obtain ⟨hten, hdead, halive⟩ := world_of_next hs hl
  refine ⟨hT', fun v u hu hne => ?_, fun v u hav hu hq => ?_⟩
  · rcases reclaim_of_next hs hl hu with hu | ⟨ha, -⟩
    · rcases h.busy v u hu hne with ha | hd
      · exact halive v ha
      · exact .inr (hdead v hd)
    · exact halive v ha
  · rcases reclaim_of_next hs hl hu with hu | ⟨-, -, u₀, -, -, rfl⟩
    · by_cases hi : u.pc = .idle
      · exact verdict_of_watching (by rw [hi]; rfl)
      · -- a pass at work in a process that runs has run before the step
        rcases h.busy v u hu hi with ha | hd
        · exact verdict_frame (h.verdict v u ha hu (hQ _ hq)) hdead (fun i T _ hT => hten ▸ hT)
            (fun i T _ _ _ h0 => hm ▸ h0) (fun i T _ _ _ h0 => hm ▸ h0)
        · exact absurd (hdead v hd) (hT'.not_dead hav)
    · refine verdict_of_watching ?_
      simp only [Reclaim.start, Reclaim.scanRing]
      split_ifs <;> rfl

/-- Who writes the state word of ring `r`: the word `w` it found and the word `w'` it left. -/
inductive StateWrite (l : Local) (r w w' : Nat) : Prop
  | enter {u : Pub} {d : Delivery} (hl : l = .pub u) (hpc : u.pc = .admitCas d w) (hr : d.i = r)
      (hw : w' = u32 (w + inFlightOne))
  | release {u : Pub} {d : Delivery} (hl : l = .pub u)
      (hpc : u.pc = .leave d ∨ ∃ exc, u.pc = .abandonLeave d exc) (hr : d.i = r)
      (hw : w' = (w + 2 ^ 32 - inFlightOne) % 2 ^ 32)
  | join {u : Sub} {wp : Nat} (hl : l = .sub u) (hpc : u.pc = .joinCas r wp)
      (h0 : w = makePacked .free 0) (hw : w' = makePacked .live 0)
  | drain {u : Sub} (hl : l = .sub u) (hpc : u.pc = .leaveCas w) (hr : u.ringIdx = r)
      (hw : w' = setState w .draining)
  | vacate {u : Sub} (hl : l = .sub u) (hpc : u.pc = .leaveFree) (hr : u.ringIdx = r)
      (hw : w' = makePacked .free 0)
  | vacateLate {u : Sub} (hl : l = .sub u) (hpc : u.pc = .leaveCas2 w) (hr : u.ringIdx = r)
      (hw : w' = setState w .free)
  | claim {u : Reclaim} {st : RingState} (hl : l = .reclaim u) (hpc : u.pc = .claim r st w)
      (hw : w' = setState w .reclaiming)
  | free {u : Reclaim} (hl : l = .reclaim u) (hpc : u.pc = .free r w) (hw : w' = setState w .free)
  | restore {u : Reclaim} {st : RingState} (hl : l = .reclaim u) (hpc : u.pc = .restore r st w)
      (hw : w' = setState w st)

/-- An access leaves a state word alone, if only because its exchange failed, or is one of these. -/
theorem stateWrite_run {op : Op} (c : Bool) (hop : (s.th t).request g = some op) (r : Nat) :
    ((s.ran g t op c).mem (.stateFlight r) = s.mem (.stateFlight r) ∧
        (op.target = some (.stateFlight r) → (op.exec s.procs s.mem c).2.ok = false)) ∨
      ((op.exec s.procs s.mem c).2.ok = true ∧ op.target = some (.stateFlight r) ∧
        StateWrite (s.th t) r (s.mem (.stateFlight r)) ((s.ran g t op c).mem (.stateFlight r))) := by
  by_cases ht : op.target = some (.stateFlight r)
  swap
  · exact .inl ⟨Op.exec_frame _ _ _ _ ht, fun h => absurd h ht⟩
  -- an exchange that expects `w` and leaves `w'`
  have hcas : ∀ {weak : Bool} {old new : Nat}, op = .cas weak (.stateFlight r) old new →
      (s.mem (.stateFlight r) = old → StateWrite (s.th t) r old new) →
      ((s.ran g t op c).mem (.stateFlight r) = s.mem (.stateFlight r) ∧
          (op.target = some (.stateFlight r) → (op.exec s.procs s.mem c).2.ok = false)) ∨
        ((op.exec s.procs s.mem c).2.ok = true ∧ op.target = some (.stateFlight r) ∧
          StateWrite (s.th t) r (s.mem (.stateFlight r))
            ((s.ran g t op c).mem (.stateFlight r))) := by
    rintro weak old new rfl hw
    rcases Op.exec_cas s.procs s.mem c weak (.stateFlight r) old new with ⟨ho, he⟩ | he
    · right
      simp only [ran, he, Function.update_self, ho]
      exact ⟨trivial, rfl, hw ho⟩
    · left
      simp [ran, he]
  cases hl : s.th t with
  | pub u =>
    rw [hl] at hop
    cases e : u.pc <;> simp only [Local.request, Pub.request, e, Option.some.injEq, reduceCtorEq] at hop <;>
      subst hop <;>
      first
        | (have ht' := Local.push_target ht; simp at ht')
        | (have ht' := Local.pop_target ht; simp at ht')
        | simp only [Op.target, Option.some.injEq, reduceCtorEq, Loc.stateFlight.injEq] at ht
    case admitCas d old =>
      subst ht
      exact hl ▸ hcas rfl fun _ => hl ▸ .enter rfl e rfl rfl
    case leave d =>
      subst ht
      exact .inr ⟨rfl, rfl, .release rfl (.inl e) rfl (by simp [ran, Op.exec, Loc.modulus])⟩
    case abandonLeave d exc =>
      subst ht
      exact .inr ⟨rfl, rfl, .release rfl (.inr ⟨exc, e⟩) rfl (by simp [ran, Op.exec, Loc.modulus])⟩
  | sub u =>
    rw [hl] at hop
    cases e : u.pc <;> simp only [Local.request, Sub.request, e, Option.some.injEq, reduceCtorEq] at hop <;>
      subst hop <;>
      first
        | (have ht' := Local.push_target ht; simp at ht')
        | simp only [Op.target, Option.some.injEq, reduceCtorEq, Loc.stateFlight.injEq] at ht
    case joinCas i wp =>
      subst ht
      exact hl ▸ hcas rfl fun _ => hl ▸ .join rfl e rfl rfl
    case leaveCas old =>
      subst ht
      exact hl ▸ hcas rfl fun _ => hl ▸ .drain rfl e rfl rfl
    case leaveFree =>
      subst ht
      exact .inr ⟨rfl, rfl, .vacate rfl e rfl (by simp [ran, Op.exec])⟩
    case leaveCas2 old =>
      subst ht
      exact hl ▸ hcas rfl fun _ => hl ▸ .vacateLate rfl e rfl rfl
  | reclaim u =>
    rw [hl] at hop
    cases e : u.pc <;> simp only [Local.request, Reclaim.request, e, Option.some.injEq, reduceCtorEq] at hop <;>
      subst hop <;> simp only [Op.target, Option.some.injEq, reduceCtorEq, Loc.stateFlight.injEq] at ht
    case claim i st old =>
      subst ht
      exact hl ▸ hcas rfl fun _ => hl ▸ .claim rfl e rfl
    case free i old =>
      subst ht
      exact hl ▸ hcas rfl fun _ => hl ▸ .free rfl e rfl
    case restore i st old =>
      subst ht
      exact hl ▸ hcas rfl fun _ => hl ▸ .restore rfl e rfl
  | _ =>
    have := tenure_request_other hop (by simp [hl]) (by simp [hl]) (by simp [hl]) ht
    cases this

/-- A ring becomes `Free` by its holder's `release_ring` or by a pass's last exchange. -/
theorem free_cases (h : Tenancy proc s) {op : Op} {c : Bool} (hop : (s.th t).request g = some op)
    {r : Nat} (hr : s.ringState r ≠ .free) (hr' : (s.ran g t op c).ringState r = .free) :
    (s.th t).held = some r ∨
      ∃ u, s.th t = .reclaim u ∧ u.pc = .free r (s.mem (.stateFlight r)) := by
  have hlt := (h.ring r).word_lt
  unfold ringState at hr hr'
  rcases stateWrite_run c hop r with ⟨e, -⟩ | ⟨-, -, hw⟩
  · exact absurd (e ▸ hr') hr
  · cases hw with
    | enter hl hpc hi hw =>
      rw [hw, getState_admitted] at hr'
      exact absurd hr' hr
    | release hl hpc hi hw =>
      rw [hw, getState_release] at hr'
      exact absurd hr' hr
    | join hl hpc h0 hw =>
      rw [h0, getState_packed] at hr
      exact absurd rfl hr
    | drain hl hpc hi hw =>
      rw [hw, getState_setState hlt] at hr'
      cases hr'
    | vacate hl hpc hi hw => exact .inl (by simp [hl, Local.held, Sub.held, hpc, hi])
    | vacateLate hl hpc hi hw => exact .inl (by simp [hl, Local.held, Sub.held, hpc, hi])
    | claim hl hpc hw =>
      rw [hw, getState_setState hlt] at hr'
      cases hr'
    | @free u hl hpc hw => exact .inr ⟨u, hl, hpc⟩
    | restore hl hpc hw =>
      have hk := h.knows t
      rw [hl] at hk
      simp only [Local.Knows, hpc, ReclaimPc.Checked] at hk
      rw [hw, getState_setState hlt] at hr'
      exact absurd hr' hk.1

/-! ## Runs in which no ring is freed under a pass that has read its owner -/

/-- The step does not publish `Free` on a ring that another running pass is watching. -/
def undisturbed (proc : ι → Nat × Nat) (s : Sys ι) (l : Label ι) (s' : Sys ι) : Prop :=
  ∀ v u r, s.alive proc v = true → s.th v = .reclaim u → u.pc.watching = some r →
    s.ringState r ≠ .free → s'.ringState r = .free → ∃ c, l = .run v c

omit [DecidableEq ι] in
/-- A pass with a verdict is right to publish `Free`. -/
theorem freesRight_of_verdict {l : Label ι}
    (hv : ∀ t c u i, l = .run t c → s.th t = .reclaim u → u.pc = .free i (s.mem (.stateFlight i)) →
      u.pc.Verdict proc s) : s.FreesRight proc l := by
  intro t c u i hl hu hpc
  have := hv t c u i hl hu hpc
  rw [hpc] at this
  obtain ⟨T, hT, hd, hp, hq⟩ := this
  refine ⟨fun v hv => ?_, hp, hq⟩
  obtain rfl : T = v := Option.some.inj (hT.symm.trans hv)
  exact hd

theorem Attributed.next (h : Attributed proc (fun _ _ => True) s) {l : Label ι}
    (hs : s.next g proc l = some s') (hu : s.undisturbed proc l s') :
    Attributed proc (fun _ _ => True) s' := by
  by_cases hl : ∃ t c, l = .run t c
  · obtain ⟨t, c, rfl⟩ := hl
    have ha := (run_cases hs).1
    refine h.run hs (freesRight_of_verdict fun t' c' u i e ht _ => ?_) (fun _ _ _ _ _ _ _ _ => trivial) ?_
    · obtain ⟨rfl, -⟩ := Label.run.inj e
      exact h.verdict t u ha ht trivial
    · intro v u i hne hav hv hw _ hr hr'
      obtain ⟨c', e⟩ := hu v u i hav hv hw hr hr'
      exact hne (Label.run.inj e).1.symm
  · exact h.still hs (fun t c e => hl ⟨t, c, e⟩) fun _ _ => trivial

theorem attributed_reach (hg : g.Valid) (h : (machine g proc).Reach (undisturbed proc) s) :
    Attributed proc (fun _ _ => True) s :=
  h.invariant (fun _ h0 => attributed_init hg h0) fun _ _ _ hI hs ho => hI.next hs ho

end Sys

/-- The ring of a subscriber that has stored its `owner_pid` and not freed the ring yet. -/
def Local.recorded : Local → Option Nat
  | .sub u =>
    match u.pc with
    | .joinStart _ _ | .joinPid _ _ => none
    | _ => u.held
  | _ => none

theorem Local.held_of_recorded {l : Local} {r : Nat} (h : l.recorded = some r) : l.held = some r := by
  cases l with
  | sub u =>
    simp only [recorded] at h
    split at h
    · cases h
    · cases h
    · exact h
  | _ => cases h

namespace Sys

variable {ι : Type} [DecidableEq ι] {g : Geometry} {proc : ι → Nat × Nat} {s s' : Sys ι}

/-- Nobody but a running subscriber writes its ring's recorded owner and wait flag. -/
theorem ownerWord_next (h : Attributed proc (fun _ _ => True) s) {T : ι} {r : Nat}
    (ha : s.alive proc T = true) (hr : (s.th T).held = some r) {l : Label ι}
    (hs : s.next g proc l = some s') (hl : ∀ c, l ≠ .run T c) {loc : Loc}
    (hloc : loc.ownerWord = some r) : s'.mem loc = s.mem loc := by
  by_cases hrun : ∃ t c, l = .run t c
  · obtain ⟨t, c, rfl⟩ := hrun
    obtain ⟨hat, op, hop, rfl⟩ := ran_cases hs
    refine Op.exec_frame _ _ _ _ fun ht => ?_
    have hT := h.tenancy.tenant_of_held ha hr
    rcases Local.ownerWord_cases hop ht hloc with hh | ⟨u, hu, hpc⟩
    · exact hl c (h.tenancy.held_unique ha hr hat hh ▸ rfl)
    · have hv := h.verdict t u hat hu trivial
      have hd : s.Dead proc T := by
        rcases hpc with ⟨k, e⟩ | ⟨k, e⟩ | ⟨k, e⟩ <;> rw [e] at hv
        · obtain ⟨T', hT', hd⟩ := hv
          exact Option.some.inj (hT'.symm.trans hT) ▸ hd
        · obtain ⟨T', hT', hd⟩ := hv
          exact Option.some.inj (hT'.symm.trans hT) ▸ hd
        · obtain ⟨T', hT', hd, -⟩ := hv
          exact Option.some.inj (hT'.symm.trans hT) ▸ hd
      exact h.tenancy.not_dead ha hd
  · rw [mem_eq_of_next hs fun t c e => hrun ⟨t, c, e⟩]

/-- A ring is freed by its tenant, or by a pass after the tenant's death. -/
theorem freed_next (h : Attributed proc (fun _ _ => True) s) {l : Label ι} {r : Nat}
    (hs : s.next g proc l = some s') (hr : s.ringState r ≠ .free) (hr' : s'.ringState r = .free) :
    ∃ T t c, l = .run t c ∧ s.ghost.tenant r = some T ∧
      (t = T ∨ (∃ u, s.th t = .reclaim u) ∧ s.Dead proc T) := by
  by_cases hrun : ∃ t c, l = .run t c
  · obtain ⟨t, c, rfl⟩ := hrun
    obtain ⟨hat, op, hop, rfl⟩ := ran_cases hs
    rcases free_cases h.tenancy hop hr hr' with hh | ⟨u, hu, hpc⟩
    · exact ⟨t, t, c, rfl, h.tenancy.tenant_of_held hat hh, .inl rfl⟩
    · have hv := h.verdict t u hat hu trivial
      rw [hpc] at hv
      obtain ⟨T, hT, hd, -⟩ := hv
      exact ⟨T, t, c, rfl, hT, .inr ⟨⟨u, hu⟩, hd⟩⟩
  · rw [ringState, mem_eq_of_next hs fun t c e => hrun ⟨t, c, e⟩] at hr'
    exact absurd hr' hr

/-- In a run in which no ring is freed under a pass that has read its owner: while a subscriber that has
recorded itself runs, nobody else holds its ring, changes its recorded owner or wait flag, or frees it;
whoever frees a ring ends the one tenancy it is in, and is the tenant, or a pass after its death. -/
theorem tenancy_attributed (hg : g.Valid) (h : (machine g proc).Reach (undisturbed proc) s) :
    (∀ T r, s.alive proc T = true → (s.th T).recorded = some r →
      (∀ v, s.alive proc v = true → (s.th v).held = some r → v = T) ∧
      ∀ l s', s.next g proc l = some s' → (∀ c, l ≠ .run T c) →
        s'.mem (.ownerPid r) = s.mem (.ownerPid r) ∧
        s'.mem (.ownerStarttime r) = s.mem (.ownerStarttime r) ∧
        s'.mem (.hasWaiter r) = s.mem (.hasWaiter r) ∧ s'.ringState r ≠ .free) ∧
    (∀ l s' r, s.next g proc l = some s' → s.ringState r ≠ .free → s'.ringState r = .free →
      ∃ T t c, l = .run t c ∧ s.ghost.tenant r = some T ∧
        (t = T ∨ (∃ u, s.th t = .reclaim u) ∧ s.Dead proc T)) ∧
    ∀ t r, s.alive proc t = true → (s.th t).held = some r →
      s.ghost.tenant r = some t ∧ s.ringState r ≠ .free := by
  have hA := attributed_reach hg h
  refine ⟨fun T r ha hrec => ?_, fun l s' r hs hr hr' => freed_next hA hs hr hr', fun t r ha hr => ?_⟩
  · have hr := Local.held_of_recorded hrec
    have hT := hA.tenancy.tenant_of_held ha hr
    refine ⟨fun v hav hv => hA.tenancy.held_unique ha hr hav hv, fun l s' hs hl =>
      ⟨ownerWord_next hA ha hr hs hl rfl, ownerWord_next hA ha hr hs hl rfl,
        ownerWord_next hA ha hr hs hl rfl, fun hf => ?_⟩⟩
    obtain ⟨T', t, c, rfl, hT', ht⟩ := freed_next hA hs (hA.tenancy.ringState_ne hT) hf
    obtain rfl : T' = T := Option.some.inj (hT'.symm.trans hT)
    rcases ht with rfl | ⟨-, hd⟩
    · exact hl c rfl
    · exact hA.tenancy.not_dead ha hd
  · have hT := hA.tenancy.tenant_of_held ha hr
    exact ⟨hT, hA.tenancy.ringState_ne hT⟩

/-! ## Two passes over one ring -/

section Patrol

/-- Subscribers 0 and 1 and two passes, each in a process of its own. -/
def patrolProc (t : Fin 4) : Nat × Nat := (t.val + 1, 1)

def patrol (g : Geometry) : Sys (Fin 4) where
  mem := stampNewRegion g
  data := fun _ _ => 0
  procs := fun pid => if 0 < pid ∧ pid ≤ 4 then some 1 else none
  gone := []
  th := fun t =>
    match t with
    | 0 => .sub ⟨1, 1, 0, 0, 0, 0, 0, [], false, false, false, .ready, none, .out⟩
    | 1 => .sub ⟨2, 1, 0, 0, 0, 0, 0, [], false, false, false, .ready, none, .out⟩
    | _ => .reclaim ⟨0, .idle⟩
  ghost := ⟨g.poolSize, fun _ => 0, fun _ => ⟨0, 0, []⟩, fun _ _ => none, fun _ => none, fun _ => [],
    fun _ => [], fun _ => 0⟩

theorem init_patrol (g : Geometry) : Init g patrolProc (patrol g) where
  mem := rfl
  procs pid st h := by
    simp only [patrol] at h
    split_ifs at h with hp
    simp only [Option.some.injEq] at h
    omega
  gone := rfl
  th t := by fin_cases t <;> simp [patrol, Local.Fresh, patrolProc]
  changes := rfl
  log _ _ := rfl
  tenant _ := rfl
  got _ := rfl

def patrols (t : Fin 4) (n : Nat) : List (Label (Fin 4)) := List.replicate n (.run t false)

/-- What `undisturbed` asks of actor `v`. -/
def spares (s : Sys (Fin 4)) (l : Label (Fin 4)) (s' : Sys (Fin 4)) (v : Fin 4) : Bool :=
  match s.th v with
  | .reclaim u =>
    match u.pc.watching with
    | some r => decide (s'.ringState r ≠ .free) || match l with
        | .run t _ => decide (t = v)
        | _ => false
    | none => true
  | _ => true

theorem undisturbed_of_spares {s s' : Sys (Fin 4)} {l : Label (Fin 4)}
    (h : ∀ v, spares s l s' v = true) : s.undisturbed patrolProc l s' := by
  intro v u r _ hu hw _ hr'
  have := h v
  simp only [spares, hu, hw, hr', ne_eq, not_true_eq_false, decide_false, Bool.false_or] at this
  cases l with
  | run t c =>
    simp only [decide_eq_true_eq] at this
    exact ⟨c, by rw [this]⟩
  | _ => cases this

/-- Subscriber 0 joins and dies, pass 2 frees its ring and is done, and subscriber 1 joins. -/
theorem tenancy_attributed_patrol : ∃ s : Sys (Fin 4),
    (machine smallGeometry patrolProc).Reach (undisturbed patrolProc) s ∧
      s.alive patrolProc 1 = true ∧ (s.th 1).recorded = some 0 ∧
      ∀ l s', s.next smallGeometry patrolProc l = some s' → (∀ c, l ≠ .run 1 c) →
        s'.mem (.ownerPid 0) = s.mem (.ownerPid 0) ∧
        s'.mem (.ownerStarttime 0) = s.mem (.ownerStarttime 0) ∧
        s'.mem (.hasWaiter 0) = s.mem (.hasWaiter 0) ∧ s'.ringState 0 ≠ .free := by
  let ok : Sys (Fin 4) → Label (Fin 4) → Bool := fun s l =>
    (s.next smallGeometry patrolProc l).all fun s' : Sys (Fin 4) => decide (∀ v, spares s l s' v = true)
  have h0 : (machine smallGeometry patrolProc).Reach (fun s l _ => ok s l = true)
      (patrol smallGeometry) := .init (init_patrol smallGeometry)
  obtain ⟨s, hs, hP⟩ := h0.play_any
    (.call 0 (.join false) :: patrols 0 5 ++ .exit 1 :: .call 2 .reclaimDeadRings :: patrols 2 13 ++
      .call 1 (.join false) :: patrols 1 5)
    (fun s => s.alive patrolProc 1 && decide ((s.th 1).recorded = some 0)) (by decide +kernel)
  simp only [Bool.and_eq_true, decide_eq_true_eq] at hP
  have hs' : (machine smallGeometry patrolProc).Reach (undisturbed patrolProc) s := by
    refine hs.mono fun s l s' hst hok => undisturbed_of_spares ?_
    have hn : s.next smallGeometry patrolProc l = some s' := hst
    simpa [ok, hn] using hok
  exact ⟨s, hs', hP.1, hP.2, ((tenancy_attributed valid_smallGeometry hs').1 1 0 hP.1 hP.2).2⟩

/-- Pass 2 stops before it clears the owner of the dead subscriber 0; pass 3 frees the ring; subscriber 1
joins; and pass 2 goes on to clear the record of subscriber 1. -/
theorem owner_cleared_by_other : ∃ s s' : Sys (Fin 4),
    (machine smallGeometry patrolProc).Reach LTS.any s ∧ s.alive patrolProc 1 = true ∧
      (s.th 1).recorded = some 0 ∧
      s.next smallGeometry patrolProc (.run 2 false) = some s' ∧
      s.mem (.ownerPid 0) = 2 ∧ s'.mem (.ownerPid 0) = 0 := by
  have h0 : (machine smallGeometry patrolProc).Reach (fun _ _ _ => true = true)
      (patrol smallGeometry) := .init (init_patrol smallGeometry)
  obtain ⟨s, hs, hP⟩ := h0.play_any
    (.call 0 (.join false) :: patrols 0 5 ++ .exit 1 :: .call 2 .reclaimDeadRings :: patrols 2 9 ++
      .call 3 .reclaimDeadRings :: patrols 3 13 ++ .call 1 (.join false) :: patrols 1 5 ++ patrols 2 1)
    (fun s => s.alive patrolProc 1 && decide ((s.th 1).recorded = some 0) &&
      (s.next smallGeometry patrolProc (.run 2 false)).any fun s' : Sys (Fin 4) =>
        decide (s.mem (.ownerPid 0) = 2 ∧ s'.mem (.ownerPid 0) = 0)) (by decide +kernel)
  simp only [Bool.and_eq_true, decide_eq_true_eq] at hP
  obtain ⟨⟨ha, hr⟩, hn⟩ := hP
  obtain ⟨s', hs', hq⟩ := (Option.any_eq_true _ _).mp hn
  simp only [decide_eq_true_eq] at hq
  exact ⟨s, s', hs.mono fun _ _ _ _ _ => trivial, ha, hr, hs', hq⟩

end Patrol

end Sys

end Kickmsg
