import Kickmsg.Registry.Model

/-!
# Who may write a row

A row is free, or it belongs to one thread: the registrant that claimed it, until it has deregistered it,
or the sweeper that took it from a dead registrant. `Phase` says where the owner is, and what the row then
looks like. A thread that only looks at a row (a sweep before it acquires it, a snapshot) knows that what
it has read is still there as long as the generation has not changed.
-/

namespace Kickmsg.Registry

open Lib

/-- What the owner of a row is doing with it. -/
inductive Phase
  | claimed (r : Registration)
  | filling (r : Registration) (todo : List Field)
  | published (r : Registration)
  | registered
  | retiring
  | acquired
  | clearing
  | half
  | cleared
  | emptied

/-- The row that a program counter gives a thread the right to write, and how far it is. -/
def Pc.phase : Pc → Option (Nat × Phase)
  | .openLoad r i | .openStore r i _ => some (i, .claimed r)
  | .fill r i f todo => some (i, .filling r (f :: todo))
  | .activate r i => some (i, .filling r [])
  | .settleLoad r i | .settleStore r i _ => some (i, .published r)
  | .deregCas i => some (i, .registered)
  | .deregOpenLoad i | .deregOpenStore i _ => some (i, .retiring)
  | .sweepReclaim _ _ i => some (i, .acquired)
  | .deregPid i | .sweepClearPid _ _ i => some (i, .clearing)
  | .deregStart i | .sweepClearStart _ _ i => some (i, .half)
  | .deregSettleLoad i | .deregSettleStore i _ | .sweepSettleLoad _ _ i
  | .sweepSettleStore _ _ i _ => some (i, .cleared)
  | .deregFree i | .sweepFree _ _ i => some (i, .emptied)
  | _ => none

/-- The generation a thread is about to replace. -/
def Pc.loaded : Pc → Option Nat
  | .openStore _ _ g | .settleStore _ _ g | .deregOpenStore _ g | .deregSettleStore _ g
  | .sweepSettleStore _ _ _ g => some g
  | _ => none

/-- What a thread is doing with row `i`; a row it has registered and not retired stays registered. -/
def Actor.phase (a : Actor) (i : Nat) : Option Phase :=
  match a.pc.phase with
  | some (j, φ) => if j = i then some φ else if i ∈ a.held then some .registered else none
  | none => if i ∈ a.held then some .registered else none

/-- The row holds what a registration of process `p` wrote. -/
def Carries (p : Nat × Nat) (w : List Registration) (v : Field → Nat) : Prop :=
  ∃ r ∈ w, (r.pid, r.pidStarttime) = p ∧ ∀ f ∈ storeOrder, v f = r.value f

/-- The row names nobody. -/
def Cleared (v : Field → Nat) : Prop := v .pid = 0 ∧ v .pidStarttime = 0

/-- What a row looks like to its owner, a thread of process `p`. -/
def Phase.Ok (p : Nat × Nat) (w : List Registration) (v : Field → Nat) : Phase → Prop
  | .claimed r => (r.pid, r.pidStarttime) = p ∧ v .state = claiming ∧ v .generation % 2 = 0 ∧ Cleared v
  | .filling r todo => (r.pid, r.pidStarttime) = p ∧ v .state = claiming ∧ v .generation % 2 = 1 ∧
      (∀ f ∈ todo, f ∈ storeOrder) ∧ ∀ f ∈ storeOrder, f ∉ todo → v f = r.value f
  | .published r => v .state = active ∧ v .generation % 2 = 1 ∧ r ∈ w ∧
      (r.pid, r.pidStarttime) = p ∧ ∀ f ∈ storeOrder, v f = r.value f
  | .registered => v .state = active ∧ v .generation % 2 = 0 ∧ Carries p w v
  | .retiring => v .state = reclaiming ∧ v .generation % 2 = 0 ∧ Carries p w v
  | .acquired => (v .state = active ∨ v .state = reclaiming) ∧ v .generation % 2 = 1
  | .clearing => v .state = reclaiming ∧ v .generation % 2 = 1
  | .half => v .state = reclaiming ∧ v .generation % 2 = 1 ∧ v .pid = 0
  | .cleared => v .state = reclaiming ∧ v .generation % 2 = 1 ∧ Cleared v
  | .emptied => v .state = reclaiming ∧ v .generation % 2 = 0 ∧ Cleared v

/-- A free row: no identity, and a settled generation. -/
def FreeRow (v : Field → Nat) : Prop := v .state = free ∧ v .generation % 2 = 0 ∧ Cleared v

/-- The row a thread is looking at, and the generation it loaded first. -/
def Pc.visit : Pc → Option (Nat × Nat)
  | .sweepPid _ _ i g | .sweepStart _ _ i g _ | .sweepGen2 _ _ i g _ _ | .sweepProbe _ _ i g _ _
  | .sweepAcquire _ _ i g _ _ => some (i, g)
  | .snapField _ i g _ _ _ | .snapGen2 _ i g _ => some (i, g)
  | .snapState2 _ i g g' _ => if g' = g then some (i, g) else none
  | _ => none

/-- What it has read of the row is there. -/
def Pc.Sees (gone : List (Nat × Nat)) (v : Field → Nat) : Pc → Prop
  | .sweepStart _ _ _ _ pid => v .pid = pid
  | .sweepGen2 _ _ _ _ pid start => v .pid = pid ∧ v .pidStarttime = start
  | .sweepProbe _ _ _ _ pid start => v .pid = pid ∧ v .pidStarttime = start ∧ pid ≠ 0
  | .sweepAcquire _ _ _ _ pid start =>
    v .pid = pid ∧ v .pidStarttime = start ∧ pid ≠ 0 ∧ (pid, start) ∈ gone
  | .snapField _ _ _ vals f todo => ∀ f' ∈ loadOrder, f' ∉ f :: todo → vals f' = v f'
  | .snapGen2 _ _ _ vals | .snapState2 _ _ _ _ vals => ∀ f ∈ loadOrder, vals f = v f
  | _ => True

/-- Opening a settled generation counts one up. -/
theorem opened_eq {n : Nat} (h : n % 2 ^ 32 % 2 = 0) : opened (n % 2 ^ 32) = (n + 1) % 2 ^ 32 := by
  have hdiv := Nat.or_div_two (a := u32 (n % 2 ^ 32 + 1)) (b := 1)
  have hmod : (u32 (n % 2 ^ 32 + 1) ||| 1) % 2 = 1 := Nat.or_mod_two_eq_one.mpr (.inr rfl)
  simp only [Nat.reduceDiv, Nat.or_zero] at hdiv
  unfold opened
  unfold u32 at *
  omega

/-- Settling an open generation counts one up. -/
theorem settled_eq {n : Nat} (h : n % 2 ^ 32 % 2 = 1) : settled (n % 2 ^ 32) = (n + 1) % 2 ^ 32 := by
  have hdiv := Nat.and_div_two (a := u32 (n % 2 ^ 32 + 2)) (b := 2 ^ 32 - 2)
  have hmod : ¬ (u32 (n % 2 ^ 32 + 2) &&& (2 ^ 32 - 2)) % 2 = 1 := by
    rw [Nat.and_mod_two_eq_one]
    simp
  have hmask : u32 (n % 2 ^ 32 + 2) / 2 &&& (2 ^ 32 - 2) / 2 = u32 (n % 2 ^ 32 + 2) / 2 := by
    rw [show (2 ^ 32 - 2) / 2 = 2 ^ 31 - 1 by decide, Nat.and_two_pow_sub_one_eq_mod]
    apply Nat.mod_eq_of_lt
    unfold u32
    omega
  rw [hmask] at hdiv
  unfold settled
  unfold u32 at *
  omega

section System

variable {ι : Type}

/-- The words of row `i`. -/
def rowOf (m : Loc → Nat) (i : Nat) : Field → Nat := fun f => m (i, f)

structure Inv (proc : ι → Nat × Nat) (s : Shared ι Loc Actor (Trace ι)) : Prop where
  ident : ∀ t, ((s.th t).pid, (s.th t).starttime) = proc t
  /-- a registration on its way to a row is the thread's own -/
  own : ∀ t r n i, (s.th t).pc = .claim r n i → (r.pid, r.pidStarttime) = proc t
  gen : ∀ i, s.mem (i, .generation) = s.ghost.ticks i % 2 ^ 32
  vacant : ∀ i, s.ghost.tenant i = none → FreeRow (rowOf s.mem i)
  tenant : ∀ i t, s.ghost.tenant i = some t → s.world.Known (proc t) ∧
    ∃ φ, (s.th t).phase i = some φ ∧ φ.Ok (proc t) (s.ghost.written i) (rowOf s.mem i)
  /-- whoever lives and owns a row is its tenant -/
  owner : ∀ t i φ, (s.th t).phase i = some φ →
    proc t ∈ s.world.gone ∨ s.ghost.tenant i = some t
  apart : ∀ t i φ, (s.th t).pc.phase = some (i, φ) →
    proc t ∈ s.world.gone ∨ (i ∉ (s.th t).held ∧
      ∀ g, (s.th t).pc.loaded = some g → g = s.mem (i, .generation))
  visit : ∀ t i g, (s.th t).pc.visit = some (i, g) → (s.ghost.seen t).ticks ≤ s.ghost.ticks i ∧
    g = (s.ghost.seen t).ticks % 2 ^ 32 ∧ g % 2 = 0 ∧
    (s.ghost.ticks i = (s.ghost.seen t).ticks →
      (s.th t).pc.Sees s.world.gone (rowOf s.mem i) ∧ (s.ghost.seen t).pid = s.mem (i, .pid))

variable {proc : ι → Nat × Nat} {s : Shared ι Loc Actor (Trace ι)}

theorem Actor.phase_of_pc {a : Actor} {i : Nat} {φ : Phase} (h : a.pc.phase = some (i, φ)) :
    a.phase i = some φ := by
  simp [Actor.phase, h]

theorem Actor.phase_of_ne {a : Actor} {i j : Nat} {φ : Phase} (h : a.pc.phase = some (i, φ))
    (hj : j ≠ i) : a.phase j = if j ∈ a.held then some .registered else none := by
  simp only [Actor.phase, h]
  exact if_neg (Ne.symm hj)

theorem Actor.phase_of_none {a : Actor} (h : a.pc.phase = none) (j : Nat) :
    a.phase j = if j ∈ a.held then some .registered else none := by
  simp only [Actor.phase, h]

theorem Actor.phase_congr {a b : Actor} (hpc : a.pc.phase = b.pc.phase) (hheld : a.held = b.held)
    (i : Nat) : a.phase i = b.phase i := by
  simp [Actor.phase, hpc, hheld]

theorem Phase.state_ne_free {φ : Phase} {p : Nat × Nat} {w : List Registration} {v : Field → Nat}
    (h : φ.Ok p w v) : v .state ≠ free := by
  cases φ <;> simp only [Phase.Ok] at h
  case claimed | filling => rw [h.2.1]; decide
  case acquired => rcases h.1 with h | h <;> rw [h] <;> decide
  all_goals rw [h.1]; decide

/-- A row with a settled generation that names somebody holds a registration of its tenant. -/
theorem Phase.carries {φ : Phase} {p : Nat × Nat} {w : List Registration} {v : Field → Nat}
    (h : φ.Ok p w v) (hg : v .generation % 2 = 0) (hp : v .pid ≠ 0) :
    Carries p w v ∧ (v .state = active ∨ v .state = reclaiming) := by
  cases φ <;> simp only [Phase.Ok, Cleared] at h <;> try omega
  · exact ⟨h.2.2, .inl h.1⟩
  · exact ⟨h.2.2, .inr h.1⟩

theorem Carries.mono {p : Nat × Nat} {w w' : List Registration} {v : Field → Nat}
    (h : Carries p w v) (hw : ∀ r ∈ w, r ∈ w') : Carries p w' v := by
  obtain ⟨r, hr, h⟩ := h
  exact ⟨r, hw r hr, h⟩

theorem Carries.ident {p : Nat × Nat} {w : List Registration} {v : Field → Nat}
    (h : Carries p w v) : (v .pid, v .pidStarttime) = p := by
  obtain ⟨r, -, hr, hv⟩ := h
  rw [hv .pid (by decide), hv .pidStarttime (by decide)]
  exact hr

theorem Phase.Ok.mono {φ : Phase} {p : Nat × Nat} {w w' : List Registration} {v : Field → Nat}
    (h : φ.Ok p w v) (hw : ∀ r ∈ w, r ∈ w') : φ.Ok p w' v := by
  cases φ <;> simp only [Phase.Ok] at h ⊢
  case published => exact ⟨h.1, h.2.1, hw _ h.2.2.1, h.2.2.2⟩
  case registered | retiring => exact ⟨h.1, h.2.1, h.2.2.mono hw⟩
  all_goals exact h

/-- What has been read depends on the fields a visitor reads. -/
theorem Pc.Sees.congr {pc : Pc} {gone : List (Nat × Nat)} {v v' : Field → Nat}
    (h : pc.Sees gone v) (hv : ∀ f ∈ loadOrder, v' f = v f) : pc.Sees gone v' := by
  have hpid := hv .pid (by decide)
  have hstart := hv .pidStarttime (by decide)
  cases pc <;> simp only [Pc.Sees] at h ⊢
  case sweepStart | sweepGen2 | sweepProbe | sweepAcquire => simpa only [hpid, hstart] using h
  case snapField => exact fun f hf hn => (h f hf hn).trans (hv f hf).symm
  case snapGen2 | snapState2 => exact fun f hf => (h f hf).trans (hv f hf).symm

theorem inv_init (h : Init proc s) : Inv proc s := by
  have hidle : ∀ t i, (s.th t).phase i = none := fun t i => by
    rw [h.th t]
    simp [Actor.phase, Pc.phase]
  refine ⟨fun t => by rw [h.th t], fun t r n i hc => ?_, fun i => ?_, fun i _ => ?_, fun i t ht => ?_,
    fun t i φ hp => ?_, fun t i φ hp => ?_, fun t i g hv => ?_⟩
  · rw [h.th t] at hc
    simp at hc
  · simp [h.mem, h.ghost]
  · simp [FreeRow, Cleared, rowOf, h.mem, free]
  · rw [h.ghost] at ht
    simp at ht
  · simp [hidle] at hp
  · rw [h.th t] at hp
    simp [Pc.phase] at hp
  · rw [h.th t] at hv
    simp [Pc.visit] at hv

/-- The row of a live thread that is at work on it. -/
theorem Inv.row (h : Inv proc s) (hs : s.world.Sound) {t : ι} (ha : s.world.alive (proc t) = true)
    {i : Nat} {φ : Phase} (hp : (s.th t).phase i = some φ) :
    s.ghost.tenant i = some t ∧ φ.Ok (proc t) (s.ghost.written i) (rowOf s.mem i) := by
  have ht : s.ghost.tenant i = some t := (h.owner t i φ hp).resolve_left (hs.not_gone ha)
  obtain ⟨-, φ', hp', hok⟩ := h.tenant i t ht
  rw [hp] at hp'
  cases hp'
  exact ⟨ht, hok⟩

/-- Nobody else who lives is at work on the row of a live thread. -/
theorem Inv.others (h : Inv proc s) (hs : s.world.Sound) {t : ι}
    (ha : s.world.alive (proc t) = true) {i : Nat} {φ : Phase} (hp : (s.th t).phase i = some φ)
    {u : ι} {ψ : Phase} (hu : u ≠ t) (hψ : (s.th u).phase i = some ψ) : proc u ∈ s.world.gone := by
  rcases h.owner u i ψ hψ with hg | hg
  · exact hg
  · rw [(h.row hs ha hp).1] at hg
    exact absurd (Option.some.inj hg).symm hu

variable [DecidableEq ι]

/-- A thread moves and no word changes. -/
theorem Inv.quiet (h : Inv proc s) {u : ι} {a : Actor} {g : Trace ι}
    (hid : (a.pid, a.starttime) = proc u)
    (hown : ∀ r n i, a.pc = .claim r n i → (r.pid, r.pidStarttime) = proc u)
    (hphase : ∀ j, a.phase j = (s.th u).phase j)
    (hapart : ∀ i φ, a.pc.phase = some (i, φ) → proc u ∈ s.world.gone ∨ (i ∉ a.held ∧
      ∀ g, a.pc.loaded = some g → g = s.mem (i, .generation)))
    (hticks : g.ticks = s.ghost.ticks) (htenant : g.tenant = s.ghost.tenant)
    (hwritten : g.written = s.ghost.written) (hseen : ∀ v, v ≠ u → g.seen v = s.ghost.seen v)
    (hvisit : ∀ i g₁, a.pc.visit = some (i, g₁) → (g.seen u).ticks ≤ s.ghost.ticks i ∧
      g₁ = (g.seen u).ticks % 2 ^ 32 ∧ g₁ % 2 = 0 ∧ (s.ghost.ticks i = (g.seen u).ticks →
        a.pc.Sees s.world.gone (rowOf s.mem i) ∧ (g.seen u).pid = s.mem (i, .pid))) :
    Inv proc { s with th := Function.update s.th u a, ghost := g } where
  ident := forall_update_of (fun t (a : Actor) => (a.pid, a.starttime) = proc t) h.ident hid
  own := forall_update_of (fun t (a : Actor) => ∀ r n i, a.pc = .claim r n i →
    (r.pid, r.pidStarttime) = proc t) h.own hown
  gen i := by
    simp only [hticks]
    exact h.gen i
  vacant i := by
    simp only [htenant]
    exact h.vacant i
  tenant i t := by
    simp only [htenant, hwritten]
    intro ht
    obtain ⟨hk, φ, hp, hok⟩ := h.tenant i t ht
    refine ⟨hk, φ, ?_, hok⟩
    by_cases he : t = u
    · subst he
      simpa [hphase i] using hp
    · simpa [Function.update_of_ne he] using hp
  owner t i φ := by
    simp only [htenant]
    intro hp
    apply h.owner t i φ
    by_cases he : t = u
    · subst he
      simpa [hphase i] using hp
    · simpa [Function.update_of_ne he] using hp
  apart := forall_update_of (fun t (a : Actor) => ∀ i φ, a.pc.phase = some (i, φ) →
    proc t ∈ s.world.gone ∨ (i ∉ a.held ∧ ∀ g, a.pc.loaded = some g → g = s.mem (i, .generation))) h.apart hapart
  visit t := by
    simp only [hticks]
    by_cases he : t = u
    · subst he
      simpa using hvisit
    · simpa [Function.update_of_ne he, hseen t he] using h.visit t

/-- A live thread changes row `i`, which belongs to nobody else who lives. What others have read of the
row stays true, or the generation tells them: it changes, or it is odd. -/
theorem Inv.write (h : Inv proc s) {u : ι} (ha : s.world.alive (proc u) = true) (i : Nat)
    {m : Loc → Nat} {a : Actor} {g : Trace ι} (hid : (a.pid, a.starttime) = proc u)
    (hown : ∀ r n i, a.pc = .claim r n i → (r.pid, r.pidStarttime) = proc u)
    (hmem : ∀ j, j ≠ i → rowOf m j = rowOf s.mem j)
    (hphase : ∀ j, j ≠ i → a.phase j = (s.th u).phase j)
    (hothers : ∀ t φ, t ≠ u → (s.th t).phase i = some φ → proc t ∈ s.world.gone)
    (hapart : ∀ j φ, a.pc.phase = some (j, φ) → j ∉ a.held ∧
      ∀ g, a.pc.loaded = some g → g = m (j, .generation))
    (hticks : ∀ j, j ≠ i → g.ticks j = s.ghost.ticks j)
    (htenant : ∀ j, j ≠ i → g.tenant j = s.ghost.tenant j)
    (hwritten : ∀ j r, r ∈ s.ghost.written j → r ∈ g.written j) (hseen : g.seen = s.ghost.seen)
    (hgen : m (i, .generation) = g.ticks i % 2 ^ 32)
    (hcover : g.ticks i = s.ghost.ticks i + 1 ∨ (g.ticks i = s.ghost.ticks i ∧
      (s.mem (i, .generation) % 2 = 1 ∨ ∀ f ∈ loadOrder, m (i, f) = s.mem (i, f))))
    (hvisit : a.pc.visit = none)
    (hnew : (g.tenant i = some u ∧
        ∃ φ, a.phase i = some φ ∧ φ.Ok (proc u) (g.written i) (rowOf m i)) ∨
      (g.tenant i = none ∧ a.phase i = none ∧ FreeRow (rowOf m i))) :
    Inv proc { s with mem := m, th := Function.update s.th u a, ghost := g } where
  ident := forall_update_of (fun t (a : Actor) => (a.pid, a.starttime) = proc t) h.ident hid
  own := forall_update_of (fun t (a : Actor) => ∀ r n i, a.pc = .claim r n i →
    (r.pid, r.pidStarttime) = proc t) h.own hown
  gen j := by
    by_cases he : j = i
    · exact he ▸ hgen
    · have hrow := congrFun (hmem j he) .generation
      simp only [rowOf] at hrow
      simp only [hrow, hticks j he]
      exact h.gen j
  vacant j hj := by
    by_cases he : j = i
    · subst he
      rcases hnew with hn | hn
      · rw [hn.1] at hj
        simp at hj
      · exact hn.2.2
    · rw [htenant j he] at hj
      simp only [hmem j he]
      exact h.vacant j hj
  tenant j t hj := by
    by_cases he : j = i
    · subst he
      rcases hnew with ⟨hn, φ, hφ, hok⟩ | hn
      · rw [hn] at hj
        obtain rfl := Option.some.inj hj
        exact ⟨.inl ha, φ, by simpa using hφ, hok⟩
      · rw [hn.1] at hj
        simp at hj
    · rw [htenant j he] at hj
      obtain ⟨hk, φ, hp, hok⟩ := h.tenant j t hj
      refine ⟨hk, φ, ?_, ?_⟩
      · by_cases hu : t = u
        · subst hu
          simpa [hphase j he] using hp
        · simpa [Function.update_of_ne hu] using hp
      · simp only [hmem j he]
        exact hok.mono (hwritten j)
  owner t j φ hp := by
    by_cases hu : t = u
    · subst hu
      simp only [Function.update_self] at hp
      by_cases he : j = i
      · subst he
        rcases hnew with hn | hn
        · exact .inr hn.1
        · rw [hn.2.1] at hp
          simp at hp
      · rw [hphase j he] at hp
        simp only [htenant j he]
        exact h.owner t j φ hp
    · simp only [Function.update_of_ne hu] at hp
      by_cases he : j = i
      · subst he
        exact .inl (hothers t φ hu hp)
      · simp only [htenant j he]
        exact h.owner t j φ hp
  apart t j φ hp := by
    by_cases hu : t = u
    · subst hu
      simp only [Function.update_self] at hp ⊢
      exact .inr (hapart j φ hp)
    · simp only [Function.update_of_ne hu] at hp ⊢
      by_cases he : j = i
      · subst he
        exact .inl (hothers t φ hu (Actor.phase_of_pc hp))
      · have hrow := congrFun (hmem j he) .generation
        simp only [rowOf] at hrow
        simp only [hrow]
        exact h.apart t j φ hp
  visit t j g₁ hv := by
    by_cases hu : t = u
    · subst hu
      simp [hvisit] at hv
    · simp only [Function.update_of_ne hu] at hv ⊢
      obtain ⟨hle, hg₁, heven, hsees⟩ := h.visit t j g₁ hv
      simp only [hseen]
      by_cases he : j = i
      · subst he
        refine ⟨by omega, hg₁, heven, fun hfresh => ?_⟩
        rcases hcover with hc | ⟨hc, hodd | hsame⟩
        · omega
        · -- fresh, so the generation is the even one the visitor loaded
          rw [h.gen j] at hodd
          omega
        · have hold := hsees (by omega)
          refine ⟨Pc.Sees.congr hold.1 fun f hf => hsame f hf, hold.2.trans ?_⟩
          exact (hsame .pid (by decide)).symm
      · have hrow := congrFun (hmem j he) .pid
        simp only [rowOf] at hrow
        simp only [hticks j he, hmem j he, hrow]
        exact ⟨hle, hg₁, heven, hsees⟩

/-! ## The steps of a thread -/

omit [DecidableEq ι] in
theorem rowOf_update_self (m : Loc → Nat) (i : Nat) (f : Field) (v : Nat) :
    rowOf (Function.update m (i, f) v) i = Function.update (rowOf m i) f v := by
  funext f'
  by_cases he : f' = f
  · simp [rowOf, he]
  · simp [rowOf, he]

omit [DecidableEq ι] in
theorem rowOf_update_of_ne (m : Loc → Nat) {i j : Nat} (h : j ≠ i) (f : Field) (v : Nat) :
    rowOf (Function.update m (i, f) v) j = rowOf m j := by
  funext f'
  simp [rowOf, h]

/-- `b` is `a` between two rows: it owns what `a` has registered and looks at nothing. -/
structure Actor.Between (p : Nat × Nat) (a b : Actor) : Prop where
  ident : (b.pid, b.starttime) = (a.pid, a.starttime)
  held : b.held = a.held
  phase : b.pc.phase = none
  visit : b.pc.visit = none
  own : ∀ r n i, b.pc = .claim r n i → (r.pid, r.pidStarttime) = p

theorem Actor.between_ret (p : Nat × Nat) (a : Actor) (r : Result) : a.Between p (a.ret r) :=
  ⟨rfl, rfl, rfl, rfl, fun _ _ _ h => by simp [Actor.ret] at h⟩

theorem Actor.between_goto (p : Nat × Nat) (a : Actor) {pc : Pc} (hp : pc.phase = none)
    (hv : pc.visit = none) (hc : ∀ r n i, pc ≠ .claim r n i) : a.Between p (a.goto pc) :=
  ⟨rfl, rfl, hp, hv, fun r n i h => absurd h (hc r n i)⟩

theorem Actor.between_sweepAt (p : Nat × Nat) (capacity : Nat) (a : Actor) (k : After)
    (freed i : Nat) : a.Between p (a.sweepAt capacity k freed i) := by
  unfold Actor.sweepAt
  split
  · exact ⟨rfl, rfl, rfl, rfl, fun _ _ _ h => by simp [Actor.goto] at h⟩
  · split
    · exact a.between_ret p _
    · split
      · exact a.between_ret p _
      · exact ⟨rfl, rfl, rfl, rfl, fun _ _ _ h => by simp [Actor.goto] at h⟩

theorem Actor.between_claimAt {p : Nat × Nat} (capacity : Nat) (a : Actor) {r : Registration}
    (hr : (r.pid, r.pidStarttime) = p) (n i : Nat) : a.Between p (a.claimAt capacity r n i) := by
  unfold Actor.claimAt
  split_ifs
  · refine ⟨rfl, rfl, rfl, rfl, fun r' n' i' h => ?_⟩
    simp only [Actor.goto, Pc.claim.injEq] at h
    exact h.1 ▸ hr
  · exact a.between_sweepAt p capacity _ _ _
  · exact a.between_ret p _

theorem Actor.between_snapAt (p : Nat × Nat) (capacity : Nat) (a : Actor) (out : Rows) (i : Nat) :
    a.Between p (a.snapAt capacity out i) := by
  unfold Actor.snapAt
  split_ifs
  · exact ⟨rfl, rfl, rfl, rfl, fun _ _ _ h => by simp [Actor.goto] at h⟩
  · exact a.between_ret p _

/-- A thread that owned no row but those it has registered goes on to another row, or returns. -/
theorem Inv.between (h : Inv proc s) {u : ι} {a : Actor} (hp : (s.th u).pc.phase = none)
    (hb : (s.th u).Between (proc u) a) {g : Trace ι} (hticks : g.ticks = s.ghost.ticks)
    (htenant : g.tenant = s.ghost.tenant) (hwritten : g.written = s.ghost.written)
    (hseen : ∀ v, v ≠ u → g.seen v = s.ghost.seen v) :
    Inv proc { s with th := Function.update s.th u a, ghost := g } :=
  h.quiet (hb.ident.trans (h.ident u)) hb.own
    (Actor.phase_congr (hb.phase.trans hp.symm) hb.held)
    (fun i φ hφ => by simp [hb.phase] at hφ) hticks htenant hwritten hseen
    (fun i g hv => by simp [hb.visit] at hv)

/-- The owner of row `i` stores into it and keeps it. -/
theorem Inv.hold (h : Inv proc s) (hs : s.world.Sound) {u : ι}
    (ha : s.world.alive (proc u) = true) {i : Nat} {φ : Phase} {f : Field} {v : Nat} {g : Trace ι}
    (hp : (s.th u).pc.phase = some (i, φ)) (pc : Pc) {φ' : Phase} (hp' : pc.phase = some (i, φ'))
    (hl : pc.loaded = none) (hv : pc.visit = none)
    (hok : φ'.Ok (proc u) (g.written i) (Function.update (rowOf s.mem i) f v))
    (htenant : g.tenant = s.ghost.tenant) (hseen : g.seen = s.ghost.seen)
    (hwritten : ∀ j r, r ∈ s.ghost.written j → r ∈ g.written j)
    (hgen : (f = .generation ∧ v = (s.ghost.ticks i + 1) % 2 ^ 32 ∧
        g.ticks = Function.update s.ghost.ticks i (s.ghost.ticks i + 1)) ∨
      (f ≠ .generation ∧ g.ticks = s.ghost.ticks ∧
        (s.mem (i, .generation) % 2 = 1 ∨ f = .state))) :
    Inv proc { s with mem := Function.update s.mem (i, f) v
                      th := Function.update s.th u ((s.th u).goto pc)
                      ghost := g } := by
  have hrow := h.row hs ha (Actor.phase_of_pc hp)
  have hap := (h.apart u i φ hp).resolve_left (hs.not_gone ha)
  have hpj : ∀ j, j ≠ i → ((s.th u).goto pc).phase j = (s.th u).phase j := by
    intro j hj
    rw [Actor.phase_of_ne (a := (s.th u).goto pc) hp' hj, Actor.phase_of_ne hp hj]
    rfl
  refine h.write ha i (h.ident u) (fun r n j hc => ?_) (fun j hj => rowOf_update_of_ne _ hj _ _) hpj
    (fun t ψ ht hψ => h.others hs ha (Actor.phase_of_pc hp) ht hψ) (fun j ψ hψ => ?_) ?_ ?_ hwritten
    hseen ?_ ?_ hv (.inl ⟨by rw [htenant, hrow.1], φ', Actor.phase_of_pc hp', ?_⟩)
  · have hnone : ((s.th u).goto pc).pc.phase = none := by rw [hc]; rfl
    simp [Actor.goto, hp'] at hnone
  · simp only [Actor.goto] at hψ
    rw [hp'] at hψ
    cases hψ
    exact ⟨hap.1, fun g hg => by simp [Actor.goto, hl] at hg⟩
  · intro j hj
    rcases hgen with hg | hg
    · rw [hg.2.2, Function.update_of_ne hj]
    · rw [hg.2.1]
  · intro j _
    rw [htenant]
  · rcases hgen with hg | hg
    · rw [hg.1, hg.2.2, Function.update_self, Function.update_self, hg.2.1]
    · rw [Function.update_of_ne (by simpa using Ne.symm hg.1), hg.2.1]
      exact h.gen i
  · rcases hgen with hg | ⟨hf, ht, hodd | hst⟩
    · exact .inl (by rw [hg.2.2, Function.update_self])
    · exact .inr ⟨by rw [ht], .inl hodd⟩
    · refine .inr ⟨by rw [ht], .inr fun f' hf' => ?_⟩
      refine Function.update_of_ne ?_ _ _
      rintro ⟨⟩
      exact absurd (hst ▸ hf') (by decide)
  · rw [rowOf_update_self]
    exact hok

/-- The owner of row `i` loads its generation. -/
theorem Inv.reload (h : Inv proc s) (hs : s.world.Sound) {u : ι}
    (ha : s.world.alive (proc u) = true) {i : Nat} {φ : Phase}
    (hp : (s.th u).pc.phase = some (i, φ)) {pc : Pc} (hp' : pc.phase = some (i, φ))
    (hl : pc.loaded = some (s.mem (i, .generation))) (hv : pc.visit = none) :
    Inv proc { s with th := Function.update s.th u ((s.th u).goto pc) } := by
  have hap := (h.apart u i φ hp).resolve_left (hs.not_gone ha)
  refine h.quiet (h.ident u) (fun r n j hc => ?_)
    (Actor.phase_congr (by simp [Actor.goto, hp, hp']) rfl) (fun j ψ hψ => .inr ?_) rfl rfl rfl
    (fun _ _ => rfl) (fun j g hg => by simp [Actor.goto, hv] at hg)
  · have hnone : ((s.th u).goto pc).pc.phase = none := by rw [hc]; rfl
    simp [Actor.goto, hp'] at hnone
  · simp only [Actor.goto] at hψ ⊢
    rw [hp'] at hψ
    cases hψ
    refine ⟨hap.1, fun g hg => ?_⟩
    rw [hl] at hg
    exact (Option.some.inj hg).symm

variable {capacity now : Nat} {u : ι}

/-- The accesses of `register_participant` that touch a row it does not own yet. -/
theorem Inv.run_claim (h : Inv proc s) (hs : s.world.Sound) (ha : s.world.alive (proc u) = true)
    {r : Registration} {n i : Nat} (hpc : (s.th u).pc = .claim r n i) :
    Inv proc ((program ι capacity).ran s u (.cas (i, .state) free claiming) now) := by
  have hr := h.own u r n i hpc
  have hphase : (s.th u).pc.phase = none := by rw [hpc]; rfl
  dsimp only [Program.ran, program, Access.exec]
  split_ifs with hm
  · simp only [Actor.resume, Trace.track, hpc, ↓reduceIte]
    -- every owned row is not Free
    have hvac : s.ghost.tenant i = none := by
      cases ht : s.ghost.tenant i with
      | none => rfl
      | some t =>
        obtain ⟨-, φ, -, hok⟩ := h.tenant i t ht
        exact absurd hm (Phase.state_ne_free hok)
    have hfree := h.vacant i hvac
    have hnone : ∀ t φ, (s.th t).phase i = some φ → proc t ∈ s.world.gone := by
      intro t φ hφ
      rcases h.owner t i φ hφ with hg | hg
      · exact hg
      · simp [hvac] at hg
    refine h.write ha i (h.ident u) (fun r n j hc => ?_) (fun j hj => rowOf_update_of_ne _ hj _ _)
      (fun j hj => ?_) (fun t φ _ hφ => hnone t φ hφ) (fun j φ hφ => ?_) (fun _ _ => rfl)
      (fun j hj => ?_) (fun _ _ hr => hr) rfl ?_ (.inr ⟨rfl, .inr fun f hf => ?_⟩) rfl
      (.inl ⟨by simp [Trace.rent], .claimed r, Actor.phase_of_pc rfl, ?_⟩)
    · simp [Actor.goto] at hc
    · rw [Actor.phase_of_ne (a := (s.th u).goto _) rfl hj, Actor.phase_of_none hphase]
      rfl
    · simp only [Actor.goto, Pc.phase, Option.some.injEq, Prod.mk.injEq] at hφ
      obtain ⟨rfl, -⟩ := hφ
      refine ⟨fun hheld => ?_, fun g hg => by simp [Actor.goto, Pc.loaded] at hg⟩
      have hφ' : (s.th u).phase i = some .registered := by
        rw [Actor.phase_of_none hphase]
        exact if_pos hheld
      rcases h.owner u i _ hφ' with hg | hg
      · exact hs.not_gone ha hg
      · simp [hvac] at hg
    · simp [Trace.rent, Function.update_of_ne hj]
    · rw [Function.update_of_ne (by simp)]
      exact h.gen i
    · refine Function.update_of_ne ?_ _ _
      rintro ⟨⟩
      exact absurd hf (by decide)
    · rw [rowOf_update_self]
      refine ⟨hr, by simp, ?_, ?_⟩
      · simpa using hfree.2.1
      · simpa [Cleared] using hfree.2.2
  · simp only [Actor.resume, Trace.track, hpc, Bool.false_eq_true, ↓reduceIte]
    exact h.between hphase ((s.th u).between_claimAt capacity hr _ _) rfl rfl rfl fun _ _ => rfl

/-- The registrant's next field. -/
theorem Inv.run_fill (h : Inv proc s) (hs : s.world.Sound) (ha : s.world.alive (proc u) = true)
    {r : Registration} {i : Nat} {f : Field} {todo : List Field}
    (hpc : (s.th u).pc = .fill r i f todo) :
    Inv proc ((program ι capacity).ran s u (.store (i, f) (r.value f)) now) := by
  have hp : (s.th u).pc.phase = some (i, .filling r (f :: todo)) := by rw [hpc]; rfl
  obtain ⟨-, hr, hst, hodd, htodo, hfill⟩ := h.row hs ha (Actor.phase_of_pc hp)
  have hf : f ≠ .state ∧ f ≠ .generation := by
    have hmem := htodo f (by simp)
    exact ⟨fun he => absurd (he ▸ hmem) (by decide), fun he => absurd (he ▸ hmem) (by decide)⟩
  have hnew : (Phase.filling r todo).Ok (proc u) (s.ghost.written i)
      (Function.update (rowOf s.mem i) f (r.value f)) := by
    refine ⟨hr, ?_, ?_, fun f' hf' => htodo f' (by simp [hf']), fun f' hf' hn => ?_⟩
    · rwa [Function.update_of_ne (Ne.symm hf.1)]
    · rwa [Function.update_of_ne (Ne.symm hf.2)]
    · by_cases he : f' = f
      · simp [he]
      · rw [Function.update_of_ne he]
        exact hfill f' hf' (by simp [he, hn])
  dsimp only [Program.ran, program, Access.exec]
  simp only [Actor.resume, Trace.track, hpc]
  cases todo with
  | nil =>
    exact h.hold hs ha hp (.activate r i) rfl rfl rfl hnew rfl rfl (fun _ _ hr => hr)
      (.inr ⟨hf.2, rfl, .inl hodd⟩)
  | cons f' todo =>
    exact h.hold hs ha hp (.fill r i f' todo) rfl rfl rfl hnew rfl rfl (fun _ _ hr => hr)
      (.inr ⟨hf.2, rfl, .inl hodd⟩)

/-- The owner opens or settles the generation. -/
theorem Inv.turn (h : Inv proc s) (hs : s.world.Sound) (ha : s.world.alive (proc u) = true)
    {i v : Nat} {φ : Phase} (hp : (s.th u).pc.phase = some (i, φ)) (pc : Pc) {φ' : Phase}
    (hp' : pc.phase = some (i, φ')) (hl : pc.loaded = none) (hv : pc.visit = none)
    (hval : v = (s.ghost.ticks i + 1) % 2 ^ 32)
    (hok : φ'.Ok (proc u) (s.ghost.written i) (Function.update (rowOf s.mem i) .generation v)) :
    Inv proc { s with mem := Function.update s.mem (i, .generation) v
                      th := Function.update s.th u ((s.th u).goto pc)
                      ghost := s.ghost.tick i } :=
  h.hold hs ha hp pc hp' hl hv hok rfl rfl (fun _ _ hr => hr) (.inl ⟨rfl, hval, rfl⟩)

omit [DecidableEq ι] in
theorem Inv.loaded_eq (h : Inv proc s) (hs : s.world.Sound) (ha : s.world.alive (proc u) = true)
    {i g : Nat} {φ : Phase} (hp : (s.th u).pc.phase = some (i, φ))
    (hl : (s.th u).pc.loaded = some g) : g = s.ghost.ticks i % 2 ^ 32 ∧ g = rowOf s.mem i .generation := by
  have hg := ((h.apart u i φ hp).resolve_left (hs.not_gone ha)).2 g hl
  exact ⟨by rw [hg, h.gen i], hg⟩

theorem Inv.run_register (h : Inv proc s) (hs : s.world.Sound)
    (ha : s.world.alive (proc u) = true) {a : Access Loc (Nat × Nat)}
    (hreq : (s.th u).request = some a)
    (hpc : (∃ x n, (s.th u).pc = .clock x n) ∨ (∃ r i, (s.th u).pc = .openLoad r i) ∨
      (∃ r i g, (s.th u).pc = .openStore r i g) ∨ (∃ r i, (s.th u).pc = .activate r i) ∨
      (∃ r i, (s.th u).pc = .settleLoad r i) ∨ ∃ r i g, (s.th u).pc = .settleStore r i g) :
    Inv proc ((program ι capacity).ran s u a now) := by
  rcases hpc with ⟨x, n, hpc⟩ | ⟨r, i, hpc⟩ | ⟨r, i, g, hpc⟩ | ⟨r, i, hpc⟩ | ⟨r, i, hpc⟩ | ⟨r, i, g, hpc⟩
  all_goals
    rw [Actor.request, hpc] at hreq
    obtain rfl := Option.some.inj hreq
    dsimp only [Program.ran, program, Access.exec]
    simp only [Actor.resume, Trace.track, hpc]
  · refine h.between (by rw [hpc]; rfl) (Actor.between_claimAt capacity _ ?_ _ _) rfl rfl rfl
      fun _ _ => rfl
    exact h.ident u
  · exact h.reload hs ha (by rw [hpc]; rfl : _ = some (i, .claimed r)) rfl rfl rfl
  · have hp : (s.th u).pc.phase = some (i, .claimed r) := by rw [hpc]; rfl
    obtain ⟨-, hr, hst, heven, -⟩ := h.row hs ha (Actor.phase_of_pc hp)
    obtain ⟨hg, hg'⟩ := h.loaded_eq hs ha hp (by rw [hpc]; rfl)
    have hval : opened g = (s.ghost.ticks i + 1) % 2 ^ 32 := by
      rw [hg]
      exact opened_eq (by rw [← hg, hg']; exact heven)
    refine h.turn hs ha hp (.fill r i .pidStarttime _) rfl rfl rfl hval
      ⟨hr, ?_, ?_, fun f hf => hf, fun f hf hn => absurd hf hn⟩
    · simpa using hst
    · rw [Function.update_self, hval]
      omega
  · have hp : (s.th u).pc.phase = some (i, .filling r []) := by rw [hpc]; rfl
    obtain ⟨-, hr, hst, hodd, -, hfill⟩ := h.row hs ha (Actor.phase_of_pc hp)
    refine h.hold hs ha hp (.settleLoad r i) rfl rfl rfl ?_ rfl rfl
      (fun j r' hr' => ?_) (.inr ⟨by decide, rfl, .inr rfl⟩)
    · refine ⟨by simp, by simpa using hodd, by simp, hr, fun f hf => ?_⟩
      rw [Function.update_of_ne (fun he => absurd (he ▸ hf) (by decide))]
      exact hfill f hf (by simp)
    · by_cases he : j = i
      · subst he
        simp [hr']
      · simpa [Function.update_of_ne he] using hr'
  · exact h.reload hs ha (by rw [hpc]; rfl : _ = some (i, .published r)) rfl rfl rfl
  · have hp : (s.th u).pc.phase = some (i, .published r) := by rw [hpc]; rfl
    obtain ⟨hten, hst, hodd, hrw, hr, hfill⟩ := h.row hs ha (Actor.phase_of_pc hp)
    obtain ⟨hg, hg'⟩ := h.loaded_eq hs ha hp (by rw [hpc]; rfl)
    have hval : settled g = (s.ghost.ticks i + 1) % 2 ^ 32 := by
      rw [hg]
      exact settled_eq (by rw [← hg, hg']; exact hodd)
    refine h.write ha i (h.ident u) (fun r n j hc => by simp [Actor.ret] at hc)
      (fun j hj => rowOf_update_of_ne _ hj _ _) (fun j hj => ?_)
      (fun t ψ ht hψ => h.others hs ha (Actor.phase_of_pc hp) ht hψ)
      (fun j ψ hψ => by simp [Actor.ret, Pc.phase] at hψ)
      (fun j hj => by simp [Trace.tick, Function.update_of_ne hj]) (fun _ _ => rfl)
      (fun _ _ hr => hr) rfl ?_ (.inl (by simp [Trace.tick])) rfl
      (.inl ⟨hten, .registered, ?_, ?_⟩)
    · rw [Actor.phase_of_none (a := Actor.ret _ _) rfl, Actor.phase_of_ne hp hj]
      simp [Actor.ret, hj]
    · simp [Trace.tick, hval]
    · rw [Actor.phase_of_none (a := Actor.ret _ _) rfl]
      simp [Actor.ret]
    · rw [rowOf_update_self]
      refine ⟨by simpa using hst, ?_, r, hrw, hr, fun f hf => ?_⟩
      · rw [Function.update_self, hval]
        have : rowOf s.mem i .generation = s.ghost.ticks i % 2 ^ 32 := h.gen i
        omega
      · rw [Function.update_of_ne (fun he => absurd (he ▸ hf) (by decide))]
        exact hfill f hf

/-- The owner clears the pid, then the start time. -/
theorem Inv.clearPid (h : Inv proc s) (hs : s.world.Sound) (ha : s.world.alive (proc u) = true)
    {i : Nat} (hp : (s.th u).pc.phase = some (i, .clearing)) (pc : Pc)
    (hp' : pc.phase = some (i, .half)) (hl : pc.loaded = none) (hv : pc.visit = none) :
    Inv proc { s with mem := Function.update s.mem (i, .pid) 0
                      th := Function.update s.th u ((s.th u).goto pc) } := by
  obtain ⟨-, hst, hodd⟩ := h.row hs ha (Actor.phase_of_pc hp)
  exact h.hold hs ha hp pc hp' hl hv ⟨by simpa using hst, by simpa using hodd, by simp⟩ rfl rfl
    (fun _ _ hr => hr) (.inr ⟨by decide, rfl, .inl hodd⟩)

theorem Inv.clearStart (h : Inv proc s) (hs : s.world.Sound) (ha : s.world.alive (proc u) = true)
    {i : Nat} (hp : (s.th u).pc.phase = some (i, .half)) (pc : Pc)
    (hp' : pc.phase = some (i, .cleared)) (hl : pc.loaded = none) (hv : pc.visit = none) :
    Inv proc { s with mem := Function.update s.mem (i, .pidStarttime) 0
                      th := Function.update s.th u ((s.th u).goto pc) } := by
  obtain ⟨-, hst, hodd, hpid⟩ := h.row hs ha (Actor.phase_of_pc hp)
  exact h.hold hs ha hp pc hp' hl hv
    ⟨by simpa using hst, by simpa using hodd, by simpa using hpid, by simp⟩ rfl rfl
    (fun _ _ hr => hr) (.inr ⟨by decide, rfl, .inl hodd⟩)

/-- The owner settles a row it has cleared. -/
theorem Inv.settleCleared (h : Inv proc s) (hs : s.world.Sound)
    (ha : s.world.alive (proc u) = true) {i g : Nat}
    (hp : (s.th u).pc.phase = some (i, .cleared)) (hlg : (s.th u).pc.loaded = some g) (pc : Pc)
    (hp' : pc.phase = some (i, .emptied)) (hl : pc.loaded = none) (hv : pc.visit = none) :
    Inv proc { s with mem := Function.update s.mem (i, .generation) (settled g)
                      th := Function.update s.th u ((s.th u).goto pc)
                      ghost := s.ghost.tick i } := by
  obtain ⟨-, hst, hodd, hclear⟩ := h.row hs ha (Actor.phase_of_pc hp)
  obtain ⟨hg, hg'⟩ := h.loaded_eq hs ha hp hlg
  have hval : settled g = (s.ghost.ticks i + 1) % 2 ^ 32 := by
    rw [hg]
    exact settled_eq (by rw [← hg, hg']; exact hodd)
  refine h.turn hs ha hp pc hp' hl hv hval ⟨by simpa using hst, ?_, by simpa [Cleared] using hclear⟩
  rw [Function.update_self, hval]
  have : rowOf s.mem i .generation = s.ghost.ticks i % 2 ^ 32 := h.gen i
  omega

/-- The owner of a cleared row hands it back. -/
theorem Inv.release (h : Inv proc s) (hs : s.world.Sound) (ha : s.world.alive (proc u) = true)
    {i : Nat} (hp : (s.th u).pc.phase = some (i, .emptied)) {a : Actor}
    (hb : (s.th u).Between (proc u) a) :
    s.mem (i, .state) = reclaiming ∧
      Inv proc { s with mem := Function.update s.mem (i, .state) free
                        th := Function.update s.th u a
                        ghost := s.ghost.rent i none } := by
  obtain ⟨hten, hst, heven, hclear⟩ := h.row hs ha (Actor.phase_of_pc hp)
  have hap := (h.apart u i _ hp).resolve_left (hs.not_gone ha)
  refine ⟨hst, h.write ha i (hb.ident.trans (h.ident u)) hb.own
    (fun j hj => rowOf_update_of_ne _ hj _ _) (fun j hj => ?_)
    (fun t ψ ht hψ => h.others hs ha (Actor.phase_of_pc hp) ht hψ)
    (fun j ψ hψ => by simp [hb.phase] at hψ) (fun _ _ => rfl) (fun j hj => ?_)
    (fun _ _ hr => hr) rfl ?_ (.inr ⟨rfl, .inr fun f hf => ?_⟩) hb.visit (.inr ⟨?_, ?_, ?_⟩)⟩
  · rw [Actor.phase_of_none hb.phase, Actor.phase_of_ne hp hj, hb.held]
  · simp [Trace.rent, Function.update_of_ne hj]
  · rw [Function.update_of_ne (by simp)]
    exact h.gen i
  · refine Function.update_of_ne ?_ _ _
    rintro ⟨⟩
    exact absurd hf (by decide)
  · simp [Trace.rent]
  · rw [Actor.phase_of_none hb.phase, hb.held]
    exact if_neg hap.1
  · rw [rowOf_update_self]
    exact ⟨by simp, by simpa using heven, by simpa [Cleared] using hclear⟩

theorem Inv.run_deregister (h : Inv proc s) (hs : s.world.Sound)
    (ha : s.world.alive (proc u) = true) {a : Access Loc (Nat × Nat)}
    (hreq : (s.th u).request = some a)
    (hpc : (∃ i, (s.th u).pc = .deregCas i) ∨ (∃ i, (s.th u).pc = .deregOpenLoad i) ∨
      (∃ i g, (s.th u).pc = .deregOpenStore i g) ∨ (∃ i, (s.th u).pc = .deregPid i) ∨
      (∃ i, (s.th u).pc = .deregStart i) ∨ (∃ i, (s.th u).pc = .deregSettleLoad i) ∨
      (∃ i g, (s.th u).pc = .deregSettleStore i g) ∨ ∃ i, (s.th u).pc = .deregFree i) :
    Inv proc ((program ι capacity).ran s u a now) := by
  rcases hpc with ⟨i, hpc⟩ | ⟨i, hpc⟩ | ⟨i, g, hpc⟩ | ⟨i, hpc⟩ | ⟨i, hpc⟩ | ⟨i, hpc⟩ | ⟨i, g, hpc⟩ |
    ⟨i, hpc⟩
  all_goals
    rw [Actor.request, hpc] at hreq
    obtain rfl := Option.some.inj hreq
    dsimp only [Program.ran, program, Access.exec]
  · have hp : (s.th u).pc.phase = some (i, .registered) := by rw [hpc]; rfl
    obtain ⟨hten, hst, heven, hcar⟩ := h.row hs ha (Actor.phase_of_pc hp)
    rw [if_pos (show s.mem (i, .state) = active from hst)]
    simp only [Actor.resume, Trace.track, hpc, ↓reduceIte]
    refine h.hold hs ha hp (.deregOpenLoad i) rfl rfl rfl ⟨by simp, by simpa using heven, ?_⟩ rfl rfl
      (fun _ _ hr => hr) (.inr ⟨by decide, rfl, .inr rfl⟩)
    obtain ⟨r, hr, hrp, hv⟩ := hcar
    refine ⟨r, hr, hrp, fun f hf => ?_⟩
    rw [Function.update_of_ne (fun he => absurd (he ▸ hf) (by decide))]
    exact hv f hf
  · simp only [Actor.resume, Trace.track, hpc]
    exact h.reload hs ha (by rw [hpc]; rfl : _ = some (i, .retiring)) rfl rfl rfl
  · have hp : (s.th u).pc.phase = some (i, .retiring) := by rw [hpc]; rfl
    obtain ⟨-, hst, heven, -⟩ := h.row hs ha (Actor.phase_of_pc hp)
    obtain ⟨hg, hg'⟩ := h.loaded_eq hs ha hp (by rw [hpc]; rfl)
    have hval : opened g = (s.ghost.ticks i + 1) % 2 ^ 32 := by
      rw [hg]
      exact opened_eq (by rw [← hg, hg']; exact heven)
    simp only [Actor.resume, Trace.track, hpc]
    refine h.turn hs ha hp (.deregPid i) rfl rfl rfl hval ⟨by simpa using hst, ?_⟩
    rw [Function.update_self, hval]
    omega
  · simp only [Actor.resume, Trace.track, hpc]
    exact h.clearPid hs ha (by rw [hpc]; rfl) (.deregStart i) rfl rfl rfl
  · simp only [Actor.resume, Trace.track, hpc]
    exact h.clearStart hs ha (by rw [hpc]; rfl) (.deregSettleLoad i) rfl rfl rfl
  · simp only [Actor.resume, Trace.track, hpc]
    exact h.reload hs ha (by rw [hpc]; rfl : _ = some (i, .cleared)) rfl rfl rfl
  · simp only [Actor.resume, Trace.track, hpc]
    exact h.settleCleared hs ha (by rw [hpc]; rfl) (by rw [hpc]; rfl) (.deregFree i) rfl rfl rfl
  · obtain ⟨hst, hinv⟩ := h.release hs ha (by rw [hpc]; rfl)
      ((s.th u).between_ret (proc u) .deregistered)
    rw [if_pos hst]
    simp only [Actor.resume, Trace.track, hpc, ↓reduceIte]
    exact hinv

/-! ## Visits -/

/-- A thread goes on looking at the row it visits. -/
theorem Inv.look (h : Inv proc s) {i g : Nat} {pc : Pc} (hp : (s.th u).pc.phase = none)
    (hv : (s.th u).pc.visit = some (i, g)) (hp' : pc.phase = none)
    (hv' : pc.visit = some (i, g))
    (hsees : g % 2 = 0 → g = s.mem (i, .generation) →
      (s.th u).pc.Sees s.world.gone (rowOf s.mem i) → pc.Sees s.world.gone (rowOf s.mem i)) :
    Inv proc { s with th := Function.update s.th u ((s.th u).goto pc) } := by
  refine h.quiet (h.ident u) (fun r n j hc => ?_) (Actor.phase_congr (hp'.trans hp.symm) rfl)
    (fun j φ hφ => ?_) rfl rfl rfl (fun _ _ => rfl) (fun j g' hg' => ?_)
  · have hnone : ((s.th u).goto pc).pc.visit = none := by rw [hc]; rfl
    simp [Actor.goto, hv'] at hnone
  · simp [Actor.goto, hp'] at hφ
  · simp only [Actor.goto] at hg' ⊢
    rw [hv'] at hg'
    cases hg'
    obtain ⟨hle, hg, heven, hs⟩ := h.visit u i g hv
    refine ⟨hle, hg, heven, fun hfresh => ⟨hsees heven ?_ (hs hfresh).1, (hs hfresh).2⟩⟩
    rw [h.gen i, hfresh, hg]

/-- A thread starts to look at a row whose generation is settled. -/
theorem Inv.arrive (h : Inv proc s) {i : Nat} {pc : Pc} (hp : (s.th u).pc.phase = none)
    (hp' : pc.phase = none) (hv' : pc.visit = some (i, s.mem (i, .generation)))
    (heven : s.mem (i, .generation) % 2 = 0) (hsees : pc.Sees s.world.gone (rowOf s.mem i)) :
    Inv proc { s with th := Function.update s.th u ((s.th u).goto pc)
                      ghost := s.ghost.look s.mem u i } := by
  refine h.quiet (h.ident u) (fun r n j hc => ?_) (Actor.phase_congr (hp'.trans hp.symm) rfl)
    (fun j φ hφ => ?_) rfl rfl rfl (fun v hv => by simp [Trace.look, Function.update_of_ne hv])
    (fun j g' hg' => ?_)
  · have hnone : ((s.th u).goto pc).pc.visit = none := by rw [hc]; rfl
    simp [Actor.goto, hv'] at hnone
  · simp [Actor.goto, hp'] at hφ
  · simp only [Actor.goto] at hg' ⊢
    rw [hv'] at hg'
    cases hg'
    simp only [Trace.look, Function.update_self]
    exact ⟨le_refl _, h.gen i, heven, fun _ => ⟨hsees, trivial⟩⟩

omit [DecidableEq ι] in
/-- A row with a settled generation that names somebody is registered by its tenant. -/
theorem Inv.named (h : Inv proc s) {i : Nat} (hg : s.mem (i, .generation) % 2 = 0)
    (hp : s.mem (i, .pid) ≠ 0) : ∃ t, s.ghost.tenant i = some t ∧ s.world.Known (proc t) ∧
      Carries (proc t) (s.ghost.written i) (rowOf s.mem i) ∧
      (s.mem (i, .state) = active ∨ s.mem (i, .state) = reclaiming) := by
  cases ht : s.ghost.tenant i with
  | none => exact absurd (h.vacant i ht).2.2.1 hp
  | some t =>
    obtain ⟨hk, φ, -, hok⟩ := h.tenant i t ht
    obtain ⟨hc, hst⟩ := Phase.carries hok hg hp
    exact ⟨t, rfl, hk, hc, hst⟩

/-- `owner_is_dead` never calls a process dead that runs. -/
theorem not_alive_of_dead {procs : Nat → Option Nat} {p : Nat × Nat}
    (h : ownerIsDead procs p.1 p.2 = true) (gone : List (Nat × Nat)) :
    (World.mk procs gone).alive p = false := by
  simp only [World.alive, decide_eq_false_iff_not]
  intro hp
  unfold ownerIsDead at h
  rw [hp] at h
  simp at h

/-- The sweeper takes a row from a dead registrant. -/
theorem Inv.acquire (h : Inv proc s) (ha : s.world.alive (proc u) = true) {k : After}
    {freed i g pid start : Nat} (hpc : (s.th u).pc = .sweepAcquire k freed i g pid start)
    (hm : s.mem (i, .generation) = g) (hcalm : s.ghost.ticks i < (s.ghost.seen u).ticks + 2 ^ 32)
    (hs : s.world.Sound) :
    Inv proc { s with mem := Function.update s.mem (i, .generation) (u32 (g + 1))
                      th := Function.update s.th u ((s.th u).goto (.sweepReclaim k freed i))
                      ghost := (s.ghost.tick i).rent i (some u) } := by
  obtain ⟨hle, hg, heven, hsees⟩ := h.visit u i g (by rw [hpc]; rfl)
  have hgen := h.gen i
  -- fewer than 2^32 changes, and the same word: no change at all
  have hfresh : s.ghost.ticks i = (s.ghost.seen u).ticks := by omega
  have hsee := (hsees hfresh).1
  rw [hpc] at hsee
  obtain ⟨hpid, hstart, hne, hgone⟩ := hsee
  obtain ⟨t, ht, hk, hcar, hst⟩ := h.named (i := i) (by rw [hm]; exact heven)
    (by rw [show s.mem (i, .pid) = pid from hpid]; exact hne)
  have htgone : proc t ∈ s.world.gone := by
    rw [← hcar.ident, hpid, hstart]
    exact hgone
  have hnone : (s.th u).pc.phase = none := by rw [hpc]; rfl
  have hothers : ∀ v φ, (s.th v).phase i = some φ → proc v ∈ s.world.gone := by
    intro v φ hφ
    rcases h.owner v i φ hφ with hv | hv
    · exact hv
    · rw [ht] at hv
      exact Option.some.inj hv ▸ htgone
  have hval : u32 (g + 1) = (s.ghost.ticks i + 1) % 2 ^ 32 := by
    unfold u32
    omega
  refine h.write ha i (h.ident u) (fun r n j hc => by simp [Actor.goto] at hc)
    (fun j hj => rowOf_update_of_ne _ hj _ _) (fun j hj => ?_) (fun v φ _ hφ => hothers v φ hφ)
    (fun j φ hφ => ?_) (fun j hj => by simp [Trace.rent, Trace.tick, Function.update_of_ne hj])
    (fun j hj => by simp [Trace.rent, Trace.tick, Function.update_of_ne hj]) (fun _ _ hr => hr) rfl ?_
    (.inl (by simp [Trace.rent, Trace.tick])) rfl
    (.inl ⟨by simp [Trace.rent], .acquired, Actor.phase_of_pc rfl, ?_⟩)
  · rw [Actor.phase_of_ne (a := (s.th u).goto _) rfl hj, Actor.phase_of_none hnone]
    rfl
  · simp only [Actor.goto, Pc.phase, Option.some.injEq, Prod.mk.injEq] at hφ
    obtain ⟨rfl, -⟩ := hφ
    refine ⟨fun hheld => ?_, fun g hg => by simp [Actor.goto, Pc.loaded] at hg⟩
    refine hs.not_gone ha (hothers u .registered ?_)
    rw [Actor.phase_of_none hnone]
    exact if_pos hheld
  · simp [Trace.rent, Trace.tick, hval]
  · rw [rowOf_update_self]
    refine ⟨by simpa [rowOf] using hst, ?_⟩
    rw [Function.update_self, hval]
    omega

/-- The sweep before it has acquired a row. -/
theorem Inv.run_inspect (h : Inv proc s) {a : Access Loc (Nat × Nat)}
    (hreq : (s.th u).request = some a)
    (hpc : (∃ k n i, (s.th u).pc = .sweepState k n i) ∨ (∃ k n i, (s.th u).pc = .sweepGen k n i) ∨
      (∃ k n i g, (s.th u).pc = .sweepPid k n i g) ∨
      (∃ k n i g p, (s.th u).pc = .sweepStart k n i g p) ∨
      (∃ k n i g p st, (s.th u).pc = .sweepGen2 k n i g p st) ∨
      ∃ k n i g p st, (s.th u).pc = .sweepProbe k n i g p st) :
    Inv proc ((program ι capacity).ran s u a now) := by
  have hnext := (s.th u).between_sweepAt (proc u) capacity
  rcases hpc with ⟨k, n, i, hpc⟩ | ⟨k, n, i, hpc⟩ | ⟨k, n, i, g, hpc⟩ | ⟨k, n, i, g, p, hpc⟩ |
    ⟨k, n, i, g, p, st, hpc⟩ | ⟨k, n, i, g, p, st, hpc⟩
  all_goals
    have hp : (s.th u).pc.phase = none := by rw [hpc]; rfl
    rw [Actor.request, hpc] at hreq
    obtain rfl := Option.some.inj hreq
    dsimp only [Program.ran, program, Access.exec]
    simp only [Actor.resume, Trace.track, hpc]
  · split_ifs
    · exact h.between hp (hnext k n (i + 1)) rfl rfl rfl fun _ _ => rfl
    · exact h.between hp ((s.th u).between_goto _ rfl rfl (fun _ _ _ => by simp)) rfl rfl rfl
        fun _ _ => rfl
  · split_ifs with hodd
    · exact h.between hp (hnext k n (i + 1)) rfl rfl rfl
        fun v hv => by simp [Trace.look, Function.update_of_ne hv]
    · exact h.arrive hp rfl rfl (by omega) trivial
  · exact h.look hp (by rw [hpc]; rfl) rfl rfl fun _ _ _ => rfl
  · refine h.look hp (by rw [hpc]; rfl) rfl rfl fun _ _ hsees => ?_
    rw [hpc] at hsees
    exact ⟨hsees, rfl⟩
  · split_ifs with hg hpid
    · exact h.between hp (hnext k n (i + 1)) rfl rfl rfl fun _ _ => rfl
    · exact h.between hp (hnext k n (i + 1)) rfl rfl rfl fun _ _ => rfl
    · refine h.look hp (by rw [hpc]; rfl) rfl rfl fun _ _ hsees => ?_
      rw [hpc] at hsees
      exact ⟨hsees.1, hsees.2, hpid⟩
  · split_ifs with hdead
    · refine h.look hp (by rw [hpc]; rfl) rfl rfl fun heven hgen hsees => ?_
      rw [hpc] at hsees
      obtain ⟨hpid, hst, hne⟩ := hsees
      -- whoever registered the row has run, and does not run now
      obtain ⟨t, -, hk, hcar, -⟩ := h.named (i := i) (hgen ▸ heven) (by
        rw [show s.mem (i, .pid) = p from hpid]
        exact hne)
      have hid : proc t = (p, st) := by rw [← hcar.ident, hpid, hst]
      rw [hid] at hk
      exact ⟨hpid, hst, hne, hk.gone (not_alive_of_dead (p := (p, st)) hdead s.world.gone)⟩
    · exact h.between hp (hnext k n (i + 1)) rfl rfl rfl fun _ _ => rfl

/-- The sweep that has made the generation odd. -/
theorem Inv.run_reclaim (h : Inv proc s) (hs : s.world.Sound)
    (ha : s.world.alive (proc u) = true) {a : Access Loc (Nat × Nat)}
    (hreq : (s.th u).request = some a)
    (hpc : (∃ k n i, (s.th u).pc = .sweepReclaim k n i) ∨
      (∃ k n i, (s.th u).pc = .sweepClearPid k n i) ∨
      (∃ k n i, (s.th u).pc = .sweepClearStart k n i) ∨
      (∃ k n i, (s.th u).pc = .sweepSettleLoad k n i) ∨
      (∃ k n i g, (s.th u).pc = .sweepSettleStore k n i g) ∨
      ∃ k n i, (s.th u).pc = .sweepFree k n i) :
    Inv proc ((program ι capacity).ran s u a now) := by
  rcases hpc with ⟨k, n, i, hpc⟩ | ⟨k, n, i, hpc⟩ | ⟨k, n, i, hpc⟩ | ⟨k, n, i, hpc⟩ |
    ⟨k, n, i, g, hpc⟩ | ⟨k, n, i, hpc⟩
  all_goals
    rw [Actor.request, hpc] at hreq
    obtain rfl := Option.some.inj hreq
    dsimp only [Program.ran, program, Access.exec]
  · have hp : (s.th u).pc.phase = some (i, .acquired) := by rw [hpc]; rfl
    obtain ⟨-, -, hodd⟩ := h.row hs ha (Actor.phase_of_pc hp)
    simp only [Actor.resume, Trace.track, hpc]
    exact h.hold hs ha hp (.sweepClearPid k n i) rfl rfl rfl ⟨by simp, by simpa using hodd⟩ rfl rfl
      (fun _ _ hr => hr) (.inr ⟨by decide, rfl, .inr rfl⟩)
  · simp only [Actor.resume, Trace.track, hpc]
    exact h.clearPid hs ha (by rw [hpc]; rfl) (.sweepClearStart k n i) rfl rfl rfl
  · simp only [Actor.resume, Trace.track, hpc]
    exact h.clearStart hs ha (by rw [hpc]; rfl) (.sweepSettleLoad k n i) rfl rfl rfl
  · simp only [Actor.resume, Trace.track, hpc]
    exact h.reload hs ha (by rw [hpc]; rfl : _ = some (i, .cleared)) rfl rfl rfl
  · simp only [Actor.resume, Trace.track, hpc]
    exact h.settleCleared hs ha (by rw [hpc]; rfl) (by rw [hpc]; rfl) (.sweepFree k n i) rfl rfl rfl
  · obtain ⟨hst, hinv⟩ := h.release hs ha (by rw [hpc]; rfl)
      ((s.th u).between_sweepAt (proc u) capacity k (n + 1) (i + 1))
    rw [if_pos hst]
    simp only [Actor.resume, Trace.track, hpc, ↓reduceIte]
    exact hinv

/-- A snapshot only looks. -/
theorem Inv.run_snapshot (h : Inv proc s) {a : Access Loc (Nat × Nat)}
    (hreq : (s.th u).request = some a)
    (hpc : (∃ o i, (s.th u).pc = .snapState o i) ∨ (∃ o i, (s.th u).pc = .snapGen o i) ∨
      (∃ o i g v f todo, (s.th u).pc = .snapField o i g v f todo) ∨
      (∃ o i g v, (s.th u).pc = .snapGen2 o i g v) ∨
      ∃ o i g g' v, (s.th u).pc = .snapState2 o i g g' v) :
    Inv proc ((program ι capacity).ran s u a now) := by
  have hnext := (s.th u).between_snapAt (proc u) capacity
  rcases hpc with ⟨o, i, hpc⟩ | ⟨o, i, hpc⟩ | ⟨o, i, g, v, f, todo, hpc⟩ | ⟨o, i, g, v, hpc⟩ |
    ⟨o, i, g, g', v, hpc⟩
  all_goals
    have hp : (s.th u).pc.phase = none := by rw [hpc]; rfl
    rw [Actor.request, hpc] at hreq
    obtain rfl := Option.some.inj hreq
    dsimp only [Program.ran, program, Access.exec]
    simp only [Actor.resume, Trace.track, hpc]
  · split_ifs
    · exact h.between hp (hnext o (i + 1)) rfl rfl rfl fun _ _ => rfl
    · exact h.between hp ((s.th u).between_goto _ rfl rfl (fun _ _ _ => by simp)) rfl rfl rfl
        fun _ _ => rfl
  · split_ifs with hodd
    · exact h.between hp (hnext o (i + 1)) rfl rfl rfl
        fun v hv => by simp [Trace.look, Function.update_of_ne hv]
    · exact h.arrive hp rfl rfl (by omega) fun f hf hn => absurd hf hn
  · have hread : (s.th u).pc.Sees s.world.gone (rowOf s.mem i) → ∀ f' ∈ loadOrder, f' ∉ todo →
        Function.update v f (s.mem (i, f)) f' = rowOf s.mem i f' := by
      intro hsees f' hf' hn
      rw [hpc] at hsees
      by_cases he : f' = f
      · simp [he, rowOf]
      · rw [Function.update_of_ne he]
        exact hsees f' hf' (by simp [he, hn])
    cases todo with
    | nil => exact h.look hp (by rw [hpc]; rfl) rfl rfl fun _ _ hsees f' hf' => hread hsees f' hf' (by simp)
    | cons f₁ todo => exact h.look hp (by rw [hpc]; rfl) rfl rfl fun _ _ hsees => hread hsees
  · by_cases hg : s.mem (i, .generation) = g
    · refine h.look hp (by rw [hpc]; rfl) rfl (by simp [Pc.visit, hg]) fun _ _ hsees => ?_
      rw [hpc] at hsees
      exact hsees
    · exact h.between hp ((s.th u).between_goto _ rfl (by simp [Pc.visit, hg]) (fun _ _ _ => by simp)) rfl rfl
        rfl fun _ _ => rfl
  · split_ifs
    · exact h.between hp (hnext _ (i + 1)) rfl rfl rfl fun _ _ => rfl
    · exact h.between hp (hnext _ (i + 1)) rfl rfl rfl fun _ _ => rfl

/-- At the acquisition of a row, the generation has changed fewer than `n` times since the visit of the
row loaded it. -/
def calm (n : Nat) (s : Shared ι Loc Actor (Trace ι)) : Action ι Call → Bool
  | .run t _ =>
    match (s.th t).pc with
    | .sweepAcquire _ _ i _ _ _ => decide (s.ghost.ticks i < (s.ghost.seen t).ticks + n)
    | _ => true
  | _ => true

theorem Inv.run (h : Inv proc s) (hs : s.world.Sound) (ha : s.world.alive (proc u) = true)
    {a : Access Loc (Nat × Nat)} (hreq : (s.th u).request = some a)
    (hcalm : calm (2 ^ 32) s (.run u now) = true) : Inv proc ((program ι capacity).ran s u a now) := by
  cases hpc : (s.th u).pc
  case idle => simp [Actor.request, hpc] at hreq
  case claim r n i =>
    rw [Actor.request, hpc] at hreq
    obtain rfl := Option.some.inj hreq
    exact h.run_claim hs ha hpc
  case fill r i f todo =>
    rw [Actor.request, hpc] at hreq
    obtain rfl := Option.some.inj hreq
    exact h.run_fill hs ha hpc
  case sweepAcquire k n i g p st =>
    rw [Actor.request, hpc] at hreq
    obtain rfl := Option.some.inj hreq
    dsimp only [Program.ran, program, Access.exec]
    split_ifs with hm
    · simp only [Actor.resume, Trace.track, hpc, ↓reduceIte]
      exact h.acquire ha hpc hm (by simpa [calm, hpc] using hcalm) hs
    · simp only [Actor.resume, Trace.track, hpc, Bool.false_eq_true, ↓reduceIte]
      exact h.between (by rw [hpc]; rfl) ((s.th u).between_sweepAt (proc u) capacity k n (i + 1)) rfl rfl rfl
        fun _ _ => rfl
  case clock | openLoad | openStore | activate | settleLoad | settleStore =>
    exact h.run_register hs ha hreq (by simp [hpc])
  case deregCas | deregOpenLoad | deregOpenStore | deregPid | deregStart | deregSettleLoad |
      deregSettleStore | deregFree => exact h.run_deregister hs ha hreq (by simp [hpc])
  case sweepState | sweepGen | sweepPid | sweepStart | sweepGen2 | sweepProbe =>
    exact h.run_inspect hreq (by simp [hpc])
  case sweepReclaim | sweepClearPid | sweepClearStart | sweepSettleLoad | sweepSettleStore | sweepFree =>
    exact h.run_reclaim hs ha hreq (by simp [hpc])
  all_goals exact h.run_snapshot hreq (by simp [hpc])

/-- A call. -/
theorem Inv.call (h : Inv proc s) {c : Call} {a : Actor}
    (hc : (s.th u).call capacity c = some a) :
    Inv proc { s with th := Function.update s.th u a } := by
  unfold Actor.call at hc
  split at hc
  case h_2 => simp at hc
  case h_1 hpc =>
    have hp : (s.th u).pc.phase = none := by rw [hpc]; rfl
    split at hc
    · obtain rfl := Option.some.inj hc
      exact h.between hp (a := { (s.th u) with result := _, pc := .clock _ _ })
        ⟨rfl, rfl, rfl, rfl, fun _ _ _ hc => by simp at hc⟩ rfl rfl rfl fun _ _ => rfl
    · rename_i i
      split at hc
      · rename_i hi
        obtain rfl := Option.some.inj hc
        refine h.quiet (h.ident u) (fun r n j hc => by simp at hc) (fun j => ?_)
          (fun j φ hφ => .inr ?_) rfl rfl rfl (fun _ _ => rfl)
          (fun j g hv => by simp [Pc.visit] at hv)
        · rw [Actor.phase_of_none hp]
          by_cases he : j = i
          · rw [he, if_pos hi.1]
            exact Actor.phase_of_pc rfl
          · rw [Actor.phase_of_ne (a := { (s.th u) with held := _, result := _, pc := .deregCas i }) rfl he]
            simp [he]
        · simp only [Pc.phase, Option.some.injEq, Prod.mk.injEq] at hφ
          obtain ⟨rfl, -⟩ := hφ
          exact ⟨by simp, fun g hg => by simp [Pc.loaded] at hg⟩
      · simp at hc
    · obtain rfl := Option.some.inj hc
      have hb := Actor.between_sweepAt (proc u) capacity { (s.th u) with result := .pending } .ret 0 0
      exact h.between hp ⟨hb.ident, hb.held, hb.phase, hb.visit, hb.own⟩ rfl rfl rfl fun _ _ => rfl
    · obtain rfl := Option.some.inj hc
      have hb := Actor.between_snapAt (proc u) capacity { (s.th u) with result := .pending } [] 0
      exact h.between hp ⟨hb.ident, hb.held, hb.phase, hb.visit, hb.own⟩ rfl rfl rfl fun _ _ => rfl

omit [DecidableEq ι] in
theorem Pc.Sees.gone {pc : Pc} {gone gone' : List (Nat × Nat)} {v : Field → Nat}
    (h : pc.Sees gone v) (hle : ∀ p ∈ gone, p ∈ gone') : pc.Sees gone' v := by
  cases pc <;> simp only [Pc.Sees] at h ⊢
  case sweepAcquire => exact ⟨h.1, h.2.1, h.2.2.1, hle _ h.2.2.2⟩
  all_goals exact h

omit [DecidableEq ι] in
/-- Processes exit and start. -/
theorem Inv.move (h : Inv proc s) {w : World} (hle : s.world.Le w) :
    Inv proc { s with world := w } where
  ident := h.ident
  own := h.own
  gen := h.gen
  vacant := h.vacant
  tenant i t ht := by
    obtain ⟨hk, hrest⟩ := h.tenant i t ht
    exact ⟨hk.le hle, hrest⟩
  owner t i φ hφ := (h.owner t i φ hφ).imp (hle.gone _) id
  apart t i φ hφ := (h.apart t i φ hφ).imp (hle.gone _) id
  visit t i g hv := by
    obtain ⟨h1, h2, h3, h4⟩ := h.visit t i g hv
    exact ⟨h1, h2, h3, fun hf => ⟨(h4 hf).1.gone hle.gone, (h4 hf).2⟩⟩

/-- In every run with fewer than `2^32` changes of a generation during a visit, rows are as their owners
think. -/
theorem inv_reach (h : ((program ι capacity).machine proc (Init proc)).Reach
    (fun s l _ => calm (2 ^ 32) s l = true) s) : Inv proc s ∧ s.world.Sound :=
  Program.invariant (I := Inv proc) (fun _ h0 => ⟨inv_init h0, h0.world⟩)
    (fun _ _ _ _ hI hs ha hreq hok => hI.run hs ha hreq hok) (fun _ _ _ _ hI _ _ hc => hI.call hc)
    (fun _ _ hI _ hle _ => hI.move hle) h

end System

end Kickmsg.Registry
