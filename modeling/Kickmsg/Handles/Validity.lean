import Kickmsg.Handles.Places
import Mathlib.Logic.Relation

/-!
# Handle validity

A valid handle is the one handle of its publisher's reservation, and the slot it points to is the one
pending there. Every call keeps this (`Sound.next`), and leaves the state as it is when the handle it is
on is stale.
-/

namespace Kickmsg.Handles.State

open Lib

variable {ρ : Type} [DecidableEq ρ] {s : State ρ} {poolSize : ρ → Nat} {p q : Nat} {r : ρ} {x n : Nat}

/-- The handle at `h` is valid, and of publisher `p`. -/
def ValidAt (s : State ρ) (h p : Nat) : Prop :=
  ∃ a u, s.slots h = some a ∧ a.publisher = some p ∧ s.pubs p = some u ∧ a.published = false ∧
    u.reservation = a.id

/-- A reservation has one handle, and a valid handle has the reservation of its publisher. -/
structure Handled (size : ρ → Nat) (s : State ρ) : Prop where
  known : ∀ h a p, s.slots h = some a → a.publisher = some p →
    ∃ u, s.pubs p = some u ∧ a.id ≤ u.reservation
  live : ∀ h a p u, s.slots h = some a → a.publisher = some p → s.pubs p = some u →
    a.published = false → u.reservation = a.id →
    ∃ x, u.pending = some x ∧ a.data = some (u.region, x) ∧ a.maxSize = size u.region
  one : ∀ h h' p, s.ValidAt h p → s.ValidAt h' p → h = h'
  owned : ∀ p u x, s.pubs p = some u → u.pending = some x → ∃ h, s.ValidAt h p

omit [DecidableEq ρ] in
theorem validAt_iff {h : Nat} {a : AllocatedSlot ρ} (ha : s.slots h = some a) :
    s.valid a = true ↔ ∃ p, s.ValidAt h p := by
  unfold valid ValidAt
  rw [ha]
  cases hp : a.publisher with
  | none => simp [hp]
  | some p =>
    cases hu : s.pubs p with
    | none => simp [hp, hu]
    | some u => simp [hp, hu]

variable {size : ρ → Nat} {h k : Nat} {a b : AllocatedSlot ρ}

omit [DecidableEq ρ] in
theorem Handled.congr {s' : State ρ} (hs : Handled size s) (hpubs : s'.pubs = s.pubs)
    (hslots : s'.slots = s.slots) : Handled size s' := by
  have hv : ∀ h p, s'.ValidAt h p ↔ s.ValidAt h p := by
    intro h p
    unfold ValidAt
    rw [hpubs, hslots]
  refine ⟨?_, ?_, fun h h' p h1 h2 => hs.one h h' p ((hv ..).mp h1) ((hv ..).mp h2), ?_⟩
  · rw [hpubs, hslots]
    exact hs.known
  · rw [hpubs, hslots]
    exact hs.live
  · rw [hpubs]
    simp only [hv]
    exact hs.owned

omit [DecidableEq ρ] in
/-- A publisher goes past the ids of its handles, without a reservation. -/
theorem Handled.renew (hs : Handled size s) {u : Publisher ρ} (hu : u.pending = none)
    (hid : ∀ h a, s.slots h = some a → a.publisher = some p → a.id < u.reservation) :
    Handled size (s.setPublisher p (some u)) := by
  have hv : ∀ h q, (s.setPublisher p (some u)).ValidAt h q → q ≠ p ∧ s.ValidAt h q := by
    rintro h q ⟨a, v, ha, hap, hv, hpub, he⟩
    by_cases hq : q = p
    · subst hq
      simp only [setPublisher_pubs, Function.update_self, Option.some.injEq] at hv
      have := hid h a ha hap
      rw [hv, he] at this
      exact absurd this (Nat.lt_irrefl _)
    · exact ⟨hq, a, v, ha, hap, by simpa [hq] using hv, hpub, he⟩
  refine ⟨fun h a q ha hap => ?_, fun h a q v ha hap hv' hpub he => ?_,
    fun h h' q h1 h2 => hs.one h h' q (hv h q h1).2 (hv h' q h2).2, fun q v x hv' hx => ?_⟩
  · by_cases hq : q = p
    · subst hq
      exact ⟨u, by simp, Nat.le_of_lt (hid h a ha hap)⟩
    · simpa [hq] using hs.known h a q ha hap
  · have hval := hv h q ⟨a, v, ha, hap, hv', hpub, he⟩
    exact hs.live h a q v ha hap (by simpa [hval.1] using hv') hpub he
  · by_cases hq : q = p
    · subst hq
      simp only [setPublisher_pubs, Function.update_self, Option.some.injEq] at hv'
      rw [← hv', hu] at hx
      cases hx
    · obtain ⟨h, a, w, hrest⟩ := hs.owned q v x (by simpa [hq] using hv') hx
      exact ⟨h, a, w, by simpa [hq] using hrest⟩

omit [DecidableEq ρ] in
/-- A publisher that no handle points to is destroyed. -/
theorem Handled.vanish (hs : Handled size s)
    (hno : ∀ h a, s.slots h = some a → a.publisher ≠ some p) : Handled size (s.setPublisher p none) := by
  have hv : ∀ h q, (s.setPublisher p none).ValidAt h q → s.ValidAt h q := by
    rintro h q ⟨a, v, ha, hap, hv, hrest⟩
    have hq : q ≠ p := fun hq => hno h a ha (hq ▸ hap)
    exact ⟨a, v, ha, hap, by simpa [hq] using hv, hrest⟩
  refine ⟨fun h a q ha hap => ?_, fun h a q v ha hap hv' hpub he => ?_,
    fun h h' q h1 h2 => hs.one h h' q (hv h q h1) (hv h' q h2), fun q v x hv' hx => ?_⟩
  · have hq : q ≠ p := fun hq => hno h a ha (hq ▸ hap)
    simpa [hq] using hs.known h a q ha hap
  · have hq : q ≠ p := fun hq => hno h a ha (hq ▸ hap)
    exact hs.live h a q v ha hap (by simpa [hq] using hv') hpub he
  · by_cases hq : q = p
    · simp [hq] at hv'
    · obtain ⟨h, a, w, hrest⟩ := hs.owned q v x (by simpa [hq] using hv') hx
      exact ⟨h, a, w, by simpa [hq] using hrest⟩

omit [DecidableEq ρ] in
/-- A reservation is made. -/
theorem Handled.issue (hs : Handled size s) {n' : Nat} (hh : s.slots h = none)
    (hid : ∀ h a, s.slots h = some a → a.publisher = some p → a.id < n') :
    Handled size ((s.setPublisher p (some ⟨r, some x, n'⟩)).setSlot h
      (some ⟨some p, some (r, x), size r, n', false⟩)) := by
  set s' := (s.setPublisher p (some ⟨r, some x, n'⟩)).setSlot h
    (some ⟨some p, some (r, x), size r, n', false⟩) with hs'
  have hslot : ∀ h' a, s'.slots h' = some a →
      (h' = h ∧ a = ⟨some p, some (r, x), size r, n', false⟩) ∨ (h' ≠ h ∧ s.slots h' = some a) := by
    intro h' a ha
    by_cases he : h' = h
    · subst he
      simp only [hs', setSlot_slots, Function.update_self, Option.some.injEq] at ha
      exact .inl ⟨rfl, ha.symm⟩
    · exact .inr ⟨he, by simpa [hs', he] using ha⟩
  have hpub : ∀ q v, s'.pubs q = some v → (q = p ∧ v = ⟨r, some x, n'⟩) ∨ (q ≠ p ∧ s.pubs q = some v) := by
    intro q v hv
    by_cases hq : q = p
    · subst hq
      simp only [hs', setSlot_pubs, setPublisher_pubs, Function.update_self, Option.some.injEq] at hv
      exact .inl ⟨rfl, hv.symm⟩
    · exact .inr ⟨hq, by simpa [hs', hq] using hv⟩
  have hv : ∀ h' q, s'.ValidAt h' q → (h' = h ∧ q = p) ∨ (h' ≠ h ∧ q ≠ p ∧ s.ValidAt h' q) := by
    rintro h' q ⟨a, v, ha, hap, hvq, hnp, he⟩
    rcases hslot h' a ha with ⟨rfl, rfl⟩ | ⟨hne, ha₀⟩
    · exact .inl ⟨rfl, (Option.some.inj hap).symm⟩
    · rcases hpub q v hvq with ⟨rfl, rfl⟩ | ⟨hq, hvq₀⟩
      · exact absurd he (Nat.ne_of_gt (hid h' a ha₀ hap))
      · exact .inr ⟨hne, hq, a, v, ha₀, hap, hvq₀, hnp, he⟩
  refine ⟨fun h' a q ha hap => ?_, fun h' a q v ha hap hvq hnp he => ?_, fun h' h'' q h1 h2 => ?_,
    fun q v y hvq hy => ?_⟩
  · rcases hslot h' a ha with ⟨rfl, rfl⟩ | ⟨hne, ha₀⟩
    · obtain rfl := Option.some.inj hap
      exact ⟨_, by simp [hs']; rfl, le_refl _⟩
    · by_cases hq : q = p
      · subst hq
        exact ⟨_, by simp [hs']; rfl, Nat.le_of_lt (hid h' a ha₀ hap)⟩
      · simpa [hs', hq] using hs.known h' a q ha₀ hap
  · rcases hslot h' a ha with ⟨rfl, rfl⟩ | ⟨hne, ha₀⟩
    · obtain rfl := Option.some.inj hap
      rcases hpub _ v hvq with ⟨-, rfl⟩ | ⟨hq, -⟩
      · exact ⟨x, rfl, rfl, rfl⟩
      · exact absurd rfl hq
    · rcases hpub q v hvq with ⟨rfl, rfl⟩ | ⟨hq, hvq₀⟩
      · exact absurd he (Nat.ne_of_gt (hid h' a ha₀ hap))
      · exact hs.live h' a q v ha₀ hap hvq₀ hnp he
  · rcases hv h' q h1 with ⟨e, hq⟩ | ⟨-, hq, k1⟩ <;> rcases hv h'' q h2 with ⟨e', hq'⟩ | ⟨-, hq', k2⟩
    · exact e.trans e'.symm
    · exact absurd hq hq'
    · exact absurd hq' hq
    · exact hs.one h' h'' q k1 k2
  · rcases hpub q v hvq with ⟨rfl, rfl⟩ | ⟨hq, hvq₀⟩
    · exact ⟨h, _, _, by simp [hs']; rfl, rfl, by simp [hs']; rfl, rfl, rfl⟩
    · obtain ⟨h', a, w, ha, hrest⟩ := hs.owned q v y hvq₀ hy
      have hne : h' ≠ h := by
        rintro rfl
        rw [hh] at ha
        cases ha
      exact ⟨h', a, w, by simpa [hs', hne] using ha, by simpa [hs', hq] using hrest⟩

omit [DecidableEq ρ] in
/-- A handle that holds no reservation is created, emptied or destroyed. -/
theorem Handled.discard (hs : Handled size s) {o : Option (AllocatedSlot ρ)}
    (hno : ∀ p, ¬s.ValidAt h p) (ho : ∀ b, o = some b → b.publisher = none) :
    Handled size (s.setSlot h o) := by
  have hslot : ∀ h' a q, (s.setSlot h o).slots h' = some a → a.publisher = some q →
      h' ≠ h ∧ s.slots h' = some a := by
    intro h' a q ha hap
    by_cases he : h' = h
    · subst he
      rw [setSlot_slots, Function.update_self] at ha
      rw [ho a ha] at hap
      cases hap
    · exact ⟨he, by simpa [he] using ha⟩
  have hv : ∀ h' q, (s.setSlot h o).ValidAt h' q ↔ s.ValidAt h' q := by
    intro h' q
    constructor
    · rintro ⟨a, v, ha, hap, hrest⟩
      exact ⟨a, v, (hslot h' a q ha hap).2, hap, hrest⟩
    · intro hval
      have hne : h' ≠ h := fun he => hno q (he ▸ hval)
      obtain ⟨a, v, ha, hrest⟩ := hval
      exact ⟨a, v, by simpa [hne] using ha, hrest⟩
  refine ⟨fun h' a q ha hap => hs.known h' a q (hslot h' a q ha hap).2 hap,
    fun h' a q v ha hap hvq hnp he => hs.live h' a q v (hslot h' a q ha hap).2 hap hvq hnp he,
    fun h' h'' q h1 h2 => hs.one h' h'' q ((hv ..).mp h1) ((hv ..).mp h2), fun q v y hvq hy => ?_⟩
  obtain ⟨h', hval⟩ := hs.owned q v y hvq hy
  exact ⟨h', (hv ..).mpr hval⟩

omit [DecidableEq ρ] in
/-- A valid handle's reservation is used up or given back. -/
theorem Handled.spend (hs : Handled size s) {pend : Option Nat} {o : Option (AllocatedSlot ρ)}
    (hval : s.ValidAt h p) (hp : s.pubs p = some ⟨r, pend, n⟩)
    (ho : ∀ b, o = some b → b.publisher = none ∨
      (b.publisher = some p ∧ b.id ≤ n ∧ b.published = true)) :
    Handled size ((s.setPublisher p (some ⟨r, none, n⟩)).setSlot h o) := by
  set s' := (s.setPublisher p (some ⟨r, none, n⟩)).setSlot h o with hs'
  have hpub : ∀ q v, s'.pubs q = some v → (q = p ∧ v = ⟨r, none, n⟩) ∨ (q ≠ p ∧ s.pubs q = some v) := by
    intro q v hv
    by_cases hq : q = p
    · subst hq
      simp only [hs', setSlot_pubs, setPublisher_pubs, Function.update_self, Option.some.injEq] at hv
      exact .inl ⟨rfl, hv.symm⟩
    · exact .inr ⟨hq, by simpa [hs', hq] using hv⟩
  have hslot : ∀ h' a, s'.slots h' = some a → (h' = h ∧ o = some a) ∨ (h' ≠ h ∧ s.slots h' = some a) := by
    intro h' a ha
    by_cases he : h' = h
    · subst he
      exact .inl ⟨rfl, by simpa [hs'] using ha⟩
    · exact .inr ⟨he, by simpa [hs', he] using ha⟩
  -- the only valid handle of `p` was the one at `h`
  have hv : ∀ h' q, s'.ValidAt h' q → q ≠ p ∧ h' ≠ h ∧ s.ValidAt h' q := by
    rintro h' q ⟨a, v, ha, hap, hvq, hnp, he⟩
    rcases hslot h' a ha with ⟨-, hoa⟩ | ⟨hne, ha₀⟩
    · rcases ho a hoa with hnone | ⟨-, -, hpubd⟩
      · rw [hnone] at hap
        cases hap
      · rw [hpubd] at hnp
        cases hnp
    · rcases hpub q v hvq with ⟨rfl, rfl⟩ | ⟨hq, hvq₀⟩
      · exact absurd (hs.one h' h q ⟨a, _, ha₀, hap, hp, hnp, he⟩ hval) hne
      · exact ⟨hq, hne, a, v, ha₀, hap, hvq₀, hnp, he⟩
  refine ⟨fun h' a q ha hap => ?_, fun h' a q v ha hap hvq hnp he => ?_,
    fun h' h'' q h1 h2 => hs.one h' h'' q (hv h' q h1).2.2 (hv h'' q h2).2.2, fun q v y hvq hy => ?_⟩
  · have hle : ∃ u, s.pubs q = some u ∧ a.id ≤ u.reservation := by
      rcases hslot h' a ha with ⟨-, hoa⟩ | ⟨-, ha₀⟩
      · rcases ho a hoa with hnone | ⟨hsome, hid, -⟩
        · rw [hnone] at hap
          cases hap
        · rw [hsome, Option.some.injEq] at hap
          exact ⟨_, hap ▸ hp, hid⟩
      · exact hs.known h' a q ha₀ hap
    obtain ⟨u, hu, hid⟩ := hle
    by_cases hq : q = p
    · subst hq
      rw [hp, Option.some.injEq] at hu
      subst hu
      exact ⟨⟨r, none, n⟩, by simp [hs'], hid⟩
    · exact ⟨u, by simpa [hs', hq] using hu, hid⟩
  · obtain ⟨hq, hne, -⟩ := hv h' q ⟨a, v, ha, hap, hvq, hnp, he⟩
    exact hs.live h' a q v (by simpa [hs', hne] using ha) hap (by simpa [hs', hq] using hvq) hnp he
  · rcases hpub q v hvq with ⟨-, rfl⟩ | ⟨hq, hvq₀⟩
    · cases hy
    · obtain ⟨h', hval'⟩ := hs.owned q v y hvq₀ hy
      have hne : h' ≠ h := by
        rintro rfl
        obtain ⟨a, -, ha, hap, -⟩ := hval
        obtain ⟨a', -, ha', hap', -⟩ := hval'
        rw [ha, Option.some.injEq] at ha'
        subst ha'
        exact hq (Option.some.inj (hap'.symm.trans hap))
      obtain ⟨a, w, ha, hap, hw, hrest⟩ := hval'
      exact ⟨h', a, w, by simpa [hs', hne] using ha, hap, by simpa [hs', hq] using hw, hrest⟩

omit [DecidableEq ρ] in
/-- A handle is moved to an address that holds no reservation. -/
theorem Handled.move (hs : Handled size s) (hno : ∀ p, ¬s.ValidAt h p) (hk : s.slots k = some b)
    (hne : h ≠ k) : Handled size ((s.setSlot h (some b)).setSlot k (some b.movedFrom)) := by
  set s' := (s.setSlot h (some b)).setSlot k (some b.movedFrom) with hs'
  -- a handle of the new state was at some address before
  have hslot : ∀ h' a q, s'.slots h' = some a → a.publisher = some q →
      (h' = h ∧ a = b) ∨ (h' ≠ h ∧ h' ≠ k ∧ s.slots h' = some a) := by
    intro h' a q ha hap
    by_cases he : h' = k
    · subst he
      simp only [hs', setSlot_slots, Function.update_self, Option.some.injEq] at ha
      subst ha
      cases hap
    · by_cases he' : h' = h
      · subst he'
        simp only [hs', setSlot_slots, Function.update_of_ne he, Function.update_self,
          Option.some.injEq] at ha
        exact .inl ⟨rfl, ha.symm⟩
      · exact .inr ⟨he', he, by simpa [hs', he, he'] using ha⟩
  have hv : ∀ h' q, s'.ValidAt h' q → (h' = h ∧ s.ValidAt k q) ∨ (h' ≠ k ∧ s.ValidAt h' q) := by
    rintro h' q ⟨a, v, ha, hap, hrest⟩
    rcases hslot h' a q ha hap with ⟨e, rfl⟩ | ⟨-, hne', ha₀⟩
    · exact .inl ⟨e, a, v, hk, hap, hrest⟩
    · exact .inr ⟨hne', a, v, ha₀, hap, hrest⟩
  have hback : ∀ h' a q, s'.slots h' = some a → a.publisher = some q → ∃ h₀, s.slots h₀ = some a := by
    intro h' a q ha hap
    rcases hslot h' a q ha hap with ⟨-, rfl⟩ | ⟨-, -, ha₀⟩
    · exact ⟨k, hk⟩
    · exact ⟨h', ha₀⟩
  refine ⟨fun h' a q ha hap => ?_, fun h' a q v ha hap hvq hnp he => ?_, fun h' h'' q h1 h2 => ?_,
    fun q v y hvq hy => ?_⟩
  · obtain ⟨h₀, ha₀⟩ := hback h' a q ha hap
    exact hs.known h₀ a q ha₀ hap
  · obtain ⟨h₀, ha₀⟩ := hback h' a q ha hap
    exact hs.live h₀ a q v ha₀ hap hvq hnp he
  · rcases hv h' q h1 with ⟨e, k1⟩ | ⟨hne1, k1⟩ <;> rcases hv h'' q h2 with ⟨e', k2⟩ | ⟨hne2, k2⟩
    · exact e.trans e'.symm
    · exact absurd (hs.one k h'' q k1 k2).symm hne2
    · exact absurd (hs.one h' k q k1 k2) hne1
    · exact hs.one h' h'' q k1 k2
  · obtain ⟨h', hval⟩ := hs.owned q v y hvq hy
    have hne' : h' ≠ h := fun e => hno q (e ▸ hval)
    obtain ⟨a, w, ha, hap, hrest⟩ := hval
    by_cases he : h' = k
    · subst he
      rw [hk, Option.some.injEq] at ha
      subst ha
      exact ⟨h, b, w, by simp [hs', hne], hap, hrest⟩
    · exact ⟨h', a, w, by simpa [hs', he, hne'] using ha, hap, hrest⟩

/-! ## Every call keeps both -/

theorem releasePending_pubs {pend : Option Nat} (hp : s.pubs p = some ⟨r, pend, n⟩) :
    (s.releasePending p).pubs = Function.update s.pubs p (some ⟨r, none, n⟩) := by
  unfold releasePending
  rw [hp]
  cases pend with
  | none => exact (Function.update_eq_self_iff.mpr hp.symm).symm
  | some x => rfl

@[simp] theorem releasePending_slots : (s.releasePending p).slots = s.slots := by
  unfold releasePending
  split <;> rfl

theorem releasePending_of_ne (hq : q ≠ p) : (s.releasePending p).pubs q = s.pubs q := by
  unfold releasePending
  split
  · simp [hq]
  · rfl

omit [DecidableEq ρ] in
theorem not_pends {u : Publisher ρ} (hp : s.pubs p = some u) (hu : u.pending = none) (r : ρ) (x : Nat) :
    ¬s.Pends p r x := by
  rintro ⟨n, hn⟩
  rw [hp, Option.some.injEq] at hn
  rw [hn] at hu
  cases hu

omit [DecidableEq ρ] in
theorem not_pends_of_none (hp : s.pubs p = none) (r : ρ) (x : Nat) : ¬s.Pends p r x := by
  rintro ⟨n, hn⟩
  rw [hp] at hn
  cases hn

theorem Placed.release (hs : Placed poolSize s) : Placed poolSize (s.releasePending p) := by
  unfold releasePending
  split
  · rename_i r x n hp
    exact hs.push ⟨n, hp⟩ fun v hv => by cases hv; rfl
  · exact hs

omit [DecidableEq ρ] in
theorem Placed.setSlot (hs : Placed poolSize s) (o : Option (AllocatedSlot ρ)) :
    Placed poolSize (s.setSlot h o) :=
  hs.congr rfl rfl rfl rfl fun _ _ _ => Iff.rfl

omit [DecidableEq ρ] in
theorem Placed.returned (hs : Placed poolSize s) (n : Int) : Placed poolSize { s with result := n } :=
  hs.congr rfl rfl rfl rfl fun _ _ _ => Iff.rfl

variable (size) in
/-- What an allocation does after the release. -/
theorem allocate_cases {pend : Option Nat} (hp : s.pubs p = some ⟨r, pend, n⟩) :
    s.allocate size p = ((s.releasePending p).setPublisher p (some ⟨r, none, n + 1⟩), .default ρ) ∨
      ∃ x xs, (s.releasePending p).stack r = x :: xs ∧ s.allocate size p =
        ((((s.releasePending p).treiberPop r).1.setPublisher p (some ⟨r, some x, n + 1⟩)),
          ⟨some p, some (r, x), size r, n + 1, false⟩) := by
  have hp' : (s.releasePending p).pubs p = some ⟨r, none, n⟩ := by
    rw [releasePending_pubs hp, Function.update_self]
  unfold allocate
  simp only [hp']
  cases hstack : (s.releasePending p).stack r with
  | nil =>
    left
    simp only [treiberPop, hstack]
  | cons x xs =>
    right
    refine ⟨x, xs, rfl, ?_⟩
    simp only [treiberPop, hstack]

theorem treiberPop_pubs : (s.treiberPop r).1.pubs = s.pubs := by
  unfold treiberPop
  split <;> rfl

theorem treiberPop_slots : (s.treiberPop r).1.slots = s.slots := by
  unfold treiberPop
  split <;> rfl

/-- What a publication that is not oversized leaves. -/
theorem publishPending_cases {len : Nat} {o : Outcome} (hp : s.pubs p = some ⟨r, some x, n⟩) :
    (s.publishPending size p len o).pubs = Function.update s.pubs p (some ⟨r, none, n⟩) ∧
      (s.publishPending size p len o).slots = s.slots ∧
      (Placed poolSize s → Placed poolSize (s.publishPending size p len o)) := by
  have hpe : s.Pends p r x := ⟨n, hp⟩
  unfold publishPending
  simp only [hp]
  split_ifs with h1 h2
  · exact ⟨releasePending_pubs hp, releasePending_slots, fun hs => hs.release.returned _⟩
  · exact ⟨rfl, rfl, fun hs => (hs.hold hp).returned _⟩
  · refine ⟨rfl, rfl, fun hs => (hs.push hpe fun v hv => ?_).returned _⟩
    cases hv
    rfl

/-- What the calls keep. -/
structure Sound (size poolSize : ρ → Nat) (s : State ρ) : Prop where
  placed : Placed poolSize s
  handled : Handled size s

omit [DecidableEq ρ] in
theorem Handled.id_le (hs : Handled size s) {u : Publisher ρ} (hp : s.pubs p = some u) (ha : s.slots h = some a)
    (hap : a.publisher = some p) : a.id ≤ u.reservation := by
  obtain ⟨v, hv, hle⟩ := hs.known h a p ha hap
  rw [hp, Option.some.injEq] at hv
  exact hv ▸ hle

theorem Sound.allocate (hs : Sound size poolSize s) {pend : Option Nat}
    (hp : s.pubs p = some ⟨r, pend, n⟩) (hh : s.slots h = none) :
    Sound size poolSize ((s.allocate size p).1.setSlot h (some (s.allocate size p).2)) := by
  have hrel : (s.releasePending p).pubs = Function.update s.pubs p (some ⟨r, none, n⟩) :=
    releasePending_pubs hp
  have hfree : ∀ r x, ¬(s.releasePending p).Pends p r x :=
    not_pends (u := ⟨r, none, n⟩) (by rw [hrel, Function.update_self]) rfl
  have hid : ∀ h a, s.slots h = some a → a.publisher = some p → a.id < n + 1 := fun h a ha hap =>
    Nat.lt_succ_of_le (hs.handled.id_le hp ha hap)
  rcases allocate_cases size hp with he | ⟨x, xs, hstack, he⟩ <;> rw [he]
  · refine ⟨(hs.placed.release.setPublisher hfree fun v hv => by cases hv; rfl).setSlot _, ?_⟩
    have hno : ∀ q, ¬(s.setPublisher p (some ⟨r, none, n + 1⟩)).ValidAt h q := by
      rintro q ⟨a, -, ha, -⟩
      rw [setPublisher_slots, hh] at ha
      cases ha
    refine ((hs.handled.renew (u := ⟨r, none, n + 1⟩) rfl hid).discard hno
      (o := some (.default ρ)) fun b hb => by cases hb; rfl).congr ?_ ?_
    · simp [hrel]
    · simp
  · refine ⟨(hs.placed.release.pop hstack hfree).setSlot _, ?_⟩
    refine (hs.handled.issue (r := r) (x := x) hh hid).congr ?_ ?_
    · simp [treiberPop_pubs, hrel]
    · simp [treiberPop_slots]

/-- A handle gives back what it holds, and its object becomes `o`, which points nowhere. -/
theorem Sound.releaseIfValid (hs : Sound size poolSize s) (ha : s.slots h = some a)
    {o : Option (AllocatedSlot ρ)} (ho : ∀ b, o = some b → b.publisher = none) :
    Sound size poolSize ((s.releaseIfValid a).setSlot h o) := by
  by_cases hv : s.valid a = true
  · obtain ⟨p, hval⟩ := (validAt_iff ha).mp hv
    obtain ⟨a', ⟨r, pend, n⟩, ha', hap, hp, -⟩ := id hval
    rw [ha, Option.some.injEq] at ha'
    subst ha'
    have he : s.releaseIfValid a = s.releasePending p := by
      simp [State.releaseIfValid, hap, hv]
    rw [he]
    refine ⟨hs.placed.release.setSlot _, (hs.handled.spend hval hp fun b hb => .inl (ho b hb)).congr ?_ ?_⟩
    · simp [releasePending_pubs hp]
    · simp
  · have he : s.releaseIfValid a = s := by
      unfold State.releaseIfValid
      split
      · rw [if_neg hv]
      · rfl
    rw [he]
    exact ⟨hs.placed.setSlot _, hs.handled.discard (fun p hp => hv ((validAt_iff ha).mpr ⟨p, hp⟩)) ho⟩

theorem Sound.publish (hs : Sound size poolSize s) (ha : s.slots h = some a) (len : Nat) (o : Outcome) :
    Sound size poolSize (s.publish size h a len o) := by
  have hidle : Sound size poolSize { s with result := 0 } :=
    ⟨hs.placed.returned _, hs.handled.congr rfl rfl⟩
  unfold State.publish
  split
  · rename_i p hap
    split_ifs with hv
    · obtain ⟨q, hval⟩ := (validAt_iff ha).mp hv
      obtain ⟨a', ⟨r, pend, n⟩, ha', hap', hp, hnp, he⟩ := id hval
      rw [ha, Option.some.injEq] at ha'
      subst ha'
      obtain rfl : p = q := Option.some.inj (hap.symm.trans hap')
      obtain ⟨x, hx, -⟩ := hs.handled.live h a p _ ha hap hp hnp he
      obtain rfl : pend = some x := hx
      have hp' : (s.setSlot h (some { a with published := true })).pubs p = some ⟨r, some x, n⟩ := hp
      obtain ⟨hpubs, hslots, hplaced⟩ :=
        @publishPending_cases _ _ _ poolSize _ _ _ _ size len o hp'
      refine ⟨hplaced (hs.placed.setSlot _), (hs.handled.spend
        (o := some { a with published := true }) hval hp fun b hb => ?_).congr ?_ ?_⟩
      · obtain rfl := Option.some.inj hb
        exact .inr ⟨hap, le_of_eq he.symm, rfl⟩
      · rw [hpubs]
        rfl
      · rw [hslots]
        rfl
    · exact hidle
  · exact hidle

theorem Sound.write (hs : Sound size poolSize s) (a : AllocatedSlot ρ) (bytes : List UInt8) :
    Sound size poolSize (s.write a bytes) := by
  unfold State.write memcpy
  split_ifs
  · exact ⟨hs.placed.returned _, hs.handled.congr rfl rfl⟩
  · split
    · exact ⟨hs.placed.congr rfl rfl rfl rfl fun _ _ _ => Iff.rfl, hs.handled.congr rfl rfl⟩
    · exact ⟨hs.placed.returned _, hs.handled.congr rfl rfl⟩

theorem write_pubs (a : AllocatedSlot ρ) (bytes : List UInt8) : (s.write a bytes).pubs = s.pubs := by
  unfold State.write memcpy
  split_ifs
  · rfl
  · split <;> rfl

theorem write_slots (a : AllocatedSlot ρ) (bytes : List UInt8) : (s.write a bytes).slots = s.slots := by
  unfold State.write memcpy
  split_ifs
  · rfl
  · split <;> rfl

theorem Placed.write (hs : Placed poolSize s) (a : AllocatedSlot ρ) (bytes : List UInt8) :
    Placed poolSize (s.write a bytes) := by
  unfold State.write memcpy
  split_ifs
  · exact hs.returned _
  · split
    · exact hs.congr rfl rfl rfl rfl fun _ _ _ => Iff.rfl
    · exact hs.returned _

variable (poolSize size) in
/-- After a `send` the publisher has no reservation, and its counter has moved on unless the payload was
too large. -/
theorem send_cases {pend : Option Nat} (hp : s.pubs p = some ⟨r, pend, n⟩) (bytes : List UInt8)
    (o : Outcome) :
    s.send size p bytes o = { s with result := -eMsgSize } ∨
      ((s.send size p bytes o).pubs = Function.update s.pubs p (some ⟨r, none, n + 1⟩) ∧
        (s.send size p bytes o).slots = s.slots ∧
        (Placed poolSize s → Placed poolSize (s.send size p bytes o))) := by
  have hrel : (s.releasePending p).pubs = Function.update s.pubs p (some ⟨r, none, n⟩) :=
    releasePending_pubs hp
  have hfree : ∀ r x, ¬(s.releasePending p).Pends p r x :=
    not_pends (u := ⟨r, none, n⟩) (by rw [hrel, Function.update_self]) rfl
  unfold send
  simp only [hp]
  split_ifs with hlen hv
  · exact .inl rfl
  · right
    rcases allocate_cases size hp with he | ⟨x, xs, hstack, he⟩
    · rw [he] at hv
      simp [valid, AllocatedSlot.default] at hv
    · rw [he]
      set s' := ((s.releasePending p).treiberPop r).1.setPublisher p (some ⟨r, some x, n + 1⟩) with hs'
      set a' : AllocatedSlot ρ := ⟨some p, some (r, x), size r, n + 1, false⟩
      have hp' : (s'.write a' bytes).pubs p = some ⟨r, some x, n + 1⟩ := by
        rw [write_pubs, hs', setPublisher_pubs, Function.update_self]
      obtain ⟨hpubs, hslots, hplaced⟩ :=
        @publishPending_cases _ _ _ poolSize _ _ _ _ size bytes.length o hp'
      refine ⟨?_, ?_, fun hs => (hplaced ((hs.release.pop hstack hfree).write _ _)).returned _⟩
      · dsimp only
        rw [hpubs, write_pubs, hs', setPublisher_pubs, treiberPop_pubs, hrel, Function.update_idem,
          Function.update_idem]
      · dsimp only
        rw [hslots, write_slots, hs', setPublisher_slots, treiberPop_slots, releasePending_slots]
  · right
    rcases allocate_cases size hp with he | ⟨x, xs, hstack, he⟩
    · rw [he]
      refine ⟨?_, releasePending_slots, fun hs => ?_⟩
      · dsimp only
        rw [setPublisher_pubs, hrel, Function.update_idem]
      · exact (hs.release.setPublisher hfree fun v hv => by cases hv; rfl).returned _
    · rw [he] at hv
      simp [valid] at hv

theorem Sound.send (hs : Sound size poolSize s) {pend : Option Nat} (hp : s.pubs p = some ⟨r, pend, n⟩)
    (bytes : List UInt8) (o : Outcome) : Sound size poolSize (s.send size p bytes o) := by
  rcases send_cases poolSize size hp bytes o with he | ⟨hpubs, hslots, hplaced⟩
  · rw [he]
    exact ⟨hs.placed.returned _, hs.handled.congr rfl rfl⟩
  · refine ⟨hplaced hs.placed, (hs.handled.renew (u := ⟨r, none, n + 1⟩) (p := p) rfl
      fun h a ha hap => Nat.lt_succ_of_le (hs.handled.id_le hp ha hap)).congr hpubs hslots⟩

omit [DecidableEq ρ] in
theorem not_validAt_of_none (hh : s.slots h = none) (p : Nat) : ¬s.ValidAt h p := by
  rintro ⟨a, -, ha, -⟩
  rw [hh] at ha
  cases ha

/-- A move construction: `p` is new, `q` gives its slot back and goes past its old ids. -/
theorem Sound.moveConstructPublisher (hs : Sound size poolSize s) {v : Publisher ρ} (hp : s.pubs p = none)
    (hq : s.pubs q = some v) :
    Sound size poolSize (((s.setPublisher p (some ⟨v.region, none, v.reservation⟩)).releasePending q).setPublisher
      q (some ⟨v.region, none, v.reservation + 1⟩)) := by
  obtain ⟨r, pend, n⟩ := v
  have hne : q ≠ p := by
    rintro rfl
    rw [hp] at hq
    cases hq
  have hq' : (s.setPublisher p (some ⟨r, none, n⟩)).pubs q = some ⟨r, pend, n⟩ := by simpa [hne] using hq
  have hrel := releasePending_pubs hq'
  refine ⟨?_, ?_⟩
  · refine Placed.setPublisher (Placed.release (hs.placed.setPublisher (not_pends_of_none hp) fun v hv => ?_))
      (not_pends (u := ⟨r, none, n⟩) (by rw [hrel, Function.update_self]) rfl) fun v hv => ?_
    · cases hv
      rfl
    · cases hv
      rfl
  · have h1 : Handled size (s.setPublisher p (some ⟨r, none, n⟩)) := by
      refine hs.handled.renew rfl fun h a ha hap => ?_
      obtain ⟨u, hu, -⟩ := hs.handled.known h a p ha hap
      rw [hp] at hu
      cases hu
    have h2 := h1.renew (p := q) (u := ⟨r, none, n + 1⟩) rfl fun h a ha hap =>
      Nat.lt_succ_of_le (h1.id_le hq' ha hap)
    refine h2.congr ?_ ?_
    · simp only [setPublisher_pubs, hrel, Function.update_idem]
    · simp

/-- A move assignment: both give their slots back, and both go past all older ids. -/
theorem Sound.moveAssignPublisher (hs : Sound size poolSize s) {u v : Publisher ρ} (hne : p ≠ q)
    (hp : s.pubs p = some u) (hq : s.pubs q = some v) :
    Sound size poolSize ((((s.releasePending p).setPublisher p
      (some ⟨v.region, none, max u.reservation v.reservation + 1⟩)).releasePending q).setPublisher q
        (some ⟨v.region, none, v.reservation + 1⟩)) := by
  obtain ⟨r, pend, n⟩ := u
  obtain ⟨r', pend', n'⟩ := v
  have hrel := releasePending_pubs hp
  set s' := (s.releasePending p).setPublisher p (some ⟨r', none, max n n' + 1⟩) with hs'
  have hq' : s'.pubs q = some ⟨r', pend', n'⟩ := by
    rw [hs', setPublisher_pubs, hrel, Function.update_idem, Function.update_of_ne (Ne.symm hne), hq]
  have hrel' := releasePending_pubs hq'
  refine ⟨?_, ?_⟩
  · refine Placed.setPublisher (Placed.release (hs.placed.release.setPublisher ?_ fun v hv => ?_))
      (not_pends (u := ⟨r', none, n'⟩) (by rw [hrel', Function.update_self]) rfl) fun v hv => ?_
    · exact not_pends (u := ⟨r, none, n⟩) (by rw [hrel, Function.update_self]) rfl
    · cases hv
      rfl
    · cases hv
      rfl
  · have h1 : Handled size (s.setPublisher p (some ⟨r', none, max n n' + 1⟩)) :=
      hs.handled.renew rfl fun h a ha hap => by
        have := hs.handled.id_le hp ha hap
        dsimp only at this ⊢
        omega
    have h2 := h1.renew (p := q) (u := ⟨r', none, n' + 1⟩) rfl fun h a ha hap =>
      Nat.lt_succ_of_le (h1.id_le (u := ⟨r', pend', n'⟩) (by simpa [Ne.symm hne] using hq) ha hap)
    refine h2.congr ?_ ?_
    · rw [setPublisher_pubs, hrel', Function.update_idem, hs', setPublisher_pubs, hrel,
        Function.update_idem]
      rfl
    · simp [hs']

/-- Every call keeps the slots in their places and the handles apart. -/
theorem Sound.next (hs : Sound size poolSize s) {op : Op ρ} {s' : State ρ} (hst : s.next size op = some s')
    (hok : s.inLifetime op s') : Sound size poolSize s' := by
  cases op with
  | constructPublisher p r =>
    simp only [State.next] at hst
    split at hst <;> cases hst
    rename_i hp
    refine ⟨hs.placed.setPublisher (not_pends_of_none hp) fun v hv => by cases hv; rfl, ?_⟩
    refine hs.handled.renew rfl fun h a ha hap => ?_
    obtain ⟨u, hu, -⟩ := hs.handled.known h a p ha hap
    rw [hp] at hu
    cases hu
  | moveConstructPublisher p q =>
    simp only [State.next] at hst
    split at hst <;> cases hst
    rename_i hp hq
    exact hs.moveConstructPublisher hp hq
  | moveAssignPublisher p q =>
    simp only [State.next] at hst
    split at hst
    · rename_i hp hq
      split_ifs at hst with hne <;> cases hst
      · exact hs
      · exact hs.moveAssignPublisher hne hp hq
    · cases hst
  | destroyPublisher p =>
    simp only [State.next] at hst
    split at hst <;> cases hst
    rename_i u hp
    obtain ⟨r, pend, n⟩ := u
    have hrel := releasePending_pubs hp
    have hfree : ∀ r x, ¬(s.releasePending p).Pends p r x :=
      not_pends (u := ⟨r, none, n⟩) (by rw [hrel, Function.update_self]) rfl
    refine ⟨hs.placed.release.setPublisher hfree (by simp), ?_⟩
    refine (hs.handled.vanish (p := p) hok).congr ?_ ?_
    · simp [hrel]
    · simp
  | allocate p h =>
    simp only [State.next] at hst
    split at hst <;> cases hst
    rename_i u hp hh
    have hp' : s.pubs p = some ⟨u.region, u.pending, u.reservation⟩ := hp
    exact hs.allocate hp' hh
  | send p bytes o =>
    simp only [State.next] at hst
    split at hst <;> cases hst
    rename_i u hp
    have hp' : s.pubs p = some ⟨u.region, u.pending, u.reservation⟩ := hp
    exact hs.send hp' bytes o
  | write h bytes =>
    obtain ⟨a, ha, rfl⟩ := Option.map_eq_some_iff.mp hst
    exact hs.write a bytes
  | publish h len o =>
    obtain ⟨a, ha, rfl⟩ := Option.map_eq_some_iff.mp hst
    exact hs.publish ha len o
  | default h =>
    simp only [State.next] at hst
    split at hst <;> cases hst
    rename_i hh
    exact ⟨hs.placed.setSlot _, hs.handled.discard (not_validAt_of_none hh) fun b hb => by cases hb; rfl⟩
  | moveConstruct h k =>
    simp only [State.next] at hst
    split at hst <;> cases hst
    rename_i b hh hk
    have hne : h ≠ k := by
      rintro rfl
      rw [hh] at hk
      cases hk
    exact ⟨(hs.placed.setSlot _).setSlot _, hs.handled.move (not_validAt_of_none hh) hk hne⟩
  | moveAssign h k =>
    simp only [State.next] at hst
    split at hst
    · rename_i a b ha hb
      split_ifs at hst with hne <;> cases hst
      · exact hs
      · -- first the object at `h` is emptied, then the one at `k` moves there
        have h1 := hs.releaseIfValid ha (o := none) fun b hb => by cases hb
        have hk : ((s.releaseIfValid a).setSlot h none).slots k = some b := by
          have hslots : (s.releaseIfValid a).slots = s.slots := by
            unfold State.releaseIfValid
            split
            · split_ifs
              · exact releasePending_slots
              · rfl
            · rfl
          rw [setSlot_slots, hslots, Function.update_of_ne (Ne.symm hne), hb]
        have h2 := h1.handled.move (not_validAt_of_none (by simp)) hk hne
        refine ⟨((h1.placed.setSlot (h := h) (some b)).setSlot (h := k) (some b.movedFrom)).congr rfl rfl
          rfl rfl fun _ _ _ => Iff.rfl, h2.congr rfl ?_⟩
        simp only [setSlot_slots, Function.update_idem]
    · cases hst
  | destroy h =>
    obtain ⟨a, ha, rfl⟩ := Option.map_eq_some_iff.mp hst
    exact hs.releaseIfValid ha fun b hb => by cases hb
  | drop r x =>
    simp only [State.next] at hst
    split_ifs at hst with hp
    cases hst
    exact ⟨hs.placed.drop hp, hs.handled.congr rfl rfl⟩

omit [DecidableEq ρ] in
theorem sound_init (hs : Init poolSize s) : Sound size poolSize s where
  placed :=
    { nodup := hs.nodup
      free := fun r x _ => ⟨hs.published r x, fun p => not_pends_of_none (hs.pubs p) r x⟩
      held := fun r x h => absurd (hs.published r x) (by simp [h])
      unique := fun p _ r x h => absurd h (not_pends_of_none (hs.pubs p) r x)
      total := fun r x => by
        rw [← hs.full]
        refine ⟨.inl, ?_⟩
        rintro (h | h | ⟨p, hp⟩)
        · exact h
        · simp [hs.published] at h
        · exact absurd hp (not_pends_of_none (hs.pubs p) r x)
      once := fun r x => by simp [hs.pops, hs.pushes, hs.full] }
  handled :=
    { known := fun h a p ha => by simp [hs.slots] at ha
      live := fun h a p u ha => by simp [hs.slots] at ha
      one := fun h h' p h1 => absurd h1 (not_validAt_of_none (hs.slots h) p)
      owned := fun p u x hp => by simp [hs.pubs] at hp }

theorem sound_reach (hs : (machine size poolSize).Reach inLifetime s) : Sound size poolSize s :=
  hs.invariant (fun _ h0 => sound_init h0) fun _ _ _ h hst hok => h.next hst hok

/-! ## Stale handles and old ids -/

/-- The handle a call acts with. -/
def actor : Op ρ → Option Nat
  | .write h _ | .publish h _ _ | .moveAssign h _ | .destroy h => some h
  | _ => none

/-- Publishers, pools and payloads are as they were. -/
structure Same (s s' : State ρ) : Prop where
  pubs : s'.pubs = s.pubs
  stack : s'.stack = s.stack
  published : s'.published = s.published
  payload : s'.payload = s.payload
  pops : s'.pops = s.pops
  pushes : s'.pushes = s.pushes

/-- A handle that is not valid writes, publishes and releases nothing. -/
theorem same_of_stale {op : Op ρ} {s' : State ρ} (ha : s.slots h = some a) (hv : s.valid a = false)
    (hop : actor op = some h) (hst : s.next size op = some s') : Same s s' := by
  have hrel : s.releaseIfValid a = s := by
    unfold State.releaseIfValid
    split
    · rw [hv, if_neg (by simp)]
    · rfl
  cases op with
  | write h₀ bytes =>
    obtain rfl := Option.some.inj hop
    simp only [State.next, ha, Option.map_some, Option.some.injEq] at hst
    subst hst
    rw [State.write, if_pos (.inl hv)]
    exact ⟨rfl, rfl, rfl, rfl, rfl, rfl⟩
  | publish h₀ len o =>
    obtain rfl := Option.some.inj hop
    simp only [State.next, ha, Option.map_some, Option.some.injEq] at hst
    subst hst
    unfold State.publish
    split
    · rw [hv, if_neg (by simp)]
      exact ⟨rfl, rfl, rfl, rfl, rfl, rfl⟩
    · exact ⟨rfl, rfl, rfl, rfl, rfl, rfl⟩
  | moveAssign h₀ k =>
    obtain rfl := Option.some.inj hop
    simp only [State.next, ha] at hst
    split at hst
    · rename_i a' b ha' hb
      cases ha'
      split_ifs at hst <;> cases hst
      · exact ⟨rfl, rfl, rfl, rfl, rfl, rfl⟩
      · rw [hrel]
        exact ⟨rfl, rfl, rfl, rfl, rfl, rfl⟩
    · cases hst
  | destroy h₀ =>
    obtain rfl := Option.some.inj hop
    simp only [State.next, ha, Option.map_some, Option.some.injEq] at hst
    subst hst
    rw [hrel]
    exact ⟨rfl, rfl, rfl, rfl, rfl, rfl⟩
  | _ => simp [actor] at hop

/-- Publishers stay where they are, and their counters do not go back. -/
def Keeps (s s' : State ρ) : Prop :=
  ∀ q u, s.pubs q = some u → ∃ u', s'.pubs q = some u' ∧ u.reservation ≤ u'.reservation

omit [DecidableEq ρ] in
theorem Keeps.refl (s : State ρ) : Keeps s s := fun _ u hu => ⟨u, hu, le_refl _⟩

omit [DecidableEq ρ] in
theorem Keeps.trans {s₁ s₂ s₃ : State ρ} (h : Keeps s₁ s₂) (h' : Keeps s₂ s₃) : Keeps s₁ s₃ := by
  intro q u hu
  obtain ⟨u₂, hu₂, hle⟩ := h q u hu
  obtain ⟨u₃, hu₃, hle'⟩ := h' q u₂ hu₂
  exact ⟨u₃, hu₃, hle.trans hle'⟩

omit [DecidableEq ρ] in
theorem Keeps.of_pubs {s s' : State ρ} (h : s'.pubs = s.pubs) : Keeps s s' := fun _ u hu =>
  ⟨u, h ▸ hu, le_refl _⟩

omit [DecidableEq ρ] in
theorem Keeps.setPublisher {v : Publisher ρ} (h : ∀ u, s.pubs p = some u → u.reservation ≤ v.reservation) :
    Keeps s (s.setPublisher p (some v)) := by
  intro q u hu
  by_cases hq : q = p
  · subst hq
    exact ⟨v, by simp, h u hu⟩
  · exact ⟨u, by simpa [hq] using hu, le_refl _⟩

theorem Keeps.releasePending : Keeps s (s.releasePending p) := by
  unfold State.releasePending
  split
  · rename_i r x n hp
    refine Keeps.setPublisher (s := s.treiberPush r x) fun u hu => ?_
    rw [treiberPush_pubs, hp, Option.some.injEq] at hu
    rw [← hu]
  · exact .refl s

theorem Keeps.releaseIfValid (a : AllocatedSlot ρ) : Keeps s (s.releaseIfValid a) := by
  unfold State.releaseIfValid
  split
  · split_ifs
    · exact .releasePending
    · exact .refl s
  · exact .refl s

theorem Keeps.allocate : Keeps s (s.allocate size p).1 := by
  cases hp : s.pubs p with
  | none =>
    have hrel : s.releasePending p = s := by simp [State.releasePending, hp]
    simp only [State.allocate, hrel, hp]
    exact .refl s
  | some u =>
    obtain ⟨r, pend, n⟩ := u
    have hp' : (s.releasePending p).pubs p = some ⟨r, none, n⟩ := by
      rw [releasePending_pubs hp, Function.update_self]
    rcases allocate_cases size hp with he | ⟨x, xs, -, he⟩ <;> rw [he]
    · refine .trans .releasePending (.setPublisher fun u hu => ?_)
      rw [hp', Option.some.injEq] at hu
      exact hu ▸ Nat.le_succ n
    · refine .trans .releasePending (.trans (.of_pubs (treiberPop_pubs (r := r))) (.setPublisher fun u hu => ?_))
      rw [treiberPop_pubs, hp', Option.some.injEq] at hu
      exact hu ▸ Nat.le_succ n

theorem Keeps.publishPending (len : Nat) (o : Outcome) : Keeps s (s.publishPending size p len o) := by
  unfold State.publishPending
  split
  · exact .refl s
  · rename_i u hp
    have key : Keeps s (s.setPublisher p (some { u with pending := none })) :=
      .setPublisher fun v hv => by
        rw [hp, Option.some.injEq] at hv
        rw [← hv]
    by_cases hlen : len > size u.region
    · rw [if_pos hlen]
      exact .trans .releasePending (.of_pubs rfl)
    · rw [if_neg hlen]
      cases u.pending with
      | none => exact .of_pubs rfl
      | some x =>
        dsimp only
        split_ifs
        · exact key.trans (.of_pubs rfl)
        · exact key.trans (.of_pubs rfl)

theorem Keeps.send (bytes : List UInt8) (o : Outcome) : Keeps s (s.send size p bytes o) := by
  unfold State.send
  split
  · exact .refl s
  · split_ifs
    · exact .of_pubs rfl
    · dsimp only
      split_ifs
      · exact .trans .allocate (.trans (.of_pubs (write_pubs ..)) (.trans (.publishPending _ _) (.of_pubs rfl)))
      · exact .trans .allocate (.of_pubs rfl)

/-- Counters never go back while the object lives. -/
theorem keeps_next {op : Op ρ} {s' : State ρ} (hst : s.next size op = some s') {u : Publisher ρ}
    (hp : s.pubs p = some u) (hd : op ≠ .destroyPublisher p) :
    ∃ u', s'.pubs p = some u' ∧ u.reservation ≤ u'.reservation := by
  suffices h : Keeps s s' ∨ ∃ q, op = .destroyPublisher q by
    rcases h with h | ⟨q, rfl⟩
    · exact h p u hp
    · have hq : p ≠ q := fun e => hd (e ▸ rfl)
      simp only [State.next] at hst
      split at hst <;> cases hst
      exact ⟨u, by rw [setPublisher_pubs, Function.update_of_ne hq, releasePending_of_ne hq, hp], le_refl _⟩
  cases op with
  | constructPublisher q r =>
    simp only [State.next] at hst
    split at hst <;> cases hst
    rename_i hq
    exact .inl (.setPublisher fun u hu => by rw [hq] at hu; cases hu)
  | moveConstructPublisher q q' =>
    simp only [State.next] at hst
    split at hst <;> cases hst
    rename_i v hq hq'
    left
    have hne : q' ≠ q := by
      rintro rfl
      rw [hq] at hq'
      cases hq'
    have hq₁ : (s.setPublisher q (some ⟨v.region, none, v.reservation⟩)).pubs q' =
        some ⟨v.region, v.pending, v.reservation⟩ := by simpa [hne] using hq'
    refine .trans (.setPublisher fun u hu => ?_) (.trans .releasePending (.setPublisher fun u hu => ?_))
    · rw [hq] at hu
      cases hu
    · rw [releasePending_pubs hq₁, Function.update_self, Option.some.injEq] at hu
      exact hu ▸ Nat.le_succ _
  | moveAssignPublisher q q' =>
    simp only [State.next] at hst
    split at hst
    · rename_i u₁ u₂ hq hq'
      left
      split_ifs at hst with hne <;> cases hst
      · exact .refl s
      · have hq₁ : s.pubs q = some ⟨u₁.region, u₁.pending, u₁.reservation⟩ := hq
        have hq₂ : ((s.releasePending q).setPublisher q (some ⟨u₂.region, none,
            max u₁.reservation u₂.reservation + 1⟩)).pubs q' =
            some ⟨u₂.region, u₂.pending, u₂.reservation⟩ := by
          rw [setPublisher_pubs, Function.update_of_ne (Ne.symm hne), releasePending_of_ne (Ne.symm hne)]
          exact hq'
        refine .trans .releasePending (.trans (.setPublisher fun u hu => ?_)
          (.trans .releasePending (.setPublisher fun u hu => ?_)))
        · rw [releasePending_pubs hq₁, Function.update_self, Option.some.injEq] at hu
          rw [← hu]
          dsimp only
          omega
        · rw [releasePending_pubs hq₂, Function.update_self, Option.some.injEq] at hu
          exact hu ▸ Nat.le_succ _
    · cases hst
  | destroyPublisher q => exact .inr ⟨q, rfl⟩
  | allocate q h =>
    simp only [State.next] at hst
    split at hst <;> cases hst
    exact .inl (.trans .allocate (.of_pubs rfl))
  | send q bytes o =>
    simp only [State.next] at hst
    split at hst <;> cases hst
    exact .inl (.send _ _)
  | write h bytes =>
    obtain ⟨a, -, rfl⟩ := Option.map_eq_some_iff.mp hst
    exact .inl (.of_pubs (write_pubs ..))
  | publish h len o =>
    obtain ⟨a, -, rfl⟩ := Option.map_eq_some_iff.mp hst
    left
    unfold State.publish
    split
    · split_ifs
      · have key : Keeps s (s.setSlot h (some { a with published := true })) := .of_pubs rfl
        exact key.trans (.publishPending _ _)
      · exact .of_pubs rfl
    · exact .of_pubs rfl
  | default h =>
    simp only [State.next] at hst
    split at hst <;> cases hst
    exact .inl (.of_pubs rfl)
  | moveConstruct h k =>
    simp only [State.next] at hst
    split at hst <;> cases hst
    exact .inl (.of_pubs rfl)
  | moveAssign h k =>
    simp only [State.next] at hst
    split at hst
    · split_ifs at hst <;> cases hst
      · exact .inl (.refl s)
      · exact .inl (.trans (.releaseIfValid _) (.of_pubs rfl))
    · cases hst
  | destroy h =>
    obtain ⟨a, -, rfl⟩ := Option.map_eq_some_iff.mp hst
    exact .inl (.trans (.releaseIfValid _) (.of_pubs rfl))
  | drop r x =>
    simp only [State.next] at hst
    split_ifs at hst
    cases hst
    exact .inl (.of_pubs rfl)

variable (size) in
/-- An allocation issues an id that its publisher has not issued yet. -/
theorem allocate_id {u : Publisher ρ} (hp : s.pubs p = some u) :
    ∃ u', (s.allocate size p).1.pubs p = some u' ∧ u'.reservation = u.reservation + 1 ∧
      ((s.allocate size p).2.publisher = none ∨
        ((s.allocate size p).2.publisher = some p ∧ (s.allocate size p).2.id = u.reservation + 1)) := by
  obtain ⟨r, pend, n⟩ := u
  rcases allocate_cases size hp with he | ⟨x, xs, -, he⟩ <;> rw [he]
  · exact ⟨_, Function.update_self .., rfl, .inl rfl⟩
  · exact ⟨_, Function.update_self .., rfl, .inr ⟨rfl, rfl⟩⟩

/-- Where the handles of a state come from: they were there before, perhaps at another address and not
yet published, or their id is new. -/
theorem handle_from {op : Op ρ} {s' : State ρ} (hst : s.next size op = some s')
    (ha : s'.slots h = some a) (hap : a.publisher = some p) :
    (∃ h₀ b, s.slots h₀ = some b ∧ b.publisher = some p ∧ b.id = a.id ∧
      (a.published = false → b.published = false)) ∨
    ∃ u, s.pubs p = some u ∧ a.id = u.reservation + 1 := by
  have hold : ∀ {h₀ : Nat}, s.slots h₀ = some a → (∃ h₀ b, s.slots h₀ = some b ∧ b.publisher = some p ∧
      b.id = a.id ∧ (a.published = false → b.published = false)) ∨
      ∃ u, s.pubs p = some u ∧ a.id = u.reservation + 1 :=
    fun h => .inl ⟨_, a, h, hap, rfl, id⟩
  have hset : ∀ {s₁ : State ρ} {h₁ : Nat} {o : Option (AllocatedSlot ρ)},
      (s₁.setSlot h₁ o).slots h = some a → (h = h₁ ∧ o = some a) ∨ s₁.slots h = some a := by
    intro s₁ h₁ o hx
    by_cases he : h = h₁
    · exact .inl ⟨he, by simpa [he] using hx⟩
    · exact .inr (by simpa [he] using hx)
  have hrel : ∀ b : AllocatedSlot ρ, (s.releaseIfValid b).slots = s.slots := by
    intro b
    unfold State.releaseIfValid
    split
    · split_ifs
      · exact releasePending_slots
      · rfl
    · rfl
  cases op with
  | constructPublisher q r =>
    simp only [State.next] at hst
    split at hst <;> cases hst
    exact hold ha
  | moveConstructPublisher q q' =>
    simp only [State.next] at hst
    split at hst <;> cases hst
    exact hold (by simpa using ha)
  | moveAssignPublisher q q' =>
    simp only [State.next] at hst
    split at hst
    · split_ifs at hst <;> cases hst
      · exact hold ha
      · exact hold (by simpa using ha)
    · cases hst
  | destroyPublisher q =>
    simp only [State.next] at hst
    split at hst <;> cases hst
    exact hold (by simpa using ha)
  | allocate q h₁ =>
    simp only [State.next] at hst
    split at hst <;> cases hst
    rename_i u hq hh
    have hq' : s.pubs q = some ⟨u.region, u.pending, u.reservation⟩ := hq
    rcases hset ha with ⟨-, he⟩ | hx
    · obtain ⟨u', -, -, hnone | ⟨hsome, hid⟩⟩ := allocate_id size hq
      · rw [← Option.some.inj he, hnone] at hap
        cases hap
      · rw [← Option.some.inj he, hsome, Option.some.injEq] at hap
        exact .inr ⟨u, hap ▸ hq, (Option.some.inj he) ▸ hid⟩
    · have hslots : (s.allocate size q).1.slots = s.slots := by
        rcases allocate_cases size hq' with he | ⟨x, xs, -, he⟩ <;> rw [he] <;>
          simp [treiberPop_slots]
      exact hold (hslots ▸ hx)
  | send q bytes o =>
    simp only [State.next] at hst
    split at hst <;> cases hst
    rename_i u hq
    have hq' : s.pubs q = some ⟨u.region, u.pending, u.reservation⟩ := hq
    rcases send_cases (fun _ => 0) size hq' bytes o with he | ⟨-, hslots, -⟩
    · rw [he] at ha
      exact hold ha
    · exact hold (hslots ▸ ha)
  | write h₁ bytes =>
    obtain ⟨b, -, rfl⟩ := Option.map_eq_some_iff.mp hst
    exact hold (write_slots b bytes ▸ ha)
  | publish h₁ len o =>
    obtain ⟨b, hb, rfl⟩ := Option.map_eq_some_iff.mp hst
    unfold State.publish at ha
    split at ha
    · rename_i q hbq
      split_ifs at ha with hv
      · have hslots : ((s.setSlot h₁ (some { b with published := true })).publishPending size q len
            o).slots = (s.setSlot h₁ (some { b with published := true })).slots := by
          unfold publishPending
          split
          · rfl
          · split_ifs
            · exact releasePending_slots
            · split <;> rfl
            · split <;> rfl
        rw [hslots] at ha
        rcases hset ha with ⟨-, he⟩ | hx
        · obtain rfl := Option.some.inj he
          exact .inl ⟨h₁, b, hb, hap, rfl, fun hf => by cases hf⟩
        · exact hold hx
      · exact hold ha
    · exact hold ha
  | default h₁ =>
    simp only [State.next] at hst
    split at hst <;> cases hst
    rcases hset ha with ⟨-, he⟩ | hx
    · rw [← Option.some.inj he] at hap
      cases hap
    · exact hold hx
  | moveConstruct h₁ k =>
    simp only [State.next] at hst
    split at hst <;> cases hst
    rename_i b hh hk
    rcases hset ha with ⟨-, he⟩ | hx
    · rw [← Option.some.inj he] at hap
      cases hap
    · rcases hset hx with ⟨-, he⟩ | hx
      · exact hold (he ▸ hk)
      · exact hold hx
  | moveAssign h₁ k =>
    simp only [State.next] at hst
    split at hst
    · rename_i b' b hb' hb
      split_ifs at hst <;> cases hst
      · exact hold ha
      · rcases hset ha with ⟨-, he⟩ | hx
        · rw [← Option.some.inj he] at hap
          cases hap
        · rcases hset hx with ⟨-, he⟩ | hx
          · exact hold (he ▸ hb)
          · exact hold (hrel b' ▸ hx)
    · cases hst
  | destroy h₁ =>
    obtain ⟨b, -, rfl⟩ := Option.map_eq_some_iff.mp hst
    rcases hset ha with ⟨-, he⟩ | hx
    · cases he
    · exact hold (hrel b ▸ hx)
  | drop r x =>
    simp only [State.next] at hst
    split_ifs at hst
    cases hst
    exact hold ha

/-- Id `k` of publisher `p` has been issued, and no valid handle carries it. -/
structure Spent (s : State ρ) (p k : Nat) : Prop where
  issued : ∃ u, s.pubs p = some u ∧ k ≤ u.reservation
  stale : ∀ h a, s.slots h = some a → a.publisher = some p → a.id = k → ¬s.ValidAt h p

/-- A spent id stays spent while the publisher lives. -/
theorem Spent.next {op : Op ρ} {s' : State ρ} {k : Nat} (hs : Spent s p k)
    (hst : s.next size op = some s') (hd : op ≠ .destroyPublisher p) : Spent s' p k := by
  obtain ⟨u, hu, hk⟩ := hs.issued
  obtain ⟨u', hu', hle⟩ := keeps_next hst hu hd
  refine ⟨⟨u', hu', hk.trans hle⟩, fun h a ha hap hid hval => ?_⟩
  obtain ⟨a', v, ha', -, hv, hnp, he⟩ := hval
  rw [ha, Option.some.injEq] at ha'
  subst ha'
  rw [hu', Option.some.injEq] at hv
  subst hv
  rcases handle_from hst ha hap with ⟨h₀, b, hb, hbp, hbid, hbnp⟩ | ⟨v, hv, hnew⟩
  · refine hs.stale h₀ b hb hbp (hbid.trans hid) ⟨b, u, hb, hbp, hu, hbnp hnp, ?_⟩
    omega
  · rw [hu, Option.some.injEq] at hv
    subst hv
    omega

/-- A sequence of calls that does not destroy publisher `p`. -/
def Lives (size : ρ → Nat) (p : Nat) : State ρ → State ρ → Prop :=
  Relation.ReflTransGen fun s s' => ∃ op, s.next size op = some s' ∧ op ≠ .destroyPublisher p

theorem Spent.lives {s' : State ρ} {k : Nat} (hs : Spent s p k) (hl : Lives size p s s') :
    Spent s' p k := by
  induction hl with
  | refl => exact hs
  | tail _ hst ih =>
    obtain ⟨op, hst, hd⟩ := hst
    exact ih.next hst hd

/-- Slot `x` of region `r` is in one place. -/
def InOnePlace (s : State ρ) (r : ρ) (x : Nat) : Prop :=
  (x ∈ s.stack r ∧ s.published r x = false ∧ ∀ p, ¬s.Pends p r x) ∨
    (x ∉ s.stack r ∧ s.published r x = true ∧ ∀ p, ¬s.Pends p r x) ∨
    (x ∉ s.stack r ∧ s.published r x = false ∧ ∃! p, s.Pends p r x)

omit [DecidableEq ρ] in
theorem Placed.inOnePlace (hs : Placed poolSize s) (hx : x < poolSize r) : s.InOnePlace r x := by
  by_cases h1 : x ∈ s.stack r
  · exact .inl ⟨h1, hs.free r x h1⟩
  · by_cases h2 : s.published r x = true
    · exact .inr (.inl ⟨h1, h2, hs.held r x h2⟩)
    · obtain ⟨p, hp⟩ := ((hs.total r x).mp hx |>.resolve_left h1).resolve_left h2
      exact .inr (.inr ⟨h1, by simpa using h2, p, hp, fun q hq => hs.unique q p r x hq hp⟩)

/-- Over any sequence of calls that spends fewer than `2 ^ 64` ids of a publisher: it has at most one valid
handle, and that is the one of its pending slot; every slot is in one place and is pushed once for each pop;
a stale handle does nothing; and an id, once spent, stays so, while those issued grow. -/
theorem handles_never_alias (hs : (machine size poolSize).Reach inLifetime s) :
    (∀ h h' p, s.ValidAt h p → s.ValidAt h' p → h = h') ∧
    (∀ h p, s.ValidAt h p → ∃ a u x, s.slots h = some a ∧ s.pubs p = some u ∧ u.pending = some x ∧
      a.data = some (u.region, x)) ∧
    (∀ p u x, s.pubs p = some u → u.pending = some x → ∃ h, s.ValidAt h p) ∧
    (∀ r x, x < poolSize r → s.InOnePlace r x) ∧ (∀ r, (s.stack r).Nodup) ∧
    (∀ r x, s.pops r x = s.pushes r x + if x < poolSize r ∧ x ∉ s.stack r then 1 else 0) ∧
    (∀ op s' h a, s.next size op = some s' → actor op = some h → s.slots h = some a →
      s.valid a = false → Same s s') ∧
    (∀ op s' p u, s.next size op = some s' → s.pubs p = some u → op ≠ .destroyPublisher p →
      ∃ u', s'.pubs p = some u' ∧ u.reservation ≤ u'.reservation ∧
        ∀ h, op = .allocate p h → u.reservation < u'.reservation) ∧
    ∀ p k s', Spent s p k → Lives size p s s' → Spent s' p k := by
  obtain ⟨hp, hh⟩ := sound_reach hs
  refine ⟨hh.one, fun h p hv => ?_, hh.owned, fun r x hx => hp.inOnePlace hx, hp.nodup, hp.once,
    fun op s' h a hst hop ha hv => same_of_stale ha hv hop hst, fun op s' p u hst hu hd => ?_,
    fun p k s' hsp hl => hsp.lives hl⟩
  · obtain ⟨a, u, ha, hap, hu, hnp, he⟩ := hv
    obtain ⟨x, hx, hdata, -⟩ := hh.live h a p u ha hap hu hnp he
    exact ⟨a, u, x, ha, hu, hx, hdata⟩
  · obtain ⟨u', hu', hle⟩ := keeps_next hst hu hd
    refine ⟨u', hu', hle, fun h hop => ?_⟩
    subst hop
    simp only [State.next, hu] at hst
    split at hst <;> cases hst
    obtain ⟨u'', hu'', hlt, -⟩ := allocate_id size hu
    rw [setSlot_pubs, hu'', Option.some.injEq] at hu'
    rw [← hu', hlt]
    exact Nat.lt_succ_self _

/-- A pool of two slots, and no object yet. -/
def pairOfSlots : State Unit :=
  ⟨fun _ => none, fun _ => none, fun _ => [0, 1], fun _ _ => false, fun _ _ _ => 0, fun _ _ => 0,
    fun _ _ => 0, 0⟩

theorem init_pairOfSlots : Init (fun _ => 2) pairOfSlots where
  pubs _ := rfl
  slots _ := rfl
  nodup _ := by simp [pairOfSlots]
  full _ x := by simp [pairOfSlots]; omega
  published _ _ := rfl
  pops _ _ := rfl
  pushes _ _ := rfl

/-- A second allocation supersedes the first: one valid handle is left. -/
theorem handles_never_alias_superseded : ∃ s : State Unit,
    (machine (fun _ => 8) fun _ => 2).Reach inLifetime s ∧
      (s.slots 0).any s.valid = false ∧ (s.slots 1).any s.valid = true ∧
      (∀ h h' p, s.ValidAt h p → s.ValidAt h' p → h = h') ∧ s.InOnePlace () 0 := by
  have call : ∀ (op : Op Unit) {s s' : State Unit},
      (machine (fun _ => 8) fun _ => 2).Reach inLifetime s → s.next (fun _ => 8) op = some s' →
      inLifetime s op s' → (machine (fun _ => 8) fun _ => 2).Reach inLifetime s' :=
    fun _ _ _ h hst ho => h.step hst ho
  have h1 := call (.constructPublisher 0 ()) (.init init_pairOfSlots) rfl trivial
  have h2 := call (.allocate 0 0) h1 rfl trivial
  have h3 := call (.allocate 0 1) h2 rfl trivial
  have hall := handles_never_alias h3
  exact ⟨_, h3, rfl, rfl, hall.1, hall.2.2.2.1 () 0 (by decide)⟩

end Kickmsg.Handles.State
