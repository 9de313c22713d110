import Kickmsg.Blackboard.Course

/-!
# One owner to a key

The board lock has one live holder as long as a recoverer that found the holder dead still finds it dead
when it takes the lock over. Under that condition a key is published by one entry, an entry has one live
`Writer`, and nobody takes the entry of a live `Writer` away.
-/

namespace Kickmsg.Blackboard

open Lib

/-! ## The invariant -/

section System

variable {ι : Type} {proc : ι → Nat × Nat} {s : Shared ι Loc Actor (Trace ι)} {g : Geometry}

/-- Nobody alive has a `Writer` of entry `i`. -/
def Vacant (proc : ι → Nat × Nat) (s : Shared ι Loc Actor (Trace ι)) (i : Nat) : Prop :=
  ∀ u w, (s.th u).claim = some w → w.entryIdx = i → proc u ∈ s.world.gone

/-- What a live `Writer` finds in its entry; `p` is its process. -/
structure Owned (n : Nat) (m : Loc → Nat) (p : Nat × Nat) (a : Actor) (w : Writer) : Prop where
  lt : w.entryIdx < n
  valid : ValidKey w.key
  keyed : Keyed m w.entryIdx w.key
  tenancy : m (.entry w.entryIdx .tenancy) = w.tenancy
  owner : a.pc.disowning = false →
    m (.entry w.entryIdx .ownerPid) = p.1 ∧ m (.entry w.entryIdx .ownerStarttime) = p.2

structure Inv (g : Geometry) (proc : ι → Nat × Nat) (s : Shared ι Loc Actor (Trace ι)) : Prop where
  pids : ∀ t, (proc t).1 < 2 ^ 32
  ident : ∀ t, ((s.th t).pid, (s.th t).starttime) = proc t
  token : s.mem .lockToken = match s.ghost.holder with
    | none => 0
    | some t => makeToken (proc t).1 (proc t).2
  inside : ∀ t, (s.th t).pc.inside = true → s.ghost.holder = some t ∨ proc t ∈ s.world.gone
  holder : ∀ t, s.ghost.holder = some t → (s.th t).pc.inside = true ∧ s.world.Known (proc t)
  entry : ∀ i < g.capacity, EntryOk s.mem i
  unique : ∀ i < g.capacity, ∀ j < g.capacity, ∀ key, Keyed s.mem i key → Keyed s.mem j key → i = j
  settled : ∀ i < g.capacity, Settled s.mem i ∨
    ∃ t, s.ghost.holder = some t ∧ (s.th t).pc.unsettled i = true
  known : ∀ t w, (s.th t).claim = some w → s.world.Known (proc t)
  owned : ∀ t w, (s.th t).claim = some w →
    proc t ∈ s.world.gone ∨ Owned g.capacity s.mem (proc t) (s.th t) w
  single : ∀ t u w w', t ≠ u → (s.th t).claim = some w → (s.th u).claim = some w' →
    w.entryIdx = w'.entryIdx → proc t ∈ s.world.gone ∨ proc u ∈ s.world.gone
  work : ∀ t, proc t ∈ s.world.gone ∨ (s.th t).Work g.capacity s.mem (Vacant proc s)

/-- The verdict on the holder still stands when the lock is taken over: no running process has the token
that is replaced. -/
def upheld (s : Shared ι Loc Actor (Trace ι)) : Action ι Call → Bool
  | .run t _ => match (s.th t).pc with
    | .lockSteal _ _ _ held => decide (s.mem .lockToken ≠ held) || tokenHolderDead s.world.procs held
    | _ => true
  | _ => true

/-- The step takes no counter of an entry past 64 bits. -/
def unwrapped (s : Shared ι Loc Actor (Trace ι)) : Action ι Call → Bool
  | .run t _ => match (s.th t).pc with
    | .sweepBump _ _ i | .takeBump _ i | .claimBump _ i => decide (s.mem (.entry i .tenancy) + 1 < 2 ^ 64)
    | .relBump w => decide (s.mem (.entry w.entryIdx .tenancy) + 1 < 2 ^ 64)
    | .writeOpen w _ | .writeClose w _ _ => decide (2 * (w.writes + 1) < 2 ^ 64)
    | _ => true
  | _ => true

def steady (s : Shared ι Loc Actor (Trace ι)) (l : Action ι Call) : Bool := upheld s l && unwrapped s l

theorem steady_iff {l : Action ι Call} : steady s l = true ↔ upheld s l = true ∧ unwrapped s l = true := by
  rw [steady, Bool.and_eq_true]

theorem inv_init (h : Init proc s) : Inv g proc s where
  pids := h.pids
  ident t := by rw [h.th t]
  token := by rw [h.ghost, h.mem]
  inside t ht := by rw [h.th t] at ht; cases ht
  holder t ht := by rw [h.ghost] at ht; cases ht
  entry i _ := ⟨.inl (h.mem _), fun _ => ⟨h.mem _, h.mem _⟩, fun ha => by rw [h.mem] at ha; cases ha⟩
  unique i _ j _ key hk := by have := hk.state; rw [h.mem] at this; cases this
  settled i _ := .inl (.inl ⟨h.mem _, h.mem _, h.mem _⟩)
  known t w hw := by rw [h.th t] at hw; cases hw
  owned t w hw := by rw [h.th t] at hw; cases hw
  single t u w w' _ hw := by rw [h.th t] at hw; cases hw
  work t := .inr (by rw [h.th t]; trivial)

/-- Processes that exit or start leave the invariant. -/
theorem Inv.world (h : Inv g proc s) {w : World} (hle : s.world.Le w) :
    Inv g proc { s with world := w } where
  pids := h.pids
  ident := h.ident
  token := h.token
  inside t ht := (h.inside t ht).imp id (hle.gone _)
  holder t ht := ⟨(h.holder t ht).1, (h.holder t ht).2.le hle⟩
  entry := h.entry
  unique := h.unique
  settled := h.settled
  known t x hx := (h.known t x hx).le hle
  owned t x hx := (h.owned t x hx).imp (hle.gone _) id
  single t u x y hne hx hy he := (h.single t u x y hne hx hy he).imp (hle.gone _) (hle.gone _)
  work t := (h.work t).imp (hle.gone _) fun hw => hw.mono fun _ =>
    ⟨fun _ hv u x hx he => hle.gone _ (hv u x hx he), fun _ _ _ => rfl⟩

variable {t u : ι} {x : Access Loc Query} {now : Nat}

/-! ### What a live actor may conclude -/

/-- Two actors are never both alive and in the section. -/
theorem Inv.exclusive (h : Inv g proc s) (hs : s.world.Sound) (ht : s.world.alive (proc t) = true)
    (hu : s.world.alive (proc u) = true) (hti : (s.th t).pc.inside = true)
    (hui : (s.th u).pc.inside = true) : t = u := by
  have h1 := (h.inside t hti).resolve_right (hs.not_gone ht)
  have h2 := (h.inside u hui).resolve_right (hs.not_gone hu)
  rw [h1, Option.some.injEq] at h2
  exact h2

theorem Inv.vacant_of_idle (h : Inv g proc s) {i : Nat}
    (hi : s.mem (.entry i .state) = active → s.mem (.entry i .keyHash) = 0) : Vacant proc s i := by
  rintro u w hw rfl
  refine (h.owned u w hw).resolve_right fun ho => ?_
  have := hi ho.keyed.state
  rw [ho.keyed.hash] at this
  exact keyFingerprint_ne _ this

theorem Inv.vacant_of_takeable (h : Inv g proc s) (hs : s.world.Sound)
    (hu : s.world.alive (proc u) = true) (hin : (s.th u).pc.inside = true)
    (hdis : (s.th u).pc.disowning = false) {i : Nat}
    (hi : s.mem (.entry i .ownerPid) = 0 ∨ ownerIsDead s.world.procs (s.mem (.entry i .ownerPid))
      (s.mem (.entry i .ownerStarttime)) = true) : Vacant proc s i := by
  rintro t w hw rfl
  by_contra hng
  have ho := (h.owned t w hw).resolve_left hng
  by_cases htu : t = u
  · subst htu
    obtain ⟨h1, h2⟩ := ho.owner hdis
    rw [h1, h2, not_ownerIsDead hu] at hi
    simp [(hs.nonzero _ hu).1] at hi
  · cases hd : (s.th t).pc.disowning with
    | true =>
      -- it is releasing the entry, under the lock that `u` has
      have h1 := (h.inside t (Pc.inside_of_disowning hd)).resolve_right hng
      have h2 := (h.inside u hin).resolve_right (hs.not_gone hu)
      rw [h1, Option.some.injEq] at h2
      exact htu h2
    | false =>
      obtain ⟨h1, h2⟩ := ho.owner hd
      have hta := (h.known t w hw).resolve_right hng
      rw [h1, h2, not_ownerIsDead hta] at hi
      simp [(hs.nonzero _ hta).1] at hi

/-- Nobody alive holds the token that is replaced. -/
theorem Inv.gone_of_free (h : Inv g proc s) (hs : s.world.Sound)
    (hfree : s.mem .lockToken = 0 ∨ tokenHolderDead s.world.procs (s.mem .lockToken) = true)
    (ht : s.ghost.holder = some t) : proc t ∈ s.world.gone := by
  refine (h.holder t ht).2.gone ?_
  by_contra hne
  have hal : s.world.alive (proc t) = true := by simpa using hne
  have htok := h.token
  rw [ht] at htok
  rw [htok] at hfree
  rcases hfree with hf | hf
  · exact makeToken_ne _ _ hf
  · rw [not_tokenHolderDead hs (h.pids t) hal] at hf
    simp at hf

section Alive

variable (h : Inv g proc s) (hs : s.world.Sound) (hu : s.world.alive (proc u) = true)
  (hreq : (s.th u).request = some x)

include h hs hu

/-- A live actor in the section holds the lock. -/
theorem Inv.holds (hin : (s.th u).pc.inside = true) : s.ghost.holder = some u :=
  (h.inside u hin).resolve_right (hs.not_gone hu)

theorem Inv.works : (s.th u).Work g.capacity s.mem (Vacant proc s) :=
  (h.work u).resolve_left (hs.not_gone hu)

/-- A live actor that is releasing finds its entry as it left it. -/
theorem Inv.releasing {w : Writer} (hpc : (s.th u).pc = .relState w ∨ (s.th u).pc = .relTenancy w ∨
    (s.th u).pc = .relPid w ∨ (s.th u).pc = .relStart w ∨ (s.th u).pc = .relBump w) :
    Owned g.capacity s.mem (proc u) (s.th u) w := by
  refine (h.owned u w ?_).resolve_left (hs.not_gone hu)
  have hw := h.works hs hu
  rcases hpc with hpc | hpc | hpc | hpc | hpc <;> rw [Actor.Work, hpc] at hw <;>
    rw [Actor.claim_of_plain (by rw [hpc]; rfl)] <;> exact hw

/-- What an edited entry has to do with `Writer`s: either nobody alive has one, or it is the editor's own,
which it is releasing. -/
theorem Inv.edits {i : Nat} (hi : (s.th u).pc.edits = some i) : i < g.capacity ∧
    ((Vacant proc s i ∧ ∀ w, (s.th u).pc ≠ .relPid w ∧ (s.th u).pc ≠ .relStart w ∧
      (s.th u).pc ≠ .relBump w) ∨
    ∃ w, w.entryIdx = i ∧ (s.th u).claim = some w ∧
      ((s.th u).pc = .relPid w ∨ (s.th u).pc = .relStart w ∨ (s.th u).pc = .relBump w)) := by
  have hw := h.works hs hu
  cases hpc : (s.th u).pc <;> rw [hpc] at hi <;>
    simp only [Pc.edits, Option.some.injEq, reduceCtorEq] at hi <;> subst hi <;>
    rw [Actor.Work, hpc] at hw
  case relPid w | relStart w | relBump w =>
    exact ⟨(h.releasing hs hu (by simp [hpc])).lt,
      .inr ⟨w, rfl, by rw [Actor.claim_of_plain (by rw [hpc]; rfl)]; exact hw, by simp⟩⟩
  case wipeHash | wipePid | wipeStart | wipeState => exact ⟨hw.2.1, .inl ⟨hw.2.2.1, by simp⟩⟩
  case takeStart | sweepBump => exact ⟨hw.2.1, .inl ⟨hw.2.2.2, by simp⟩⟩
  case takePid | takeBump => exact ⟨hw.2.1, .inl ⟨hw.2.2.2.1, by simp⟩⟩
  case claimMark => exact ⟨hw.2.1, .inl ⟨hw.2.2.2, by simp⟩⟩
  all_goals exact ⟨hw.2.1, .inl ⟨hw.2.2.2.1, by simp⟩⟩

/-- Nobody else alive has a `Writer` of an entry that is edited. -/
theorem Inv.others_gone {i : Nat} (hi : (s.th u).pc.edits = some i) {w : Writer} (htu : t ≠ u)
    (hw : (s.th t).claim = some w) (he : w.entryIdx = i) : proc t ∈ s.world.gone := by
  rcases (h.edits hs hu hi).2 with ⟨hv, -⟩ | ⟨w', he', hw', -⟩
  · exact hv t w hw he
  · exact (h.single t u w w' htu hw hw' (he.trans he'.symm)).resolve_right (hs.not_gone hu)

include hreq

/-- What a live actor knows after its step, in terms of the vacancies before it. -/
theorem Inv.works_next :
    ((s.th u).resume g (x.exec verdict s.world.procs s.mem now).2).Work g.capacity
      (x.exec verdict s.world.procs s.mem now).1 (Vacant proc s) :=
  Actor.work_resume (h.works hs hu) hreq h.entry (fun _ _ hi => h.vacant_of_idle hi)
    (fun hin hdis _ _ hi => h.vacant_of_takeable hs hu hin hdis hi)
    fun _ hpc => ⟨(h.releasing hs hu hpc).keyed.state, (h.releasing hs hu hpc).tenancy⟩

/-- A `declare` that ends makes a `Writer` that owns its entry, where nobody alive had one. -/
theorem Inv.gains {w : Writer}
    (hpc : (∃ key i ten, (s.th u).pc = .takePublish key i ten ∧
        w = ⟨i, ten, (x.exec verdict s.world.procs s.mem now).2.val / 2, (s.th u).pid, key⟩) ∨
      ∃ key i, (s.th u).pc = .claimTenancy key i ∧
        w = ⟨i, (x.exec verdict s.world.procs s.mem now).2.val, 0, (s.th u).pid, key⟩) :
    (s.th u).pc.inside = true ∧ Vacant proc s w.entryIdx ∧
      (x.exec verdict s.world.procs s.mem now).1 = s.mem ∧
      ∀ b : Actor, Owned g.capacity s.mem (proc u) b w := by
  have hp1 : (s.th u).pid = (proc u).1 := congrArg Prod.fst (h.ident u)
  have hp2 : (s.th u).starttime = (proc u).2 := congrArg Prod.snd (h.ident u)
  have hw := h.works hs hu
  rcases hpc with ⟨key, i, ten, hpc, rfl⟩ | ⟨key, i, hpc, rfl⟩ <;> rw [Actor.request, hpc] at hreq <;>
    obtain rfl := Option.some.inj hreq <;> rw [Actor.Work, hpc] at hw
  · obtain ⟨hd, hi, hk, hvac, hn, hten⟩ := hw
    exact ⟨by rw [hpc]; rfl, hvac, rfl, fun b => ⟨hi, hd.1, hk, hten, fun _ => ⟨hp1 ▸ hn.1, hp2 ▸ hn.2⟩⟩⟩
  · obtain ⟨hd, hi, hk, hvac, hn⟩ := hw
    exact ⟨by rw [hpc]; rfl, hvac, rfl, fun b => ⟨hi, hd.1, hk, rfl, fun _ => ⟨hp1 ▸ hn.1, hp2 ▸ hn.2⟩⟩⟩

end Alive

theorem course_of_request (hreq : (s.th u).request = some x) :
    (s.th u).Course ((s.th u).resume g (x.exec verdict s.world.procs s.mem now).2)
      (x.exec verdict s.world.procs s.mem now).2 :=
  Actor.course (by simp [hreq])

/-! ### The lock -/

theorem Actor.takes_lock {a : Actor} (hreq : a.request = some x)
    (ht : x.target = some .lockToken) : a.pc.locks = true ∨ ∃ o, a.pc = .unlock o := by
  unfold Actor.request at hreq
  cases hpc : a.pc <;> rw [hpc] at hreq <;> simp only [Option.some.injEq, reduceCtorEq] at hreq <;>
    subst hreq <;> simp_all [Access.target, Pc.locks]

/-- Who takes the lock from a dead holder repairs the board from its first entry on. -/
theorem Actor.repairs {a : Actor} {m : Loc → Nat} {procs : Nat → Option Nat} {i : Nat}
    (hreq : a.request = some x) (hlk : a.pc.locks = true) (hok : (x.exec verdict procs m now).2.ok = true)
    (hne : m .lockToken ≠ 0) (hi : i < g.capacity) :
    (a.resume g (x.exec verdict procs m now).2).pc.unsettled i = true := by
  cases hpc : a.pc <;> rw [hpc] at hlk <;> simp only [Pc.locks, Bool.false_eq_true] at hlk
  case lockTake j st c =>
    rw [Actor.request, hpc] at hreq
    obtain rfl := Option.some.inj hreq
    simp [Access.exec, hne] at hok
  case lockSteal j st c held =>
    rw [Actor.resume, hpc]
    simp only [hok, if_true, Actor.repairAt, if_pos (show 0 < g.capacity by omega)]
    exact decide_eq_true (Nat.zero_le i)

section Run

variable [DecidableEq ι]

theorem Trace.track_holder (tr : Trace ι) (m : Loc → Nat) (t : ι) (a : Actor) (r : Answer) :
    (tr.track m t a r).holder = match a.pc with
      | .lockTake _ _ _ | .lockSteal _ _ _ _ => if r.ok then some t else tr.holder
      | .unlock _ => none
      | _ => tr.holder := by
  unfold Trace.track
  cases a.pc <;> simp only [Trace.begin, Trace.append, Trace.publish] <;> split <;> rfl

theorem ran_mem : ((program ι g).ran s u x now).mem = (x.exec verdict s.world.procs s.mem now).1 := rfl

theorem ran_self : ((program ι g).ran s u x now).th u =
    (s.th u).resume g (x.exec verdict s.world.procs s.mem now).2 := Function.update_self ..

theorem ran_other (htu : t ≠ u) : ((program ι g).ran s u x now).th t = s.th t :=
  Function.update_of_ne htu ..

theorem ran_ghost : ((program ι g).ran s u x now).ghost =
    s.ghost.track s.mem u (s.th u) (x.exec verdict s.world.procs s.mem now).2 := rfl

/-- What a step does to the lock. -/
inductive Locking (s : Shared ι Loc Actor (Trace ι)) (u : ι) (p : Nat × Nat) (r : Answer)
    (s' : Shared ι Loc Actor (Trace ι)) : Prop
  | take (hlk : (s.th u).pc.locks = true) (hok : r.ok = true) (hg : s'.ghost.holder = some u)
      (hm : s'.mem .lockToken = makeToken p.1 p.2)
      (hfree : s.mem .lockToken = 0 ∨ tokenHolderDead s.world.procs (s.mem .lockToken) = true)
  | give (hun : ∃ o, (s.th u).pc = .unlock o) (hg : s'.ghost.holder = none)
      (hm : s'.mem .lockToken = 0)
  | keep (hlk : (s.th u).pc.locks = true → r.ok = false) (hun : ∀ o, (s.th u).pc ≠ .unlock o)
      (hg : s'.ghost.holder = s.ghost.holder) (hm : s'.mem .lockToken = s.mem .lockToken)

theorem locking_cas {e : Nat} (h : Inv g proc s)
    (hx : x = .cas .lockToken e (makeToken (s.th u).pid (s.th u).starttime))
    (hlk : (s.th u).pc.locks = true)
    (hfree : s.mem .lockToken = e →
      s.mem .lockToken = 0 ∨ tokenHolderDead s.world.procs (s.mem .lockToken) = true) :
    Locking s u (proc u) (x.exec verdict s.world.procs s.mem now).2 ((program ι g).ran s u x now) := by
  have hp1 : (s.th u).pid = (proc u).1 := congrArg Prod.fst (h.ident u)
  have hp2 : (s.th u).starttime = (proc u).2 := congrArg Prod.snd (h.ident u)
  subst hx
  have hgh := @ran_ghost _ s g u (.cas .lockToken e (makeToken (s.th u).pid (s.th u).starttime)) now _
  have hme := @ran_mem _ s g u (.cas .lockToken e (makeToken (s.th u).pid (s.th u).starttime)) now _
  by_cases hm : s.mem .lockToken = e
  · simp only [Access.exec, if_pos hm] at hgh hme ⊢
    refine .take hlk rfl ?_ ?_ (hfree hm)
    · rw [hgh, Trace.track_holder]
      cases hpc : (s.th u).pc <;> simp_all [Pc.locks]
    · rw [hme, Function.update_self, hp1, hp2]
  · simp only [Access.exec, if_neg hm] at hgh hme ⊢
    refine .keep (fun _ => rfl) (fun o ho => by rw [ho] at hlk; cases hlk) ?_ (by rw [hme])
    rw [hgh, Trace.track_holder]
    cases hpc : (s.th u).pc <;> simp_all [Pc.locks]

theorem locking (h : Inv g proc s) (hreq : (s.th u).request = some x)
    (hup : upheld s (.run u now) = true) :
    Locking s u (proc u) (x.exec verdict s.world.procs s.mem now).2 ((program ι g).ran s u x now) := by
  by_cases hlk : (s.th u).pc.locks = true
  · cases hpc : (s.th u).pc <;> rw [hpc] at hlk <;> simp only [Pc.locks, Bool.false_eq_true] at hlk
    case lockTake j st c =>
      rw [Actor.request, hpc] at hreq
      exact locking_cas h (Option.some.inj hreq).symm (by rw [hpc]; rfl) .inl
    case lockSteal j st c held =>
      rw [Actor.request, hpc] at hreq
      refine locking_cas h (Option.some.inj hreq).symm (by rw [hpc]; rfl) fun hm => .inr ?_
      simpa [upheld, hpc, hm] using hup
  · by_cases hun : ∃ o, (s.th u).pc = .unlock o
    · obtain ⟨o, hpc⟩ := hun
      rw [Actor.request, hpc] at hreq
      obtain rfl := Option.some.inj hreq
      refine .give ⟨o, hpc⟩ ?_ ?_
      · rw [ran_ghost, Trace.track_holder, hpc]
      · simp [ran_mem, Access.exec]
    · refine .keep (fun h => absurd h hlk) (fun o ho => hun ⟨o, ho⟩) ?_ ?_
      · rw [ran_ghost, Trace.track_holder]
        cases hpc : (s.th u).pc <;> simp_all [Pc.locks]
      · refine Access.exec_frame fun ht => ?_
        rcases Actor.takes_lock hreq ht with h' | h'
        · exact hlk h'
        · exact hun h'

/-! ### The step -/

/-- Outside the entry that a step edits, the guarded words stay. -/
theorem frame (hreq : (s.th u).request = some x) {i : Nat} (hi : (s.th u).pc.edits ≠ some i) {f : Field}
    (hf : f ≠ .publish) :
    ((program ι g).ran s u x now).mem (.entry i f) = s.mem (.entry i f) :=
  Access.exec_frame fun ht => hi (Actor.edits_of_target hreq ht (by simp [Loc.guarded, hf]))

theorem EntryOk.congr {m m' : Loc → Nat} {i : Nat} (h : EntryOk m i)
    (hm : ∀ f, f ≠ .publish → m' (.entry i f) = m (.entry i f)) : EntryOk m' i := by
  have hst := hm .state (by simp)
  have hh := hm .keyHash (by simp)
  refine ⟨by rw [hst]; exact h.states, fun hf => ?_, fun ha hne => ?_⟩
  · rw [hh, hm .ownerPid (by simp)]
    exact h.free (by rwa [hst] at hf)
  · obtain ⟨key, hv, hk⟩ := h.keyed (by rwa [hst] at ha) (by rwa [hh] at hne)
    exact ⟨key, hv, hk.congr hm⟩

variable (h : Inv g proc s) (hs : s.world.Sound) (hu : s.world.alive (proc u) = true)
  (hreq : (s.th u).request = some x)

include h hs hu hreq

/-- A `Writer` after a step was there before it, or its `declare` has just ended. -/
theorem Inv.claim_next {w' : Writer} (hw' : (((program ι g).ran s u x now).th t).claim = some w') :
    (∃ w, (s.th t).claim = some w ∧ w.Same w') ∨
      (t = u ∧ (s.th u).pc.inside = true ∧ Vacant proc s w'.entryIdx ∧
        (x.exec verdict s.world.procs s.mem now).1 = s.mem ∧
        ∀ b : Actor, Owned g.capacity s.mem (proc u) b w') := by
  by_cases htu : t = u
  · subst htu
    rw [ran_self] at hw'
    have hwrite : ∀ w d now, (s.th t).pc = .writeClose w d now → (s.th t).writer = some w := by
      intro w d now hpc
      have hw := h.works hs hu
      rwa [Actor.Work, hpc] at hw
    rcases (course_of_request hreq).claim hw' hwrite with hold | hnew
    · exact .inl hold
    · exact .inr ⟨rfl, h.gains hs hu hreq hnew⟩
  · rw [ran_other htu] at hw'
    exact .inl ⟨w', hw', .refl _⟩

/-- What a live `Writer` finds in its entry stays. -/
theorem Inv.owned_next {w' : Writer}
    (hw' : (((program ι g).ran s u x now).th t).claim = some w') :
    proc t ∈ s.world.gone ∨ Owned g.capacity ((program ι g).ran s u x now).mem (proc t)
      (((program ι g).ran s u x now).th t) w' := by
  rcases h.claim_next hs hu hreq hw' with ⟨w, hw, hsame⟩ | ⟨rfl, -, -, hmem, how⟩
  · rcases h.owned t w hw with hg | ho
    · exact .inl hg
    by_cases hi : (s.th u).pc.edits = some w.entryIdx
    · by_cases htu : t = u
      · subst htu
        -- its own release: the key and the tenancy stay until the `Writer` is gone
        rcases (h.edits hs hu hi).2 with ⟨hv, -⟩ | ⟨w₁, -, hw₁, hpc⟩
        · exact .inl (hv t w hw rfl)
        obtain rfl : w₁ = w := Option.some.inj (hw₁.symm.trans hw)
        rw [ran_self] at hw' ⊢
        right
        rcases hpc with hpc | hpc | hpc <;> rw [Actor.request, hpc] at hreq <;>
          obtain rfl := Option.some.inj hreq
        · refine ⟨hsame.entryIdx ▸ ho.lt, hsame.key ▸ ho.valid, ?_, ?_, fun hd => ?_⟩
          · rw [hsame.entryIdx, hsame.key]
            exact ho.keyed.update (by simp)
          · rw [hsame.entryIdx, hsame.tenancy, ← ho.tenancy]
            simp [ran_mem, Access.exec]
          · rw [Actor.resume, hpc] at hd
            cases hd
        · refine ⟨hsame.entryIdx ▸ ho.lt, hsame.key ▸ ho.valid, ?_, ?_, fun hd => ?_⟩
          · rw [hsame.entryIdx, hsame.key]
            exact ho.keyed.update (by simp)
          · rw [hsame.entryIdx, hsame.tenancy, ← ho.tenancy]
            simp [ran_mem, Access.exec]
          · rw [Actor.resume, hpc] at hd
            cases hd
        · rw [Actor.resume, hpc] at hw'
          cases hw'
      · exact .inl (h.others_gone hs hu hi htu hw rfl)
    · right
      have hfr : ∀ f, f ≠ .publish → ((program ι g).ran s u x now).mem (.entry w'.entryIdx f) =
          s.mem (.entry w.entryIdx f) := fun f hf => by
        rw [hsame.entryIdx]
        exact frame hreq hi hf
      refine ⟨hsame.entryIdx ▸ ho.lt, hsame.key ▸ ho.valid, ?_, ?_, fun hd => ?_⟩
      · rw [hsame.key]
        exact ⟨(hfr .state (by simp)).trans ho.keyed.state, (hfr .keyHash (by simp)).trans ho.keyed.hash,
          fun k hk => (hfr (.key k) (by simp)).trans (ho.keyed.words k hk)⟩
      · rw [hfr .tenancy (by simp), ho.tenancy, hsame.tenancy]
      · rw [hfr .ownerPid (by simp), hfr .ownerStarttime (by simp)]
        refine ho.owner ?_
        by_cases htu : t = u
        · subst htu
          by_contra hne
          refine hi ?_
          have hww := h.works hs hu
          cases hpc : (s.th t).pc <;> simp only [hpc, Pc.disowning, not_true_eq_false] at hne
          all_goals
            rw [Actor.Work, hpc] at hww
            rw [Actor.claim_of_plain (by rw [hpc]; rfl), hww] at hw
            rw [Pc.edits, Option.some.inj hw]
        · rwa [ran_other htu] at hd
  · right
    rw [ran_mem, hmem]
    exact how _

/-- Two live `Writer`s never share an entry. -/
theorem Inv.single_next {t' : ι} {w w' : Writer} (hne : t ≠ t')
    (hw : (((program ι g).ran s u x now).th t).claim = some w)
    (hw' : (((program ι g).ran s u x now).th t').claim = some w') (he : w.entryIdx = w'.entryIdx) :
    proc t ∈ s.world.gone ∨ proc t' ∈ s.world.gone := by
  rcases h.claim_next hs hu hreq hw with ⟨v, hv, hsame⟩ | ⟨rfl, -, hvac, -, -⟩ <;>
    rcases h.claim_next hs hu hreq hw' with ⟨v', hv', hsame'⟩ | ⟨rfl, -, hvac', -, -⟩
  · exact h.single t t' v v' hne hv hv' (by rw [← hsame.entryIdx, he, hsame'.entryIdx])
  · exact .inl (hvac' t v hv (hsame.entryIdx.symm.trans he))
  · exact .inr (hvac t' v' hv' (hsame'.entryIdx.symm.trans he.symm))
  · exact absurd rfl hne

/-- What live actors know stays known. -/
theorem Inv.work_next : proc t ∈ s.world.gone ∨ (((program ι g).ran s u x now).th t).Work g.capacity
    ((program ι g).ran s u x now).mem (Vacant proc ((program ι g).ran s u x now)) := by
  by_cases htg : proc t ∈ s.world.gone
  · exact .inl htg
  right
  by_cases htu : t = u
  · subst htu
    have hw := @Inv.works_next _ _ _ _ _ _ now h hs hu hreq
    rw [ran_self, ran_mem]
    by_cases hgain : ∃ w, (s.th t).resume g (x.exec verdict s.world.procs s.mem now).2 =
        (s.th t).goto (.notifySeq true (.gain w))
    · obtain ⟨w, hgain⟩ := hgain
      rw [hgain] at hw ⊢
      exact hw
    · refine hw.mono fun _ => ⟨fun i hv t' w' hw' he => ?_, fun _ _ _ => rfl⟩
      by_cases htt : t' = t
      · subst htt
        rw [ran_self] at hw'
        have hwrite : ∀ w d now, (s.th t').pc = .writeClose w d now → (s.th t').writer = some w := by
          intro w d now hpc
          have hw := h.works hs hu
          rwa [Actor.Work, hpc] at hw
        rcases (course_of_request hreq).claim hw' hwrite with ⟨w, hw, hsame⟩ | hnew
        · exact hv t' w hw (hsame.entryIdx.symm.trans he)
        · refine absurd ⟨w', ?_⟩ hgain
          rcases hnew with ⟨key, k, ten, hpc, rfl⟩ | ⟨key, k, hpc, rfl⟩ <;> rw [Actor.resume, hpc]
      · rw [ran_other htt] at hw'
        exact hv t' w' hw' he
  · rw [ran_other htu]
    refine ((h.work t).resolve_left htg).mono fun hin => ?_
    -- another live actor in the section: then the one that runs is outside
    have hht := (h.inside t hin).resolve_right htg
    have hout : (s.th u).pc.inside = false := by
      cases hui : (s.th u).pc.inside with
      | false => rfl
      | true =>
        have hhu := h.holds hs hu hui
        rw [hht, Option.some.injEq] at hhu
        exact absurd hhu htu
    refine ⟨fun i hv t' w' hw' he => ?_, fun i f hf => frame hreq (fun hi => ?_) hf⟩
    · rcases h.claim_next hs hu hreq hw' with ⟨w, hw, hsame⟩ | ⟨-, hin', -⟩
      · exact hv t' w hw (hsame.entryIdx.symm.trans he)
      · rw [hout] at hin'
        cases hin'
    · rw [Pc.inside_of_edits hi] at hout
      cases hout

/-- Every entry keeps a form, and no two come to carry one key. -/
theorem Inv.entry_next {i : Nat} (hi : i < g.capacity) : EntryOk ((program ι g).ran s u x now).mem i ∧
      ∀ key, Keyed ((program ι g).ran s u x now).mem i key →
        Keyed s.mem i key ∨ Absent g.capacity s.mem key := by
  by_cases he : (s.th u).pc.edits = some i
  · exact Actor.edit_entry (h.works hs hu) hreq he (h.entry i hi) fun w hpc => by
      have ho := h.releasing hs hu (w := w) (by tauto)
      exact ⟨ho.valid, ho.keyed⟩
  · have hfr : ∀ f, f ≠ .publish → ((program ι g).ran s u x now).mem (.entry i f) =
        s.mem (.entry i f) := fun f hf => frame hreq he hf
    exact ⟨(h.entry i hi).congr hfr,
      fun key hk => .inl (hk.congr fun f hf => (hfr f hf).symm)⟩

/-- Entries are settled, or in the hands of the holder of the lock. -/
theorem Inv.settled_next {i : Nat} (hi : i < g.capacity)
    (hl : Locking s u (proc u) (x.exec verdict s.world.procs s.mem now).2
      ((program ι g).ran s u x now)) :
    Settled ((program ι g).ran s u x now).mem i ∨
      ∃ t, ((program ι g).ran s u x now).ghost.holder = some t ∧
        (((program ι g).ran s u x now).th t).pc.unsettled i = true := by
  have hrel : ∀ w, ((s.th u).pc = .relPid w ∨ (s.th u).pc = .relStart w ∨ (s.th u).pc = .relBump w) →
      s.mem (.entry w.entryIdx .state) = active ∧ s.mem (.entry w.entryIdx .keyHash) ≠ 0 := by
    intro w hpc
    have ho := h.releasing hs hu (w := w) (by tauto)
    exact ⟨ho.keyed.state, by rw [ho.keyed.hash]; exact keyFingerprint_ne _⟩
  cases hin : (s.th u).pc.inside with
  | true =>
    have hhold := h.holds hs hu hin
    have hset : Settled s.mem i ∨ (s.th u).pc.unsettled i = true := by
      rcases h.settled i hi with hset | ⟨t, ht, hun⟩
      · exact .inl hset
      · rw [hhold, Option.some.injEq] at ht
        exact .inr (ht ▸ hun)
    rcases @Actor.settle _ _ _ _ s.world.procs _ now _ (h.works hs hu) hreq hin hi (h.entry i hi)
      hset hrel with hset' | hun'
    · exact .inl hset'
    · cases hl with
      | take hlk _ _ _ _ =>
        cases hpc : (s.th u).pc <;> rw [hpc] at hlk hin <;> simp [Pc.locks, Pc.inside] at hlk hin
      | give hun _ _ =>
        have hout := (@course_of_request _ _ g _ _ now hreq).outside hun
        rw [Pc.inside_of_unsettled hun'] at hout
        cases hout
      | keep _ _ hg _ => exact .inr ⟨u, by rw [hg, hhold], by rw [ran_self]; exact hun'⟩
  | false =>
    have hed : (s.th u).pc.edits ≠ some i := fun he => by
      rw [Pc.inside_of_edits he] at hin
      cases hin
    have hfr : ∀ f, f ≠ .publish → ((program ι g).ran s u x now).mem (.entry i f) =
        s.mem (.entry i f) := fun f hf => frame hreq hed hf
    have hsame : Settled s.mem i → Settled ((program ι g).ran s u x now).mem i := by
      intro hset
      simpa only [Settled, hfr .state (by simp), hfr .keyHash (by simp), hfr .ownerPid (by simp)]
        using hset
    rcases h.settled i hi with hset | ⟨t, ht, hun⟩
    · exact .inl (hsame hset)
    cases hl with
    | take hlk hok hg hm hfree =>
      have htok := h.token
      rw [ht] at htok
      refine .inr ⟨u, hg, ?_⟩
      rw [ran_self]
      exact Actor.repairs hreq hlk hok (by rw [htok]; exact makeToken_ne _ _) hi
    | give hun' _ _ =>
      obtain ⟨o, hpc⟩ := hun'
      rw [hpc] at hin
      cases hin
    | keep _ _ hg _ =>
      refine .inr ⟨t, by rw [hg, ht], ?_⟩
      by_cases htu : t = u
      · subst htu
        rw [Pc.inside_of_unsettled hun] at hin
        cases hin
      · rw [ran_other htu]
        exact hun

/-- One step. -/
theorem Inv.ran (hup : upheld s (.run u now) = true) : Inv g proc ((program ι g).ran s u x now) := by
  have hl := locking h hreq hup
  have hc := @course_of_request _ s g u x now hreq
  have hng := hs.not_gone hu
  refine ⟨h.pids, fun t => ?_, ?_, fun t hti => ?_, fun t ht => ?_, fun i hi => ?_, ?_, fun i hi => ?_,
    fun t w hw => ?_, fun t w hw => ?_, fun t t' w w' hne hw hw' he => ?_, fun t => ?_⟩
  · by_cases htu : t = u
    · subst htu
      rw [ran_self, hc.ident.1, hc.ident.2]
      exact h.ident t
    · rw [ran_other htu]
      exact h.ident t
  · cases hl with
    | take _ _ hg hm _ => rw [hm, hg]
    | give _ hg hm => rw [hm, hg]
    | keep _ _ hg hm => rw [hm, hg, h.token]
  · by_cases htu : t = u
    · subst htu
      rw [ran_self] at hti
      left
      cases hl with
      | take _ _ hg _ _ => exact hg
      | give hun _ _ =>
        rw [hc.outside hun] at hti
        cases hti
      | keep hlk _ hg _ =>
        rcases hc.from_inside hti with ⟨hin, -⟩ | ⟨h1, h2⟩
        · rw [hg, h.holds hs hu hin]
        · rw [hlk h1] at h2
          cases h2
    · rw [ran_other htu] at hti
      rcases h.inside t hti with hht | hg
      · cases hl with
        | take _ _ _ _ hfree => exact .inr (h.gone_of_free hs hfree hht)
        | give hun _ _ =>
          obtain ⟨o, hpc⟩ := hun
          have := h.holds hs hu (by rw [hpc]; rfl)
          rw [hht, Option.some.injEq] at this
          exact absurd this htu
        | keep _ _ hg _ => exact .inl (hg.trans hht)
      · exact .inr hg
  · cases hl with
    | take hlk hok hg _ _ =>
      rw [hg, Option.some.injEq] at ht
      subst ht
      refine ⟨?_, .inl hu⟩
      rw [ran_self]
      cases hc with
      | on hin _ _ ho | enter _ _ ho =>
        obtain ⟨pc, hb, hpi, -⟩ := ho
        rw [hb]
        exact hpi
      | off _ _ hno _ =>
        rw [hno hlk] at hok
        cases hok
      | gain w hpc _ => rcases hpc with ⟨_, _, _, hpc, -⟩ | ⟨_, _, hpc, -⟩ <;> rw [hpc] at hlk <;> cases hlk
      | drop e hpc _ => obtain ⟨_, hpc | hpc | hpc⟩ := hpc <;> rw [hpc] at hlk <;> cases hlk
      | relay l o hpc _ => rcases hpc with hpc | hpc | hpc <;> rw [hpc] at hlk <;> cases hlk
      | leave o hpc _ => rcases hpc with hpc | hpc | hpc <;> rw [hpc] at hlk <;> cases hlk
      | wrote w d n hpc _ => rw [hpc] at hlk; cases hlk
    | give _ hg _ => rw [hg] at ht; cases ht
    | keep hlk hun hg _ =>
      rw [hg] at ht
      obtain ⟨hin, hk⟩ := h.holder t ht
      refine ⟨?_, hk⟩
      by_cases htu : t = u
      · subst htu
        rw [ran_self]
        exact hc.inside hin hun
      · rw [ran_other htu]
        exact hin
  · exact (h.entry_next hs hu hreq hi).1
  · intro i hi j hj key hki hkj
    rcases (h.entry_next hs hu hreq hi).2 key hki with h1 | h1 <;>
      rcases (h.entry_next hs hu hreq hj).2 key hkj with h2 | h2
    · exact h.unique i hi j hj key h1 h2
    · exact absurd h1 (h2 i hi)
    · exact absurd h2 (h1 j hj)
    · -- both carry it only now: one step edits one entry
      have hedit : ∀ k < g.capacity, Keyed ((program ι g).ran s u x now).mem k key →
          (s.th u).pc.edits = some k := by
        intro k hk hkk
        by_contra hne
        exact h1 k hk (hkk.congr fun f hf => (frame hreq hne hf).symm)
      exact Option.some.inj ((hedit i hi hki).symm.trans (hedit j hj hkj))
  · exact h.settled_next hs hu hreq hi hl
  · rcases h.claim_next hs hu hreq hw with ⟨v, hv, -⟩ | ⟨rfl, -⟩
    · exact h.known t v hv
    · exact .inl hu
  · exact h.owned_next hs hu hreq hw
  · exact h.single_next hs hu hreq hne hw hw' he
  · exact h.work_next hs hu hreq

end Run

section Runs

variable [DecidableEq ι]

theorem Trace.trackCall_holder (tr : Trace ι) (m : Loc → Nat) (c : Call) :
    (tr.trackCall m t c).holder = tr.holder := by
  unfold Trace.trackCall
  split
  · split <;> rfl
  · rfl

/-- The start of a call. -/
theorem Inv.called (h : Inv g proc s) {a : Actor} {c : Call}
    (hcall : (s.th u).call g c = some a) :
    Inv g proc { s with th := Function.update s.th u a, ghost := s.ghost.trackCall s.mem u c } := by
  obtain ⟨hidle, haside, hwork⟩ := Actor.call_spec hcall
  have hout : (s.th u).pc.inside = false := by rw [hidle]; rfl
  generalize hs' : ({ s with th := Function.update s.th u a, ghost := s.ghost.trackCall s.mem u c } :
    Shared ι Loc Actor (Trace ι)) = s'
  have hself : s'.th u = a := by rw [← hs']; exact Function.update_self ..
  have hother : ∀ t, t ≠ u → s'.th t = s.th t := fun t ht => by
    rw [← hs']
    exact Function.update_of_ne ht ..
  have hmem : s'.mem = s.mem := by rw [← hs']
  have hworld : s'.world = s.world := by rw [← hs']
  have hgh : s'.ghost.holder = s.ghost.holder := by
    rw [← hs']
    exact Trace.trackCall_holder ..
  clear hs'
  have hholder : ∀ t, s.ghost.holder = some t → t ≠ u := by
    rintro t ht rfl
    rw [(h.holder t ht).1] at hout
    cases hout
  -- the `Writer`s afterwards were there before
  have hclaim : ∀ t w, (s'.th t).claim = some w → (s.th t).claim = some w := by
    intro t w hw
    by_cases htu : t = u
    · subst htu
      rw [hself, Actor.claim_of_plain haside.plain] at hw
      rw [Actor.claim_of_plain (by rw [hidle]; rfl)]
      rcases haside.writer with hwr | hwr <;> rw [hwr] at hw
      · exact hw
      · cases hw
    · rwa [hother t htu] at hw
  refine ⟨h.pids, fun t => ?_, by rw [hmem, hgh]; exact h.token, fun t ht => ?_, fun t ht => ?_,
    by rw [hmem]; exact h.entry, by rw [hmem]; exact h.unique, fun i hi => ?_,
    fun t w hw => hworld ▸ h.known t w (hclaim t w hw), fun t w hw => ?_,
    fun t t' w w' hne hw hw' => hworld ▸ h.single t t' w w' hne (hclaim t w hw) (hclaim t' w' hw'),
    fun t => ?_⟩
  · by_cases htu : t = u
    · subst htu
      rw [hself, haside.pid, haside.starttime]
      exact h.ident t
    · rw [hother t htu]
      exact h.ident t
  · rw [hgh, hworld]
    by_cases htu : t = u
    · subst htu
      rw [hself, haside.inside] at ht
      cases ht
    · rw [hother t htu] at ht
      exact h.inside t ht
  · rw [hgh] at ht
    rw [hother t (hholder t ht), hworld]
    exact h.holder t ht
  · rw [hmem, hgh]
    refine (h.settled i hi).imp id ?_
    rintro ⟨t, ht, hun⟩
    exact ⟨t, ht, by rwa [hother t (hholder t ht)]⟩
  · rw [hworld, hmem]
    refine (h.owned t w (hclaim t w hw)).imp id fun ho =>
      ⟨ho.lt, ho.valid, ho.keyed, ho.tenancy, fun hd => ?_⟩
    by_cases htu : t = u
    · subst htu
      exact ho.owner (by rw [hidle]; rfl)
    · rw [hother t htu] at hd
      exact ho.owner hd
  · rw [hworld, hmem]
    by_cases htu : t = u
    · subst htu
      rw [hself]
      exact .inr (hwork ..)
    · rw [hother t htu]
      refine (h.work t).imp id fun hw => hw.mono fun _ => ⟨fun i hv t' w' hw' he => ?_, fun _ _ _ => rfl⟩
      rw [hworld]
      exact hv t' w' (hclaim t' w' hw') he

omit [DecidableEq ι] in
/-- A live actor whose `Writer` a `write` would accept has it as its claim. -/
theorem Inv.claim_of_accepted (h : Inv g proc s) (hs : s.world.Sound)
    (ht : s.world.alive (proc t) = true) {w : Writer} (hw : (s.th t).writer = some w)
    (hten : s.mem (.entry w.entryIdx .tenancy) = w.tenancy) : (s.th t).claim = some w := by
  cases hp : (s.th t).pc.plain with
  | true => rw [Actor.claim_of_plain hp, hw]
  | false =>
    have hwork := h.works hs ht
    have hcase : ∀ o : Outcome, o.Ok s.mem (s.th t) → (∃ v, o = .gain v) ∨ (∃ e, o = .drop e) →
        (s.th t).claim = some w := by
      rintro o ho (⟨v, rfl⟩ | ⟨e, rfl⟩)
      · rw [ho] at hw
        cases hw
      · exact absurd hten (ho w hw)
    cases hpc : (s.th t).pc <;> rw [hpc] at hp <;> simp only [Pc.plain, Bool.true_eq_false] at hp
    case unlock o =>
      rw [Actor.Work, hpc] at hwork
      exact hcase o hwork (by cases o <;> simp_all)
    all_goals
      rename_i locked o
      rw [Actor.Work, hpc] at hwork
      cases locked with
      | true => exact hcase o hwork (by cases o <;> simp_all)
      | false =>
        obtain ⟨r, rfl⟩ := hwork
        cases hp

/-- Only the claimant and the `Writer` of an entry store in its `publish` and its cells. -/
def Pc.stores : Pc → Option Nat
  | .claimClear _ i => some i
  | .writeOpen w _ | .writeWord w _ _ | .writeLen w _ | .writeStamp w _ _ | .writeClose w _ _ =>
    some w.entryIdx
  | _ => none

/-- The entry that a word belongs to. -/
def Loc.entryOf : Loc → Option Nat
  | .entry i _ | .cell i _ _ => some i
  | _ => none

theorem Actor.stores_of_target {a : Actor} {l : Loc} {i : Nat} (hreq : a.request = some x)
    (ht : x.target = some l) (hl : l.entryOf = some i) : a.pc.edits = some i ∨ a.pc.stores = some i := by
  unfold Actor.request at hreq
  cases hpc : a.pc <;> rw [hpc] at hreq <;> simp only [Option.some.injEq, reduceCtorEq] at hreq <;>
    subst hreq <;> simp only [Access.target, Option.some.injEq, reduceCtorEq] at ht <;> subst ht <;>
    simp_all [Loc.entryOf, Pc.edits, Pc.stores]

omit [DecidableEq ι] in
/-- Nobody else alive is at a live `Writer`'s entry. -/
theorem Inv.aloof (h : Inv g proc s) (hs : s.world.Sound) {w : Writer} (htu : t ≠ u)
    (ht : proc t ∉ s.world.gone) (hw : (s.th t).claim = some w) (hu : s.world.alive (proc u) = true) :
    (s.th u).pc.edits ≠ some w.entryIdx ∧ (s.th u).pc.stores ≠ some w.entryIdx := by
  refine ⟨fun he => ht (h.others_gone hs hu he htu hw rfl), fun hst => ?_⟩
  have hwork := h.works hs hu
  have hwriter : ∀ w', w'.entryIdx = w.entryIdx → (s.th u).pc.plain = true →
      (s.th u).writer = some w' → False := by
    intro w' he hp hw'
    rcases h.single t u w w' htu hw (by rw [Actor.claim_of_plain hp, hw']) he.symm with hg | hg
    · exact ht hg
    · exact hs.not_gone hu hg
  cases hpc : (s.th u).pc <;> rw [hpc] at hst <;>
    simp only [Pc.stores, Option.some.injEq, reduceCtorEq] at hst <;> rw [Actor.Work, hpc] at hwork
  case claimClear => exact ht (hwork.2.2.2.1 t w hw hst.symm)
  all_goals exact hwriter _ hst (by rw [hpc]; rfl) hwork

/-- Nobody else changes a word of a live `Writer`'s entry. -/
theorem Inv.undisturbed (h : Inv g proc s) (hs : s.world.Sound) {w : Writer} (htu : t ≠ u)
    (ht : proc t ∉ s.world.gone) (hw : (s.th t).claim = some w)
    (hu : s.world.alive (proc u) = true) (hreq : (s.th u).request = some x) {l : Loc}
    (hl : l.entryOf = some w.entryIdx) :
    ((program ι g).ran s u x now).mem l = s.mem l := by
  refine Access.exec_frame fun htar => ?_
  rcases Actor.stores_of_target hreq htar hl with he | hst
  · exact (h.aloof hs htu ht hw hu).1 he
  · exact (h.aloof hs htu ht hw hu).2 hst

/-- The runs of a board in which no recoverer takes the lock from a running process. -/
def Reached (g : Geometry) (proc : ι → Nat × Nat) : Shared ι Loc Actor (Trace ι) → Prop :=
  ((program ι g).machine proc (Init proc)).Reach fun s l _ => upheld s l = true

/-- The states of the runs in which, besides, no counter of an entry wraps. -/
def Steady (g : Geometry) (proc : ι → Nat × Nat) : Shared ι Loc Actor (Trace ι) → Prop :=
  ((program ι g).machine proc (Init proc)).Reach fun s l _ => steady s l = true

theorem Steady.reached (h : Steady g proc s) : Reached g proc s :=
  LTS.Reach.mono (fun _ _ _ _ hst => (steady_iff.mp hst).1) h

theorem inv_reach (h : Reached g proc s) : Inv g proc s ∧ s.world.Sound :=
  Program.invariant (fun _ h0 => ⟨inv_init h0, h0.world⟩)
    (fun _ _ _ _ hI hs hu hreq hup => hI.ran hs hu hreq hup)
    (fun _ _ _ _ hI _ _ hcall => hI.called hcall) (fun _ _ hI _ hle _ => hI.world hle) h

/-- A `write` through `w` would be accepted. -/
def Accepted (m : Loc → Nat) (w : Writer) : Prop :=
  m (.entry w.entryIdx .state) = active ∧ m (.entry w.entryIdx .tenancy) = w.tenancy

/-- Entry `i` is active under a key. -/
def Published (m : Loc → Nat) (i : Nat) : Prop :=
  m (.entry i .state) = active ∧ m (.entry i .keyHash) ≠ 0

/-- The key stored in entry `i`. -/
def keyOf (m : Loc → Nat) (i : Nat) : List UInt8 := bbLoadKey fun w => m (.entry i (.key w))

/-- What the board promises: a key is published once; the lock has one live holder, and passes from a dead
one to one recoverer with the whole repair ahead; past the repair every other entry is in order; a key has
one live `Writer` whose writes are accepted; and the entry of a live `Writer` is its own until it is
released: nobody else changes a word of it. -/
structure Exclusive (g : Geometry) (proc : ι → Nat × Nat) (s : Shared ι Loc Actor (Trace ι)) : Prop where
  unique : ∀ i < g.capacity, ∀ j < g.capacity, Published s.mem i → Published s.mem j →
    keyOf s.mem i = keyOf s.mem j → i = j
  inside : ∀ t u, s.world.alive (proc t) = true → s.world.alive (proc u) = true →
    (s.th t).pc.inside = true → (s.th u).pc.inside = true → t = u
  handover : ∀ t now s', (program ι g).next proc s (.run t now) = some s' →
    upheld s (.run t now) = true → s.mem .lockToken ≠ 0 → s'.mem .lockToken ≠ s.mem .lockToken →
    ((s.th t).pc.inside = true ∧ s'.mem .lockToken = 0) ∨
    ((∀ u, s.world.alive (proc u) = true → (s.th u).pc.inside = false) ∧
      s'.mem .lockToken = makeToken (proc t).1 (proc t).2 ∧
      ∀ i < g.capacity, (s'.th t).pc.unsettled i = true)
  repaired : ∀ t, s.world.alive (proc t) = true → (s.th t).pc.inside = true → ∀ i < g.capacity,
    Settled s.mem i ∨ (s.th t).pc.unsettled i = true
  settled : s.mem .lockToken = 0 → ∀ i < g.capacity, Settled s.mem i
  writer : ∀ t u w w', s.world.alive (proc t) = true → s.world.alive (proc u) = true →
    (s.th t).writer = some w → (s.th u).writer = some w' → Accepted s.mem w → Accepted s.mem w' →
    w.key = w'.key → t = u
  owner : ∀ t w, s.world.alive (proc t) = true → (s.th t).claim = some w →
    (s.th t).pc.disowning = false →
    Accepted s.mem w ∧ Published s.mem w.entryIdx ∧ keyOf s.mem w.entryIdx = w.key ∧
      s.mem (.entry w.entryIdx .ownerPid) = (proc t).1 ∧
      s.mem (.entry w.entryIdx .ownerStarttime) = (proc t).2 ∧
      ∀ u now s', u ≠ t → (program ι g).next proc s (.run u now) = some s' →
        ∀ l, l.entryOf = some w.entryIdx → s'.mem l = s.mem l

theorem Inv.promises (hI : Inv g proc s) (hs : s.world.Sound) : Exclusive g proc s := by
  have hkey : ∀ i < g.capacity, Published s.mem i →
      ValidKey (keyOf s.mem i) ∧ Keyed s.mem i (keyOf s.mem i) := by
    intro i hi hp
    obtain ⟨key, hv, hk⟩ := (hI.entry i hi).keyed hp.1 hp.2
    have hl : keyOf s.mem i = key := hk.load hv
    exact hl ▸ ⟨hv, hk⟩
  refine ⟨fun i hi j hj hpi hpj he => ?_, fun t u ht hu => hI.exclusive hs ht hu,
    fun t now s' hn hup hne hch => ?_, fun t ht hin i hi => ?_, fun hz i hi => ?_,
    fun t u w w' ht hu hw hw' ha ha' he => ?_, fun t w ht hw hd => ?_⟩
  · exact hI.unique i hi j hj _ (hkey i hi hpi).2 (he ▸ (hkey j hj hpj).2)
  · obtain ⟨ht, x, hreq, rfl⟩ := Program.run_cases hn
    cases locking hI hreq hup with
    | take hlk hok hg hm hfree =>
      right
      have hdead := hfree.resolve_left hne
      refine ⟨fun u hu => ?_, hm, ?_⟩
      · cases hin : (s.th u).pc.inside with
        | false => rfl
        | true => exact absurd (hI.gone_of_free hs hfree (hI.holds hs hu hin)) (hs.not_gone hu)
      · intro i hi
        rw [ran_self]
        exact Actor.repairs hreq hlk hok hne hi
    | give hun _ hm =>
      obtain ⟨o, hpc⟩ := hun
      exact .inl ⟨by rw [hpc]; rfl, hm⟩
    | keep _ _ _ hm => exact absurd hm hch
  · rcases hI.settled i hi with hset | ⟨u, hu, hun⟩
    · exact .inl hset
    · rw [hI.holds hs ht hin, Option.some.injEq] at hu
      exact .inr (hu ▸ hun)
  · refine (hI.settled i hi).resolve_right ?_
    rintro ⟨u, hu, -⟩
    have := hI.token
    rw [hu, hz] at this
    exact makeToken_ne _ _ this.symm
  · have hc := hI.claim_of_accepted hs ht hw ha.2
    have hc' := hI.claim_of_accepted hs hu hw' ha'.2
    have ho := (hI.owned t w hc).resolve_left (hs.not_gone ht)
    have ho' := (hI.owned u w' hc').resolve_left (hs.not_gone hu)
    by_contra hne
    have hidx := hI.unique _ ho.lt _ ho'.lt w.key ho.keyed (he ▸ ho'.keyed)
    rcases hI.single t u w w' hne hc hc' hidx with hg | hg
    · exact hs.not_gone ht hg
    · exact hs.not_gone hu hg
  · have ho := (hI.owned t w hw).resolve_left (hs.not_gone ht)
    refine ⟨⟨ho.keyed.state, ho.tenancy⟩, ⟨ho.keyed.state, ?_⟩, ho.keyed.load ho.valid, (ho.owner hd).1,
      (ho.owner hd).2, fun u now s' hut hn l hl => ?_⟩
    · rw [ho.keyed.hash]
      exact keyFingerprint_ne _
    · obtain ⟨hu, x, hreq, rfl⟩ := Program.run_cases hn
      exact hI.undisturbed hs (Ne.symm hut) (hs.not_gone ht) hw hu hreq hl

/-- In every run of a board, with any number of processes that may die at any step, in which no recoverer
takes the lock from a running process. -/
theorem keys_exclusive (h : Reached g proc s) : Exclusive g proc s :=
  (inv_reach h).1.promises (inv_reach h).2

end Runs

/-! ### A pid that comes back with its fingerprint -/

section Crew

/-- A crew has a first member. The numerals of its runs are read with this proof, whatever else is imported;
hence its priority. -/
scoped instance (priority := 2000) neZero_crew : NeZero 4 := ⟨by decide⟩

/-- Four threads: two processes with one pid, and two more. -/
def crewProc (t : Fin 4) : Nat × Nat :=
  match t with
  | 0 => (7, 109249451)
  | 1 => (7, 109576336)
  | 2 => (2, 1)
  | 3 => (3, 1)

def small : Geometry := ⟨1, 16, by decide⟩

def crew : Shared (Fin 4) Loc Actor (Trace (Fin 4)) where
  mem _ := 0
  world := ⟨fun pid => if pid = 7 then some 109249451 else if pid = 2 ∨ pid = 3 then some 1 else none, []⟩
  th t := ⟨(crewProc t).1, (crewProc t).2, none, none, .pending, .idle⟩
  ghost := ⟨none, fun _ => 0, fun _ => 0, fun _ _ => [], fun _ _ => [], fun _ => 0,
    fun _ => [], [], fun _ _ _ => false, fun _ _ _ => false⟩

theorem init_crew : Init crewProc crew where
  mem _ := rfl
  world := by
    refine ⟨by simp [crew], fun p hp => ?_⟩
    have hproc : (if p.1 = 7 then some 109249451 else if p.1 = 2 ∨ p.1 = 3 then some 1 else none) =
        some p.2 := of_decide_eq_true hp
    split_ifs at hproc <;> obtain h := Option.some.inj hproc <;> omega
  gone := rfl
  pids := by decide
  th _ := rfl
  ghost := rfl

/-- Thread 0 declares a key. -/
def crewDeclares : List (Action (Fin 4) Call) :=
  .call 0 (.declare [107]) :: List.replicate 34 (.run 0 5)

/-- Thread 0 declares a key, takes the lock again and dies with it; thread 2 declares the same key and finds
the holder of the lock dead. -/
def crewRecovers : List (Action (Fin 4) Call) :=
  crewDeclares ++ .call 0 .sweepStale :: List.replicate 3 (.run 0 0) ++
    .exit 7 :: .call 2 (.declare [107]) :: List.replicate 3 (.run 2 0)

/-- Its verdict stands: nobody alive is in the section, and thread 2 has the lock, and later the key. -/
theorem keys_exclusive_crew : ∃ s s' s'' : Shared (Fin 4) Loc Actor (Trace (Fin 4)),
    s.mem .lockToken = makeToken 7 109249451 ∧ s.world.alive (crewProc 0) = false ∧
      (∀ u, s.world.alive (crewProc u) = true → (s.th u).pc.inside = false) ∧
      (program (Fin 4) small).next crewProc s (.run 2 0) = some s' ∧ s'.mem .lockToken = makeToken 2 1 ∧
      LTS.play ((program (Fin 4) small).next crewProc) upheld s' (List.replicate 30 (.run 2 0)) = some s'' ∧
      Accepted s''.mem ⟨0, 2, 0, 2, [107]⟩ ∧ keyOf s''.mem 0 = [107] := by
  have h0 : Reached small crewProc crew := .init init_crew
  obtain ⟨s, hs, hP⟩ := LTS.Reach.play_any h0 crewRecovers
    (fun s : Shared (Fin 4) Loc Actor (Trace (Fin 4)) =>
      decide (s.mem .lockToken = makeToken 7 109249451 ∧ s.world.alive (crewProc 0) = false) &&
      (upheld s (.run 2 0) && ((program (Fin 4) small).next crewProc s (.run 2 0)).any
        fun s' : Shared (Fin 4) Loc Actor (Trace (Fin 4)) =>
        decide (s'.mem .lockToken ≠ s.mem .lockToken ∧ (s.th 2).pc.inside = false) &&
        (LTS.play ((program (Fin 4) small).next crewProc) upheld s' (List.replicate 30 (.run 2 0))).any
          fun s'' : Shared (Fin 4) Loc Actor (Trace (Fin 4)) =>
          decide ((s''.th 2).claim = some ⟨0, 2, 0, 2, [107]⟩ ∧ (s''.th 2).pc.disowning = false ∧
            s''.world.alive (crewProc 2) = true)))
    (by decide +kernel)
  rw [Bool.and_eq_true, Bool.and_eq_true, decide_eq_true_eq] at hP
  obtain ⟨⟨htok, hdead⟩, hup, hP⟩ := hP
  obtain ⟨s', hs', hP⟩ := (Option.any_eq_true _ _).mp hP
  rw [Bool.and_eq_true, decide_eq_true_eq] at hP
  obtain ⟨⟨hch, hout⟩, hP⟩ := hP
  obtain ⟨s'', hs'', hP⟩ := (Option.any_eq_true _ _).mp hP
  obtain ⟨hc, hd, ha⟩ := of_decide_eq_true hP
  have hne : s.mem .lockToken ≠ 0 := by
    rw [htok]
    exact makeToken_ne _ _
  rcases (keys_exclusive hs).handover 2 0 s' hs' hup hne hch with ⟨hin, -⟩ | ⟨hnone, hlock, -⟩
  · rw [hout] at hin
    cases hin
  · have hE := keys_exclusive (LTS.Reach.play (.step hs hs' hup) hs'')
    obtain ⟨hacc, -, hkey, -⟩ := hE.owner 2 _ ha hc hd
    exact ⟨s, s', s'', htok, hdead, hnone, hs', hlock, hs'', hacc, hkey⟩

/-- Thread 0 takes the lock and dies; thread 2 finds it dead; thread 3 takes the lock over, repairs, sweeps
and unlocks; the pid of thread 0 comes back with a start time of the same fingerprint and takes the lock;
thread 2 acts on what it has found. -/
def crewSteals : List (Action (Fin 4) Call) :=
  .call 0 .sweepStale :: List.replicate 3 (.run 0 0) ++
    .call 2 .sweepStale :: List.replicate 2 (.run 2 0) ++ .exit 7 :: .run 2 0 ::
    .call 3 .sweepStale :: List.replicate 12 (.run 3 0) ++ .spawn 7 109576336 ::
    .call 1 .sweepStale :: List.replicate 3 (.run 1 0) ++ [.run 2 0]

theorem two_in_section : ∃ s : Shared (Fin 4) Loc Actor (Trace (Fin 4)),
    ((program (Fin 4) small).machine crewProc (Init crewProc)).Reach LTS.any s ∧
      s.world.alive (crewProc 1) = true ∧ s.world.alive (crewProc 2) = true ∧
      (s.th 1).pc.inside = true ∧ (s.th 2).pc.inside = true := by
  have h0 : ((program (Fin 4) small).machine crewProc (Init crewProc)).Reach
      (fun _ _ _ => true = true) crew := .init init_crew
  obtain ⟨s, hs, hP⟩ := @LTS.Reach.play_any _ _ _ _ (fun _ _ => true) _ h0 crewSteals
    (fun s : Shared (Fin 4) Loc Actor (Trace (Fin 4)) => decide
      (s.world.alive (crewProc 1) = true ∧ s.world.alive (crewProc 2) = true ∧
        (s.th 1).pc.inside = true ∧ (s.th 2).pc.inside = true))
    (by decide +kernel)
  exact ⟨s, hs.mono fun _ _ _ _ _ => trivial, of_decide_eq_true hP⟩

end Crew

end System

end Kickmsg.Blackboard
