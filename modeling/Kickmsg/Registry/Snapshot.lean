import Kickmsg.Registry.Exclusivity

/-!
# What a snapshot returns

`snapshot` loads a row's state, its generation, the fields, the generation again and the state again, and
keeps the row when both states are Active and both generations are the same even number. The two pairs
are not nested: the state is loaded first and last, so a row that is retired before the first generation
load and registered anew after the second passes, and what is kept is the retired row. That is the only
way a snapshot goes wrong.
-/

namespace Kickmsg.Registry

open Lib

/-! ## Names -/

/-- A name is read from the words of its field. -/
theorem loadName_congr {size : Nat} {v w : Nat → Nat} (h : ∀ k, 8 * k < size → v k = w k) :
    loadName size v = loadName size w := by
  unfold loadName
  congr 1
  apply List.map_congr_left
  intro j hj
  rw [List.mem_range] at hj
  rw [byteIn, byteIn, h (j / 8) (by omega)]

/-- A name that was stored is read back, cut to leave a NUL and at its first NUL. -/
theorem loadName_storeName {size : Nat} (hsize : 0 < size) (name : List UInt8) :
    loadName size (storeName size name) = (name.take (size - 1)).takeWhile (· ≠ 0) := by
  have hlen : (name.take (size - 1)).length < size := by
    rw [List.length_take]
    omega
  obtain ⟨n, hn⟩ := Nat.exists_eq_add_of_lt hlen
  have hword : storeName size name = wordAt (byteOf (name.take (size - 1))) := rfl
  have hbytes : (fun j => UInt8.ofNat (byteIn (wordAt (byteOf (name.take (size - 1)))) j)) =
      fun j => UInt8.ofNat (byteOf (name.take (size - 1)) j) := by
    funext j
    rw [byteIn_wordAt (byteOf_lt _)]
  unfold loadName
  rw [hword, hbytes]
  generalize name.take (size - 1) = l at hn
  rw [hn, Nat.add_assoc, map_byteOf, List.takeWhile_append]
  split_ifs with hall
  · have := List.takeWhile_prefix (p := fun b : UInt8 => decide (b ≠ 0)) (l := l)
    rw [List.IsPrefix.eq_of_length this hall]
    simp [List.replicate_succ]
  · rfl

/-- The tuple that one `register_participant` writes, its names as they fit their fields. -/
def Registration.participant (r : Registration) : Participant where
  pid := r.pid
  pidStarttime := r.pidStarttime
  createdAtNs := r.createdAtNs
  channelType := r.args.channelType.word
  role := r.args.role.word
  kind := r.args.kind.word
  shmName := (r.args.shmName.take (shmNameMax - 1)).takeWhile (· ≠ 0)
  topicName := (r.args.topicName.take (topicNameMax - 1)).takeWhile (· ≠ 0)
  nodeName := (r.args.nodeName.take (nodeNameMax - 1)).takeWhile (· ≠ 0)

/-- A reader of the whole row finds that tuple. -/
theorem Participant.of_value (r : Registration) : Participant.of r.value = r.participant := by
  simp only [Participant.of, Registration.participant, Registration.value, loadName_storeName (show 0 < shmNameMax by decide),
    loadName_storeName (show 0 < topicNameMax by decide),
    loadName_storeName (show 0 < nodeNameMax by decide)]

theorem mem_loadOrder (f : Field) : f ∈ loadOrder ↔ f ∈ storeOrder := by
  simp only [loadOrder, storeOrder, List.mem_append, List.mem_cons, List.not_mem_nil, or_false]
  tauto

/-- A participant is read from the fields a snapshot loads. -/
theorem Participant.of_congr {v w : Field → Nat} (h : ∀ f ∈ loadOrder, v f = w f) :
    Participant.of v = Participant.of w := by
  have hname : ∀ k, k < 16 → v (.shmName k) = w (.shmName k) ∧ v (.topicName k) = w (.topicName k) := by
    intro k hk
    exact ⟨h _ (by simp [loadOrder, nameFields, hk]), h _ (by simp [loadOrder, nameFields, hk])⟩
  have hnode : ∀ k, k < 8 → v (.nodeName k) = w (.nodeName k) :=
    fun k hk => h _ (by simp [loadOrder, nameFields, hk])
  simp only [Participant.of, Participant.mk.injEq]
  refine ⟨h _ (by decide), h _ (by decide), h _ (by decide), h _ (by decide), h _ (by decide),
    h _ (by decide), loadName_congr fun k hk => ?_, loadName_congr fun k hk => ?_,
    loadName_congr fun k hk => ?_⟩
  · exact (hname k (by unfold shmNameMax at hk; omega)).1
  · exact (hname k (by unfold topicNameMax at hk; omega)).2
  · exact hnode k (by unfold nodeNameMax at hk; omega)

/-! ## Rows that one registration wrote -/

/-- `p` is what a registration in row `i` wrote, and names somebody. -/
def Genuine (written : Nat → List Registration) (x : Nat × Participant) : Prop :=
  x.2.pid ≠ 0 ∧ ∃ r ∈ written x.1, x.2 = r.participant

/-- Every row that a snapshot has returned is what one registration wrote there. -/
def Coherent {ι : Type} (s : Shared ι Loc Actor (Trace ι)) : Prop :=
  ∀ t out, (s.th t).result = .rows out → ∀ x ∈ out, Genuine s.ghost.written x

/-- The rows a running snapshot has collected. -/
def Pc.collected : Pc → Rows
  | .snapState out _ | .snapGen out _ | .snapField out _ _ _ _ _ | .snapGen2 out _ _ _
  | .snapState2 out _ _ _ _ => out
  | _ => []

/-- `x` has been collected: returned by the last call, or held by the running one. -/
def Actor.Collected (a : Actor) (x : Nat × Participant) : Prop :=
  (∃ out, a.result = .rows out ∧ x ∈ out) ∨ x ∈ a.pc.collected

theorem Genuine.mono {w w' : Nat → List Registration} {x : Nat × Participant} (h : Genuine w x)
    (hw : ∀ i r, r ∈ w i → r ∈ w' i) : Genuine w' x := by
  obtain ⟨hp, r, hr, hx⟩ := h
  exact ⟨hp, r, hw _ r hr, hx⟩

section Collect

variable {a : Actor} {x : Nat × Participant} {capacity : Nat}

/-- A thread moves on and collects nothing. -/
theorem Actor.collected_goto {pc : Pc} (hpc : ∀ y ∈ pc.collected, y ∈ a.pc.collected)
    (h : (a.goto pc).Collected x) : a.Collected x :=
  h.imp id (hpc x)

theorem Actor.collected_ret {r : Result} (hr : ∀ out, r = .rows out → ∀ y ∈ out, y ∈ a.pc.collected)
    (h : (a.ret r).Collected x) : a.Collected x := by
  rcases h with ⟨out, ho, hx⟩ | hx
  · exact .inr (hr out ho x hx)
  · simp [Actor.ret, Pc.collected] at hx

theorem Actor.collected_sweepAt {k : After} {freed i : Nat}
    (h : (a.sweepAt capacity k freed i).Collected x) : a.Collected x := by
  unfold Actor.sweepAt at h
  split at h
  · exact Actor.collected_goto (by simp [Pc.collected]) h
  · split at h
    · exact Actor.collected_ret (by simp) h
    · split at h
      · exact Actor.collected_ret (by simp) h
      · exact Actor.collected_goto (by simp [Pc.collected]) h

theorem Actor.collected_claimAt {r : Registration} {n i : Nat}
    (h : (a.claimAt capacity r n i).Collected x) : a.Collected x := by
  unfold Actor.claimAt at h
  split_ifs at h
  · exact Actor.collected_goto (by simp [Pc.collected]) h
  · exact Actor.collected_sweepAt h
  · exact Actor.collected_ret (by simp) h

theorem Actor.collected_snapAt {out : Rows} {i : Nat}
    (h : (a.snapAt capacity out i).Collected x) : a.Collected x ∨ x ∈ out := by
  unfold Actor.snapAt at h
  split_ifs at h
  · rcases h with h | h
    · exact .inl (.inl h)
    · exact .inr h
  · rcases h with ⟨out', ho, hx⟩ | hx
    · simp only [Actor.ret, Result.rows.injEq] at ho
      exact .inr (ho ▸ hx)
    · simp [Actor.ret, Pc.collected] at hx

/-- Only the second state load of a visit collects a row. -/
theorem Actor.collected_resume {r : Answer} (h : (a.resume capacity r).Collected x) :
    a.Collected x ∨ ∃ out i g v, a.pc = .snapState2 out i g g v ∧ r.val = active ∧
      x = (i, Participant.of v) := by
  unfold Actor.resume at h
  cases hpc : a.pc <;> rw [hpc] at h <;> dsimp only at h
  case idle => exact .inl h
  case claim =>
    split_ifs at h
    · exact .inl (Actor.collected_goto (by simp [Pc.collected]) h)
    · exact .inl (Actor.collected_claimAt h)
  case clock => exact .inl (Actor.collected_claimAt h)
  case fill r i f todo =>
    cases todo <;> exact .inl (Actor.collected_goto (by simp [Pc.collected]) h)
  case settleStore =>
    rcases h with ⟨out, ho, hx⟩ | hx
    · simp [Actor.ret] at ho
    · simp [Actor.ret, Pc.collected] at hx
  case deregFree => exact .inl (Actor.collected_ret (by simp) h)
  case deregCas =>
    split_ifs at h
    · exact .inl (Actor.collected_goto (by simp [Pc.collected]) h)
    · exact .inl (Actor.collected_ret (by simp) h)
  case sweepState | sweepGen | sweepProbe | sweepAcquire =>
    split_ifs at h
    all_goals first
      | exact .inl (Actor.collected_sweepAt h)
      | exact .inl (Actor.collected_goto (by simp [Pc.collected]) h)
  case sweepGen2 =>
    split_ifs at h
    · exact .inl (Actor.collected_sweepAt h)
    · exact .inl (Actor.collected_sweepAt h)
    · exact .inl (Actor.collected_goto (by simp [Pc.collected]) h)
  case sweepFree => exact .inl (Actor.collected_sweepAt h)
  case snapState out i =>
    split_ifs at h
    · refine .inl ((Actor.collected_snapAt h).elim id fun hx => .inr ?_)
      rw [hpc]
      exact hx
    · exact .inl (Actor.collected_goto (by simp [Pc.collected, hpc]) h)
  case snapGen out i =>
    split_ifs at h
    · refine .inl ((Actor.collected_snapAt h).elim id fun hx => .inr ?_)
      rw [hpc]
      exact hx
    · exact .inl (Actor.collected_goto (by simp [Pc.collected, hpc]) h)
  case snapField out i g v f todo =>
    cases todo <;> exact .inl (Actor.collected_goto (by simp [Pc.collected, hpc]) h)
  case snapGen2 => exact .inl (Actor.collected_goto (by simp [Pc.collected, hpc]) h)
  case snapState2 out i g g' v =>
    have hout : x ∈ out → a.Collected x := fun hx => .inr (by rw [hpc]; exact hx)
    split_ifs at h with hc
    · exact .inl ((Actor.collected_snapAt h).elim id hout)
    · rw [not_or, not_not, not_not] at hc
      obtain ⟨hval, rfl⟩ := hc
      rcases Actor.collected_snapAt h with hx | hx
      · exact .inl hx
      rcases List.mem_append.mp hx with hx | hx
      · exact .inl (hout hx)
      · exact .inr ⟨out, i, g, v, rfl, hval, by simpa using hx⟩
  all_goals exact .inl (Actor.collected_goto (by simp [Pc.collected]) h)

/-- The second state load follows the second generation load. -/
theorem Actor.snapState2_of_resume {r : Answer} {out : Rows} {i g : Nat} {v : Field → Nat}
    (h : (a.resume capacity r).pc = .snapState2 out i g g v) :
    a.pc = .snapGen2 out i g v ∧ r.val = g := by
  unfold Actor.resume at h
  cases hpc : a.pc <;> rw [hpc] at h <;> dsimp only at h
  case snapGen2 =>
    simp only [Actor.goto, Pc.snapState2.injEq] at h
    obtain ⟨rfl, rfl, rfl, hg, rfl⟩ := h
    exact ⟨rfl, hg⟩
  all_goals
    exfalso
    simp only [Actor.claimAt, Actor.sweepAt, Actor.snapAt, Actor.fillFrom, Actor.loadFrom,
      Actor.goto, Actor.ret, loadOrder, storeOrder, List.cons_append, hpc] at h
    repeat' split at h
    all_goals simp_all

end Collect

section System

variable {ι : Type} {proc : ι → Nat × Nat} {s : Shared ι Loc Actor (Trace ι)}

structure Kept (s : Shared ι Loc Actor (Trace ι)) : Prop where
  named : ∀ i r, r ∈ s.ghost.written i → r.pid ≠ 0
  rows : ∀ t x, (s.th t).Collected x → Genuine s.ghost.written x
  /-- the visit of a row that named somebody when it began has read one registration -/
  read : ∀ t out i g v, (s.th t).pc = .snapState2 out i g g v → (s.ghost.seen t).pid ≠ 0 →
    Genuine s.ghost.written (i, Participant.of v)

variable [DecidableEq ι] {capacity now : Nat} {u : ι}

/-- The steps on which the coherence of snapshots rests. A visit sees fewer than `2^32` changes of the
generation before it looks again. And when a snapshot loads the state of a row for the second time, the
row has not been registered anew since the second load of its generation, if it named nobody at the
first. -/
def steady (s : Shared ι Loc Actor (Trace ι)) : Action ι Call → Bool
  | .run t _ =>
    match (s.th t).pc with
    | .sweepAcquire _ _ i _ _ _ | .snapGen2 _ i _ _ =>
      decide (s.ghost.ticks i < (s.ghost.seen t).ticks + 2 ^ 32)
    | .snapState2 _ i g g' _ =>
      decide (g' = g → s.mem (i, .state) = active → (s.ghost.seen t).pid = 0 →
        s.ghost.ticks i = (s.ghost.seen t).ticks)
    | _ => true
  | _ => true

omit [DecidableEq ι] in
theorem calm_of_steady {l : Action ι Call} (h : steady s l = true) : calm (2 ^ 32) s l = true := by
  cases l with
  | run t now =>
    cases hpc : (s.th t).pc <;> simp_all [steady, calm]
  | call | exit | spawn => rfl

theorem Trace.written_track (g : Trace ι) (m : Loc → Nat) (t : ι) (a : Actor) (r : Answer)
    (i : Nat) {reg : Registration} (h : reg ∈ (g.track m t a r).written i) :
    reg ∈ g.written i ∨ a.pc = .activate reg i := by
  cases hpc : a.pc <;> simp only [Trace.track, hpc, Trace.rent, Trace.tick, Trace.look] at h
  case activate reg' j =>
    by_cases he : i = j
    · subst he
      rw [Function.update_self, List.mem_cons] at h
      rcases h with rfl | h
      · exact .inr rfl
      · exact .inl h
    · rw [Function.update_of_ne he] at h
      exact .inl h
  case claim | deregFree | sweepFree | sweepAcquire =>
    split_ifs at h
    all_goals exact .inl h
  all_goals exact .inl h

theorem Trace.written_mono (g : Trace ι) (m : Loc → Nat) (t : ι) (a : Actor) (r : Answer)
    (i : Nat) {reg : Registration} (h : reg ∈ g.written i) : reg ∈ (g.track m t a r).written i := by
  cases hpc : a.pc <;> simp only [Trace.track, hpc, Trace.rent, Trace.tick, Trace.look]
  case activate reg' j =>
    by_cases he : i = j
    · subst he
      simp [h]
    · simpa [Function.update_of_ne he] using h
  case claim | deregFree | sweepFree | sweepAcquire =>
    split_ifs
    all_goals exact h
  all_goals exact h

theorem Trace.seen_track (g : Trace ι) (m : Loc → Nat) {t v : ι} (a : Actor) (r : Answer)
    (hv : v ≠ t) : (g.track m t a r).seen v = g.seen v := by
  cases hpc : a.pc <;> simp only [Trace.track, hpc, Trace.rent, Trace.tick, Trace.look]
  case sweepGen | snapGen => simp [Function.update_of_ne hv]
  all_goals split_ifs <;> rfl

omit [DecidableEq ι] in
theorem kept_init (h : Init proc s) : Kept s := by
  refine ⟨fun i r hr => ?_, fun t x hx => ?_, fun t out i g v hpc => ?_⟩
  · simp [h.ghost] at hr
  · rw [h.th t] at hx
    simp [Actor.Collected, Pc.collected] at hx
  · rw [h.th t] at hpc
    simp at hpc

omit [DecidableEq ι] in
/-- A row that names somebody, read while its generation stood still, is what one registration wrote. -/
theorem Inv.genuine (h : Inv proc s) (hnamed : ∀ i r, r ∈ s.ghost.written i → r.pid ≠ 0) {i : Nat}
    (hg : s.mem (i, .generation) % 2 = 0) (hp : s.mem (i, .pid) ≠ 0) {v : Field → Nat}
    (hv : ∀ f ∈ loadOrder, v f = rowOf s.mem i f) :
    Genuine s.ghost.written (i, Participant.of v) := by
  obtain ⟨t, -, -, ⟨r, hr, -, hval⟩, -⟩ := h.named hg hp
  have hall : ∀ f ∈ loadOrder, v f = r.value f := fun f hf =>
    (hv f hf).trans (hval f ((mem_loadOrder f).mp hf))
  rw [Genuine, Participant.of_congr hall, Participant.of_value]
  exact ⟨hnamed i r hr, r, hr, rfl⟩

omit [DecidableEq ι] in
/-- A settled row that is active names somebody. -/
theorem Inv.named_of_active (h : Inv proc s) (hnamed : ∀ i r, r ∈ s.ghost.written i → r.pid ≠ 0)
    {i : Nat} (hg : s.mem (i, .generation) % 2 = 0) (hst : s.mem (i, .state) = active) :
    s.mem (i, .pid) ≠ 0 := by
  cases ht : s.ghost.tenant i with
  | none =>
    have hfree := (h.vacant i ht).1
    rw [rowOf, hst] at hfree
    exact absurd hfree (by decide)
  | some t =>
    obtain ⟨-, φ, -, hok⟩ := h.tenant i t ht
    have hcar : Carries (proc t) (s.ghost.written i) (rowOf s.mem i) := by
      cases φ <;> simp only [Phase.Ok, rowOf, hst] at hok
      case registered => exact hok.2.2
      case published | acquired => omega
      all_goals exact absurd hok (by simp [active, claiming, reclaiming])
    obtain ⟨r, hr, -, hval⟩ := hcar
    rw [show s.mem (i, .pid) = r.value .pid from hval .pid (by decide)]
    exact hnamed i r hr

theorem Kept.run (h : Kept s) (hI : Inv proc s) (hs : s.world.Sound)
    (ha : s.world.alive (proc u) = true) {a : Access Loc (Nat × Nat)}
    (hreq : (s.th u).request = some a) (hok : steady s (.run u now) = true) :
    Kept ((program ι capacity).ran s u a now) := by
  have hmono : ∀ i r, r ∈ s.ghost.written i →
      r ∈ ((program ι capacity).ran s u a now).ghost.written i :=
    fun i r hr => Trace.written_mono _ _ _ _ _ _ hr
  refine ⟨fun i r hr => ?_, fun t x hx => ?_, fun t out i g v hpc hpid => ?_⟩
  · rcases Trace.written_track _ _ _ _ _ _ hr with hr | hpc
    · exact h.named i r hr
    · obtain ⟨-, hid, -⟩ := hI.row hs ha (Actor.phase_of_pc (i := i) (by rw [hpc]; rfl))
      rw [← (Prod.mk.inj hid.symm).1]
      exact (hs.nonzero _ ha).1
  · by_cases he : t = u
    · subst he
      simp only [Program.ran, Function.update_self] at hx
      rcases Actor.collected_resume hx with hx | ⟨out, i, g, v, hpc, hval, rfl⟩
      · exact (h.rows t x hx).mono hmono
      · refine Genuine.mono ?_ hmono
        rw [show (s.th t).request = some (.load (i, .state)) by rw [Actor.request, hpc]] at hreq
        obtain rfl := Option.some.inj hreq
        refine h.read t out i g v hpc fun hpid => ?_
        -- the row named nobody, and has not changed since: it is not active
        simp only [steady, hpc, forall_const, decide_eq_true_eq] at hok
        have hfresh := hok hval hpid
        obtain ⟨-, hg, heven, hsees⟩ := hI.visit t i g (by rw [hpc]; simp [Pc.visit])
        have hgen := hI.gen i
        have hne := hI.named_of_active h.named (by rw [hgen, hfresh, ← hg]; exact heven) hval
        exact hne ((hsees hfresh).2 ▸ hpid)
    · simp only [Program.ran, Function.update_of_ne he] at hx
      exact (h.rows t x hx).mono hmono
  · by_cases he : t = u
    · subst he
      simp only [Program.ran, Function.update_self] at hpc
      obtain ⟨hpc', hval⟩ := Actor.snapState2_of_resume hpc
      rw [show (s.th t).request = some (.load (i, .generation)) by rw [Actor.request, hpc']] at hreq
      obtain rfl := Option.some.inj hreq
      have hpid' : (s.ghost.seen t).pid ≠ 0 := by
        simpa only [Program.ran, program, Trace.track, hpc'] using hpid
      obtain ⟨hle, hg, heven, hsees⟩ := hI.visit t i g (by rw [hpc']; rfl)
      have hgen := hI.gen i
      have hval' : s.mem (i, .generation) = g := hval
      have hfresh : s.ghost.ticks i = (s.ghost.seen t).ticks := by
        simp only [steady, hpc', decide_eq_true_eq] at hok
        omega
      obtain ⟨hv, hp⟩ := hsees hfresh
      rw [hpc'] at hv
      refine Genuine.mono (hI.genuine h.named ?_ (hp ▸ hpid') hv) hmono
      rw [hval']
      exact heven
    · simp only [Program.ran, Function.update_of_ne he] at hpc
      refine (h.read t out i g v hpc ?_).mono hmono
      rw [← Trace.seen_track _ s.mem (s.th u) _ he]
      exact hpid

theorem Kept.call (h : Kept s) {c : Call} {a : Actor} (hc : (s.th u).call capacity c = some a) :
    Kept { s with th := Function.update s.th u a } := by
  have hnew : (∀ x, ¬ a.Collected x) ∧ ∀ out i g g' v, a.pc ≠ .snapState2 out i g g' v := by
    unfold Actor.call at hc
    split at hc
    case h_2 => simp at hc
    case h_1 hpc =>
      split at hc
      · obtain rfl := Option.some.inj hc
        simp [Actor.Collected, Pc.collected]
      · split at hc
        · obtain rfl := Option.some.inj hc
          simp [Actor.Collected, Pc.collected]
        · simp at hc
      · obtain rfl := Option.some.inj hc
        refine ⟨fun x hx => ?_, ?_⟩
        · rcases Actor.collected_sweepAt hx with hx | hx
          · simp at hx
          · simp [hpc, Pc.collected] at hx
        · unfold Actor.sweepAt
          split <;> simp [Actor.goto, Actor.ret]
      · obtain rfl := Option.some.inj hc
        refine ⟨fun x hx => ?_, ?_⟩
        · rcases Actor.collected_snapAt hx with (hx | hx) | hx
          · simp at hx
          · simp [hpc, Pc.collected] at hx
          · simp at hx
        · unfold Actor.snapAt
          split <;> simp [Actor.goto, Actor.ret]
  refine ⟨h.named, forall_update_of (fun _ (a : Actor) => ∀ x, a.Collected x → Genuine _ x) h.rows
      fun x hx => absurd hx (hnew.1 x), fun t out i g v hpc => ?_⟩
  by_cases he : t = u
  · subst he
    simp only [Function.update_self] at hpc
    exact absurd hpc (hnew.2 out i g g v)
  · simp only [Function.update_of_ne he] at hpc
    exact h.read t out i g v hpc

/-- In every run whose steps are steady, every row that a snapshot returned is the tuple that one
registration wrote there, and names somebody. -/
theorem snapshot_coherent (h : ((program ι capacity).machine proc (Init proc)).Reach
    (fun s l _ => steady s l = true) s) : Coherent s := by
  have hall : (Inv proc s ∧ Kept s) ∧ s.world.Sound :=
    Program.invariant (I := fun s => Inv proc s ∧ Kept s)
      (fun _ h0 => ⟨⟨inv_init h0, kept_init h0⟩, h0.world⟩)
      (fun _ _ _ _ hI hs ha hreq hok =>
        ⟨hI.1.run hs ha hreq (calm_of_steady hok), hI.2.run hI.1 hs ha hreq hok⟩)
      (fun _ _ _ _ hI _ _ hc => ⟨hI.1.call hc, hI.2.call hc⟩)
      (fun _ _ hI _ hle _ => ⟨hI.1.move hle, hI.2.named, hI.2.rows, hI.2.read⟩) h
  exact fun t out hout x hx => hall.1.2.rows t x (.inl ⟨out, hout, hx⟩)

/-! ### A snapshot beside a registrant -/

section Pair

/-- Two threads, each in a process of its own. -/
def pairProc (t : Fin 2) : Nat × Nat := (t.val + 1, 1)

def pair : Shared (Fin 2) Loc Actor (Trace (Fin 2)) where
  mem _ := 0
  world := ⟨fun pid => if 0 < pid ∧ pid ≤ 2 then some 1 else none, []⟩
  th t := ⟨t.val + 1, 1, ∅, .pending, .idle⟩
  ghost := ⟨fun _ => 0, fun _ => ⟨0, 0⟩, fun _ => none, fun _ => []⟩

theorem init_pair : Init pairProc pair where
  mem _ := rfl
  world := by
    refine ⟨by simp [pair], fun p hp => ?_⟩
    simp only [World.alive, pair, decide_eq_true_eq, Option.ite_none_right_eq_some,
      Option.some.injEq] at hp
    omega
  gone := rfl
  th _ := rfl
  ghost := rfl

def pairArgs : Args := ⟨[47, 107], [116], .pubSub, .pubsub, .publisher, [110]⟩

def registers : List (Action (Fin 2) Call) :=
  .call 0 (.registerParticipant pairArgs) :: List.replicate 53 (.run 0 5)

/-- The last snapshot of thread 1 returned one row, and its pid is `pid`. -/
def returned (pid : Nat) (s : Shared (Fin 2) Loc Actor (Trace (Fin 2))) : Bool :=
  match (s.th 1).result with
  | .rows [x] => decide (x.2.pid = pid)
  | _ => false

theorem snapshot_coherent_pair : ∃ s : Shared (Fin 2) Loc Actor (Trace (Fin 2)),
    returned 1 s = true ∧ Coherent s := by
  obtain ⟨s, hs, hP⟩ := LTS.Reach.play_any
    (LTS.Reach.init init_pair : ((program (Fin 2) 1).machine pairProc (Init pairProc)).Reach
      (fun s l _ => steady s l = true) pair)
    (registers ++ .call 1 .snapshot :: List.replicate 50 (.run 1 0)) (returned 1) (by decide +kernel)
  exact ⟨s, hP, snapshot_coherent hs⟩

/-- Thread 0 registers. A snapshot finds the row active; thread 0 deregisters, and the snapshot loads the
settled generation, the cleared row and the generation again; thread 0 registers once more, and the
snapshot finds the row active. -/
def retired : List (Action (Fin 2) Call) :=
  registers ++ [.call 1 .snapshot, .run 1 0, .call 0 (.deregister 0)] ++
    List.replicate 8 (.run 0 0) ++ List.replicate 48 (.run 1 0) ++ registers ++ [.run 1 0]

/-- A snapshot returns a row whose identity had been cleared. -/
theorem snapshot_retired : ∃ s : Shared (Fin 2) Loc Actor (Trace (Fin 2)),
    ((program (Fin 2) 1).machine pairProc (Init pairProc)).Reach LTS.any s ∧
      returned 0 s = true ∧ ¬ Coherent s := by
  obtain ⟨s, hs, hP⟩ := LTS.Reach.play_any
    (LTS.Reach.init init_pair : ((program (Fin 2) 1).machine pairProc (Init pairProc)).Reach
      (fun _ _ _ => true = true) pair) retired (returned 0) (by decide +kernel)
  refine ⟨s, hs.mono fun _ _ _ _ _ => trivial, hP, fun hc => ?_⟩
  unfold returned at hP
  split at hP
  · rename_i x hx
    exact (hc 1 [x] hx x (by simp)).1 (of_decide_eq_true hP)
  · simp at hP

end Pair

end System

end Kickmsg.Registry
