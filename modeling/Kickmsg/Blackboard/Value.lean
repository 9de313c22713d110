import Kickmsg.Blackboard.Exclusivity
import Kickmsg.Blackboard.Phases

/-!
# The value of an entry

The value side of one entry is a pair of cells, a `publish` word that is odd while a cell is being
written, and the tenancy. `View` is that, with the lives of the entry beside it; `Evolves` lists what a
step of the board can do to it, and `View.Ok` is what every step keeps. `evolves` is the one lemma about
the board: whatever an actor does, each view evolves.
-/

namespace Kickmsg.Blackboard

open Lib

/-- The words of an entry that concern its value, and its lives. -/
structure View where
  publish : Nat
  tenancy : Nat
  key : Nat → Nat
  cell : Nat → CellField → Nat
  life : Nat
  born : Nat
  lifeKey : Nat → List UInt8
  log : Nat → List Written

namespace View

/-- The writes completed in the current life. -/
def writes (v : View) : List Written := v.log v.life

/-- The first `k` payload words of a cell are those of `d`. -/
def Payload (c : CellField → Nat) (d : List UInt8) (k : Nat) : Prop :=
  ∀ j < k, c (.payload j) = wordAt (byteOf d) j

/-- The cell holds a completed write. -/
structure Holds (c : CellField → Nat) (w : Written) : Prop where
  len : c .valueLen = w.data.length
  stamp : c .updatedAtNs = w.stamp
  words : Payload c w.data (wordsFor w.data.length)

/-- What holds of a view at any time. A claim resets `publish` first (`born` is the tenancy then), stores
the key, and moves the tenancy on; after that the key is the life's. -/
structure Ok (limit : Nat) (v : View) : Prop where
  count : v.publish / 2 = v.writes.length
  born_le : v.born ≤ v.tenancy
  fresh : v.born = v.tenancy → v.publish = 0
  named : v.born < v.tenancy → ValidKey (v.lifeKey v.life) ∧
    ∀ w < keyWords, v.key w = bbStoreKey (v.lifeKey v.life) w
  fits : ∀ n, ∀ w ∈ v.log n, w.data.length ≤ limit ∧ w.key = v.lifeKey n
  later : ∀ n, v.life < n → v.log n = []
  cell : ∀ k w, v.writes[k]? = some w →
    (k + 1 = v.writes.length ∨ (k + 2 = v.writes.length ∧ v.publish % 2 = 0)) →
    Holds (v.cell (cellOf (k + 1))) w

/-- What one step of a board can do to the view of an entry. -/
inductive Evolves (limit : Nat) (v : View) : View → Prop
  | same : Evolves limit v v
  /-- the tenancy moves on; if the life has just begun, its key is there -/
  | bump (h : v.born = v.tenancy → ValidKey (v.lifeKey v.life) ∧
      ∀ w < keyWords, v.key w = bbStoreKey (v.lifeKey v.life) w) :
    Evolves limit v { v with tenancy := v.tenancy + 1 }
  /-- a claim begins a life -/
  | reset (key : List UInt8) :
    Evolves limit v { v with
      publish := 0, life := v.life + 1, born := v.tenancy
      lifeKey := Function.update v.lifeKey (v.life + 1) key
      log := Function.update v.log (v.life + 1) [] }
  /-- a claim stores a word of the key -/
  | fill (h : v.born = v.tenancy) (key : Nat → Nat) : Evolves limit v { v with key := key }
  /-- a write begins -/
  | start (h : v.born < v.tenancy) : Evolves limit v { v with publish := 2 * v.writes.length + 1 }
  /-- a write stores a word of its cell -/
  | store (h : v.publish = 2 * v.writes.length + 1) (c : CellField → Nat) :
    Evolves limit v { v with cell := Function.update v.cell (cellOf (v.writes.length + 1)) c }
  /-- a write completes -/
  | close (w : Written) (h : v.publish = 2 * v.writes.length + 1) (hfit : w.data.length ≤ limit)
      (hkey : w.key = v.lifeKey v.life)
      (hc : Holds (v.cell (cellOf (v.writes.length + 1))) w) :
    Evolves limit v { v with
      publish := 2 * v.writes.length + 2
      log := Function.update v.log v.life (v.writes ++ [w]) }

variable {limit : Nat} {v v' : View}

theorem Ok.born_lt_of_publish (h : v.Ok limit) (hp : v.publish ≠ 0) : v.born < v.tenancy :=
  Nat.lt_of_le_of_ne h.born_le fun he => hp (h.fresh he)

theorem Evolves.born_lt (he : v.Evolves limit v') (hl : v'.life = v.life) (h : v.born < v.tenancy) :
    v'.born < v'.tenancy := by
  cases he with
  | bump => exact Nat.lt_succ_of_lt h
  | reset => exact absurd hl (Nat.succ_ne_self _)
  | _ => exact h

/-- Every step keeps the view in order. -/
theorem Ok.step (h : v.Ok limit) (he : Evolves limit v v') : v'.Ok limit := by
  cases he with
  | same => exact h
  | bump hkey =>
    refine ⟨h.count, Nat.le_succ_of_le h.born_le, fun hb => ?_, fun _ => ?_, h.fits, h.later, h.cell⟩
    · have := h.born_le
      dsimp only at hb
      omega
    · rcases Nat.eq_or_lt_of_le h.born_le with he | hlt
      · exact hkey he
      · exact h.named hlt
  | reset key =>
    have hw : (Function.update v.log (v.life + 1) []) (v.life + 1) = [] := Function.update_self ..
    refine ⟨?_, le_refl _, fun _ => rfl, fun hb => absurd hb (Nat.lt_irrefl _), fun n w hmem => ?_,
      fun n hn => ?_, fun k w hk => ?_⟩
    · simp [writes]
    · dsimp only at hmem
      by_cases hn : n = v.life + 1
      · subst hn
        rw [hw] at hmem
        cases hmem
      · rw [Function.update_of_ne hn] at hmem
        dsimp only
        rw [Function.update_of_ne hn]
        exact h.fits n w hmem
    · dsimp only at hn ⊢
      rw [Function.update_of_ne (Nat.ne_of_gt hn)]
      exact h.later n (Nat.lt_of_succ_lt hn)
    · simp [writes] at hk
  | fill hb key =>
    exact ⟨h.count, h.born_le, h.fresh, fun hlt => absurd hb (Nat.ne_of_lt hlt), h.fits, h.later, h.cell⟩
  | start hb =>
    refine ⟨?_, h.born_le, fun he => absurd he (Nat.ne_of_lt hb), h.named, h.fits, h.later,
      fun k w hk hcase => ?_⟩
    · simp only [writes]
      omega
    · refine h.cell k w hk (.inl (hcase.resolve_right ?_))
      rintro ⟨-, hodd⟩
      dsimp only at hodd
      omega
  | store hp c =>
    refine ⟨h.count, h.born_le, h.fresh, h.named, h.fits, h.later, fun k w hk hcase => ?_⟩
    have hlen : k + 1 = v.writes.length := hcase.resolve_right (by
      rintro ⟨-, heven⟩
      dsimp only at heven
      omega)
    dsimp only
    rw [Function.update_of_ne (by unfold cellOf; omega)]
    exact h.cell k w hk (.inl hlen)
  | close w₁ hp hfit hkey hc =>
    have hself : (Function.update v.log v.life (v.writes ++ [w₁])) v.life = v.writes ++ [w₁] :=
      Function.update_self ..
    have hb := h.born_lt_of_publish (by omega)
    refine ⟨?_, h.born_le, fun he => absurd he (Nat.ne_of_lt hb), h.named, fun n w hmem => ?_,
      fun n hn => ?_, fun k w hk hcase => ?_⟩
    · simp only [writes, Function.update_self, List.length_append, List.length_singleton]
      omega
    · dsimp only at hmem
      by_cases hn : n = v.life
      · subst hn
        rw [hself, List.mem_append, List.mem_singleton] at hmem
        rcases hmem with hmem | rfl
        · exact h.fits _ w hmem
        · exact ⟨hfit, hkey⟩
      · rw [Function.update_of_ne hn] at hmem
        exact h.fits n w hmem
    · dsimp only at hn ⊢
      rw [Function.update_of_ne (Nat.ne_of_gt hn)]
      exact h.later n hn
    · simp only [writes, Function.update_self, List.length_append, List.length_singleton] at hk hcase ⊢
      change (v.writes ++ [w₁])[k]? = some w at hk
      rcases hcase with hlast | ⟨hprev, -⟩
      · rw [List.getElem?_append_right (by simp only [writes]; omega)] at hk
        have hk0 : k - v.writes.length = 0 := by simp only [writes]; omega
        rw [hk0] at hk
        obtain rfl : w₁ = w := by simpa using hk
        have hkl : k = v.writes.length := by simp only [writes]; omega
        rw [hkl]
        exact hc
      · rw [List.getElem?_append_left (by simp only [writes]; omega)] at hk
        exact h.cell k w hk (.inl (by simp only [writes]; omega))

end View

/-! ## The views of a board -/

section System

variable {ι : Type} {proc : ι → Nat × Nat} {s : Shared ι Loc Actor (Trace ι)} {g : Geometry}

def viewOf (m : Loc → Nat) (tr : Trace ι) (i : Nat) : View where
  publish := m (.entry i .publish)
  tenancy := m (.entry i .tenancy)
  key w := m (.entry i (.key w))
  cell c f := m (.cell i c f)
  life := tr.life i
  born := tr.born i
  lifeKey := tr.lifeKey i
  log := tr.log i

/-- The view of entry `i`. -/
def view (s : Shared ι Loc Actor (Trace ι)) (i : Nat) : View := viewOf s.mem s.ghost i

/-- What a live `Writer` `w` knows of the value. -/
structure Writes (v : View) (w : Writer) : Prop where
  born : v.born < v.tenancy
  key : v.lifeKey v.life = w.key
  count : w.writes = v.writes.length

/-- What a live actor knows of the value it is claiming or writing. -/
def Actor.Draft (limit : Nat) (v : Nat → View) (a : Actor) : Prop :=
  match a.pc with
  | .claimKey key i _ | .claimClock key i | .claimStamp key i _ | .claimStart key i | .claimPid key i
  | .claimHash key i | .claimBump key i =>
    (v i).born = (v i).tenancy ∧ (v i).lifeKey (v i).life = key
  | .claimActivate key i | .claimTenancy key i =>
    (v i).born < (v i).tenancy ∧ (v i).lifeKey (v i).life = key ∧ (v i).writes = []
  | .writeState _ d | .writeTenancy _ d | .writeOpen _ d => d.length ≤ limit
  | .writeWord w d k => d.length ≤ limit ∧
      (v w.entryIdx).publish = 2 * (v w.entryIdx).writes.length + 1 ∧
      View.Payload ((v w.entryIdx).cell (cellOf (w.writes + 1))) d k ∧ k < wordsFor d.length
  | .writeLen w d => d.length ≤ limit ∧
      (v w.entryIdx).publish = 2 * (v w.entryIdx).writes.length + 1 ∧
      View.Payload ((v w.entryIdx).cell (cellOf (w.writes + 1))) d (wordsFor d.length)
  | .writeClock w d | .writeStamp w d _ => d.length ≤ limit ∧
      (v w.entryIdx).publish = 2 * (v w.entryIdx).writes.length + 1 ∧
      View.Payload ((v w.entryIdx).cell (cellOf (w.writes + 1))) d (wordsFor d.length) ∧
      (v w.entryIdx).cell (cellOf (w.writes + 1)) .valueLen = d.length
  | .writeClose w d now => d.length ≤ limit ∧
      (v w.entryIdx).publish = 2 * (v w.entryIdx).writes.length + 1 ∧
      View.Holds ((v w.entryIdx).cell (cellOf (w.writes + 1))) ⟨w.key, d, now⟩
  | _ => True

/-- The entry that `Draft` is about. -/
def Pc.drafts : Pc → Option Nat
  | .claimKey _ i _ | .claimClock _ i | .claimStamp _ i _ | .claimStart _ i | .claimPid _ i
  | .claimHash _ i | .claimBump _ i | .claimActivate _ i | .claimTenancy _ i => some i
  | .writeWord w _ _ | .writeLen w _ | .writeClock w _ | .writeStamp w _ _ | .writeClose w _ _ =>
    some w.entryIdx
  | _ => none

theorem Actor.Draft.congr {limit : Nat} {v v' : Nat → View} {a : Actor} (h : a.Draft limit v)
    (hv : ∀ i, a.pc.drafts = some i → v' i = v i) : a.Draft limit v' := by
  unfold Actor.Draft at h ⊢
  cases hpc : a.pc <;> rw [hpc] at h hv <;>
    first | exact h | (dsimp only at h ⊢; rw [hv _ rfl]; exact h)

theorem Actor.draft_of_phase {limit : Nat} {v : Nat → View} {a : Actor} (h : a.pc.phase ≠ .draft) :
    a.Draft limit v := by
  unfold Actor.Draft
  cases hpc : a.pc <;> rw [hpc] at h <;> trivial

theorem Actor.draft_writeWords {limit : Nat} {v : Nat → View} {a : Actor} {w : Writer} {d : List UInt8}
    {k : Nat} (hd : d.length ≤ limit)
    (hp : (v w.entryIdx).publish = 2 * (v w.entryIdx).writes.length + 1)
    (hk : View.Payload ((v w.entryIdx).cell (cellOf (w.writes + 1))) d k) (hle : k ≤ wordsFor d.length) :
    (a.writeWords w d k).Draft limit v := by
  unfold Actor.writeWords
  split_ifs with h
  · exact ⟨hd, hp, hk, h⟩
  · obtain rfl : k = wordsFor d.length := Nat.le_antisymm hle (Nat.le_of_not_lt h)
    exact ⟨hd, hp, hk⟩

structure Values (g : Geometry) (proc : ι → Nat × Nat) (s : Shared ι Loc Actor (Trace ι)) : Prop where
  ok : ∀ i, (view s i).Ok g.maxValueSize
  activated : ∀ i, s.mem (.entry i .state) = active → (view s i).born < (view s i).tenancy
  claim : ∀ t w, (s.th t).claim = some w → proc t ∈ s.world.gone ∨ Writes (view s w.entryIdx) w
  draft : ∀ t, proc t ∈ s.world.gone ∨ (s.th t).Draft g.maxValueSize (view s)
  silent : ∀ t, (s.th t).pc.silent = true

/-- The entry whose view an access changes. -/
def Pc.moves : Pc → Option Nat
  | .sweepBump _ _ i | .takeBump _ i | .claimBump _ i | .claimClear _ i | .claimKey _ i _ => some i
  | .relBump w | .writeOpen w _ | .writeWord w _ _ | .writeLen w _ | .writeStamp w _ _
  | .writeClose w _ _ => some w.entryIdx
  | _ => none

/-- The word belongs to the view of an entry. -/
def Loc.viewed : Loc → Option Nat
  | .entry i .publish | .entry i .tenancy | .entry i (.key _) | .cell i _ _ => some i
  | _ => none

theorem Actor.moves_of_target {a : Actor} {x : Access Loc Query} {l : Loc} {i : Nat}
    (hreq : a.request = some x) (ht : x.target = some l) (hl : l.viewed = some i) :
    a.pc.moves = some i := by
  unfold Actor.request at hreq
  cases hpc : a.pc <;> rw [hpc] at hreq <;> simp only [Option.some.injEq, reduceCtorEq] at hreq <;>
    subst hreq <;> simp only [Access.target, Option.some.injEq, reduceCtorEq] at ht <;> subst ht <;>
    simp_all [Loc.viewed, Pc.moves]

section Run

variable [DecidableEq ι] {t u : ι} {x : Access Loc Query} {now : Nat}

/-- Lives change at the start of a claim and at the end of a write. -/
theorem Trace.track_lives (tr : Trace ι) (m : Loc → Nat) (a : Actor) (r : Answer) {i : Nat}
    (hi : a.pc.moves ≠ some i) :
    (tr.track m t a r).life i = tr.life i ∧ (tr.track m t a r).born i = tr.born i ∧
      (tr.track m t a r).lifeKey i = tr.lifeKey i ∧ (tr.track m t a r).log i = tr.log i := by
  have hne : ∀ {j : Nat}, some j ≠ some i → i ≠ j := fun h he => h (he ▸ rfl)
  unfold Trace.track
  cases hpc : a.pc <;> rw [hpc] at hi
  case claimClear key j =>
    have := hne hi
    simp [Trace.begin, Function.update_of_ne this]
  case writeClose w d n =>
    have := hne hi
    simp [Trace.append, Function.update_of_ne this]
  all_goals first
    | exact ⟨rfl, rfl, rfl, rfl⟩
    | (dsimp only; split <;> exact ⟨rfl, rfl, rfl, rfl⟩)

theorem view_same (hreq : (s.th u).request = some x) {i : Nat} (hi : (s.th u).pc.moves ≠ some i) :
    view ((program ι g).ran s u x now) i = view s i := by
  have hm : ∀ l : Loc, l.viewed = some i → ((program ι g).ran s u x now).mem l = s.mem l :=
    fun l hl => Access.exec_frame fun ht => hi (Actor.moves_of_target hreq ht hl)
  obtain ⟨h1, h2, h3, h4⟩ := s.ghost.track_lives s.mem (s.th u)
    (x.exec verdict s.world.procs s.mem now).2 (t := u) hi
  unfold view viewOf
  rw [ran_ghost, h1, h2, h3, h4, hm (.entry i .publish) rfl, hm (.entry i .tenancy) rfl]
  congr 1
  · funext w
    exact hm (.entry i (.key w)) rfl
  · funext c f
    exact hm (.cell i c f) rfl

/-! ### The words of a view, stored -/

section Stores

variable {m : Loc → Nat} {tr : Trace ι} {i c v : Nat} {f : CellField}

omit [DecidableEq ι] in
theorem viewOf_publish : viewOf (Function.update m (.entry i .publish) v) tr i =
    { viewOf m tr i with publish := v } := by
  simp [viewOf]

omit [DecidableEq ι] in
theorem viewOf_tenancy : viewOf (Function.update m (.entry i .tenancy) v) tr i =
    { viewOf m tr i with tenancy := v } := by
  simp [viewOf]

omit [DecidableEq ι] in
theorem viewOf_key {w : Nat} : viewOf (Function.update m (.entry i (.key w)) v) tr i =
    { viewOf m tr i with key := Function.update (viewOf m tr i).key w v } := by
  simp only [viewOf, View.mk.injEq, and_true]
  refine ⟨by simp, by simp, ?_, ?_⟩
  · funext k
    by_cases hk : k = w
    · rw [hk, Function.update_self, Function.update_self]
    · rw [Function.update_of_ne hk, Function.update_of_ne (by simpa using hk)]
  · funext c f
    exact Function.update_of_ne (by simp) ..

omit [DecidableEq ι] in
theorem viewOf_cell : viewOf (Function.update m (.cell i c f) v) tr i =
    { viewOf m tr i with
      cell := Function.update (viewOf m tr i).cell c
        (Function.update ((viewOf m tr i).cell c) f v) } := by
  simp only [viewOf, View.mk.injEq, and_true]
  refine ⟨by simp, by simp, ?_, ?_⟩
  · funext k
    exact Function.update_of_ne (by simp) ..
  · funext c' f'
    by_cases hc : c' = c
    · subst hc
      rw [Function.update_self]
      by_cases hf : f' = f
      · rw [hf, Function.update_self, Function.update_self]
      · rw [Function.update_of_ne hf, Function.update_of_ne (by simpa using hf)]
    · rw [Function.update_of_ne hc, Function.update_of_ne (by simp [hc])]

end Stores

omit [DecidableEq ι] in
/-- Who moves the value of an entry edits it or stores in it. -/
theorem Pc.edits_of_moves {pc : Pc} {i : Nat} (h : pc.moves = some i) :
    pc.edits = some i ∨ pc.stores = some i := by
  cases pc <;> simp_all [Pc.moves, Pc.edits, Pc.stores]

omit [DecidableEq ι] in
theorem Values.writes_of_writer (hs : s.world.Sound) (hV : Values g proc s)
    (hu : s.world.alive (proc u) = true) {w : Writer} (hp : (s.th u).pc.plain = true)
    (hw : (s.th u).writer = some w) : Writes (view s w.entryIdx) w :=
  (hV.claim u w (by rw [Actor.claim_of_plain hp, hw])).resolve_left (hs.not_gone hu)

section Step

variable (hI : Inv g proc s) (hs : s.world.Sound) (hV : Values g proc s)
  (hu : s.world.alive (proc u) = true) (hreq : (s.th u).request = some x)

include hI hs hV hu hreq

/-- Whatever a live actor does, the view of every entry evolves; it starts a life only where a claim has
marked the entry. -/
theorem Values.evolves (hnw : unwrapped s (.run u now) = true) (i : Nat) :
    (view s i).Evolves g.maxValueSize (view ((program ι g).ran s u x now) i) ∧
      (s.mem (.entry i .state) = active →
        (view ((program ι g).ran s u x now) i).life = (view s i).life) := by
  by_cases hi : (s.th u).pc.moves = some i
  swap
  · rw [view_same hreq hi]
    exact ⟨.same, fun _ => rfl⟩
  have hwork := hI.works hs hu
  have hdraft := (hV.draft u).resolve_left (hs.not_gone hu)
  have hwr : ∀ {w}, (s.th u).pc.plain = true → (s.th u).writer = some w → Writes (view s w.entryIdx) w :=
    fun hp hw => hV.writes_of_writer hs hu hp hw
  have hbump : s.mem (.entry i .state) = active →
      (view s i).Evolves g.maxValueSize { view s i with tenancy := (view s i).tenancy + 1 } :=
    fun ha => .bump fun he => absurd he (Nat.ne_of_lt (hV.activated i ha))
  have hview : ∀ m tr, (x.exec verdict s.world.procs s.mem now).1 = m →
      s.ghost.track s.mem u (s.th u) (x.exec verdict s.world.procs s.mem now).2 = tr →
      view ((program ι g).ran s u x now) i = viewOf m tr i := by
    rintro m tr rfl rfl
    rfl
  cases hpc : (s.th u).pc <;> rw [hpc] at hi <;>
    simp only [Pc.moves, Option.some.injEq, reduceCtorEq] at hi <;> subst hi <;>
    simp only [unwrapped, hpc, decide_eq_true_eq] at hnw <;>
    rw [Actor.Work, hpc] at hwork <;> rw [Actor.Draft, hpc] at hdraft <;>
    rw [Actor.request, hpc] at hreq <;> obtain rfl := Option.some.inj hreq <;>
    rw [hview _ _ rfl (by rw [Trace.track, hpc])] <;> simp only [Access.exec]
  case sweepBump k n i =>
    rw [viewOf_tenancy, Nat.mod_eq_of_lt hnw]
    exact ⟨hbump hwork.2.2.1, fun _ => rfl⟩
  case takeBump key i =>
    rw [viewOf_tenancy, Nat.mod_eq_of_lt hnw]
    exact ⟨hbump hwork.2.2.1.state, fun _ => rfl⟩
  case relBump w =>
    rw [viewOf_tenancy, Nat.mod_eq_of_lt hnw]
    exact ⟨hbump (hI.releasing hs hu (w := w) (by simp [hpc])).keyed.state, fun _ => rfl⟩
  case claimBump key i =>
    rw [viewOf_tenancy, Nat.mod_eq_of_lt hnw]
    refine ⟨.bump fun _ => ?_, fun _ => rfl⟩
    rw [hdraft.2]
    exact ⟨hwork.1.1, hwork.2.2.2.2.1.2⟩
  case claimClear key i =>
    rw [viewOf_publish]
    refine ⟨?_, fun ha => absurd (hwork.2.2.2.2.symm.trans ha) (by decide)⟩
    have he : View.Evolves g.maxValueSize (view s i) _ := .reset key
    simpa [view, viewOf, Trace.begin] using he
  case claimKey key i w =>
    rw [viewOf_key]
    exact ⟨.fill hdraft.1 _, fun _ => rfl⟩
  case writeOpen w d =>
    rw [viewOf_publish]
    have hw := hwr (by rw [hpc]; rfl) hwork
    refine ⟨?_, fun _ => rfl⟩
    have hpub : u64 (2 * (w.writes + 1) - 1) = 2 * (view s w.entryIdx).writes.length + 1 := by
      rw [u64, Nat.mod_eq_of_lt (by omega), hw.count]
      omega
    rw [hpub]
    exact .start hw.born
  case writeWord w d k =>
    rw [viewOf_cell, (hwr (by rw [hpc]; rfl) hwork).count]
    exact ⟨.store hdraft.2.1 _, fun _ => rfl⟩
  case writeLen w d =>
    rw [viewOf_cell, (hwr (by rw [hpc]; rfl) hwork).count]
    exact ⟨.store hdraft.2.1 _, fun _ => rfl⟩
  case writeStamp w d n =>
    rw [viewOf_cell, (hwr (by rw [hpc]; rfl) hwork).count]
    exact ⟨.store hdraft.2.1 _, fun _ => rfl⟩
  case writeClose w d n =>
    have hw := hwr (by rw [hpc]; rfl) hwork
    rw [viewOf_publish]
    refine ⟨?_, fun _ => rfl⟩
    have he : View.Evolves g.maxValueSize (view s w.entryIdx) _ := .close ⟨w.key, d, n⟩
      hdraft.2.1 hdraft.1 hw.key.symm (hw.count ▸ hdraft.2.2)
    have hpub : u64 (2 * (w.writes + 1)) = 2 * (view s w.entryIdx).writes.length + 2 := by
      rw [u64, Nat.mod_eq_of_lt hnw, hw.count]
      omega
    rw [hpub]
    simpa [view, viewOf, Trace.append, View.writes] using he

omit hI hs hV hu in
/-- An entry that comes to be active has been activated by its claimant. -/
theorem state_next {i : Nat} (ha : ((program ι g).ran s u x now).mem (.entry i .state) = active) :
    s.mem (.entry i .state) = active ∨ ∃ key, (s.th u).pc = .claimActivate key i := by
  by_cases ht : x.target = some (.entry i .state)
  · have he := Actor.edits_of_target (i := i) hreq ht rfl
    have hm : ((program ι g).ran s u x now).mem (.entry i .state) =
        (x.exec verdict s.world.procs s.mem now).1 (.entry i .state) := rfl
    rw [hm] at ha
    cases hpc : (s.th u).pc <;> rw [hpc] at he <;>
      simp only [Pc.edits, Option.some.injEq, reduceCtorEq] at he <;> subst he <;>
      rw [Actor.request, hpc] at hreq <;> obtain rfl := Option.some.inj hreq <;>
      simp only [Access.target, Option.some.injEq, Loc.entry.injEq, reduceCtorEq, and_false] at ht <;>
      simp only [Access.exec, Function.update_self] at ha
    case wipeState => exact absurd ha (by decide)
    case claimMark => exact absurd ha (by decide)
    case claimActivate key i => exact .inr ⟨key, rfl⟩
  · left
    rw [← ha]
    exact (Access.exec_frame ht).symm

theorem Values.ok_next (hnw : unwrapped s (.run u now) = true) (i : Nat) :
    (view ((program ι g).ran s u x now) i).Ok g.maxValueSize :=
  (hV.ok i).step (hV.evolves hI hs hu hreq hnw i).1

theorem Values.activated_next (hnw : unwrapped s (.run u now) = true) (i : Nat)
    (ha : ((program ι g).ran s u x now).mem (.entry i .state) = active) :
    (view ((program ι g).ran s u x now) i).born < (view ((program ι g).ran s u x now) i).tenancy := by
  obtain ⟨he, hlife⟩ := hV.evolves hI hs hu hreq hnw i
  rcases state_next hreq ha with hst | ⟨key, hpc⟩
  · exact he.born_lt (hlife hst) (hV.activated i hst)
  · rw [view_same hreq (by rw [hpc]; exact nofun)]
    have hd := (hV.draft u).resolve_left (hs.not_gone hu)
    rw [Actor.Draft, hpc] at hd
    exact hd.1

omit hV in
/-- Nobody else changes the view of a live `Writer`'s entry. -/
theorem Values.view_other {w : Writer} (htu : t ≠ u) (ht : proc t ∉ s.world.gone)
    (hw : (s.th t).claim = some w) :
    view ((program ι g).ran s u x now) w.entryIdx = view s w.entryIdx := by
  refine view_same hreq fun hm => ?_
  obtain ⟨h1, h2⟩ := hI.aloof hs htu ht hw hu
  exact (Pc.edits_of_moves hm).elim h1 h2

omit [DecidableEq ι] in
/-- A take-over finds the count and the key of the life it continues. -/
theorem Values.gains {w : Writer}
    (hpc : (∃ key i ten, (s.th u).pc = .takePublish key i ten ∧
        w = ⟨i, ten, (x.exec verdict s.world.procs s.mem now).2.val / 2, (s.th u).pid, key⟩) ∨
      ∃ key i, (s.th u).pc = .claimTenancy key i ∧
        w = ⟨i, (x.exec verdict s.world.procs s.mem now).2.val, 0, (s.th u).pid, key⟩) :
    Writes (view s w.entryIdx) w := by
  have hwork := hI.works hs hu
  have hdraft := (hV.draft u).resolve_left (hs.not_gone hu)
  rcases hpc with ⟨key, i, ten, hpc, rfl⟩ | ⟨key, i, hpc, rfl⟩ <;> rw [Actor.request, hpc] at hreq <;>
    obtain rfl := Option.some.inj hreq <;> rw [Actor.Work, hpc] at hwork <;>
    rw [Actor.Draft, hpc] at hdraft
  · obtain ⟨hd, hi, hk, -⟩ := hwork
    have hb := hV.activated i hk.state
    refine ⟨hb, ?_, (hV.ok i).count⟩
    -- the key words are those of the key taken over, and those of the life
    obtain ⟨hv, hkey⟩ := (hV.ok i).named hb
    rw [← hv.load, ← hd.1.load]
    exact bbLoadKey_congr fun k hk' => (hkey k hk').symm.trans (hk.words k hk')
  · obtain ⟨hb, hk, hnil⟩ := hdraft
    exact ⟨hb, hk, by rw [hnil]; rfl⟩

/-- What a live `Writer` knows of the value stays, or is what its `declare` or its write has just made. -/
theorem Values.claim_next (hnw : unwrapped s (.run u now) = true) {w' : Writer}
    (hw' : (((program ι g).ran s u x now).th t).claim = some w') :
    proc t ∈ s.world.gone ∨ Writes (view ((program ι g).ran s u x now) w'.entryIdx) w' := by
  by_cases htg : proc t ∈ s.world.gone
  · exact .inl htg
  right
  by_cases htu : t = u
  swap
  · rw [ran_other htu] at hw'
    rw [Values.view_other hI hs hu hreq htu htg hw']
    exact (hV.claim t w' hw').resolve_left htg
  subst htu
  have hwork := hI.works hs hu
  rw [ran_self] at hw'
  have hwrite : ∀ w d n, (s.th t).pc = .writeClose w d n → (s.th t).writer = some w := by
    intro w d n hpc
    rwa [Actor.Work, hpc] at hwork
  rcases (course_of_request hreq).counts hw' hwrite with ⟨w, hw, rfl | ⟨d, n, hpc, rfl⟩⟩ | hnew
  · have hold := (hV.claim t w' hw).resolve_left htg
    by_cases hm : (s.th t).pc.moves = some w'.entryIdx
    swap
    · rw [view_same hreq hm]
      exact hold
    -- it is at its own entry: it writes, or it is giving the entry up
    have hne : ¬ Vacant proc s w'.entryIdx := fun hv => htg (hv t w' hw rfl)
    cases hpc : (s.th t).pc <;> rw [hpc] at hm <;>
      simp only [Pc.moves, Option.some.injEq, reduceCtorEq] at hm <;> rw [Actor.Work, hpc] at hwork
    case sweepBump => exact absurd (hm ▸ hwork.2.2.2) hne
    case takeBump | claimBump | claimClear | claimKey => exact absurd (hm ▸ hwork.2.2.2.1) hne
    case relBump w =>
      rw [Actor.resume, hpc] at hw'
      cases hw'
    case writeClose w d n =>
      rw [Actor.resume, hpc] at hw'
      rw [Actor.claim_of_plain (by rw [hpc]; rfl), hwork] at hw
      have he : u64 (w.writes + 1) = w.writes := congrArg Writer.writes (Option.some.inj (hw'.trans hw.symm))
      unfold u64 at he
      omega
    all_goals
      rw [Actor.request, hpc] at hreq
      obtain rfl := Option.some.inj hreq
      refine ⟨?_, ?_, ?_⟩ <;>
        simp only [view, viewOf, View.writes, ran_ghost, ran_mem, Trace.track, hpc, Access.exec, ne_eq,
          reduceCtorEq, not_false_eq_true, Function.update_of_ne, Loc.entry.injEq, and_false]
      · exact hold.born
      · exact hold.key
      · exact hold.count
  · have hold := (hV.claim t w hw).resolve_left htg
    rw [Actor.request, hpc] at hreq
    obtain rfl := Option.some.inj hreq
    rw [Actor.claim_of_plain (by rw [hpc]; rfl), hwrite w d n hpc] at hw
    simp only [unwrapped, hpc, decide_eq_true_eq] at hnw
    refine ⟨?_, ?_, ?_⟩ <;>
      simp only [view, viewOf, View.writes, ran_ghost, ran_mem, Trace.track, hpc, Access.exec, ne_eq,
        reduceCtorEq, not_false_eq_true, Function.update_of_ne, Loc.entry.injEq, and_false, Trace.append,
        Function.update_self, List.length_append, List.length_singleton]
    · exact hold.born
    · exact hold.key
    · rw [u64, Nat.mod_eq_of_lt (by omega), hold.count]
      rfl
  · have hg := Values.gains hI hs hV hu hreq hnew
    rwa [view_same hreq]
    rcases hnew with ⟨key, i, ten, hpc, -⟩ | ⟨key, i, hpc, -⟩ <;> rw [hpc] <;> exact fun e => by cases e

/-- Nobody else changes the view of the entry that a live actor claims or writes. -/
theorem Values.draft_other (htu : t ≠ u) (ht : proc t ∉ s.world.gone) :
    (s.th t).Draft g.maxValueSize (view ((program ι g).ran s u x now)) := by
  refine ((hV.draft t).resolve_left ht).congr fun i hi => ?_
  have hwork := (hI.work t).resolve_left ht
  have hclaiming : (s.th t).pc.inside = true → Vacant proc s i →
      view ((program ι g).ran s u x now) i = view s i := by
    intro hin hvac
    refine view_same hreq fun hm => ?_
    have hout : (s.th u).pc.inside = false := by
      by_contra hui
      have h1 := (hI.inside t hin).resolve_right ht
      have h2 := hI.holds hs hu (by simpa using hui)
      exact htu (Option.some.inj (h1.symm.trans h2))
    have hwu := hI.works hs hu
    rcases Pc.edits_of_moves hm with he | hst
    · rw [Pc.inside_of_edits he] at hout
      cases hout
    · cases hpc : (s.th u).pc <;> rw [hpc] at hst hout <;>
        simp only [Pc.stores, Option.some.injEq, reduceCtorEq] at hst <;> rw [Actor.Work, hpc] at hwu
      case claimClear => cases hout
      all_goals
        exact hs.not_gone hu (hvac u _ (by rw [Actor.claim_of_plain (by rw [hpc]; rfl)]; exact hwu) hst)
  cases hpc : (s.th t).pc <;> rw [hpc] at hi <;>
    simp only [Pc.drafts, Option.some.injEq, reduceCtorEq] at hi <;> subst hi <;>
    rw [Actor.Work, hpc] at hwork
  case writeWord | writeLen | writeClock | writeStamp | writeClose =>
    refine Values.view_other hI hs hu hreq htu ht ?_
    rw [Actor.claim_of_plain (by rw [hpc]; rfl)]
    exact hwork
  all_goals exact hclaiming (by rw [hpc]; rfl) hwork.2.2.2.1

/-- What an actor knows of the value it claims or writes, after its own step. -/
theorem Values.draft_self (hnw : unwrapped s (.run u now) = true) : ((s.th u).resume g (x.exec verdict s.world.procs s.mem now).2).Draft
    g.maxValueSize (view ((program ι g).ran s u x now)) := by
  have hwork := hI.works hs hu
  have hd := (hV.draft u).resolve_left (hs.not_gone hu)
  have hidle : ∀ b : Actor, b.pc.phase ≠ .draft → b.Draft g.maxValueSize
      (view ((program ι g).ran s u x now)) := fun b hb => Actor.draft_of_phase hb
  have hview : ∀ {i m tr}, (x.exec verdict s.world.procs s.mem now).1 = m →
      s.ghost.track s.mem u (s.th u) (x.exec verdict s.world.procs s.mem now).2 = tr →
      view ((program ι g).ran s u x now) i = viewOf m tr i := by
    rintro i m tr rfl rfl
    rfl
  have hwr : ∀ {w}, (s.th u).pc.plain = true → (s.th u).writer = some w → Writes (view s w.entryIdx) w :=
    fun hp hw => hV.writes_of_writer hs hu hp hw
  have hstill : (∀ i, (s.th u).pc.moves ≠ some i) →
      view ((program ι g).ran s u x now) = view s := fun h => funext fun i => view_same hreq (h i)
  cases hph : (s.th u).pc.phase with
  | desk =>
    have hsil := hV.silent u
    rcases (s.th u).resume_desk (g := g) (r := (x.exec verdict s.world.procs s.mem now).2) hph hsil with
      h | ⟨key, i, hpc, hb⟩ | h
    · exact hidle _ (by rw [h.phase]; exact fun e => by cases e)
    · rw [hb]
      show (view ((program ι g).ran s u x now) i).born = _ ∧ _
      rw [hview rfl (by rw [Trace.track, hpc])]
      rw [Actor.request, hpc] at hreq
      obtain rfl := Option.some.inj hreq
      simp [viewOf, Trace.begin, Access.exec]
    · rw [h]
      have hst : (s.th u).StaysList ((s.th u).listAt g .snapshot [] 0) := (s.th u).staysList_listAt
      rcases hst.next with ⟨h, -⟩ | ⟨h, -⟩ <;> exact hidle _ (by rw [h]; exact fun e => by cases e)
  | read =>
    rcases (s.th u).resume_read (g := g) (r := (x.exec verdict s.world.procs s.mem now).2) hph with
      ⟨h, -⟩ | ⟨h, -⟩ <;> exact hidle _ (by rw [h]; exact fun e => by cases e)
  | list =>
    rcases ((s.th u).resume_list (g := g) (r := (x.exec verdict s.world.procs s.mem now).2) hph).next with
      ⟨h, -⟩ | ⟨h, -⟩ <;> exact hidle _ (by rw [h]; exact fun e => by cases e)
  | draft =>
    cases hpc : (s.th u).pc <;> rw [hpc] at hph <;> simp only [Pc.phase, reduceCtorEq] at hph <;>
      rw [Actor.request, hpc] at hreq <;> (try obtain rfl := Option.some.inj hreq) <;>
      rw [Actor.Work, hpc] at hwork <;> rw [Actor.Draft, hpc] at hd <;> simp only [Actor.resume, hpc]
    case notifySeq locked o | notifyWaiters locked o | notifyWake locked o => cases o <;> cases hph
    case unlock o => cases o <;> cases hph
    case claimKey key i w =>
      have hv : view ((program ι g).ran s u _ now) i = _ := hview rfl (by rw [Trace.track, hpc])
      simp only [Access.exec] at hv
      rw [viewOf_key] at hv
      split_ifs
      · show (view ((program ι g).ran s u _ now) i).born = _ ∧ _
        rw [hv]
        exact hd
      · show (view ((program ι g).ran s u _ now) i).born = _ ∧ _
        rw [hv]
        exact hd
    case claimBump key i =>
      show (view ((program ι g).ran s u _ now) i).born < _ ∧ _ ∧ _
      rw [hview rfl (by rw [Trace.track, hpc])]
      simp only [unwrapped, hpc, decide_eq_true_eq] at hnw
      simp only [Access.exec]
      rw [viewOf_tenancy, Nat.mod_eq_of_lt hnw]
      have hlen := (hV.ok i).count
      rw [(hV.ok i).fresh hd.1] at hlen
      exact ⟨Nat.lt_succ_of_le (Nat.le_of_eq hd.1), hd.2, List.eq_nil_of_length_eq_zero hlen.symm⟩
    case claimTenancy key i => exact hidle _ fun e => by cases e
    case writeState w d | writeTenancy w d =>
      split_ifs
      · exact hd
      · exact hidle _ fun e => by cases e
    case writeOpen w d =>
      have hw := hwr (by rw [hpc]; rfl) hwork
      refine Actor.draft_writeWords hd ?_ (fun j hj => absurd hj (Nat.not_lt_zero j)) (Nat.zero_le _)
      rw [hview rfl (by rw [Trace.track, hpc])]
      simp only [Access.exec]
      simp only [unwrapped, hpc, decide_eq_true_eq] at hnw
      rw [viewOf_publish, u64, Nat.mod_eq_of_lt (by omega), hw.count]
      show 2 * ((view s w.entryIdx).writes.length + 1) - 1 = 2 * (view s w.entryIdx).writes.length + 1
      omega
    case writeWord w d k =>
      obtain ⟨hlen, hpub, hpay, hk⟩ := hd
      have hv : view ((program ι g).ran s u _ now) w.entryIdx = _ := hview rfl (by rw [Trace.track, hpc])
      simp only [Access.exec] at hv
      rw [viewOf_cell] at hv
      refine Actor.draft_writeWords hlen ?_ (fun j hj => ?_) hk <;> rw [hv]
      · exact hpub
      · dsimp only
        rw [Function.update_self]
        by_cases hjk : j = k
        · rw [hjk, Function.update_self]
        · rw [Function.update_of_ne (by simpa using hjk)]
          exact hpay j (by omega)
    case writeLen w d =>
      obtain ⟨hlen, hpub, hpay⟩ := hd
      show d.length ≤ _ ∧ _ ∧ _ ∧ _
      rw [hview rfl (by rw [Trace.track, hpc])]
      simp only [Access.exec]
      rw [viewOf_cell]
      refine ⟨hlen, hpub, fun j hj => ?_, ?_⟩ <;> dsimp only <;> rw [Function.update_self]
      · rw [Function.update_of_ne (by simp)]
        exact hpay j hj
      · rw [Function.update_self]
        have := g.value_le
        exact Nat.mod_eq_of_lt (Nat.lt_of_le_of_lt (hlen.trans this) (by decide))
    case writeStamp w d n =>
      obtain ⟨hlen, hpub, hpay, hvl⟩ := hd
      show d.length ≤ _ ∧ _ ∧ _
      rw [hview rfl (by rw [Trace.track, hpc])]
      simp only [Access.exec]
      rw [viewOf_cell]
      refine ⟨hlen, hpub, ?_, ?_, fun j hj => ?_⟩ <;> dsimp only <;> rw [Function.update_self]
      · rw [Function.update_of_ne (by simp)]
        exact hvl
      · rw [Function.update_self]
      · rw [Function.update_of_ne (by simp)]
        exact hpay j hj
    case writeClose w d n => exact hidle _ fun e => by cases e
    all_goals
      rw [hstill (by rw [hpc]; exact fun i e => by cases e)]
      exact hd

theorem Values.ran (hnw : unwrapped s (.run u now) = true) :
    Values g proc ((program ι g).ran s u x now) where
  ok i := Values.ok_next hI hs hV hu hreq hnw i
  activated i ha := Values.activated_next hI hs hV hu hreq hnw i ha
  claim t w hw := Values.claim_next hI hs hV hu hreq hnw hw
  draft t := by
    by_cases htg : proc t ∈ s.world.gone
    · exact .inl htg
    right
    by_cases htu : t = u
    · subst htu
      rw [ran_self]
      exact Values.draft_self hI hs hV hu hreq hnw
    · rw [ran_other htu]
      exact Values.draft_other hI hs hV hu hreq htu htg
  silent t := by
    by_cases htu : t = u
    · subst htu
      rw [ran_self]
      exact Actor.silent_resume (hV.silent t)
    · rw [ran_other htu]
      exact hV.silent t

end Step

omit [DecidableEq ι] in
theorem values_init (h : Init proc s) : Values g proc s where
  ok i := by
    refine ⟨?_, ?_, fun _ => h.mem _, fun hb => ?_, fun n w hw => ?_, fun n _ => ?_, fun k w hk => ?_⟩ <;>
      simp_all [view, viewOf, View.writes, h.mem, h.ghost]
  activated i ha := by rw [h.mem] at ha; cases ha
  claim t w hw := by rw [h.th t] at hw; cases hw
  draft t := .inr (by rw [h.th t]; trivial)
  silent t := by rw [h.th t]; rfl

theorem Trace.trackCall_lives (tr : Trace ι) (m : Loc → Nat) (c : Call) (i : Nat) :
    viewOf m (tr.trackCall m t c) i = viewOf m tr i := by
  unfold Trace.trackCall
  split
  · split <;> rfl
  · rfl

theorem Values.called (hV : Values g proc s) {a : Actor} {c : Call} (hcall : (s.th u).call g c = some a) :
    Values g proc
      { s with th := Function.update s.th u a, ghost := s.ghost.trackCall s.mem u c } := by
  obtain ⟨hidle, haside, -⟩ := Actor.call_spec hcall
  generalize hs' : ({ s with th := Function.update s.th u a, ghost := s.ghost.trackCall s.mem u c } :
    Shared ι Loc Actor (Trace ι)) = s'
  have hself : s'.th u = a := by rw [← hs']; exact Function.update_self ..
  have hother : ∀ t, t ≠ u → s'.th t = s.th t := fun t ht => by
    rw [← hs']
    exact Function.update_of_ne ht ..
  have hmem : s'.mem = s.mem := by rw [← hs']
  have hworld : s'.world = s.world := by rw [← hs']
  have hview : view s' = view s := by
    rw [← hs']
    exact funext fun i => Trace.trackCall_lives ..
  clear hs'
  have hshape : a.pc.silent = true ∧ a.Draft g.maxValueSize (view s) := by
    rcases (Actor.call_cases hcall).2 with h | ⟨j, h, -⟩ | ⟨w, d, h, -, hd⟩ | ⟨b, r, size, -, h⟩ | ⟨b, l, h⟩
    · exact ⟨by rw [h]; rfl, Actor.draft_of_phase (by rw [h]; exact fun e => by cases e)⟩
    · exact ⟨by rw [h]; rfl, Actor.draft_of_phase (by rw [h]; exact fun e => by cases e)⟩
    · exact ⟨by rw [h]; rfl, by rw [Actor.Draft, h]; exact hd⟩
    · subst h
      have hst := b.staysRead_resolve (g := g) (q := ⟨r, size, 0, 0, .empty⟩)
      exact ⟨hst.silent, Actor.draft_of_phase (by rcases hst with ⟨h, -⟩ | ⟨h, -⟩ <;> rw [h] <;> nofun)⟩
    · subst h
      have hst : b.StaysList (b.listAt g l [] 0) := b.staysList_listAt
      exact ⟨hst.silent, Actor.draft_of_phase (by
        rcases hst.next with ⟨h, -⟩ | ⟨h, -⟩ <;> rw [h] <;> nofun)⟩
  refine ⟨fun i => hview ▸ hV.ok i, fun i ha => ?_, fun t w hw => ?_, fun t => ?_, fun t => ?_⟩
  · rw [hmem] at ha
    exact hview ▸ hV.activated i ha
  · rw [hview, hworld]
    by_cases htu : t = u
    · subst htu
      rw [hself, Actor.claim_of_plain haside.plain] at hw
      refine hV.claim t w ?_
      rw [Actor.claim_of_plain (by rw [hidle]; rfl)]
      rcases haside.writer with hwr | hwr <;> rw [hwr] at hw
      · exact hw
      · cases hw
    · rw [hother t htu] at hw
      exact hV.claim t w hw
  · rw [hview, hworld]
    by_cases htu : t = u
    · subst htu
      rw [hself]
      exact .inr hshape.2
    · rw [hother t htu]
      exact hV.draft t
  · by_cases htu : t = u
    · subst htu
      rw [hself]
      exact hshape.1
    · rw [hother t htu]
      exact hV.silent t

omit [DecidableEq ι] in
theorem Values.world (hV : Values g proc s) {w : World} (hle : s.world.Le w) :
    Values g proc { s with world := w } where
  ok := hV.ok
  activated := hV.activated
  claim t x hx := (hV.claim t x hx).imp (hle.gone _) id
  draft t := (hV.draft t).imp (hle.gone _) id
  silent := hV.silent

/-- Whoever holds the lock, writes or dies, the value of every entry stays in order. -/
theorem values_reach (h : Steady g proc s) : (Inv g proc s ∧ Values g proc s) ∧ s.world.Sound :=
  Program.invariant (I := fun s => Inv g proc s ∧ Values g proc s)
    (fun _ h0 => ⟨⟨inv_init h0, values_init h0⟩, h0.world⟩)
    (fun _ _ _ _ ⟨hI, hV⟩ hs hu hreq hst => by
      obtain ⟨hup, hnw⟩ := steady_iff.mp hst
      exact ⟨hI.ran hs hu hreq hup, hV.ran hI hs hu hreq hnw⟩)
    (fun _ _ _ _ ⟨hI, hV⟩ _ _ hcall => ⟨hI.called hcall, hV.called hcall⟩)
    (fun _ _ ⟨hI, hV⟩ _ hle _ => ⟨hI.world hle, hV.world hle⟩) h

end Run

end System

end Kickmsg.Blackboard
