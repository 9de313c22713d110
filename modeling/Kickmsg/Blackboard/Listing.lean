import Kickmsg.Blackboard.Reading

/-!
# What a listing returns

`read_entry` re-reads the state last, after the tenancy, so a row without a value may be put together from
two claims of its entry (`keys_torn`). A row with a value is right all the same: `publish` says in which
life it is. Under the lock, in a snapshot, no claim runs and every row is right.
-/

namespace Kickmsg.Blackboard

open Lib

/-- The listing asks for the values. -/
def Listing.values : Listing → Bool
  | .readAll _ => true
  | _ => false

/-- The row may be torn: a key that `keys` lists and that has no value. -/
def Listing.loose (l : Listing) (r : Row) : Prop := (∃ pre, l = .keys pre) ∧ r.updateCount = 0

/-- What a row of a listing should be: its key was active on its entry during the call, in some life of the
entry, and the rest is one completed write of that life; or there was none when the key was active. -/
def RowOk (v : Nat → View) (shown bare : Nat → Nat → Bool) (l : Listing) (r : Row) : Prop :=
  ∃ n, n ≤ (v r.idx).life ∧ (v r.idx).lifeKey n = r.key ∧ shown r.idx n = true ∧
    ((r.updateCount = 0 ∧ r.valueLen = 0 ∧ bare r.idx n = true) ∨
      (1 ≤ r.updateCount ∧ ∃ w, ((v r.idx).log n)[r.updateCount - 1]? = some w ∧
        r.valueLen = w.data.length ∧ r.updatedAtNs = w.stamp ∧ (l.values = true → r.value = w.data)))

def RowsOk (v : Nat → View) (shown bare : Nat → Nat → Bool) (l : Listing) (rows : List Row) : Prop :=
  ∀ r ∈ rows, l.loose r ∨ RowOk v shown bare l r

/-- The words of the value that a listing copies. -/
def ListCall.whole (q : ListCall) : Nat := if q.listing.values = true then wordsFor q.c.len else 0

/-- The length, the stamp and the first `k` words are those of `w`. -/
structure ListCall.Got (q : ListCall) (k : Nat) (w : Written) : Prop where
  len : q.c.len = w.data.length
  stamp : q.c.stamp = w.stamp
  words : ∀ j < k, q.c.words j = wordAt (byteOf w.data) j

/-- A life of entry `i` was active during the call, and so was every later one that has a value. -/
def Covers (v : Nat → View) (shown : Nat → Nat → Bool) (i : Nat) : Prop :=
  ∃ n₀, shown i n₀ = true ∧ ∀ n, n₀ < n → (v i).log n ≠ [] → shown i n = true

/-- The copy of a value, in a life that was active during the call. -/
def ListCall.Copies (v : Nat → View) (shown : Nat → Nat → Bool) (q : ListCall) (P : Written → Prop) : Prop :=
  ∃ n, shown q.i n = true ∧ (v q.i).Copying q.c.tenancy (bbLoadKey q.c.key) n q.c.writes P

/-- The copy has been re-checked against `publish`; where there is no value, the row is right in a
snapshot. -/
def ListCall.Checked (v : Nat → View) (shown bare : Nat → Nat → Bool) (q : ListCall) : Prop :=
  (q.c.writes = 0 → q.listing = .snapshot → RowOk v shown bare .snapshot q.row) ∧
    (q.c.writes ≠ 0 → q.c.clobbered = false →
      ∃ n, shown q.i n = true ∧ q.c.tenancy ≤ (v q.i).tenancy ∧ ((v q.i).tenancy = q.c.tenancy →
        (v q.i).Told (bbLoadKey q.c.key) n q.c.writes (q.Got q.whole)))

/-- What an actor that lists knows. -/
def Actor.Listed (v : Nat → View) (shown bare : Nat → Nat → Bool) (a : Actor) : Prop :=
  match a.pc with
  | .entState q => RowsOk v shown bare q.listing q.rows
  | .entTenancy q => RowsOk v shown bare q.listing q.rows ∧ Covers v shown q.i
  | .entKey q w => RowsOk v shown bare q.listing q.rows ∧ Covers v shown q.i ∧ w < keyWords ∧
      (v q.i).Scanned q.c.tenancy q.c.key w ∧ q.c.len = 0
  | .entPublish q => RowsOk v shown bare q.listing q.rows ∧ Covers v shown q.i ∧
      (v q.i).Held q.c.tenancy (bbLoadKey q.c.key) ∧ q.c.len = 0
  | .entLen q => RowsOk v shown bare q.listing q.rows ∧ q.Copies v shown fun _ => True
  | .entStamp q => RowsOk v shown bare q.listing q.rows ∧
      q.Copies v shown fun w => q.c.len = w.data.length
  | .entWord q k => RowsOk v shown bare q.listing q.rows ∧ k < q.whole ∧ q.Copies v shown (q.Got k)
  | .entPublishAfter q => RowsOk v shown bare q.listing q.rows ∧
      (q.c.writes = 0 → q.listing = .snapshot → RowOk v shown bare .snapshot q.row) ∧
      (q.c.writes ≠ 0 → q.Copies v shown (q.Got q.whole))
  | .entTenancyAfter q => RowsOk v shown bare q.listing q.rows ∧ q.Checked v shown bare
  | .entStateAfter q => RowsOk v shown bare q.listing q.rows ∧
      (q.tenancyAfter = q.c.tenancy → ¬(0 < q.c.writes ∧ q.c.clobbered = true) →
        q.listing = .snapshot ∨ 0 < q.c.writes → RowOk v shown bare q.listing q.row)
  | .rowPid q | .rowStart q _ => RowsOk v shown bare q.listing (q.rows ++ [q.row])
  | .rowProbe done r todo => RowsOk v shown bare .snapshot (done ++ r :: todo)
  | .notifySeq _ (.probe rows) | .notifyWaiters _ (.probe rows) | .notifyWake _ (.probe rows)
  | .unlock (.probe rows) => RowsOk v shown bare .snapshot rows
  | _ => True

/-- The rows that an actor has returned or is collecting are right. -/
structure Actor.Rightly (v : Nat → View) (shown bare : Nat → Nat → Bool) (a : Actor) : Prop where
  listed : a.Listed v shown bare
  told : ∀ l rows, a.result = .listing l rows → RowsOk v shown bare l rows

section Actors

variable {g : Geometry} {limit : Nat} {v v' : Nat → View} {shown shown' bare bare' : Nat → Nat → Bool}
  {a b : Actor} {l : Listing} {rows : List Row}

/-- What the others may do between two loads of a listing: entries evolve, lives come to be shown, and a
life that gets its first value is shown. -/
structure Passes (limit : Nat) (v v' : Nat → View) (shown shown' bare bare' : Nat → Nat → Bool) : Prop where
  ok : ∀ i, (v i).Ok limit
  evolves : ∀ i, (v i).Evolves limit (v' i)
  shown : ∀ i n, shown i n = true → shown' i n = true
  bare : ∀ i n, bare i n = true → bare' i n = true
  first : ∀ i n, (v' i).log n ≠ [] → (v i).log n = [] → shown' i n = true

theorem RowOk.passes {r : Row} (h : RowOk v shown bare l r)
    (hp : Passes limit v v' shown shown' bare bare') : RowOk v' shown' bare' l r := by
  obtain ⟨n, hn, hkey, hs, hcase⟩ := h
  have he := hp.evolves r.idx
  refine ⟨n, hn.trans he.life_le, (he.lifeKey hn).trans hkey, hp.shown _ _ hs, hcase.imp ?_ ?_⟩
  · rintro ⟨h0, hlen, hb⟩
    exact ⟨h0, hlen, hp.bare _ _ hb⟩
  · rintro ⟨h1, w, hw, hrest⟩
    exact ⟨h1, w, he.log hn hw, hrest⟩

theorem RowsOk.passes (h : RowsOk v shown bare l rows)
    (hp : Passes limit v v' shown shown' bare bare') : RowsOk v' shown' bare' l rows :=
  fun r hr => (h r hr).imp id fun hok => hok.passes hp

theorem Covers.passes {i : Nat} (h : Covers v shown i) (hp : Passes limit v v' shown shown' bare bare') :
    Covers v' shown' i := by
  obtain ⟨n₀, h0, hlater⟩ := h
  refine ⟨n₀, hp.shown _ _ h0, fun n hn hlog => ?_⟩
  by_cases hold : (v i).log n = []
  · exact hp.first i n hlog hold
  · exact hp.shown _ _ (hlater n hn hold)

theorem ListCall.Copies.passes {q : ListCall} {P : Written → Prop} (h : q.Copies v shown P)
    (hp : Passes limit v v' shown shown' bare bare') : q.Copies v' shown' P := by
  obtain ⟨n, hs, hc⟩ := h
  exact ⟨n, hp.shown _ _ hs, hc.evolves (hp.ok _) (hp.evolves _)⟩

/-- Whatever the others do. -/
theorem Actor.Listed.passes (h : a.Listed v shown bare)
    (hp : Passes limit v v' shown shown' bare bare') : a.Listed v' shown' bare' := by
  unfold Actor.Listed at h ⊢
  cases hpc : a.pc <;> rw [hpc] at h
  case entState q => exact RowsOk.passes h hp
  case entTenancy q => exact ⟨h.1.passes hp, h.2.passes hp⟩
  case entKey q w =>
    obtain ⟨h1, h2, h3, h4, h5⟩ := h
    exact ⟨h1.passes hp, h2.passes hp, h3, h4.evolves (hp.evolves _), h5⟩
  case entPublish q =>
    obtain ⟨h1, h2, h3, h4⟩ := h
    exact ⟨h1.passes hp, h2.passes hp, h3.evolves (hp.evolves _), h4⟩
  case entLen q | entStamp q => exact ⟨h.1.passes hp, h.2.passes hp⟩
  case entWord q k => exact ⟨h.1.passes hp, h.2.1, h.2.2.passes hp⟩
  case entPublishAfter q =>
    obtain ⟨h1, h2, h3⟩ := h
    exact ⟨h1.passes hp, fun h0 hl => (h2 h0 hl).passes hp, fun h0 => (h3 h0).passes hp⟩
  case entTenancyAfter q =>
    obtain ⟨h1, h2, h3⟩ := h
    refine ⟨h1.passes hp, fun h0 hl => (h2 h0 hl).passes hp, fun h0 hc => ?_⟩
    obtain ⟨n, hs, hle, htold⟩ := h3 h0 hc
    have he := hp.evolves q.i
    refine ⟨n, hp.shown _ _ hs, hle.trans he.tenancy_le, fun ht => (htold ?_).evolves he⟩
    exact Nat.le_antisymm (ht ▸ he.tenancy_le) hle
  case entStateAfter q => exact ⟨h.1.passes hp, fun h1 h2 h3 => (h.2 h1 h2 h3).passes hp⟩
  case rowPid q | rowStart q pid | rowProbe d r t => exact RowsOk.passes h hp
  case notifySeq k o | notifyWaiters k o | notifyWake k o =>
    cases o <;> first | trivial | exact RowsOk.passes h hp
  case unlock o => cases o <;> first | trivial | exact RowsOk.passes h hp
  all_goals trivial

theorem Actor.Rightly.passes (h : a.Rightly v shown bare)
    (hp : Passes limit v v' shown shown' bare bare') : a.Rightly v' shown' bare' :=
  ⟨h.listed.passes hp, fun l rows hr => (h.told l rows hr).passes hp⟩

theorem Actor.listed_of_phase (h : a.pc.phase ≠ .list) : a.Listed v shown bare := by
  unfold Actor.Listed
  cases hpc : a.pc <;> rw [hpc] at h
  case notifySeq k o | notifyWaiters k o | notifyWake k o =>
    cases o <;> trivial
  case unlock o => cases o <;> trivial
  all_goals trivial

/-- A step that is not a listing's. -/
theorem Actor.Rightly.apart (h : a.Rightly v shown bare) (hp : b.pc.phase ≠ .list)
    (hres : b.result = a.result ∨ ∀ l rows, b.result ≠ .listing l rows) : b.Rightly v shown bare where
  listed := listed_of_phase hp
  told l rows hr := by
    rcases hres with hres | hres
    · exact h.told l rows (hres ▸ hr)
    · exact absurd hr (hres l rows)

/-- A step within a listing. -/
theorem Actor.Rightly.goOn (h : a.Rightly v shown bare) {pc : Pc}
    (hl : (a.goto pc).Listed v shown bare) : (a.goto pc).Rightly v shown bare :=
  ⟨hl, h.told⟩

theorem Actor.Rightly.ret (hl : RowsOk v shown bare l rows) :
    (a.ret (.listing l rows)).Rightly v shown bare :=
  ⟨trivial, fun l' rows' hr => by
    obtain ⟨rfl, rfl⟩ := Result.listing.inj hr
    exact hl⟩

theorem Actor.Rightly.listAt (h : a.Rightly v shown bare) {i : Nat} (hl : RowsOk v shown bare l rows) :
    (a.listAt g l rows i).Rightly v shown bare := by
  unfold Actor.listAt
  split
  · exact h.goOn hl
  · cases l with
    | snapshot => exact h.goOn hl
    | keys | readAll => exact .ret hl

theorem Actor.Rightly.listRetry (h : a.Rightly v shown bare) {q : ListCall}
    (hl : RowsOk v shown bare q.listing q.rows) : (a.listRetry g q).Rightly v shown bare := by
  unfold Actor.listRetry
  split
  · exact h.goOn hl
  · exact h.listAt hl

theorem RowsOk.nil : RowsOk v shown bare l [] := fun _ hr => absurd hr List.not_mem_nil

theorem RowsOk.append {r : Row} (hl : RowsOk v shown bare l rows)
    (hr : l.loose r ∨ RowOk v shown bare l r) : RowsOk v shown bare l (rows ++ [r]) := by
  intro x hx
  rcases List.mem_append.mp hx with hx | hx
  · exact hl x hx
  · rw [List.mem_singleton.mp hx]
    exact hr

/-- `read_entry` has succeeded. -/
theorem Actor.Rightly.listed' (h : a.Rightly v shown bare) {q : ListCall}
    (hl : RowsOk v shown bare q.listing q.rows)
    (hr : q.listing = .snapshot ∨ 0 < q.c.writes → RowOk v shown bare q.listing q.row) :
    (a.listed g q).Rightly v shown bare := by
  have hrow : ∀ pre, q.listing = .keys pre →
      q.listing.loose q.row ∨ RowOk v shown bare q.listing q.row := by
    intro pre hpre
    by_cases h0 : 0 < q.c.writes
    · exact .inr (hr (.inr h0))
    · exact .inl ⟨⟨pre, hpre⟩, by show q.c.writes = 0; omega⟩
  unfold Actor.listed
  split
  · rename_i hs
    exact h.goOn (hl.append (.inr (hr (.inl hs))))
  · refine h.listAt ?_
    unfold ListCall.collect
    cases hq : q.listing with
    | keys pre =>
      rw [hq] at hl hrow
      dsimp only
      split
      · exact hl.append (hrow pre rfl)
      · exact hl
    | readAll pre =>
      rw [hq] at hl hr
      dsimp only
      split
      · rename_i hc
        exact hl.append (.inr (hr (.inr hc.1)))
      · exact hl
    | snapshot =>
      rw [hq] at hl
      exact hl

theorem Actor.Rightly.listWords (h : a.Rightly v shown bare) {q : ListCall} {k : Nat} (hk : k ≤ q.whole)
    (hl : RowsOk v shown bare q.listing q.rows) (h0 : q.c.writes ≠ 0) (hc : q.Copies v shown (q.Got k)) :
    (a.listWords q k).Rightly v shown bare := by
  have hend : k = q.whole → (a.goto (.entPublishAfter q)).Rightly v shown bare := by
    rintro rfl
    exact h.goOn ⟨hl, fun h => absurd h h0, fun _ => hc⟩
  unfold Actor.listWords
  split
  · rename_i pre hpre
    have hw : q.whole = wordsFor q.c.len := by
      rw [ListCall.whole, hpre]
      rfl
    split
    · rename_i hlt
      exact h.goOn ⟨hl, hw ▸ hlt, hc⟩
    · exact hend (by omega)
  · rename_i hne
    have hw : q.whole = 0 := by
      unfold ListCall.whole
      cases hq : q.listing with
      | readAll pre => exact absurd hq (hne pre)
      | keys | snapshot => rfl
    exact hend (by omega)

theorem Actor.Rightly.probeFrom (h : a.Rightly v shown bare) {done todo : List Row}
    (hl : RowsOk v shown bare .snapshot (done ++ todo)) :
    (a.probeFrom done todo).Rightly v shown bare := by
  induction todo generalizing done with
  | nil =>
    rw [Actor.probeFrom]
    exact .ret (by simpa using hl)
  | cons r todo ih =>
    rw [Actor.probeFrom]
    split
    · exact ih (by simpa using hl)
    · exact h.goOn hl

theorem Actor.Rightly.notified (h : a.Rightly v shown bare) {locked : Bool}
    (hl : RowsOk v shown bare .snapshot rows) :
    (a.notified locked (.probe rows)).Rightly v shown bare := by
  cases locked with
  | true => exact h.goOn hl
  | false => exact h.probeFrom hl

end Actors

/-! ## Every run -/

section System

variable {ι : Type} [DecidableEq ι] {proc : ι → Nat × Nat} {s : Shared ι Loc Actor (Trace ι)} {g : Geometry}
  {t u : ι} {x : Access Loc Query} {now : Nat}

/-- In a snapshot the entry stays as it is, for its lock is held. -/
def Actor.Anchored (m : Loc → Nat) (a : Actor) : Prop :=
  match a.pc with
  | .entTenancy q => q.listing = .snapshot → m (.entry q.i .state) = active
  | .entKey q _ | .entPublish q => q.listing = .snapshot →
      m (.entry q.i .state) = active ∧ m (.entry q.i .tenancy) = q.c.tenancy
  | _ => True

/-- The access of a listing under which its entry is anchored. -/
def Pc.early : Pc → Bool
  | .entTenancy _ | .entKey _ _ | .entPublish _ => true
  | _ => false

theorem Actor.anchored_of_early {m : Loc → Nat} {a : Actor} (h : a.pc.early = false) : a.Anchored m := by
  unfold Actor.Anchored
  cases hpc : a.pc <;> rw [hpc] at h <;> trivial

section Early

variable {a : Actor}

theorem Actor.early_listAt {l : Listing} {rows : List Row} {i : Nat} :
    (a.listAt g l rows i).pc.early = false := by
  unfold Actor.listAt
  split
  · rfl
  · cases l <;> rfl

theorem Actor.early_listRetry {q : ListCall} : (a.listRetry g q).pc.early = false := by
  unfold Actor.listRetry
  split
  · rfl
  · exact early_listAt

theorem Actor.early_listed {q : ListCall} : (a.listed g q).pc.early = false := by
  unfold Actor.listed
  split
  · rfl
  · exact early_listAt

theorem Actor.early_listWords {q : ListCall} {k : Nat} : (a.listWords q k).pc.early = false := by
  unfold Actor.listWords
  split
  · split <;> rfl
  · rfl

theorem Actor.early_probeFrom {done todo : List Row} : (a.probeFrom done todo).pc.early = false := by
  rcases a.probeFrom_eq done todo with ⟨rows, h⟩ | ⟨d, row, t, h⟩ <;> rw [h] <;> rfl

theorem Actor.early_notified {locked : Bool} {rows : List Row} :
    (a.notified locked (.probe rows)).pc.early = false := by
  cases locked
  · exact early_probeFrom
  · rfl

theorem Pc.early_of_phase {pc : Pc} (h : pc.phase ≠ .list) : pc.early = false := by
  cases pc <;> first | rfl | exact absurd rfl h

end Early

/-- An actor's own step keeps the entry of a snapshot anchored. -/
theorem Actor.Anchored.resume {a : Actor} {m m' : Loc → Nat} {r : Answer} (h : a.Anchored m)
    (hans : ∀ l, a.request = some (.load l) → r.val = m l ∧ m' = m) (hs : a.pc.silent = true) :
    (a.resume g r).Anchored m' := by
  cases hph : a.pc.phase with
  | desk =>
    rcases a.resume_desk (g := g) (r := r) hph hs with h | ⟨key, i, -, h⟩ | h
    · exact anchored_of_early (Pc.early_of_phase (by rw [h.phase]; nofun))
    · rw [h]
      trivial
    · rw [h]
      exact anchored_of_early early_listAt
  | draft =>
    rcases a.resume_draft (g := g) (r := r) hph with h | h <;>
      exact anchored_of_early (Pc.early_of_phase (by rw [h.phase]; nofun))
  | read =>
    rcases a.resume_read (g := g) (r := r) hph with ⟨h, -⟩ | ⟨h, -⟩ <;>
      exact anchored_of_early (Pc.early_of_phase (by rw [h]; nofun))
  | list =>
    cases hpc : a.pc <;> rw [hpc] at hph <;> simp only [Pc.phase, reduceCtorEq] at hph <;>
      simp only [Actor.request, hpc, Option.some.injEq, Access.load.injEq, forall_eq'] at hans <;>
      simp only [Actor.Anchored, hpc] at h <;> simp only [Actor.resume, hpc]
    case notifySeq locked o => trivial
    case notifyWaiters locked o =>
      obtain ⟨rows, rfl⟩ : ∃ rows, o = .probe rows := by cases o <;> first | exact ⟨_, rfl⟩ | cases hph
      split
      · exact anchored_of_early early_notified
      · trivial
    case notifyWake locked o =>
      obtain ⟨rows, rfl⟩ : ∃ rows, o = .probe rows := by cases o <;> first | exact ⟨_, rfl⟩ | cases hph
      exact anchored_of_early early_notified
    case unlock o =>
      obtain ⟨rows, rfl⟩ : ∃ rows, o = .probe rows := by cases o <;> first | exact ⟨_, rfl⟩ | cases hph
      exact anchored_of_early early_probeFrom
    case entState q =>
      split
      · rename_i ha
        rw [hans.2]
        exact fun _ => hans.1.symm.trans ha
      · exact anchored_of_early early_listAt
    case entTenancy q => exact fun hq => hans.2 ▸ ⟨h hq, hans.1.symm⟩
    case entKey q w => split <;> exact fun hq => hans.2 ▸ h hq
    case entPublish q => split <;> trivial
    case entLen q => trivial
    case entStamp q => exact anchored_of_early early_listWords
    case entWord q k => exact anchored_of_early early_listWords
    case entPublishAfter q => trivial
    case entTenancyAfter q => trivial
    case entStateAfter q =>
      split
      · exact anchored_of_early early_listed
      · exact anchored_of_early early_listRetry
    case rowPid q => trivial
    case rowStart q pid => exact anchored_of_early early_listAt
    case rowProbe done row todo => exact anchored_of_early early_probeFrom

/-- What a call begins with. -/
theorem Actor.rightly_call {a b : Actor} {c : Call} (hcall : a.call g c = some b) :
    b.pc.early = false ∧ ∀ v shown bare, b.Rightly v shown bare := by
  have hplain : ∀ {b : Actor}, b.pc.phase ≠ .list → (∀ l rows, b.result ≠ .listing l rows) →
      b.pc.early = false ∧ ∀ v shown bare, b.Rightly v shown bare := fun hp hr =>
    ⟨Pc.early_of_phase hp, fun v shown bare => ⟨listed_of_phase hp, fun l rows h => absurd h (hr l rows)⟩⟩
  unfold Actor.call at hcall
  cases hpc : a.pc <;> rw [hpc] at hcall <;> simp only [reduceCtorEq] at hcall
  cases c with
  | declare key =>
    dsimp only at hcall
    split at hcall
    · cases hcall
    · obtain rfl := Option.some.inj hcall
      exact hplain nofun nofun
    · obtain rfl := Option.some.inj hcall
      exact hplain nofun nofun
  | write d =>
    dsimp only at hcall
    split at hcall
    · obtain rfl := Option.some.inj hcall
      exact hplain nofun nofun
    · split_ifs at hcall <;> obtain rfl := Option.some.inj hcall <;> exact hplain nofun nofun
  | release =>
    dsimp only at hcall
    split at hcall
    · obtain rfl := Option.some.inj hcall
      exact hplain nofun nofun
    · split_ifs at hcall <;> obtain rfl := Option.some.inj hcall <;> exact hplain nofun nofun
  | sweepStale =>
    obtain rfl := Option.some.inj hcall
    exact hplain nofun nofun
  | observe key =>
    dsimp only at hcall
    split at hcall <;> obtain rfl := Option.some.inj hcall <;> exact hplain nofun nofun
  | read size =>
    dsimp only at hcall
    split at hcall <;> obtain rfl := Option.some.inj hcall
    · exact hplain nofun nofun
    · rename_i r hr
      have hst := staysRead_resolve (g := g) (a := { a with result := .pending, pc := .idle }) (q := ⟨r, size, 0, 0, .empty⟩)
      rcases hst with ⟨h, hres⟩ | ⟨h, o, d, hres⟩ <;>
        exact hplain (by rw [h]; nofun) (by rw [hres]; nofun)
  | list l =>
    have hl : ∀ l, (listAt g { a with result := .pending, pc := .idle } l [] 0).pc.early = false ∧
        ∀ v shown bare, (listAt g { a with result := .pending, pc := .idle } l [] 0).Rightly v shown bare := fun l =>
      ⟨early_listAt, fun v shown bare => Rightly.listAt (a := { a with result := .pending, pc := .idle })
        ⟨trivial, nofun⟩ .nil⟩
    cases l with
    | snapshot =>
      obtain rfl := Option.some.inj hcall
      exact hplain nofun nofun
    | keys pre =>
      obtain rfl := Option.some.inj hcall
      exact hl _
    | readAll pre =>
      obtain rfl := Option.some.inj hcall
      exact hl _

/-- The lives that a call has seen active. -/
structure Seen (s : Shared ι Loc Actor (Trace ι)) : Prop where
  le : ∀ t i n, s.ghost.shown t i n = true → n ≤ s.ghost.life i
  active : ∀ t i, s.mem (.entry i .state) = Blackboard.active → s.ghost.shown t i (s.ghost.life i) = true
  bare : ∀ t i n, s.ghost.shown t i n = true → s.ghost.log i n = [] → s.ghost.bare t i n = true

/-- The row of a completed copy. -/
theorem ListCall.Got.row {q : ListCall} {w : Written} (h : q.Got q.whole w) :
    q.row.valueLen = w.data.length ∧ q.row.updatedAtNs = w.stamp ∧
      (q.listing.values = true → q.row.value = w.data) := by
  refine ⟨h.len, h.stamp, fun hv => ?_⟩
  have hwords := h.words
  rw [ListCall.whole, if_pos hv] at hwords
  have hrow : q.row.value = bytesOf q.c.len q.c.words := by
    unfold ListCall.row
    cases hq : q.listing with
    | readAll pre => rfl
    | keys | snapshot =>
      rw [hq] at hv
      cases hv
  rw [hrow, bytesOf_congr hwords, h.len]
  simpa using bytesOf_wordAt w.data 0

omit [DecidableEq ι] in
/-- A listing's own step. -/
theorem Actor.Rightly.resume_list (hV : Values g proc s) (hS : Seen s) {r : Answer}
    (hF : (s.th u).Rightly (view s) (s.ghost.shown u) (s.ghost.bare u)) (hA : (s.th u).Anchored s.mem)
    (hans : ∀ l, (s.th u).request = some (.load l) → r.val = s.mem l) (hph : (s.th u).pc.phase = .list) :
    ((s.th u).resume g r).Rightly (view s) (s.ghost.shown u) (s.ghost.bare u) := by
  have hr := hF.listed
  cases hpc : (s.th u).pc <;> rw [hpc] at hph <;> simp only [Pc.phase, reduceCtorEq] at hph <;>
    simp only [Actor.request, hpc, Option.some.injEq, Access.load.injEq, forall_eq'] at hans <;>
    simp only [Actor.Listed, hpc] at hr <;> simp only [Actor.Anchored, hpc] at hA <;>
    simp only [Actor.resume, hpc]
  case notifySeq locked o =>
    obtain ⟨rows, rfl⟩ : ∃ rows, o = .probe rows := by cases o <;> first | exact ⟨_, rfl⟩ | cases hph
    exact hF.goOn hr
  case notifyWaiters locked o =>
    obtain ⟨rows, rfl⟩ : ∃ rows, o = .probe rows := by cases o <;> first | exact ⟨_, rfl⟩ | cases hph
    split
    · exact hF.notified hr
    · exact hF.goOn hr
  case notifyWake locked o =>
    obtain ⟨rows, rfl⟩ : ∃ rows, o = .probe rows := by cases o <;> first | exact ⟨_, rfl⟩ | cases hph
    exact hF.notified hr
  case unlock o =>
    obtain ⟨rows, rfl⟩ : ∃ rows, o = .probe rows := by cases o <;> first | exact ⟨_, rfl⟩ | cases hph
    exact hF.probeFrom hr
  case entState q =>
    split
    · rename_i ha
      refine hF.goOn ⟨hr, _, hS.active u q.i (hans.symm.trans ha), fun n hn hlog => ?_⟩
      exact absurd ((hV.ok q.i).later n hn) hlog
    · exact hF.listAt hr
  case entTenancy q =>
    exact hF.goOn ⟨hr.1, hr.2, by decide,
      ⟨Nat.le_of_eq hans, fun _ _ j hj => absurd hj (Nat.not_lt_zero j)⟩, rfl⟩
  case entKey q w =>
    obtain ⟨hrows, hcov, hw, hscan, hlen⟩ := hr
    have hscan' : (view s q.i).Scanned q.c.tenancy (Function.update q.c.key w r.val) (w + 1) := by
      refine ⟨hscan.le, fun ht hb j hj => ?_⟩
      by_cases hjw : j = w
      · rw [hjw, Function.update_self, hans]
        rfl
      · rw [Function.update_of_ne hjw]
        exact hscan.words ht hb j (by omega)
    split
    · rename_i hlt
      exact hF.goOn ⟨hrows, hcov, hlt, hscan', hlen⟩
    · have hall : w + 1 = keyWords := by omega
      exact hF.goOn ⟨hrows, hcov, (hall ▸ hscan').held (hV.ok _) rfl, hlen⟩
  case entPublish q =>
    obtain ⟨hrows, hcov, hheld, hlen⟩ := hr
    have hpub : r.val = (view s q.i).publish := hans
    have hcount := (hV.ok q.i).count
    split
    · rename_i h0
      refine hF.goOn ⟨hrows, fun _ hsnap => ?_, fun hne => absurd h0 hne⟩
      obtain ⟨ha, ht⟩ := hA hsnap
      have hlog : (view s q.i).writes = [] := List.eq_nil_of_length_eq_zero (by rw [← hcount, ← hpub]; exact h0)
      have hshown := hS.active u q.i ha
      have hb := hV.activated q.i ha
      have htv : (view s q.i).tenancy = q.c.tenancy := ht
      exact ⟨(view s q.i).life, le_refl _, hheld.key htv (htv ▸ hb), hshown,
        .inl ⟨h0, hlen, hS.bare u q.i _ hshown hlog⟩⟩
    · rename_i h0
      refine hF.goOn ⟨hrows, (view s q.i).life, ?_, ?_⟩
      · obtain ⟨n₀, hn₀, hlater⟩ := hcov
        rcases Nat.eq_or_lt_of_le (hS.le u q.i n₀ hn₀) with he | hlt
        · rw [he] at hn₀
          exact hn₀
        · refine hlater _ hlt fun hnil => h0 ?_
          rw [hpub, hcount]
          exact congrArg List.length hnil
      · rw [hpub] at h0
        have := hheld.copying (hV.ok q.i) h0
        rwa [← hpub] at this
  case entLen q =>
    obtain ⟨hrows, n, hn, hc⟩ := hr
    refine hF.goOn ⟨hrows, n, hn, hc.load (hV.ok _) fun w hle _ hw => ?_⟩
    have hlen : r.val = w.data.length := hans.trans hw.len
    show min r.val g.maxValueSize = w.data.length
    omega
  case entStamp q =>
    obtain ⟨hrows, n, hn, hc⟩ := hr
    refine hF.listWords (Nat.zero_le _) hrows (Nat.ne_of_gt hc.pos) ⟨n, hn, ?_⟩
    exact hc.load (hV.ok _) fun w _ hlen hw =>
      ⟨hlen, hans.trans hw.stamp, fun j hj => absurd hj (Nat.not_lt_zero j)⟩
  case entWord q k =>
    obtain ⟨hrows, hk, n, hn, hc⟩ := hr
    refine hF.listWords (Nat.succ_le_of_lt hk) hrows (Nat.ne_of_gt hc.pos) ⟨n, hn, ?_⟩
    refine hc.load (hV.ok _) fun w _ hgot hw => ⟨hgot.len, hgot.stamp, fun j hj => ?_⟩
    show Function.update q.c.words k r.val j = _
    by_cases hjk : j = k
    · rw [hjk, Function.update_self, hans]
      refine hw.words k ?_
      rw [← hgot.len]
      unfold ListCall.whole at hk
      split at hk
      · exact hk
      · exact absurd hk (Nat.not_lt_zero k)
    · rw [Function.update_of_ne hjk]
      exact hgot.words j (by omega)
  case entPublishAfter q =>
    obtain ⟨hrows, hnone, hsome⟩ := hr
    refine hF.goOn ⟨hrows, hnone, fun h0 hcl => ?_⟩
    have hpub : r.val = (view s q.i).publish := hans
    obtain ⟨n, hn, hc⟩ := hsome h0
    have hnot : ¬(r.val < 2 * q.c.writes ∨ 2 * q.c.writes + 3 ≤ r.val) := of_decide_eq_false hcl
    refine ⟨n, hn, hc.le, fun ht => ?_⟩
    obtain ⟨h1, h2, h3, w, hw, hgot⟩ := hc.told ht (by omega) (by omega)
    exact ⟨h1, h2, h3, w, hw, hgot.len, hgot.stamp, hgot.words⟩
  case entTenancyAfter q =>
    obtain ⟨hrows, hnone, hsome⟩ := hr
    refine hF.goOn ⟨hrows, fun ht hcl hcase => ?_⟩
    by_cases h0 : q.c.writes = 0
    · have hsnap : q.listing = .snapshot := hcase.resolve_right fun h => by
        have : 0 < q.c.writes := h
        omega
      have hrow := hnone h0 hsnap
      rw [← hsnap] at hrow
      exact hrow
    · have hncl : q.c.clobbered = false := by
        by_contra hne
        exact hcl ⟨Nat.pos_of_ne_zero h0, by simpa using hne⟩
      obtain ⟨n, hn, -, htold⟩ := hsome h0 hncl
      obtain ⟨h1, h2, h3, w, hw, hgot⟩ := htold (hans.symm.trans ht)
      obtain ⟨r1, r2, r3⟩ := hgot.row
      exact ⟨n, h1, h2, hn, .inr ⟨h3, w, hw, r1, r2, r3⟩⟩
  case entStateAfter q =>
    obtain ⟨hrows, hrow⟩ := hr
    split
    · rename_i hacc
      unfold ListCall.accepted at hacc
      rw [Bool.and_eq_true, decide_eq_true_eq] at hacc
      refine hF.listed' hrows (hrow hacc.1.2 ?_)
      rintro ⟨h0, hcl⟩
      simp [h0, hcl] at hacc
    · exact hF.listRetry hrows
  case rowPid q => exact hF.goOn hr
  case rowStart q pid =>
    refine hF.listAt fun y hy => ?_
    rcases List.mem_append.mp hy with hy | hy
    · exact hr y (List.mem_append_left _ hy)
    · rw [List.mem_singleton.mp hy]
      exact hr q.row (List.mem_append_right _ (List.mem_singleton_self _))
  case rowProbe done row todo =>
    refine hF.probeFrom fun y hy => ?_
    rw [List.append_assoc, List.singleton_append] at hy
    rcases List.mem_append.mp hy with hy | hy
    · exact hr y (List.mem_append_left _ hy)
    · rcases List.mem_cons.mp hy with rfl | hy
      · exact hr row (List.mem_append_right _ List.mem_cons_self)
      · exact hr y (List.mem_append_right _ (List.mem_cons_of_mem _ hy))

/-- Only an activation shows a life. -/
theorem Trace.track_shown (tr : Trace ι) (m : Loc → Nat) (a : Actor) (r : Answer)
    (h : ∀ key i, a.pc ≠ .claimActivate key i) :
    (tr.track m u a r).shown = tr.shown ∧ (tr.track m u a r).bare = tr.bare := by
  unfold Trace.track
  cases hpc : a.pc
  case claimActivate key i => exact absurd hpc (h key i)
  all_goals first
    | exact ⟨rfl, rfl⟩
    | (dsimp only; split <;> exact ⟨rfl, rfl⟩)

theorem Trace.shown_mono (tr : Trace ι) (m : Loc → Nat) (a : Actor) (r : Answer) {i n : Nat} :
    (tr.shown t i n = true → (tr.track m u a r).shown t i n = true) ∧
      (tr.bare t i n = true → (tr.track m u a r).bare t i n = true) := by
  by_cases h : ∃ key i, a.pc = .claimActivate key i
  · obtain ⟨key, j, hpc⟩ := h
    rw [Trace.track, hpc]
    simp only [Trace.publish, Bool.or_eq_true]
    exact ⟨.inl, .inl⟩
  · obtain ⟨h1, h2⟩ := tr.track_shown (u := u) m a r fun key i he => h ⟨key, i, he⟩
    rw [h1, h2]
    exact ⟨id, id⟩

section Step

variable (hI : Inv g proc s) (hs : s.world.Sound) (hV : Values g proc s) (hS : Seen s)
  (hu : s.world.alive (proc u) = true) (hreq : (s.th u).request = some x)

include hI hs hV hu hreq

omit [DecidableEq ι] hV hreq in
theorem Inv.active_of_close {w : Writer} {d : List UInt8} {n : Nat} (hpc : (s.th u).pc = .writeClose w d n) :
    s.mem (.entry w.entryIdx .state) = active := by
  have hwork := hI.works hs hu
  rw [Actor.Work, hpc] at hwork
  have hc : (s.th u).claim = some w := by rw [Actor.claim_of_plain (by rw [hpc]; rfl)]; exact hwork
  exact ((hI.owned u w hc).resolve_left (hs.not_gone hu)).keyed.state

omit hV in
/-- A life gets its first value while it is active. -/
theorem Values.first_write {i n : Nat} (hn : (view ((program ι g).ran s u x now) i).log n ≠ [])
    (h0 : (view s i).log n = []) :
    s.mem (.entry i .state) = active ∧ n = s.ghost.life i := by
  by_cases hm : (s.th u).pc.moves = some i
  swap
  · rw [view_same hreq hm] at hn
    exact absurd h0 hn
  cases hpc : (s.th u).pc <;> rw [hpc] at hm <;>
    simp only [Pc.moves, Option.some.injEq, reduceCtorEq] at hm <;> subst hm
  case writeClose w d k =>
    refine ⟨hI.active_of_close hs hu hpc, ?_⟩
    by_contra hne
    refine hn ?_
    simp only [view, viewOf, ran_ghost, Trace.track, hpc, Trace.append, Function.update_self]
    rw [Function.update_of_ne hne]
    exact h0
  case claimClear key i =>
    refine absurd ?_ hn
    simp only [view, viewOf, ran_ghost, Trace.track, hpc, Trace.begin, Function.update_self]
    by_cases he : n = s.ghost.life i + 1
    · rw [he, Function.update_self]
    · rw [Function.update_of_ne he]
      exact h0
  all_goals
    refine absurd ?_ hn
    simp only [view, viewOf, ran_ghost, Trace.track, hpc]
    exact h0

include hS in
/-- One step of an actor is one that a listing survives. -/
theorem Seen.passes (hnw : unwrapped s (.run u now) = true) (t : ι) :
    Passes g.maxValueSize (view s) (view ((program ι g).ran s u x now))
    (s.ghost.shown t) (((program ι g).ran s u x now).ghost.shown t)
    (s.ghost.bare t) (((program ι g).ran s u x now).ghost.bare t) where
  ok := hV.ok
  evolves i := (hV.evolves hI hs hu hreq hnw i).1
  shown _ _ := (Trace.shown_mono ..).1
  bare _ _ := (Trace.shown_mono ..).2
  first i n hn h0 := by
    obtain ⟨ha, rfl⟩ := Values.first_write hI hs hu hreq hn h0
    exact (Trace.shown_mono ..).1 (hS.active t i ha)

include hS in
theorem Seen.ran (hnw : unwrapped s (.run u now) = true) : Seen ((program ι g).ran s u x now) := by
  have hev := hV.evolves hI hs hu hreq hnw
  by_cases hact : ∃ key i, (s.th u).pc = .claimActivate key i
  · obtain ⟨key, k, hpc⟩ := hact
    have hsame : ∀ i, view ((program ι g).ran s u x now) i = view s i := fun i =>
      view_same hreq (by rw [hpc]; nofun)
    have hshown : ∀ t i n, ((program ι g).ran s u x now).ghost.shown t i n =
        (s.ghost.shown t i n || decide (i = k ∧ n = s.ghost.life k)) := fun t i n => by
      rw [ran_ghost, Trace.track, hpc]
      rfl
    have hbare : ∀ t i n, ((program ι g).ran s u x now).ghost.bare t i n =
        (s.ghost.bare t i n || decide (i = k ∧ n = s.ghost.life k ∧ s.ghost.log k n = [])) :=
      fun t i n => by
      rw [ran_ghost, Trace.track, hpc]
      rfl
    have hlife : ∀ i, ((program ι g).ran s u x now).ghost.life i = s.ghost.life i :=
      fun i => congrArg View.life (hsame i)
    have hlog : ∀ i, ((program ι g).ran s u x now).ghost.log i = s.ghost.log i :=
      fun i => congrArg View.log (hsame i)
    refine ⟨fun t i n h => ?_, fun t i h => ?_, fun t i n h h0 => ?_⟩
    · rw [hlife]
      rw [hshown, Bool.or_eq_true, decide_eq_true_eq] at h
      rcases h with h | ⟨rfl, rfl⟩
      · exact hS.le t i n h
      · exact le_refl _
    · rw [hshown, hlife, Bool.or_eq_true, decide_eq_true_eq]
      rcases state_next hreq h with hst | ⟨key', hpc'⟩
      · exact .inl (hS.active t i hst)
      · obtain ⟨-, rfl⟩ := Pc.claimActivate.inj (hpc.symm.trans hpc')
        exact .inr ⟨rfl, rfl⟩
    · rw [hbare, Bool.or_eq_true, decide_eq_true_eq]
      rw [hshown, Bool.or_eq_true, decide_eq_true_eq] at h
      rw [hlog] at h0
      rcases h with h | ⟨rfl, rfl⟩
      · exact .inl (hS.bare t i n h h0)
      · exact .inr ⟨rfl, rfl, h0⟩
  · obtain ⟨h1, h2⟩ := s.ghost.track_shown (u := u) s.mem (s.th u)
      (x.exec verdict s.world.procs s.mem now).2 fun key i he => hact ⟨key, i, he⟩
    have hg : ((program ι g).ran s u x now).ghost = s.ghost.track s.mem u (s.th u)
      (x.exec verdict s.world.procs s.mem now).2 := ran_ghost
    refine ⟨fun t i n h => ?_, fun t i h => ?_, fun t i n h h0 => ?_⟩
    · rw [hg, h1] at h
      exact (hS.le t i n h).trans (hev i).1.life_le
    · rcases state_next hreq h with hst | ⟨key, hpc⟩
      · rw [show ((program ι g).ran s u x now).ghost.life i = s.ghost.life i from (hev i).2 hst, hg, h1]
        exact hS.active t i hst
      · exact absurd ⟨key, i, hpc⟩ hact
    · rw [hg, h1] at h
      rw [hg, h2]
      refine hS.bare t i n h (List.eq_nil_of_length_eq_zero (Nat.le_zero.mp ?_))
      have hle := (hev i).1.log_length (hS.le t i n h)
      exact hle.trans (Nat.le_of_eq (congrArg List.length h0))

omit hV in
/-- A snapshot holds the lock, so nobody else edits its entry. -/
theorem Inv.anchored_other (htu : t ≠ u) (ht : proc t ∉ s.world.gone) (h : (s.th t).Anchored s.mem) :
    (s.th t).Anchored ((program ι g).ran s u x now).mem := by
  have hkeep : ∀ {i : Nat}, (s.th t).pc.inside = true → ∀ f, f ≠ .publish →
      ((program ι g).ran s u x now).mem (.entry i f) = s.mem (.entry i f) := by
    intro i hin f hf
    refine frame hreq (fun he => htu ?_) hf
    have h1 := (hI.inside t hin).resolve_right ht
    have h2 := hI.holds hs hu (Pc.inside_of_edits he)
    exact Option.some.inj (h1.symm.trans h2)
  unfold Actor.Anchored at h ⊢
  cases hpc : (s.th t).pc <;> rw [hpc] at h hkeep
  case entTenancy q =>
    intro hq
    rw [hkeep (decide_eq_true hq) .state nofun]
    exact h hq
  case entKey q w =>
    intro hq
    rw [hkeep (decide_eq_true hq) .state nofun, hkeep (decide_eq_true hq) .tenancy nofun]
    exact h hq
  case entPublish q =>
    intro hq
    rw [hkeep (decide_eq_true hq) .state nofun, hkeep (decide_eq_true hq) .tenancy nofun]
    exact h hq
  all_goals trivial

end Step

/-- What holds of every listing. -/
structure AllRightly (proc : ι → Nat × Nat) (s : Shared ι Loc Actor (Trace ι)) : Prop where
  seen : Seen s
  rightly : ∀ t, (s.th t).Rightly (view s) (s.ghost.shown t) (s.ghost.bare t)
  anchored : ∀ t, proc t ∈ s.world.gone ∨ (s.th t).Anchored s.mem

/-- A step that is not a listing's leaves no answer of one. -/
theorem Actor.beside_resume {a : Actor} {r : Answer} (hph : a.pc.phase ≠ .list)
    (hs : a.pc.silent = true) : a.resume g r = a.listAt g .snapshot [] 0 ∨
      ((a.resume g r).pc.phase ≠ .list ∧
        ((a.resume g r).result = a.result ∨ ∀ l rows, (a.resume g r).result ≠ .listing l rows)) := by
  have hgo : ∀ {b : Actor} (p : Phase), p ≠ .list → a.Goes b p →
      b.pc.phase ≠ .list ∧ (b.result = a.result ∨ ∀ l rows, b.result ≠ .listing l rows) := by
    intro b p hp h
    refine ⟨h.phase ▸ hp, h.result.imp id fun hr l rows he => ?_⟩
    rw [he] at hr
    cases hr
  cases hp : a.pc.phase with
  | desk =>
    rcases a.resume_desk (g := g) (r := r) hp hs with h | ⟨key, i, -, h⟩ | h
    · exact .inr (hgo .desk nofun h)
    · rw [h]
      exact .inr ⟨nofun, .inl rfl⟩
    · exact .inl h
  | draft =>
    rcases a.resume_draft (g := g) (r := r) hp with h | h
    · exact .inr (hgo .desk nofun h)
    · exact .inr (hgo .draft nofun h)
  | list => exact absurd hp hph
  | read =>
    right
    rcases a.resume_read (g := g) (r := r) hp with ⟨h, hr⟩ | ⟨h, o, d, hr⟩
    · exact ⟨by rw [h]; nofun, .inl hr⟩
    · exact ⟨by rw [h]; nofun, .inr (by rw [hr]; nofun)⟩

theorem AllRightly.ran (hA : AllRightly proc s) (hI : Inv g proc s) (hs : s.world.Sound)
    (hV : Values g proc s) (hu : s.world.alive (proc u) = true) (hreq : (s.th u).request = some x)
    (hnw : unwrapped s (.run u now) = true) : AllRightly proc ((program ι g).ran s u x now) where
  seen := hA.seen.ran hI hs hV hu hreq hnw
  rightly t := by
    have hp : Passes g.maxValueSize (view s) (view ((program ι g).ran s u x now)) _ _ _ _ :=
      hA.seen.passes hI hs hV hu hreq hnw t
    by_cases htu : t = u
    · subst htu
      rw [ran_self]
      by_cases hph : (s.th t).pc.phase = .list
      · refine (Actor.Rightly.resume_list hV hA.seen (hA.rightly t)
          ((hA.anchored t).resolve_left (hs.not_gone hu)) (fun l hl => ?_) hph).passes hp
        obtain rfl := Option.some.inj (hreq.symm.trans hl)
        rfl
      · rcases Actor.beside_resume (g := g) (r := (x.exec verdict s.world.procs s.mem now).2) hph
          (hV.silent t) with h | ⟨h1, h2⟩
        · rw [h]
          exact ((hA.rightly t).passes hp).listAt .nil
        · exact ((hA.rightly t).passes hp).apart h1 h2
    · rw [ran_other htu]
      exact (hA.rightly t).passes hp
  anchored t := by
    by_cases htg : proc t ∈ s.world.gone
    · exact .inl htg
    right
    have ha := (hA.anchored t).resolve_left htg
    by_cases htu : t = u
    · subst htu
      rw [ran_self]
      refine ha.resume (fun l hl => ?_) (hV.silent t)
      obtain rfl := Option.some.inj (hreq.symm.trans hl)
      exact ⟨rfl, rfl⟩
    · rw [ran_other htu]
      exact hI.anchored_other hs hu hreq htu htg ha

omit [DecidableEq ι] in
theorem allRightly_init (h : Init proc s) : AllRightly proc s where
  seen := by
    refine ⟨fun t i n hn => ?_, fun t i ha => ?_, fun t i n hn => ?_⟩
    · rw [h.ghost] at hn
      cases hn
    · rw [h.mem] at ha
      cases ha
    · rw [h.ghost] at hn
      cases hn
  rightly t := by
    rw [h.th t]
    exact ⟨trivial, nofun⟩
  anchored t := .inr (by rw [h.th t]; trivial)

theorem Trace.trackCall_shown (tr : Trace ι) (m : Loc → Nat) (c : Call) :
    (∀ i n, (tr.trackCall m u c).shown u i n = decide (n = tr.life i ∧ m (.entry i .state) = active)) ∧
      (∀ i n, (tr.trackCall m u c).bare u i n =
        decide (n = tr.life i ∧ m (.entry i .state) = active ∧ tr.log i n = [])) ∧
      ∀ t, t ≠ u → (tr.trackCall m u c).shown t = tr.shown t ∧ (tr.trackCall m u c).bare t = tr.bare t := by
  have hw : (∀ i n, (tr.watch m u).shown u i n = decide (n = tr.life i ∧ m (.entry i .state) = active)) ∧
      (∀ i n, (tr.watch m u).bare u i n =
        decide (n = tr.life i ∧ m (.entry i .state) = active ∧ tr.log i n = [])) ∧
      ∀ t, t ≠ u → (tr.watch m u).shown t = tr.shown t ∧ (tr.watch m u).bare t = tr.bare t := by
    refine ⟨fun i n => ?_, fun i n => ?_, fun t ht =>
      ⟨Function.update_of_ne ht .., Function.update_of_ne ht ..⟩⟩ <;>
      simp only [Trace.watch, Function.update_self]
  unfold Trace.trackCall
  split
  · split
    · exact hw
    · exact hw
  · exact hw

/-- The start of a call: what is active then is seen. -/
theorem AllRightly.called (hA : AllRightly proc s) {a : Actor} {c : Call}
    (hcall : (s.th u).call g c = some a) :
    AllRightly proc { s with th := Function.update s.th u a, ghost := s.ghost.trackCall s.mem u c } := by
  obtain ⟨hshown, hbare, hother⟩ := s.ghost.trackCall_shown (u := u) s.mem c
  have hview : view { s with th := Function.update s.th u a, ghost := s.ghost.trackCall s.mem u c } =
      view s := funext fun i => Trace.trackCall_lives ..
  have hlife : ∀ i, (s.ghost.trackCall s.mem u c).life i = s.ghost.life i :=
    fun i => congrArg View.life (congrFun hview i)
  have hlog : ∀ i, (s.ghost.trackCall s.mem u c).log i = s.ghost.log i :=
    fun i => congrArg View.log (congrFun hview i)
  obtain ⟨hearly, hright⟩ := Actor.rightly_call hcall
  refine ⟨⟨fun t i n h => ?_, fun t i ha => ?_, fun t i n h h0 => ?_⟩, fun t => ?_, fun t => ?_⟩
  · show n ≤ (s.ghost.trackCall s.mem u c).life i
    rw [hlife]
    change (s.ghost.trackCall s.mem u c).shown t i n = true at h
    by_cases htu : t = u
    · subst htu
      rw [hshown, decide_eq_true_eq] at h
      exact Nat.le_of_eq h.1
    · rw [(hother t htu).1] at h
      exact hA.seen.le t i n h
  · show (s.ghost.trackCall s.mem u c).shown t i ((s.ghost.trackCall s.mem u c).life i) = true
    rw [hlife]
    by_cases htu : t = u
    · subst htu
      rw [hshown, decide_eq_true_eq]
      exact ⟨rfl, ha⟩
    · rw [(hother t htu).1]
      exact hA.seen.active t i ha
  · show (s.ghost.trackCall s.mem u c).bare t i n = true
    change (s.ghost.trackCall s.mem u c).shown t i n = true at h
    change (s.ghost.trackCall s.mem u c).log i n = [] at h0
    rw [hlog] at h0
    by_cases htu : t = u
    · subst htu
      rw [hshown, decide_eq_true_eq] at h
      rw [hbare, decide_eq_true_eq]
      exact ⟨h.1, h.2, h0⟩
    · rw [(hother t htu).1] at h
      rw [(hother t htu).2]
      exact hA.seen.bare t i n h h0
  · rw [hview]
    show ((Function.update s.th u a) t).Rightly _ ((s.ghost.trackCall s.mem u c).shown t)
      ((s.ghost.trackCall s.mem u c).bare t)
    by_cases htu : t = u
    · subst htu
      rw [Function.update_self]
      exact hright _ _ _
    · rw [Function.update_of_ne htu, (hother t htu).1, (hother t htu).2]
      exact hA.rightly t
  · by_cases htu : t = u
    · subst htu
      right
      show ((Function.update s.th t a) t).Anchored s.mem
      rw [Function.update_self]
      exact Actor.anchored_of_early hearly
    · refine (hA.anchored t).imp id fun h => ?_
      show ((Function.update s.th u a) t).Anchored s.mem
      rwa [Function.update_of_ne htu]

omit [DecidableEq ι] in
theorem AllRightly.world (hA : AllRightly proc s) {w : World} (hle : s.world.Le w) :
    AllRightly proc { s with world := w } where
  seen := ⟨hA.seen.le, hA.seen.active, hA.seen.bare⟩
  rightly := hA.rightly
  anchored t := (hA.anchored t).imp (hle.gone _) id

theorem rightly_reach (h : Steady g proc s) :
    ((Inv g proc s ∧ Values g proc s) ∧ AllRightly proc s) ∧ s.world.Sound :=
  Program.invariant (I := fun s => (Inv g proc s ∧ Values g proc s) ∧ AllRightly proc s)
    (fun _ h0 => ⟨⟨⟨inv_init h0, values_init h0⟩, allRightly_init h0⟩, h0.world⟩)
    (fun _ _ _ _ ⟨⟨hI, hV⟩, hA⟩ hs hu hreq hst => by
      obtain ⟨hup, hnw⟩ := steady_iff.mp hst
      exact ⟨⟨hI.ran hs hu hreq hup, hV.ran hI hs hu hreq hnw⟩, hA.ran hI hs hV hu hreq hnw⟩)
    (fun _ _ _ _ ⟨⟨hI, hV⟩, hA⟩ _ _ hcall => ⟨⟨hI.called hcall, hV.called hcall⟩, hA.called hcall⟩)
    (fun _ _ ⟨⟨hI, hV⟩, hA⟩ _ hle _ => ⟨⟨hI.world hle, hV.world hle⟩, hA.world hle⟩) h

/-- In every run in which no recoverer takes the lock from a running process and no counter of an entry wraps,
whatever declares, writes, releases, sweeps and claims happen between any two loads of a listing: a row of
`read_all` or of `snapshot`, and a row of `keys` whose entry had a value, has a key that was active on that entry during the
call, whole, and beside it the count, the length, the stamp and the bytes of one completed write for that
key; or it says that there is no value, and there was none while the key was active. -/
theorem listings_right (h : Steady g proc s) (t : ι) (l : Listing) (rows : List Row)
    (hl : (s.th t).result = .listing l rows) (r : Row) (hr : r ∈ rows)
    (hk : (∀ pre, l ≠ .keys pre) ∨ r.updateCount ≠ 0) :
    ∃ n, s.ghost.shown t r.idx n = true ∧ s.ghost.lifeKey r.idx n = r.key ∧
      ((r.updateCount = 0 ∧ r.valueLen = 0 ∧ s.ghost.bare t r.idx n = true) ∨
        1 ≤ r.updateCount ∧ ∃ w, (s.ghost.log r.idx n)[r.updateCount - 1]? = some w ∧ w.key = r.key ∧
          r.valueLen = w.data.length ∧ r.updatedAtNs = w.stamp ∧ (l.values = true → r.value = w.data)) := by
  obtain ⟨⟨⟨-, hV⟩, hA⟩, -⟩ := rightly_reach h
  rcases (hA.rightly t).told l rows hl r hr with ⟨⟨pre, hpre⟩, h0⟩ | ⟨n, -, hkey, hshown, hcase⟩
  · rcases hk with hk | hk
    · exact absurd hpre (hk pre)
    · exact absurd h0 hk
  · refine ⟨n, hshown, hkey, hcase.imp id ?_⟩
    rintro ⟨h1, w, hw, hrest⟩
    exact ⟨h1, w, hw, (((hV.ok r.idx).fits n w (List.mem_of_getElem? hw)).2).trans hkey, hrest⟩

/-- Thread 0 declares a key and writes under it, and thread 2 lists. -/
def crewLists : List (Action (Fin 4) Call) :=
  crewDeclares ++ .call 0 (.write [1, 2]) :: List.replicate 10 (.run 0 9) ++
    .call 2 (.list (.readAll [])) :: List.replicate 25 (.run 2 0)

theorem listings_right_crew : ∃ s : Shared (Fin 4) Loc Actor (Trace (Fin 4)),
    ∃ r, (s.th 2).result = .listing (.readAll []) [r] ∧
      ∃ n w, s.ghost.lifeKey r.idx n = r.key ∧ (s.ghost.log r.idx n)[0]? = some w ∧ r.value = w.data := by
  have h0 : Steady small crewProc crew := .init init_crew
  obtain ⟨s, hs, hP⟩ := LTS.Reach.play_any h0 crewLists
    (fun s : Shared (Fin 4) Loc Actor (Trace (Fin 4)) => match (s.th 2).result with
      | .listing l rows => decide (l = .readAll [] ∧
          rows = [⟨0, [107], 2, 9, 1, [1, 2], 0, 0, false⟩])
      | _ => false)
    (by decide +kernel)
  have hres : (s.th 2).result =
      .listing (.readAll []) [⟨0, [107], 2, 9, 1, [1, 2], 0, 0, false⟩] := by
    cases hr : (s.th 2).result <;> rw [hr] at hP <;> simp only [Bool.false_eq_true] at hP
    obtain ⟨rfl, rfl⟩ := of_decide_eq_true hP
    rfl
  obtain ⟨n, -, hkey, hcase⟩ := listings_right hs 2 _ _ hres _ (List.mem_singleton_self _) (.inl nofun)
  obtain ⟨-, w, hw, -, -, -, hval⟩ := hcase.resolve_left (by rintro ⟨h, -⟩; cases h)
  exact ⟨s, _, hres, n, w, hkey, hw, hval rfl⟩

/-- Thread 0 declares `aaaaaaaab` and dies; thread 2 lists the keys and finds the entry active; thread 3
declares `ccccccccd`, and its sweep moves the tenancy on; thread 2 loads the tenancy and the first word of
the key; thread 3 stores its key; thread 2 loads the rest, `publish` and the tenancy; thread 3 activates
the entry; thread 2 finds it active. -/
def crewTears : List (Action (Fin 4) Call) :=
  .call 0 (.declare [97, 97, 97, 97, 97, 97, 97, 97, 98]) :: List.replicate 34 (.run 0 5) ++ .exit 7 ::
    .call 2 (.list (.keys [])) :: .run 2 0 ::
    .call 3 (.declare [99, 99, 99, 99, 99, 99, 99, 99, 100]) :: List.replicate 13 (.run 3 0) ++
    List.replicate 2 (.run 2 0) ++ List.replicate 27 (.run 3 0) ++ List.replicate 18 (.run 2 0) ++
    List.replicate 2 (.run 3 0) ++ [.run 2 0]

/-- `keys` returns `aaaaaaaad`, which nobody has declared. -/
theorem keys_torn : ∃ s : Shared (Fin 4) Loc Actor (Trace (Fin 4)), Steady small crewProc s ∧
    ∃ rows, (s.th 2).result = .listing (.keys []) rows ∧
      rows.map Row.key = [[97, 97, 97, 97, 97, 97, 97, 97, 100]] := by
  have h0 : Steady small crewProc crew := .init init_crew
  obtain ⟨s, hs, hP⟩ := LTS.Reach.play_any h0 crewTears
    (fun s : Shared (Fin 4) Loc Actor (Trace (Fin 4)) => match (s.th 2).result with
      | .listing l rows => decide (l = .keys [] ∧
          rows.map Row.key = [[97, 97, 97, 97, 97, 97, 97, 97, 100]])
      | _ => false)
    (by decide +kernel)
  cases hr : (s.th 2).result <;> rw [hr] at hP <;> simp only [Bool.false_eq_true] at hP
  obtain ⟨rfl, hrows⟩ := of_decide_eq_true hP
  exact ⟨s, hs, _, hr, hrows⟩

end System

end Kickmsg.Blackboard
