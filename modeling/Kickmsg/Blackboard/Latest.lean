import Kickmsg.Blackboard.Reading

/-!
# Reads and real time

That a read returns some completed write is not all: it returns none that was out of date when it was called.
And while the entries are not touched, it returns the last write that was completed, whoever made it, whatever
has become of its writer, and however often the key has been taken over since.
-/

namespace Kickmsg.Blackboard

open Lib

section System

variable {ι : Type} [DecidableEq ι] {proc : ι → Nat × Nat} {s₀ s s' : Shared ι Loc Actor (Trace ι)} {g : Geometry}
  {t u : ι} {x : Access Loc Query} {now size : Nat}

/-- A `read` that `t` called in `s₀` is under way in `s`, or has just returned. -/
def ReadRun (g : Geometry) (proc : ι → Nat × Nat) (t : ι) (size : Nat) (s₀ s : Shared ι Loc Actor (Trace ι)) :
    Prop :=
  ∃ s₁, (program ι g).next proc s₀ (.call t (.read size)) = some s₁ ∧
    ((program ι g).machine proc (· = s₁)).Reach
      (fun s l _ => steady s l = true ∧ (s.th t).pc.phase = .read) s

theorem ReadRun.steady (h₀ : Steady g proc s₀) (h : ReadRun g proc t size s₀ s) : Steady g proc s := by
  obtain ⟨s₁, h₁, hr⟩ := h
  refine hr.invariant (fun x hx => ?_) fun x l y hx hs ho => .step hx hs ho.1
  obtain rfl := hx
  exact .step h₀ h₁ rfl

/-! ## No read is out of date -/

/-- Lives begin and writes are completed; neither is taken back. -/
def Trace.Le (old new : Trace ι) : Prop :=
  ∀ i, old.life i ≤ new.life i ∧ ∀ n, (old.log i n).length ≤ (new.log i n).length

/-- The read has seen `publish` no earlier than it was called: the life it is in is no older than that of the
entry then, and it has seen every write of that life that was completed then. -/
def Actor.Saw (old : Trace ι) (n : Nat) (reads : List Fetched) (a : Actor) : Prop :=
  match a.pc with
  | .readLen q | .readWord q _ | .readStamp q | .readPublishAfter q | .readTenancyAfter q =>
    old.life q.i ≤ n ∧ (old.log q.i n).length ≤ q.c.writes
  | .idle => ∀ o data, a.result = .read o data → o.ec = none → ∃ f rest, reads = f :: rest ∧
      f.count = o.updateCount ∧ old.life f.entry ≤ f.life ∧ (old.log f.entry f.life).length ≤ f.count
  | _ => True

section Actors

variable {a : Actor} {old : Trace ι} {n : Nat} {reads : List Fetched} {q : ReadCall} {i k : Nat}

omit [DecidableEq ι] in
theorem Actor.saw_seekAt : (a.seekAt g q i).Saw old n reads := by
  unfold Actor.seekAt
  split
  · trivial
  · intro o data hres hec
    obtain ⟨rfl, -⟩ := Result.read.inj hres
    cases hec

omit [DecidableEq ι] in
theorem Actor.saw_resolve : (a.resolve g q).Saw old n reads := by
  unfold Actor.resolve
  split
  · split
    · trivial
    · exact saw_seekAt
  · exact saw_seekAt

omit [DecidableEq ι] in
theorem Actor.saw_readRetry : (a.readRetry g q).Saw old n reads := by
  unfold Actor.readRetry
  split
  · exact saw_resolve
  · intro o data hres hec
    obtain ⟨rfl, -⟩ := Result.read.inj hres
    cases hec

omit [DecidableEq ι] in
theorem Actor.saw_readWords (h : old.life q.i ≤ n ∧ (old.log q.i n).length ≤ q.c.writes) :
    (a.readWords q k).Saw old n reads := by
  unfold Actor.readWords
  split <;> exact h

end Actors

/-- A reader's own step. -/
theorem Actor.Saw.resume {old : Trace ι} (hV : Values g proc s) (hle : old.Le s.ghost) {r : Answer}
    (hans : ∀ l, (s.th t).request = some (.load l) → r.val = s.mem l) (hph : (s.th t).pc.phase = .read)
    (h : (s.th t).Saw old (s.ghost.met t) (s.ghost.reads t)) :
    ((s.th t).resume g r).Saw old ((s.ghost.track s.mem t (s.th t) r).met t)
      ((s.ghost.track s.mem t (s.th t) r).reads t) := by
  cases hpc : (s.th t).pc <;> rw [hpc] at hph <;> simp only [Pc.phase, reduceCtorEq] at hph <;>
    simp only [Actor.request, hpc, Option.some.injEq, Access.load.injEq, forall_eq'] at hans <;>
    simp only [Actor.Saw, hpc] at h <;> simp only [Actor.resume, Trace.track, hpc]
  case notifySeq locked o | notifyWaiters locked o | notifyWake locked o => cases o <;> cases hph
  case unlock o => cases o <;> cases hph
  case resState q | resTenancy q | seekState q | seekHash q =>
    split
    · trivial
    · exact Actor.saw_seekAt
  case seekTenancy q => trivial
  case seekKey q w =>
    split
    · trivial
    · split
      · trivial
      · exact Actor.saw_seekAt
  case readTenancy q =>
    split
    · trivial
    · exact Actor.saw_readRetry
  case readPublish q =>
    rw [Function.update_self]
    split
    · intro o data hres hec
      obtain ⟨rfl, -⟩ := Result.read.inj hres
      cases hec
    · -- what is counted here is every write of the life that the entry is in
      have hcount : (view s q.i).publish / 2 = (s.ghost.log q.i (s.ghost.life q.i)).length := (hV.ok q.i).count
      have hpub : r.val = (view s q.i).publish := hans
      obtain ⟨hlife, hlog⟩ := hle q.i
      refine ⟨hlife, ?_⟩
      show (old.log q.i (s.ghost.life q.i)).length ≤ r.val / 2
      rw [hpub, hcount]
      exact hlog _
  case readLen q => exact Actor.saw_readWords h
  case readWord q k => exact Actor.saw_readWords h
  case readStamp q => exact h
  case readPublishAfter q => exact h
  case readTenancyAfter q =>
    split
    · rename_i hacc
      dsimp only
      rw [Function.update_self]
      intro o data hres hec
      obtain ⟨rfl, -⟩ := Result.read.inj hres
      exact ⟨_, _, rfl, rfl, h⟩
    · exact Actor.saw_readRetry

/-- Whatever a live actor does. -/
theorem Trace.le_of_ran (hI : Inv g proc s) (hs : s.world.Sound) (hV : Values g proc s)
    (hu : s.world.alive (proc u) = true) (hreq : (s.th u).request = some x)
    (hnw : unwrapped s (.run u now) = true) : s.ghost.Le ((program ι g).ran s u x now).ghost := by
  intro i
  have hev : (view s i).Evolves g.maxValueSize (view ((program ι g).ran s u x now) i) :=
    (hV.evolves hI hs hu hreq hnw i).1
  refine ⟨hev.life_le, fun n => ?_⟩
  by_cases hn : n ≤ (view s i).life
  · exact hev.log_length hn
  · have hnil : s.ghost.log i n = [] := (hV.ok i).later n (by omega)
    rw [hnil]
    exact Nat.zero_le _

omit [DecidableEq ι] in
theorem Trace.Le.trans {x y z : Trace ι} (h : x.Le y) (h' : y.Le z) : x.Le z :=
  fun i => ⟨(h i).1.trans (h' i).1, fun n => ((h i).2 n).trans ((h' i).2 n)⟩

/-- Every step of a board. -/
theorem Trace.le_of_next (hr : Steady g proc s) {l : Action ι Call}
    (hs : (program ι g).next proc s l = some s') (hst : steady s l = true) : s.ghost.Le s'.ghost := by
  obtain ⟨⟨hI, hV⟩, hsound⟩ := values_reach hr
  cases l with
  | run u now =>
    obtain ⟨hu, x, hreq, rfl⟩ := Program.run_cases hs
    exact Trace.le_of_ran hI hsound hV hu hreq (steady_iff.mp hst).2
  | call u c =>
    obtain ⟨-, a, -, rfl⟩ := Program.call_cases hs
    intro i
    have hl := Trace.trackCall_lives (t := u) s.ghost s.mem c i
    exact ⟨(congrArg View.life hl).ge, fun n => (congrArg List.length (congrFun (congrArg View.log hl) n)).ge⟩
  | exit pid =>
    obtain ⟨w, -, rfl⟩ := Program.exit_cases hs
    exact fun i => ⟨Nat.le_refl _, fun _ => Nat.le_refl _⟩
  | spawn pid st =>
    obtain ⟨w, -, rfl⟩ := Program.spawn_cases hs
    exact fun i => ⟨Nat.le_refl _, fun _ => Nat.le_refl _⟩

/-- The start of the call. -/
theorem saw_of_call {s₁ : Shared ι Loc Actor (Trace ι)}
    (h : (program ι g).next proc s₀ (.call t (.read size)) = some s₁) :
    (s₁.th t).Saw s₀.ghost (s₁.ghost.met t) (s₁.ghost.reads t) := by
  obtain ⟨-, a, hcall, rfl⟩ := Program.call_cases h
  show ((Function.update s₀.th t a) t).Saw _ _ _
  rw [Function.update_self]
  change (s₀.th t).call g (.read size) = some a at hcall
  unfold Actor.call at hcall
  cases hpc : (s₀.th t).pc <;> rw [hpc] at hcall <;> simp only [reduceCtorEq] at hcall
  split at hcall <;> obtain rfl := Option.some.inj hcall
  · intro o data hres hec
    obtain ⟨rfl, -⟩ := Result.read.inj hres
    cases hec
  · exact Actor.saw_resolve

theorem saw_of_readRun (h₀ : Steady g proc s₀) (h : ReadRun g proc t size s₀ s) :
    s₀.ghost.Le s.ghost ∧ (s.th t).Saw s₀.ghost (s.ghost.met t) (s.ghost.reads t) := by
  obtain ⟨s₁, h₁, hr⟩ := h
  refine hr.invariant_of (J := Steady g proc)
    (I := fun s => s₀.ghost.Le s.ghost ∧ (s.th t).Saw s₀.ghost (s.ghost.met t) (s.ghost.reads t))
    (fun hx => ReadRun.steady h₀ ⟨s₁, h₁, hx⟩) (fun x hx => ?_) fun x l y hJ ⟨hle, hsaw⟩ hs ho => ?_
  · obtain rfl := hx
    exact ⟨Trace.le_of_next h₀ h₁ rfl, saw_of_call h₁⟩
  · refine ⟨hle.trans (Trace.le_of_next hJ hs ho.1), ?_⟩
    obtain ⟨⟨-, hV⟩, -⟩ := values_reach hJ
    cases l with
    | run u now =>
      obtain ⟨-, x', hreq, rfl⟩ := Program.run_cases hs
      by_cases htu : t = u
      · subst htu
        rw [ran_self]
        refine hsaw.resume hV hle (fun l hl => ?_) ho.2
        obtain rfl := Option.some.inj (hreq.symm.trans hl)
        rfl
      · obtain ⟨hmet, hreads⟩ := x.ghost.track_reads (t := t) (u := u) x.mem (x.th u)
          (x'.exec verdict x.world.procs x.mem now).2 (.inl htu)
        rw [ran_other htu, ran_ghost, hmet, hreads]
        exact hsaw
    | call u c =>
      obtain ⟨-, a, hcall, rfl⟩ := Program.call_cases hs
      have htu : t ≠ u := by
        rintro rfl
        have hidle := (Actor.call_cases hcall).1
        rw [hidle] at ho
        cases ho.2
      obtain ⟨hmet, hreads⟩ := x.ghost.trackCall_reads (t := t) (u := u) x.mem c htu
      show ((Function.update x.th u a) t).Saw _ ((x.ghost.trackCall x.mem u c).met t)
        ((x.ghost.trackCall x.mem u c).reads t)
      rw [Function.update_of_ne htu, hmet, hreads]
      exact hsaw
    | exit pid =>
      obtain ⟨w, -, rfl⟩ := Program.exit_cases hs
      exact hsaw
    | spawn pid st =>
      obtain ⟨w, -, rfl⟩ := Program.spawn_cases hs
      exact hsaw

/-- What has been fetched is in the reads of somebody, when it is new. -/
theorem Trace.mem_fetched {tr : Trace ι} {m : Loc → Nat} {a : Actor} {r : Answer} {f : Fetched}
    (h : f ∈ (tr.track m u a r).fetched) : f ∈ tr.fetched ∨ f ∈ (tr.track m u a r).reads u := by
  unfold Trace.track at h ⊢
  cases hpc : a.pc <;> rw [hpc] at h
  case readTenancyAfter q =>
    dsimp only at h ⊢
    split at h
    · rename_i hacc
      rcases List.mem_cons.mp h with rfl | h
      · right
        rw [if_pos hacc]
        dsimp only
        rw [Function.update_self]
        exact List.mem_cons_self
      · exact .inl h
    · exact .inl h
  all_goals first
    | exact .inl h
    | (dsimp only at h; split at h <;> exact .inl h)

/-- Whatever was fetched, through whatever handle, has been written. -/
theorem fetched_reach (h : Steady g proc s) :
    ∀ f ∈ s.ghost.fetched, f.life ≤ s.ghost.life f.entry ∧ f.count ≤ (s.ghost.log f.entry f.life).length := by
  refine h.invariant_of (J := Steady g proc)
    (I := fun s : Shared ι Loc Actor (Trace ι) => ∀ f ∈ s.ghost.fetched,
      f.life ≤ s.ghost.life f.entry ∧ f.count ≤ (s.ghost.log f.entry f.life).length)
    (fun hx => hx) (fun x hx f hf => ?_) fun x l y hr hI hs ho f hf => ?_
  · rw [hx.ghost] at hf
    cases hf
  have hle := Trace.le_of_next hr hs ho
  have hold : f ∈ x.ghost.fetched →
      f.life ≤ y.ghost.life f.entry ∧ f.count ≤ (y.ghost.log f.entry f.life).length := fun hf =>
    ⟨(hI f hf).1.trans (hle _).1, (hI f hf).2.trans ((hle _).2 _)⟩
  cases l with
  | run u now =>
    obtain ⟨⟨-, hF⟩, -⟩ := faithful_reach (.step hr hs ho)
    obtain ⟨-, x', -, rfl⟩ := Program.run_cases hs
    rcases Trace.mem_fetched hf with hf | hf
    · exact hold hf
    · exact (hF u).bounded f hf
  | call u c =>
    obtain ⟨-, a, -, rfl⟩ := Program.call_cases hs
    refine hold (?_ : f ∈ x.ghost.fetched)
    have hsame : (x.ghost.trackCall x.mem u c).fetched = x.ghost.fetched := by
      unfold Trace.trackCall
      split
      · split <;> rfl
      · rfl
    exact hsame ▸ hf
  | exit pid =>
    obtain ⟨w, -, rfl⟩ := Program.exit_cases hs
    exact hold hf
  | spawn pid st =>
    obtain ⟨w, -, rfl⟩ := Program.spawn_cases hs
    exact hold hf

/-- The write that a read called in `s₀` has found is not out of date: its life is that of the entry in `s₀`, or
began since; no write completed by then comes after it; and no read that was over by then, through whatever
handle, has found a later one. -/
structure Fresh (s₀ s : Shared ι Loc Actor (Trace ι)) (f : Fetched) : Prop where
  begun : s₀.ghost.life f.entry ≤ f.life
  current : f.life ≤ s.ghost.life f.entry
  seen : (s₀.ghost.log f.entry f.life).length ≤ f.count
  made : f.count ≤ (s.ghost.log f.entry f.life).length
  after : ∀ f' ∈ s₀.ghost.fetched, f'.entry = f.entry →
    f'.life ≤ f.life ∧ (f'.life = f.life → f'.count ≤ f.count)

/-- In a run in which no recoverer takes the lock from a running process and no counter of an entry wraps, a read
that returns a value returns a write for its key, and none that was out of date when it was called: reads and
writes of an entry keep to the order in which they happened, whoever made them. -/
theorem reads_fresh (h₀ : Steady g proc s₀) (h : ReadRun g proc t size s₀ s) (hret : (s.th t).pc = .idle)
    {o : ReadOutcome} {data : List UInt8} (hres : (s.th t).result = .read o data) (hec : o.ec = none) :
    ∃ r f rest w, (s.th t).reader = some r ∧ s.ghost.reads t = f :: rest ∧ f.count = o.updateCount ∧
      Fresh s₀ s f ∧ s.ghost.lifeKey f.entry f.life = r.key ∧
      (s.ghost.log f.entry f.life)[f.count - 1]? = some w ∧ data = w.data := by
  obtain ⟨-, hsaw⟩ := saw_of_readRun h₀ h
  obtain ⟨⟨-, hF⟩, -⟩ := faithful_reach (h.steady h₀)
  simp only [Actor.Saw, hret] at hsaw
  obtain ⟨f, rest, hreads, hcount, hlife, hle⟩ := hsaw o data hres hec
  obtain ⟨r, f', rest', w, hr, hreads', -, -, hkey, hw, -, hdata, -⟩ :=
    (reads_right (h.steady h₀)).value t o data hres hec
  obtain ⟨rfl, -⟩ := List.cons.inj (hreads.symm.trans hreads')
  obtain ⟨hnow, hmade⟩ := (hF t).bounded f (hreads ▸ List.mem_cons_self ..)
  refine ⟨r, f, rest, w, hr, hreads, hcount, ⟨hlife, hnow, hle, hmade, fun f' hf' he => ?_⟩, hkey, hcount ▸ hw,
    hdata⟩
  -- what an earlier read has found was there when this one was called
  obtain ⟨hl, hc⟩ := fetched_reach h₀ f' hf'
  rw [he] at hl hc
  exact ⟨hl.trans hlife, fun hl' => (hl' ▸ hc).trans hle⟩

/-! ## A read while the entries rest -/

/-- The word belongs to an entry or to one of its cells. -/
def Loc.ofBoard : Loc → Bool
  | .entry _ _ | .cell _ _ _ => true
  | _ => false

/-- A `read` that `t` called in `s₀` is under way in `s`, or has just returned, and since the call nobody has
changed a word of an entry. -/
def QuietRun (g : Geometry) (proc : ι → Nat × Nat) (t : ι) (size : Nat) (s₀ s : Shared ι Loc Actor (Trace ι)) :
    Prop :=
  ∃ s₁, (program ι g).next proc s₀ (.call t (.read size)) = some s₁ ∧
    ((program ι g).machine proc (· = s₁)).Reach (fun s _ s' => (s.th t).pc.phase = .read ∧
      ∀ l : Loc, l.ofBoard = true → s'.mem l = s.mem l) s

/-- A scan for `key` stops at entry `i`. -/
structure Found (m : Loc → Nat) (key : List UInt8) (i : Nat) : Prop where
  state : m (.entry i .state) = active
  hash : m (.entry i .keyHash) = keyFingerprint key
  named : keyOf m i = key

/-- What a read of entry `i` returns. -/
def expects (g : Geometry) (m : Loc → Nat) (size i : Nat) : Result :=
  let n := m (.entry i .publish) / 2
  let len := min (m (.cell i (cellOf n) .valueLen)) g.maxValueSize
  if n = 0 then .read ⟨some .noMessage, 0, 0, 0⟩ []
  else .read ⟨if len ≤ size then none else some .messageSize, len, m (.cell i (cellOf n) .updatedAtNs), n⟩
    (if len ≤ size then bytesOf len fun k => m (.cell i (cellOf n) (.payload k)) else [])

/-- The call is for `key`, with a buffer of `size` bytes, and looks at entry `q.i`. -/
structure ReadCall.Asks (q : ReadCall) (g : Geometry) (key : List UInt8) (size : Nat) : Prop where
  named : q.reader.key = key
  hash : q.reader.keyHash = keyFingerprint key
  room : q.size = size
  lt : q.i < g.capacity

/-- The call has found the entry and loaded `publish`. -/
structure ReadCall.Counts (q : ReadCall) (g : Geometry) (m : Loc → Nat) (key : List UInt8) (size : Nat) : Prop
    where
  asks : q.Asks g key size
  found : Found m key q.i
  tenancy : q.c.tenancy = m (.entry q.i .tenancy)
  publish : q.c.publish = m (.entry q.i .publish)
  some : q.c.writes ≠ 0

/-- The call has copied the length and the first `k` words. -/
structure ReadCall.Takes (q : ReadCall) (g : Geometry) (m : Loc → Nat) (key : List UInt8) (size k : Nat) : Prop
    extends q.Counts g m key size where
  len : q.c.len = min (m (.cell q.i (cellOf q.c.writes) .valueLen)) g.maxValueSize
  words : ∀ j < k, q.c.words j = m (.cell q.i (cellOf q.c.writes) (.payload j))

/-- Where a read for `key` stands while the words of the entries are those of `m`. -/
def Actor.Quiet (g : Geometry) (m : Loc → Nat) (key : List UInt8) (size : Nat) (a : Actor) : Prop :=
  match a.pc with
  | .resState q => q.Asks g key size ∧ (m (.entry q.i .state) = active →
      m (.entry q.i .tenancy) = q.reader.tenancy → Found m key q.i)
  | .resTenancy q => q.Asks g key size ∧ (m (.entry q.i .tenancy) = q.reader.tenancy → Found m key q.i)
  | .seekState q => q.Asks g key size ∧ ∀ j < q.i, ¬ Found m key j
  | .seekHash q => q.Asks g key size ∧ (∀ j < q.i, ¬ Found m key j) ∧ m (.entry q.i .state) = active
  | .seekTenancy q => q.Asks g key size ∧ (∀ j < q.i, ¬ Found m key j) ∧ m (.entry q.i .state) = active ∧
      m (.entry q.i .keyHash) = keyFingerprint key
  | .seekKey q w => q.Asks g key size ∧ (∀ j < q.i, ¬ Found m key j) ∧ m (.entry q.i .state) = active ∧
      m (.entry q.i .keyHash) = keyFingerprint key ∧ q.c.tenancy = m (.entry q.i .tenancy) ∧ w < keyWords ∧
      ∀ j < w, q.c.key j = m (.entry q.i (.key j))
  | .readTenancy q => q.Asks g key size ∧ Found m key q.i ∧ q.reader.tenancy = m (.entry q.i .tenancy)
  | .readPublish q => q.Asks g key size ∧ Found m key q.i ∧ q.c.tenancy = m (.entry q.i .tenancy)
  | .readLen q => q.Counts g m key size
  | .readWord q k => q.Takes g m key size k ∧ k < q.whole
  | .readStamp q => q.Takes g m key size q.whole
  | .readPublishAfter q => q.Takes g m key size q.whole ∧
      q.c.stamp = m (.cell q.i (cellOf q.c.writes) .updatedAtNs)
  | .readTenancyAfter q => q.Takes g m key size q.whole ∧
      q.c.stamp = m (.cell q.i (cellOf q.c.writes) .updatedAtNs) ∧ q.c.publishAfter = q.c.publish
  | .idle => (∃ i < g.capacity, Found m key i ∧ a.result = expects g m size i) ∨
      ((∀ i < g.capacity, ¬ Found m key i) ∧ a.result = .read ⟨some .noSuchFileOrDirectory, 0, 0, 0⟩ [])
  | _ => False

section Quiet

variable {m : Loc → Nat} {key : List UInt8} {a : Actor} {q : ReadCall} {i k : Nat}

theorem Actor.quiet_seekAt (hk : q.reader.key = key) (hh : q.reader.keyHash = keyFingerprint key)
    (hs : q.size = size) (hno : ∀ j < i, ¬ Found m key j) : (a.seekAt g q i).Quiet g m key size := by
  unfold Actor.seekAt
  split
  · rename_i hlt
    exact ⟨⟨hk, hh, hs, hlt⟩, hno⟩
  · rename_i hge
    exact .inr ⟨fun j hj => hno j (by omega), rfl⟩

theorem ReadCall.Asks.seekOn (h : q.Asks g key size) (hno : ∀ j < q.i, ¬ Found m key j)
    (hi : ¬ Found m key q.i) : (a.seekAt g q (q.i + 1)).Quiet g m key size := by
  refine Actor.quiet_seekAt h.named h.hash h.room fun j hj => ?_
  rcases Nat.lt_succ_iff_lt_or_eq.mp hj with hj | rfl
  · exact hno j hj
  · exact hi

theorem Actor.quiet_readWords (h : q.Takes g m key size k) (hk : k ≤ q.whole) :
    (a.readWords q k).Quiet g m key size := by
  unfold Actor.readWords
  split
  · rename_i hlt
    refine ⟨h, ?_⟩
    rw [ReadCall.whole, if_pos hlt.1]
    exact hlt.2
  · rename_i hge
    obtain rfl : k = q.whole := by
      unfold ReadCall.whole at hk ⊢
      split_ifs at hk ⊢ <;> omega
    exact h

/-- A copy of words at rest passes the re-checks. -/
theorem ReadCall.Counts.accepted (h : q.Counts g m key size) (hpub : q.c.publishAfter = q.c.publish) :
    q.accepted (m (.entry q.i .tenancy)) = true := by
  have hclob : q.c.clobbered = false := by
    rw [Copy.clobbered, hpub, decide_eq_false_iff_not, Copy.writes]
    omega
  simp [ReadCall.accepted, hclob, h.tenancy]

/-- It is what the entry holds. -/
theorem ReadCall.Takes.answer (h : q.Takes g m key size q.whole)
    (hst : q.c.stamp = m (.cell q.i (cellOf q.c.writes) .updatedAtNs)) :
    Result.read q.outcome q.data = expects g m size q.i := by
  have hn : m (.entry q.i .publish) / 2 = q.c.writes := by rw [← h.publish]; rfl
  have hdata : q.c.len ≤ size →
      bytesOf q.c.len q.c.words = bytesOf q.c.len fun k => m (.cell q.i (cellOf q.c.writes) (.payload k)) := by
    intro hle
    refine bytesOf_congr fun j hj => h.words j ?_
    rw [ReadCall.whole, if_pos (h.asks.room ▸ hle)]
    exact hj
  unfold expects ReadCall.outcome ReadCall.data
  rw [hn, if_neg h.some, ← h.len, ← hst, h.asks.room]
  split_ifs with hle
  · rw [hdata hle]
  · rfl

/-- A reader's step over words at rest: it never has to try again. -/
theorem Actor.Quiet.resume (h : a.Quiet g m key size) {r : Answer}
    (hans : ∀ l, a.request = some (.load l) → r.val = m l) (hph : a.pc.phase = .read) :
    (a.resume g r).Quiet g m key size := by
  cases hpc : a.pc <;> rw [hpc] at hph <;> simp only [Pc.phase, reduceCtorEq] at hph <;>
    simp only [Actor.request, hpc, Option.some.injEq, Access.load.injEq, forall_eq'] at hans <;>
    simp only [Actor.Quiet, hpc] at h <;> simp only [Actor.resume, hpc]
  case resState q =>
    obtain ⟨hA, hfound⟩ := h
    split
    · rename_i hst
      exact ⟨hA, hfound (hans ▸ hst)⟩
    · exact Actor.quiet_seekAt hA.named hA.hash hA.room fun j hj => absurd hj (Nat.not_lt_zero j)
  case resTenancy q =>
    obtain ⟨hA, hfound⟩ := h
    split
    · rename_i hT
      exact ⟨hA, hfound (hans ▸ hT), (hans ▸ hT).symm⟩
    · exact Actor.quiet_seekAt hA.named hA.hash hA.room fun j hj => absurd hj (Nat.not_lt_zero j)
  case seekState q =>
    obtain ⟨hA, hno⟩ := h
    split
    · rename_i hst
      exact ⟨hA, hno, hans ▸ hst⟩
    · rename_i hst
      exact hA.seekOn hno fun hf => hst (hans.trans hf.state)
  case seekHash q =>
    obtain ⟨hA, hno, hst⟩ := h
    split
    · rename_i hh
      exact ⟨hA, hno, hst, by rw [← hans, hh, hA.hash]⟩
    · rename_i hh
      exact hA.seekOn hno fun hf => hh (by rw [hans, hf.hash, hA.hash])
  case seekTenancy q =>
    obtain ⟨hA, hno, hst, hh⟩ := h
    exact ⟨⟨hA.named, hA.hash, hA.room, hA.lt⟩, hno, hst, hh, hans, by decide,
      fun j hj => absurd hj (Nat.not_lt_zero j)⟩
  case seekKey q w =>
    obtain ⟨hA, hno, hst, hh, hten, hw, hwords⟩ := h
    have hwords' : ∀ j < w + 1, Function.update q.c.key w r.val j = m (.entry q.i (.key j)) := by
      intro j hj
      by_cases hjw : j = w
      · rw [hjw, Function.update_self, hans]
      · rw [Function.update_of_ne hjw]
        exact hwords j (by omega)
    split
    · rename_i hlt
      exact ⟨⟨hA.named, hA.hash, hA.room, hA.lt⟩, hno, hst, hh, hten, hlt, hwords'⟩
    · have hall : w + 1 = keyWords := by omega
      have hkey : bbLoadKey (Function.update q.c.key w r.val) = keyOf m q.i :=
        bbLoadKey_congr fun j hj => hwords' j (hall ▸ hj)
      split
      · rename_i heq
        exact ⟨⟨hA.named, hA.hash, hA.room, hA.lt⟩, ⟨hst, hh, by rw [← hkey, ← hA.named]; exact heq⟩, hten⟩
      · rename_i hne
        refine hA.seekOn hno fun hf => hne ?_
        show bbLoadKey (Function.update q.c.key w r.val) = q.reader.key
        rw [hkey, hf.named, hA.named]
  case readTenancy q =>
    obtain ⟨hA, hf, hT⟩ := h
    rw [if_pos (hans.trans hT.symm)]
    exact ⟨⟨hA.named, hA.hash, hA.room, hA.lt⟩, hf, hans⟩
  case readPublish q =>
    obtain ⟨hA, hf, hT⟩ := h
    split
    · rename_i h0
      refine .inl ⟨q.i, hA.lt, hf, ?_⟩
      rw [expects, if_pos (hans ▸ h0)]
      rfl
    · rename_i h0
      exact ⟨⟨hA.named, hA.hash, hA.room, hA.lt⟩, hf, hT, hans, h0⟩
  case readLen q =>
    refine Actor.quiet_readWords ⟨⟨⟨h.asks.named, h.asks.hash, h.asks.room, h.asks.lt⟩, h.found, h.tenancy,
      h.publish, h.some⟩, ?_, fun j hj => absurd hj (Nat.not_lt_zero j)⟩ (Nat.zero_le _)
    exact congrArg (min · g.maxValueSize) hans
  case readWord q k =>
    obtain ⟨hT, hk⟩ := h
    refine Actor.quiet_readWords ⟨⟨⟨hT.asks.named, hT.asks.hash, hT.asks.room, hT.asks.lt⟩, hT.found, hT.tenancy,
      hT.publish, hT.some⟩, hT.len, fun j hj => ?_⟩ (Nat.succ_le_of_lt hk)
    show Function.update q.c.words k r.val j = _
    by_cases hjk : j = k
    · rw [hjk, Function.update_self]
      exact hans
    · rw [Function.update_of_ne hjk]
      exact hT.words j (by omega)
  case readStamp q =>
    exact ⟨⟨⟨⟨h.asks.named, h.asks.hash, h.asks.room, h.asks.lt⟩, h.found, h.tenancy, h.publish, h.some⟩, h.len,
      h.words⟩, hans⟩
  case readPublishAfter q =>
    obtain ⟨hT, hst⟩ := h
    exact ⟨⟨⟨⟨hT.asks.named, hT.asks.hash, hT.asks.room, hT.asks.lt⟩, hT.found, hT.tenancy, hT.publish, hT.some⟩,
      hT.len, hT.words⟩, hst, hans.trans hT.publish.symm⟩
  case readTenancyAfter q =>
    obtain ⟨hT, hst, hpub⟩ := h
    rw [if_pos (hans ▸ hT.accepted hpub)]
    exact .inl ⟨q.i, hT.asks.lt, hT.found, hT.answer hst⟩

/-! ### How long it takes -/

/-- What is left of the call over words at rest: at most so many accesses. -/
def Actor.ahead (g : Geometry) (a : Actor) : Nat :=
  let found := wordsFor g.maxValueSize + 6
  match a.pc with
  | .resState _ => g.capacity * (keyWords + 3) + found + 2
  | .resTenancy _ => g.capacity * (keyWords + 3) + found + 1
  | .seekState q => (g.capacity - q.i) * (keyWords + 3) + found
  | .seekHash q => (g.capacity - q.i) * (keyWords + 3) - 1 + found
  | .seekTenancy q => (g.capacity - q.i) * (keyWords + 3) - 2 + found
  | .seekKey q w => (g.capacity - q.i) * (keyWords + 3) - 3 - w + found
  | .readTenancy _ => wordsFor g.maxValueSize + 6
  | .readPublish _ => wordsFor g.maxValueSize + 5
  | .readLen _ => wordsFor g.maxValueSize + 4
  | .readWord _ k => wordsFor g.maxValueSize - k + 3
  | .readStamp _ => 3
  | .readPublishAfter _ => 2
  | .readTenancyAfter _ => 1
  | _ => 0

theorem Actor.ahead_seekAt :
    (a.seekAt g q i).ahead g ≤ (g.capacity - i) * (keyWords + 3) + (wordsFor g.maxValueSize + 6) := by
  unfold Actor.seekAt
  split
  · exact Nat.le_refl _
  · exact Nat.zero_le _

theorem Actor.ahead_readWords : (a.readWords q k).ahead g ≤ wordsFor g.maxValueSize - k + 3 := by
  unfold Actor.readWords
  split
  · exact Nat.le_refl _
  · exact Nat.le_add_left _ _

/-- Every access brings the call nearer to its end. -/
theorem Actor.Quiet.lowers (h : a.Quiet g m key size) {r : Answer}
    (hans : ∀ l, a.request = some (.load l) → r.val = m l) (hph : a.pc.phase = .read) :
    (a.resume g r).ahead g < a.ahead g := by
  have hrow : ∀ {i}, i < g.capacity → (g.capacity - i) * (keyWords + 3) =
      (g.capacity - (i + 1)) * (keyWords + 3) + (keyWords + 3) := fun {i} hi => by
    rw [← Nat.succ_mul]
    congr 1
    omega
  cases hpc : a.pc <;> rw [hpc] at hph <;> simp only [Pc.phase, reduceCtorEq] at hph <;>
    simp only [Actor.request, hpc, Option.some.injEq, Access.load.injEq, forall_eq'] at hans <;>
    simp only [Actor.Quiet, hpc] at h <;> simp only [Actor.resume, hpc]
  case resState q =>
    have ha : a.ahead g = g.capacity * (keyWords + 3) + (wordsFor g.maxValueSize + 6) + 2 := by
      simp only [Actor.ahead, hpc]
    split
    · rw [ha]
      exact Nat.lt_succ_self _
    · refine Nat.lt_of_le_of_lt Actor.ahead_seekAt ?_
      rw [ha, Nat.sub_zero]
      omega
  case resTenancy q =>
    have ha : a.ahead g = g.capacity * (keyWords + 3) + (wordsFor g.maxValueSize + 6) + 1 := by
      simp only [Actor.ahead, hpc]
    split
    · rw [ha]
      show wordsFor g.maxValueSize + 6 < _
      omega
    · refine Nat.lt_of_le_of_lt Actor.ahead_seekAt ?_
      rw [ha, Nat.sub_zero]
      omega
  case seekState q =>
    have ha : a.ahead g = (g.capacity - q.i) * (keyWords + 3) + (wordsFor g.maxValueSize + 6) := by
      simp only [Actor.ahead, hpc]
    have := hrow h.1.lt
    split
    · rw [ha]
      show (g.capacity - q.i) * (keyWords + 3) - 1 + (wordsFor g.maxValueSize + 6) < _
      omega
    · refine Nat.lt_of_le_of_lt Actor.ahead_seekAt ?_
      omega
  case seekHash q =>
    have ha : a.ahead g = (g.capacity - q.i) * (keyWords + 3) - 1 + (wordsFor g.maxValueSize + 6) := by
      simp only [Actor.ahead, hpc]
    have := hrow h.1.lt
    split
    · rw [ha]
      show (g.capacity - q.i) * (keyWords + 3) - 2 + (wordsFor g.maxValueSize + 6) < _
      omega
    · refine Nat.lt_of_le_of_lt Actor.ahead_seekAt ?_
      omega
  case seekTenancy q =>
    have ha : a.ahead g = (g.capacity - q.i) * (keyWords + 3) - 2 + (wordsFor g.maxValueSize + 6) := by
      simp only [Actor.ahead, hpc]
    have := hrow h.1.lt
    rw [ha]
    show (g.capacity - q.i) * (keyWords + 3) - 3 - 0 + (wordsFor g.maxValueSize + 6) < _
    omega
  case seekKey q w =>
    have ha : a.ahead g = (g.capacity - q.i) * (keyWords + 3) - 3 - w + (wordsFor g.maxValueSize + 6) := by
      simp only [Actor.ahead, hpc]
    have := hrow h.1.lt
    obtain ⟨-, -, -, -, -, hw, -⟩ := h
    split
    · rw [ha]
      show (g.capacity - q.i) * (keyWords + 3) - 3 - (w + 1) + (wordsFor g.maxValueSize + 6) < _
      omega
    · split
      · rw [ha]
        show wordsFor g.maxValueSize + 6 < _
        omega
      · refine Nat.lt_of_le_of_lt Actor.ahead_seekAt ?_
        omega
  case readTenancy q =>
    rw [if_pos (hans.trans h.2.2.symm)]
    simp only [Actor.ahead, Actor.goto, hpc]
    omega
  case readPublish q =>
    split <;> simp only [Actor.ahead, Actor.goto, Actor.ret, hpc] <;> omega
  case readLen q =>
    refine Nat.lt_of_le_of_lt Actor.ahead_readWords ?_
    simp only [Actor.ahead, hpc]
    omega
  case readWord q k =>
    obtain ⟨hT, hk⟩ := h
    have hlen : q.c.len ≤ g.maxValueSize := hT.len ▸ Nat.min_le_right _ _
    have hW : q.whole ≤ wordsFor g.maxValueSize := by
      unfold ReadCall.whole wordsFor
      split_ifs <;> omega
    refine Nat.lt_of_le_of_lt Actor.ahead_readWords ?_
    simp only [Actor.ahead, hpc]
    omega
  case readStamp q =>
    simp only [Actor.ahead, Actor.goto, hpc]
    omega
  case readPublishAfter q =>
    simp only [Actor.ahead, Actor.goto, hpc]
    omega
  case readTenancyAfter q =>
    obtain ⟨hT, -, hpub⟩ := h
    rw [if_pos (hans ▸ hT.accepted hpub)]
    simp only [Actor.ahead, Actor.ret, hpc]
    exact Nat.one_pos

theorem Actor.ahead_le : a.ahead g ≤ g.capacity * (keyWords + 3) + wordsFor g.maxValueSize + 8 := by
  have hrow : ∀ i, (g.capacity - i) * (keyWords + 3) ≤ g.capacity * (keyWords + 3) :=
    fun i => Nat.mul_le_mul_right _ (Nat.sub_le _ _)
  cases hpc : a.pc <;> simp only [Actor.ahead, hpc]
  case seekState q | seekHash q | seekTenancy q | seekKey q w =>
    have := hrow q.i
    omega
  all_goals omega

end Quiet

/-! ### The run of the call -/

section Run

variable {r : Reader}

omit [DecidableEq ι] in
/-- In a settled board a scan stops where the key is published. -/
theorem found_iff (hI : Inv g proc s) (hset : ∀ i < g.capacity, Settled s.mem i) {i : Nat} (hi : i < g.capacity)
    {key : List UInt8} : Found s.mem key i ↔ s.mem (.entry i .state) = active ∧ keyOf s.mem i = key := by
  refine ⟨fun h => ⟨h.state, h.named⟩, fun ⟨hst, hk⟩ => ?_⟩
  have hh : s.mem (.entry i .keyHash) ≠ 0 := by
    rcases hset i hi with ⟨hfree, -⟩ | ⟨-, hh⟩
    · rw [hst] at hfree
      cases hfree
    · exact hh
  obtain ⟨key', hv, hkeyed⟩ := (hI.entry i hi).keyed hst hh
  have hload : keyOf s.mem i = key' := hkeyed.load hv
  obtain rfl := hload.symm.trans hk
  exact ⟨hst, hkeyed.hash, hload⟩

omit [DecidableEq ι] in
/-- What a handle remembers of an entry that is active is right. -/
theorem key_of_held (hV : Values g proc s) {i : Nat} (hst : s.mem (.entry i .state) = active)
    (hh : (view s i).Held r.tenancy r.key) (hT : s.mem (.entry i .tenancy) = r.tenancy) :
    keyOf s.mem i = r.key := by
  have hb : (view s i).born < (view s i).tenancy := hV.activated i hst
  have hten : (view s i).tenancy = r.tenancy := hT
  obtain ⟨hv, hw⟩ := (hV.ok i).named hb
  rw [← hh.key hten (hten ▸ hb), ← hv.load]
  exact bbLoadKey_congr hw

theorem quiet_of_call (h₀ : Steady g proc s₀) (hset : ∀ i < g.capacity, Settled s₀.mem i)
    (hr : (s₀.th t).reader = some r) {s₁ : Shared ι Loc Actor (Trace ι)}
    (h : (program ι g).next proc s₀ (.call t (.read size)) = some s₁) :
    s₁.mem = s₀.mem ∧ (s₁.th t).Quiet g s₀.mem r.key size := by
  obtain ⟨⟨⟨hI, hV⟩, hF⟩, -⟩ := faithful_reach h₀
  obtain ⟨-, a, hcall, rfl⟩ := Program.call_cases h
  refine ⟨rfl, ?_⟩
  show ((Function.update s₀.th t a) t).Quiet _ _ _ _
  rw [Function.update_self]
  change (s₀.th t).call g (.read size) = some a at hcall
  unfold Actor.call at hcall
  cases hpc : (s₀.th t).pc <;> rw [hpc] at hcall <;> simp only [reduceCtorEq] at hcall
  simp only [hr, Option.some.injEq] at hcall
  subst hcall
  have hok := (hF t).handle r hr
  unfold Actor.resolve
  split
  · rename_i i hi
    have hi' : r.entryIdx = some i := hi
    split
    · rename_i hlt
      refine ⟨⟨rfl, hok.hash, rfl, hlt⟩, fun hst hT => ?_⟩
      exact (found_iff hI hset hlt).mpr ⟨hst, key_of_held hV hst (hok.held i hi') hT⟩
    · exact Actor.quiet_seekAt rfl hok.hash rfl nofun
  · exact Actor.quiet_seekAt rfl hok.hash rfl nofun

/-- A read call loads words of the board, and does nothing else. -/
theorem request_of_read {a : Actor} (h : a.pc.phase = .read) :
    ∃ l, a.request = some (.load l) ∧ l.ofBoard = true := by
  cases hpc : a.pc <;> rw [hpc] at h <;> simp only [Pc.phase, reduceCtorEq] at h
  case notifySeq locked o | notifyWaiters locked o | notifyWake locked o => cases o <;> cases h
  case unlock o => cases o <;> cases h
  all_goals exact ⟨_, by rw [Actor.request, hpc], rfl⟩

theorem quiet_of_run (h₀ : Steady g proc s₀) (hset : ∀ i < g.capacity, Settled s₀.mem i)
    (hr : (s₀.th t).reader = some r) (h : QuietRun g proc t size s₀ s) :
    (∀ l : Loc, l.ofBoard = true → s.mem l = s₀.mem l) ∧ (s.th t).Quiet g s₀.mem r.key size := by
  obtain ⟨s₁, h₁, hrun⟩ := h
  refine hrun.invariant (I := fun s => (∀ l : Loc, l.ofBoard = true → s.mem l = s₀.mem l) ∧
    (s.th t).Quiet g s₀.mem r.key size) (fun x hx => ?_) fun x l y ⟨hm, hq⟩ hs ⟨hph, hrest⟩ => ?_
  · obtain rfl := hx
    obtain ⟨hm, hq⟩ := quiet_of_call h₀ hset hr h₁
    exact ⟨fun l _ => by rw [hm], hq⟩
  · refine ⟨fun l hl => (hrest l hl).trans (hm l hl), ?_⟩
    cases l with
    | run u now =>
      obtain ⟨hu, x', hreq, rfl⟩ := Program.run_cases hs
      by_cases htu : t = u
      · subst htu
        rw [ran_self]
        refine hq.resume (fun l hl => ?_) hph
        obtain ⟨l', hl', hb⟩ := request_of_read hph
        obtain rfl := Access.load.inj (Option.some.inj (hl'.symm.trans hl))
        obtain rfl := Option.some.inj (hreq.symm.trans hl)
        exact hm l' hb
      · rw [ran_other htu]
        exact hq
    | call u c =>
      obtain ⟨-, a, hcall, rfl⟩ := Program.call_cases hs
      have htu : t ≠ u := by
        rintro rfl
        rw [(Actor.call_cases hcall).1] at hph
        cases hph
      show ((Function.update x.th u a) t).Quiet _ _ _ _
      rw [Function.update_of_ne htu]
      exact hq
    | exit pid =>
      obtain ⟨w, -, rfl⟩ := Program.exit_cases hs
      exact hq
    | spawn pid st =>
      obtain ⟨w, -, rfl⟩ := Program.spawn_cases hs
      exact hq

omit [DecidableEq ι] in
/-- What a read of an entry at rest returns is the last completed write of the life the entry is in. -/
theorem expects_eq (hV : Values g proc s) (i : Nat) :
    (s.ghost.log i (s.ghost.life i) = [] → expects g s.mem size i = .read ⟨some .noMessage, 0, 0, 0⟩ []) ∧
      ∀ w, (s.ghost.log i (s.ghost.life i)).getLast? = some w →
        expects g s.mem size i =
          .read ⟨if w.data.length ≤ size then none else some .messageSize, w.data.length, w.stamp,
            (s.ghost.log i (s.ghost.life i)).length⟩ (if w.data.length ≤ size then w.data else []) := by
  have hcount : s.mem (.entry i .publish) / 2 = (s.ghost.log i (s.ghost.life i)).length := (hV.ok i).count
  refine ⟨fun hnil => ?_, fun w hw => ?_⟩
  · rw [expects, if_pos (by rw [hcount, hnil]; rfl)]
  · rw [List.getLast?_eq_getElem?] at hw
    have hlt := (List.getElem?_eq_some_iff.mp hw).1
    have hpos : 0 < (s.ghost.log i (s.ghost.life i)).length := by omega
    have hcell := (hV.ok i).cell _ w hw (.inl (Nat.sub_add_cancel hpos))
    rw [Nat.sub_add_cancel hpos] at hcell
    obtain ⟨hlen, hstamp, hwords⟩ := hcell
    have hfit := ((hV.ok i).fits _ w (List.mem_of_getElem? hw)).1
    rw [expects, hcount, if_neg (by omega)]
    have hl : min (s.mem (.cell i (cellOf (s.ghost.log i (s.ghost.life i)).length) .valueLen)) g.maxValueSize =
        w.data.length := by
      have : s.mem (.cell i (cellOf (s.ghost.log i (s.ghost.life i)).length) .valueLen) = w.data.length := hlen
      omega
    have hst : s.mem (.cell i (cellOf (s.ghost.log i (s.ghost.life i)).length) .updatedAtNs) = w.stamp := hstamp
    have hdata : (bytesOf w.data.length fun k =>
        s.mem (.cell i (cellOf (s.ghost.log i (s.ghost.life i)).length) (.payload k))) = w.data := by
      exact (bytesOf_congr hwords).trans (by simpa using bytesOf_wordAt w.data 0)
    simp only [hl, hst, hdata]

/-- A read over words at rest is under way or has returned. -/
theorem Actor.Quiet.phase {m : Loc → Nat} {key : List UInt8} {a : Actor} (h : a.Quiet g m key size) :
    a.pc = .idle ∨ a.pc.phase = .read := by
  cases hpc : a.pc <;> simp only [Actor.Quiet, hpc] at h <;> first | exact .inl rfl | exact .inr rfl

/-- Over words at rest a read returns. -/
theorem quiet_returns (h₀ : Steady g proc s₀) (hset : ∀ i < g.capacity, Settled s₀.mem i)
    (hr : (s₀.th t).reader = some r) : ∀ (n : Nat) {s : Shared ι Loc Actor (Trace ι)}, (s.th t).ahead g ≤ n →
    QuietRun g proc t size s₀ s → s.world.alive (proc t) = true →
    ∃ k ≤ n, ∃ s', LTS.play ((program ι g).next proc) (fun _ _ => true) s (List.replicate k (.run t 0)) = some s' ∧
      QuietRun g proc t size s₀ s' ∧ (s'.th t).pc = .idle
  | n, s, hle, hQ, ha => by
    obtain ⟨hm, hq⟩ := quiet_of_run h₀ hset hr hQ
    rcases hq.phase with hidle | hph
    · exact ⟨0, Nat.zero_le _, s, rfl, hQ, hidle⟩
    · obtain ⟨l, hreq, hl⟩ := request_of_read hph
      have hs : (program ι g).next proc s (.run t 0) = some ((program ι g).ran s t (.load l) 0) := by
        have hreq' : (program ι g).request (s.th t) = some (.load l) := hreq
        simp only [Program.next, ha, if_true, hreq', Option.map_some]
      have hQ' : QuietRun g proc t size s₀ ((program ι g).ran s t (.load l) 0) := by
        obtain ⟨s₁, h₁, hrun⟩ := hQ
        exact ⟨s₁, h₁, hrun.step hs ⟨hph, fun _ _ => rfl⟩⟩
      have hans : ∀ l', (s.th t).request = some (.load l') → s.mem l = s₀.mem l' := by
        intro l' hl'
        obtain rfl := Access.load.inj (Option.some.inj (hreq.symm.trans hl'))
        exact hm l hl
      have hlow := hq.lowers (r := ⟨s.mem l, true⟩) hans hph
      have hself : ((program ι g).ran s t (.load l) 0).th t = (s.th t).resume g ⟨s.mem l, true⟩ := ran_self
      cases n with
      | zero => omega
      | succ n =>
        obtain ⟨k, hk, s', hp, hret⟩ := quiet_returns h₀ hset hr n (by rw [hself]; omega) hQ' ha
        refine ⟨k + 1, Nat.succ_le_succ hk, s', ?_, hret⟩
        rw [List.replicate_succ]
        simp only [LTS.play, hs, if_true, Option.bind_some]
        exact hp

/-- What a read for `key` answers in `s₀`: the last write completed for the key. -/
structure Answered (g : Geometry) (s₀ : Shared ι Loc Actor (Trace ι)) (proc : ι → Nat × Nat) (key : List UInt8)
    (size : Nat) (res : Result) : Prop where
  /-- nobody has declared the key -/
  unknown : (∀ i < g.capacity, Published s₀.mem i → keyOf s₀.mem i ≠ key) →
    res = .read ⟨some .noSuchFileOrDirectory, 0, 0, 0⟩ []
  /-- nobody has written since it was declared -/
  unwritten : ∀ i < g.capacity, Published s₀.mem i → keyOf s₀.mem i = key →
    s₀.ghost.log i (s₀.ghost.life i) = [] → res = .read ⟨some .noMessage, 0, 0, 0⟩ []
  latest : ∀ i < g.capacity, Published s₀.mem i → keyOf s₀.mem i = key →
    ∀ w, (s₀.ghost.log i (s₀.ghost.life i)).getLast? = some w → w.key = key ∧
      res = .read ⟨if w.data.length ≤ size then none else some .messageSize, w.data.length, w.stamp,
        (s₀.ghost.log i (s₀.ghost.life i)).length⟩ (if w.data.length ≤ size then w.data else [])
  /-- a live `Writer` that holds the key has made the writes that are counted -/
  own : ∀ u w, s₀.world.alive (proc u) = true → (s₀.th u).claim = some w → (s₀.th u).pc.disowning = false →
    w.key = key → Published s₀.mem w.entryIdx ∧ keyOf s₀.mem w.entryIdx = key ∧
      w.writes = (s₀.ghost.log w.entryIdx (s₀.ghost.life w.entryIdx)).length

/-- While the entries rest, after a run in which no recoverer has taken the lock from a running process and no
counter of an entry has wrapped, a read returns the last write that was completed for its key: whoever made it,
whether its writer lives, has died in the middle of the next write, or has been followed by another writer; and
whatever the reader remembers of the entry it found last. It finds no key that is not declared. And it does
return, if its process lives on. -/
theorem last_value (h₀ : Steady g proc s₀) (hfree : s₀.mem .lockToken = 0) (hr : (s₀.th t).reader = some r)
    (h : QuietRun g proc t size s₀ s) :
    ((s.th t).pc = .idle → Answered g s₀ proc r.key size (s.th t).result) ∧
      (s.world.alive (proc t) = true →
        ∃ k ≤ g.capacity * (keyWords + 3) + wordsFor g.maxValueSize + 8, ∃ s',
          LTS.play ((program ι g).next proc) (fun _ _ => true) s (List.replicate k (.run t 0)) = some s' ∧
            QuietRun g proc t size s₀ s' ∧ (s'.th t).pc = .idle) := by
  obtain ⟨⟨⟨hI, hV⟩, -⟩, hsound⟩ := faithful_reach h₀
  have hE := hI.promises hsound
  have hset := hE.settled hfree
  refine ⟨fun hidle => ?_, quiet_returns h₀ hset hr _ Actor.ahead_le h⟩
  obtain ⟨-, hq⟩ := quiet_of_run h₀ hset hr h
  simp only [Actor.Quiet, hidle] at hq
  have hfound : ∀ i < g.capacity, (Found s₀.mem r.key i ↔ Published s₀.mem i ∧ keyOf s₀.mem i = r.key) := by
    intro i hi
    rw [found_iff hI hset hi]
    refine ⟨fun ⟨hst, hk⟩ => ⟨⟨hst, ?_⟩, hk⟩, fun ⟨hp, hk⟩ => ⟨hp.1, hk⟩⟩
    rcases hset i hi with ⟨hf, -⟩ | ⟨-, hh⟩
    · rw [hst] at hf
      cases hf
    · exact hh
  -- where a key is published the scan has stopped, and nowhere else
  have hwhere : ∀ i < g.capacity, Published s₀.mem i → keyOf s₀.mem i = r.key →
      (s.th t).result = expects g s₀.mem size i := by
    intro i hi hp hk
    rcases hq with ⟨j, hj, hf, hres⟩ | ⟨hno, -⟩
    · obtain ⟨hpj, hkj⟩ := (hfound j hj).mp hf
      rw [hE.unique i hi j hj hp hpj (hk.trans hkj.symm)]
      exact hres
    · exact absurd ((hfound i hi).mpr ⟨hp, hk⟩) (hno i hi)
  refine ⟨fun hno => ?_, fun i hi hp hk hnil => ?_, fun i hi hp hk w hw => ⟨?_, ?_⟩, fun u w hu hw hd hk => ?_⟩
  · rcases hq with ⟨j, hj, hf, -⟩ | ⟨-, hres⟩
    · obtain ⟨hpj, hkj⟩ := (hfound j hj).mp hf
      exact absurd hkj (hno j hj hpj)
    · exact hres
  · rw [hwhere i hi hp hk]
    exact (expects_eq hV i).1 hnil
  · have hb : (view s₀ i).born < (view s₀ i).tenancy := hV.activated i hp.1
    obtain ⟨hv, hwords⟩ := (hV.ok i).named hb
    have hlife : keyOf s₀.mem i = (view s₀ i).lifeKey (view s₀ i).life :=
      (bbLoadKey_congr hwords).trans hv.load
    exact ((hV.ok i).fits _ w (List.mem_of_getLast? hw)).2.trans (hlife.symm.trans hk)
  · rw [hwhere i hi hp hk]
    exact (expects_eq hV i).2 w hw
  · obtain ⟨-, hp, hkey, -⟩ := hE.owner u w hu hw hd
    exact ⟨hp, hkey.trans hk, ((hV.claim u w hw).resolve_left (hsound.not_gone hu)).count⟩

end Run

/-! ### A crew -/

/-- Thread 0 declares a key and writes under it, thread 2 reads that, the process of thread 0 dies in the
middle of the next write, and thread 2 observes the key once more. -/
def crewWrites : List (Action (Fin 4) Call) :=
  crewReads ++ .call 0 (.write [3]) :: List.replicate 2 (.run 0 10) ++ [.exit 7, .call 2 (.observe [107])]

/-- The steps of a read over words at rest. -/
def reading (s : Shared (Fin 4) Loc Actor (Trace (Fin 4))) : Action (Fin 4) Call → Bool
  | .run t now => steady s (.run t now) && decide (t = 2) && decide ((s.th 2).pc.phase = .read)
  | _ => false

theorem runs_crew {s₀ s₁ s : Shared (Fin 4) Loc Actor (Trace (Fin 4))} {ls : List (Action (Fin 4) Call)}
    (h₁ : (program (Fin 4) small).next crewProc s₀ (.call 2 (.read 16)) = some s₁)
    (hp : LTS.play ((program (Fin 4) small).next crewProc) reading s₁ ls = some s) :
    ReadRun small crewProc 2 16 s₀ s ∧ QuietRun small crewProc 2 16 s₀ s := by
  have h : (LTS.ofNext (· = s₁) ((program (Fin 4) small).next crewProc)).Reach
      (fun s l _ => reading s l = true) s := LTS.Reach.play (.init rfl) hp
  refine ⟨⟨s₁, h₁, h.mono fun x l y _ ho => ?_⟩, s₁, h₁, h.mono fun x l y hs ho => ?_⟩
  · cases l <;> simp only [reading, Bool.and_eq_true, decide_eq_true_eq, Bool.false_eq_true] at ho
    exact ⟨ho.1.1, ho.2⟩
  · cases l <;> simp only [reading, Bool.and_eq_true, decide_eq_true_eq, Bool.false_eq_true] at ho
    obtain ⟨⟨-, rfl⟩, hph⟩ := ho
    obtain ⟨-, x', hreq, rfl⟩ := Program.run_cases hs
    obtain ⟨l, hl, -⟩ := request_of_read hph
    obtain rfl := Option.some.inj (hreq.symm.trans hl)
    exact ⟨hph, fun _ _ => rfl⟩

/-- A read has returned. -/
def Actor.answered (a : Actor) (o : ReadOutcome) (data : List UInt8) : Bool :=
  match a.pc, a.result with
  | .idle, .read o' data' => decide (o' = o ∧ data' = data)
  | _, _ => false

/-- A read after that, through the new handle, of the first write. -/
theorem read_crew : ∃ s₀ s : Shared (Fin 4) Loc Actor (Trace (Fin 4)), Steady small crewProc s₀ ∧
    ReadRun small crewProc 2 16 s₀ s ∧ QuietRun small crewProc 2 16 s₀ s ∧
      (s.th 2).pc = .idle ∧ (s.th 2).result = .read ⟨none, 2, 9, 1⟩ [1, 2] ∧
      s₀.mem .lockToken = 0 ∧ (s₀.th 2).reader.map Reader.key = some [107] ∧ Published s₀.mem 0 ∧
      keyOf s₀.mem 0 = [107] ∧ s₀.ghost.reads 2 = [] ∧ s₀.ghost.fetched = [⟨0, 1, 1⟩] := by
  have h0 : Steady small crewProc crew := .init init_crew
  obtain ⟨s₀, h₀, hP⟩ := LTS.Reach.play_any h0 crewWrites
    (fun s₀ => decide (s₀.mem .lockToken = 0 ∧ (s₀.th 2).reader.map Reader.key = some [107] ∧
        s₀.mem (.entry 0 .state) = active ∧ s₀.mem (.entry 0 .keyHash) ≠ 0 ∧ keyOf s₀.mem 0 = [107] ∧
        s₀.ghost.reads 2 = [] ∧ s₀.ghost.fetched = [⟨0, 1, 1⟩]) &&
      ((program (Fin 4) small).next crewProc s₀ (.call 2 (.read 16))).any fun s₁ =>
        (LTS.play ((program (Fin 4) small).next crewProc) reading s₁ (List.replicate 26 (.run 2 0))).any fun s =>
          (s.th 2).answered ⟨none, 2, 9, 1⟩ [1, 2])
    (by decide +kernel)
  simp only [Bool.and_eq_true, decide_eq_true_eq] at hP
  obtain ⟨⟨hlock, hkey, hst, hh, hk, hreads, hfetched⟩, hP⟩ := hP
  obtain ⟨s₁, h₁, hP⟩ := (Option.any_eq_true _ _).mp hP
  obtain ⟨s, hs, hP⟩ := (Option.any_eq_true _ _).mp hP
  obtain ⟨hR, hQ⟩ := runs_crew h₁ hs
  unfold Actor.answered at hP
  split at hP
  · rename_i hidle hres
    obtain ⟨rfl, rfl⟩ := of_decide_eq_true hP
    exact ⟨s₀, s, h₀, hR, hQ, hidle, hres, hlock, hkey, ⟨hst, hh⟩, hk, hreads, hfetched⟩
  · cases hP

theorem reads_fresh_crew : ∃ s₀ s : Shared (Fin 4) Loc Actor (Trace (Fin 4)),
    ReadRun small crewProc 2 16 s₀ s ∧ s₀.ghost.fetched = [⟨0, 1, 1⟩] ∧
      ∃ f w, Fresh s₀ s f ∧ (s.ghost.log f.entry f.life)[f.count - 1]? = some w ∧ w.data = [1, 2] := by
  obtain ⟨s₀, s, h₀, hR, -, hidle, hres, -, -, -, -, -, hfetched⟩ := read_crew
  obtain ⟨r, f, rest, w, -, -, -, hf, -, hw, hdata⟩ := reads_fresh h₀ hR hidle hres rfl
  exact ⟨s₀, s, hR, hfetched, f, w, hf, hw, hdata.symm⟩

theorem last_value_crew : ∃ s₀ s : Shared (Fin 4) Loc Actor (Trace (Fin 4)),
    QuietRun small crewProc 2 16 s₀ s ∧ Published s₀.mem 0 ∧ keyOf s₀.mem 0 = [107] ∧
      Answered small s₀ crewProc [107] 16 (.read ⟨none, 2, 9, 1⟩ [1, 2]) := by
  obtain ⟨s₀, s, h₀, -, hQ, hidle, hres, hlock, hkey, hp, hk, -⟩ := read_crew
  obtain ⟨r, hr, hrk⟩ := Option.map_eq_some_iff.mp hkey
  have hans := (last_value h₀ hlock hr hQ).1 hidle
  rw [hrk, hres] at hans
  exact ⟨s₀, s, hQ, hp, hk, hans⟩

end System

end Kickmsg.Blackboard
