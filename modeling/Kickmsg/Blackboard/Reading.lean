import Kickmsg.Blackboard.Value

/-!
# What a reader returns

A `Reader` takes no lock. What it has copied is right as long as the entry is under the tenancy it has
seen and its cell has not been reused; where one of the two fails, its re-checks refuse the copy. Each
predicate below is of that form, so it survives whatever the others do to the entry (`Evolves`), and a
read that returns without an error has one completed write in hand.
-/

namespace Kickmsg.Blackboard

open Lib

/-! ## What survives the others' steps -/

namespace View

variable {limit : Nat} {v v' : View}

theorem Evolves.tenancy_le (h : v.Evolves limit v') : v.tenancy ≤ v'.tenancy := by
  cases h with
  | bump => exact Nat.le_succ _
  | _ => exact le_refl _

/-- Write `k` of life `n`, which is a life of `key`, satisfies `P`. -/
structure Told (v : View) (key : List UInt8) (n k : Nat) (P : Written → Prop) : Prop where
  life : n ≤ v.life
  key : v.lifeKey n = key
  pos : 1 ≤ k
  value : ∃ w, (v.log n)[k - 1]? = some w ∧ P w

/-- A log only grows. -/
theorem Evolves.log (h : v.Evolves limit v') {n k : Nat} {w : Written} (hn : n ≤ v.life)
    (hk : (v.log n)[k]? = some w) : (v'.log n)[k]? = some w := by
  cases h with
  | reset key =>
    dsimp only
    rwa [Function.update_of_ne (by omega)]
  | close w₁ =>
    dsimp only
    by_cases he : n = v.life
    · subst he
      rw [Function.update_self, List.getElem?_append_left]
      · exact hk
      · exact (List.getElem?_eq_some_iff.mp hk).1
    · rwa [Function.update_of_ne he]
  | _ => exact hk

theorem Evolves.log_length (h : v.Evolves limit v') {n : Nat} (hn : n ≤ v.life) :
    (v.log n).length ≤ (v'.log n).length := by
  cases h with
  | reset key =>
    dsimp only
    rw [Function.update_of_ne (by omega)]
  | close w₁ =>
    dsimp only
    by_cases he : n = v.life
    · subst he
      rw [Function.update_self, List.length_append]
      exact Nat.le_add_right _ _
    · rw [Function.update_of_ne he]
  | _ => exact le_refl _

theorem Evolves.life_le (h : v.Evolves limit v') : v.life ≤ v'.life := by
  cases h with
  | reset => exact Nat.le_succ _
  | _ => exact le_refl _

theorem Evolves.lifeKey (h : v.Evolves limit v') {n : Nat} (hn : n ≤ v.life) :
    v'.lifeKey n = v.lifeKey n := by
  cases h with
  | reset key => exact Function.update_of_ne (by omega) ..
  | _ => rfl

theorem Told.evolves {key : List UInt8} {n k : Nat} {P : Written → Prop} (h : v.Told key n k P)
    (he : v.Evolves limit v') : v'.Told key n k P := by
  obtain ⟨w, hw, hP⟩ := h.value
  exact ⟨h.life.trans he.life_le, (he.lifeKey h.life).trans h.key, h.pos, w, he.log h.life hw, hP⟩

/-- Under tenancy `T` the entry holds `key`, unless it is being claimed. -/
structure Held (v : View) (T : Nat) (key : List UInt8) : Prop where
  le : T ≤ v.tenancy
  key : v.tenancy = T → v.born < T → v.lifeKey v.life = key

theorem Held.evolves {T : Nat} {key : List UInt8} (h : v.Held T key) (he : v.Evolves limit v') :
    v'.Held T key := by
  refine ⟨h.le.trans he.tenancy_le, fun ht hb => ?_⟩
  have hle := h.le
  cases he with
  | bump => dsimp only at ht; omega
  | reset key => dsimp only at ht hb; omega
  | _ => exact h.key ht hb

/-- A scan that has copied the first `k` words of the key under tenancy `T`. -/
structure Scanned (v : View) (T : Nat) (words : Nat → Nat) (k : Nat) : Prop where
  le : T ≤ v.tenancy
  words : v.tenancy = T → v.born < T → ∀ j < k, words j = v.key j

theorem Scanned.evolves {T k : Nat} {words : Nat → Nat} (h : v.Scanned T words k)
    (he : v.Evolves limit v') : v'.Scanned T words k := by
  refine ⟨h.le.trans he.tenancy_le, fun ht hb => ?_⟩
  have hle := h.le
  cases he with
  | bump => dsimp only at ht; omega
  | reset key => dsimp only at ht hb; omega
  | fill hbt => dsimp only at ht hb; omega
  | _ => exact h.words ht hb

/-- A scan that has copied the whole key and found it. -/
theorem Scanned.held {T : Nat} {words : Nat → Nat} {key : List UInt8} (h : v.Scanned T words keyWords)
    (hok : v.Ok limit) (hk : bbLoadKey words = key) : v.Held T key := by
  refine ⟨h.le, fun ht hb => ?_⟩
  obtain ⟨hv, hw⟩ := hok.named (ht ▸ hb)
  rw [← hk, ← hv.load]
  exact bbLoadKey_congr fun j hj => ((h.words ht hb j hj).trans (hw j hj)).symm

/-- A read that saw `k` writes of life `n` under tenancy `T`: unless the entry has moved on, it is being
claimed anew and its `publish` says so, or it is in that life and the copy satisfies `P` of write `k`
until the cell of that write is reused. -/
structure Copying (v : View) (T : Nat) (key : List UInt8) (n k : Nat) (P : Written → Prop) : Prop where
  le : T ≤ v.tenancy
  pos : 1 ≤ k
  live : v.tenancy = T → (v.born = T ∧ v.publish = 0) ∨
    (v.born < T ∧ v.life = n ∧ v.lifeKey n = key ∧
      ∃ w, (v.log n)[k - 1]? = some w ∧ (v.publish < 2 * k + 3 → P w))

theorem Copying.evolves {T n k : Nat} {key : List UInt8} {P : Written → Prop}
    (h : v.Copying T key n k P) (hok : v.Ok limit) (he : v.Evolves limit v') :
    v'.Copying T key n k P := by
  refine ⟨h.le.trans he.tenancy_le, h.pos, fun ht => ?_⟩
  have hle := h.le
  have hpos := h.pos
  have htv : v.tenancy = T := Nat.le_antisymm (ht ▸ he.tenancy_le) hle
  rcases h.live htv with ⟨hb, hp⟩ | ⟨hb, hn, hkey, w, hw, hP⟩
  · left
    cases he with
    | bump => dsimp only at ht; omega
    | start hlt => omega
    | store hs => omega
    | close _ hs => omega
    | reset => exact ⟨htv, rfl⟩
    | _ => exact ⟨hb, hp⟩
  · subst hn
    have hcount := hok.count
    have hlt := (List.getElem?_eq_some_iff.mp hw).1
    have hwl : v.writes.length = (v.log v.life).length := rfl
    cases he with
    | bump => dsimp only at ht; omega
    | reset => exact .inl ⟨htv, rfl⟩
    | fill hbt => omega
    | start _ =>
      refine .inr ⟨hb, rfl, hkey, w, hw, fun hlt' => hP ?_⟩
      dsimp only at hlt'
      omega
    | close w₁ hs hf hk' hc =>
      refine .inr ⟨hb, rfl, hkey, w, ?_, fun hlt' => hP ?_⟩
      · dsimp only
        rw [Function.update_self, List.getElem?_append_left]
        · exact hw
        · exact hlt
      · dsimp only at hlt'
        omega
    | _ => exact .inr ⟨hb, rfl, hkey, w, hw, hP⟩

/-- A load of a word of the cell: the copy satisfies one thing more. -/
theorem Copying.load {T n k : Nat} {key : List UInt8} {P Q : Written → Prop} (h : v.Copying T key n k P)
    (hok : v.Ok limit)
    (hQ : ∀ w, w.data.length ≤ limit → P w → Holds (v.cell (cellOf k)) w → Q w) :
    v.Copying T key n k Q := by
  refine ⟨h.le, h.pos, fun ht => (h.live ht).imp id ?_⟩
  rintro ⟨hb, rfl, hkey, w, hw, hP⟩
  refine ⟨hb, rfl, hkey, w, hw, fun hlt => hQ w (hok.fits _ w (List.mem_of_getElem? hw)).1 (hP hlt) ?_⟩
  have hcount := hok.count
  have hlen := (List.getElem?_eq_some_iff.mp hw).1
  have hwl : v.writes.length = (v.log v.life).length := rfl
  have hpos := h.pos
  have hc := hok.cell (k - 1) w hw
  rw [show k - 1 + 1 = k by omega] at hc
  exact hc (by omega)

/-- A read sees `publish`: it is in a life of its key, unless the entry has moved on. -/
theorem Held.copying {T : Nat} {key : List UInt8} (h : v.Held T key) (hok : v.Ok limit)
    (hp : v.publish / 2 ≠ 0) : v.Copying T key v.life (v.publish / 2) fun _ => True := by
  refine ⟨h.le, Nat.pos_of_ne_zero hp, fun ht => .inr ?_⟩
  have hb := hok.born_lt_of_publish (by omega)
  have hcount := hok.count
  have hlen : v.publish / 2 - 1 < v.writes.length := by omega
  exact ⟨ht ▸ hb, rfl, h.key ht (ht ▸ hb), v.writes[v.publish / 2 - 1], List.getElem?_eq_getElem hlen,
    fun _ => trivial⟩

/-- The second load of `publish`: a copy whose cell has not been reused is of a completed write. -/
theorem Copying.told {T n k : Nat} {key : List UInt8} {P : Written → Prop} (h : v.Copying T key n k P)
    (ht : v.tenancy = T) (hlo : 2 * k ≤ v.publish) (hhi : v.publish < 2 * k + 3) :
    v.Told key n k P := by
  have hpos := h.pos
  rcases h.live ht with ⟨-, hp⟩ | ⟨-, hn, hkey, w, hw, hP⟩
  · omega
  · exact ⟨hn ▸ le_refl _, hkey, h.pos, w, hw, hP hhi⟩

end View

/-! ## What a reader has copied -/

/-- How many words of the value a `read` copies. -/
def ReadCall.whole (q : ReadCall) : Nat := if q.c.len ≤ q.size then wordsFor q.c.len else 0

/-- The length and the first `k` words are those of `w`. -/
structure ReadCall.Got (q : ReadCall) (k : Nat) (w : Written) : Prop where
  len : q.c.len = w.data.length
  words : ∀ j < k, q.c.words j = wordAt (byteOf w.data) j

/-- The copy is that of `w`. -/
structure ReadCall.Has (q : ReadCall) (w : Written) : Prop where
  got : q.Got q.whole w
  stamp : q.c.stamp = w.stamp

/-- The actor is in a `read` whose handle names entry `q.i`. -/
structure Actor.Cached (a : Actor) (q : ReadCall) : Prop where
  reader : a.reader = some q.reader
  entry : q.reader.entryIdx = some q.i

/-- A `read` that has seen `publish` in life `n`: the tenancy is the handle's, no earlier read of the handle
saw more writes of that life, and the copy so far satisfies `P`. -/
structure Actor.Copies (limit : Nat) (v : Nat → View) (n : Nat) (reads : List Fetched) (a : Actor)
    (q : ReadCall) (P : Written → Prop) : Prop where
  cached : a.Cached q
  counts : ∀ f ∈ reads, f.entry = q.i → f.life = n → f.count ≤ q.c.writes
  copying : (v q.i).Copying q.c.tenancy q.reader.key n q.c.writes P

/-- What an actor that reads knows of the entry. `n` is the life in which it saw `publish`, and `reads` are
the reads of its handle before. -/
def Actor.Reading (limit : Nat) (v : Nat → View) (n : Nat) (reads : List Fetched) (a : Actor) : Prop :=
  match a.pc with
  | .resState q | .resTenancy q | .readTenancy q => a.Cached q
  | .seekState q | .seekHash q | .seekTenancy q => a.reader = some q.reader
  | .seekKey q w => a.reader = some q.reader ∧ w < keyWords ∧ (v q.i).Scanned q.c.tenancy q.c.key w
  | .readPublish q => a.Cached q ∧ q.c.tenancy = q.reader.tenancy
  | .readLen q => a.Copies limit v n reads q fun _ => True
  | .readWord q k => k < q.whole ∧ a.Copies limit v n reads q (q.Got k)
  | .readStamp q => a.Copies limit v n reads q (q.Got q.whole)
  | .readPublishAfter q => a.Copies limit v n reads q q.Has
  | .readTenancyAfter q => a.Cached q ∧ (∀ f ∈ reads, f.entry = q.i → f.life = n → f.count ≤ q.c.writes) ∧
      (q.c.clobbered = false → q.c.tenancy ≤ (v q.i).tenancy ∧
        ((v q.i).tenancy = q.c.tenancy → (v q.i).Told q.reader.key n q.c.writes q.Has))
  | _ => True

/-- A handle is of a good key, and what it remembers of the entry is right. -/
structure Reader.Ok (v : Nat → View) (r : Reader) : Prop where
  valid : ValidKey r.key
  hash : r.keyHash = keyFingerprint r.key
  held : ∀ i, r.entryIdx = some i → (v i).Held r.tenancy r.key

/-- The answer is that of write `o.updateCount`, which the latest of `reads` has found. -/
def Actor.Answers (v : Nat → View) (reads : List Fetched) (a : Actor) (o : ReadOutcome)
    (data : List UInt8) : Prop :=
  ∃ r f rest, a.reader = some r ∧ reads = f :: rest ∧ f.count = o.updateCount ∧
    (v f.entry).Told r.key f.life f.count fun w =>
      data = w.data ∧ o.len = w.data.length ∧ o.updatedAtNs = w.stamp

/-- What holds of an actor with a reader at any time. -/
structure Actor.Faithful (limit : Nat) (v : Nat → View) (n : Nat) (reads : List Fetched) (a : Actor) :
    Prop where
  handle : ∀ r, a.reader = some r → r.Ok v
  reading : a.Reading limit v n reads
  counts : reads.Pairwise fun f g => f.entry = g.entry → f.life = g.life → g.count ≤ f.count
  bounded : ∀ f ∈ reads, f.life ≤ (v f.entry).life ∧ f.count ≤ ((v f.entry).log f.life).length
  told : ∀ o data, a.result = .read o data → o.ec = none → a.Answers v reads o data

section Actors

variable {g : Geometry} {limit n : Nat} {v v' : Nat → View} {reads : List Fetched} {a b : Actor}

theorem Actor.Copies.evolves {q : ReadCall} {P : Written → Prop} (h : a.Copies limit v n reads q P)
    (hok : ∀ i, (v i).Ok limit) (he : ∀ i, (v i).Evolves limit (v' i)) :
    a.Copies limit v' n reads q P :=
  ⟨h.cached, h.counts, h.copying.evolves (hok _) (he _)⟩

theorem Actor.Copies.goto {q : ReadCall} {P : Written → Prop} (h : a.Copies limit v n reads q P)
    {pc : Pc} : (a.goto pc).Copies limit v n reads q P :=
  ⟨⟨h.cached.reader, h.cached.entry⟩, h.counts, h.copying⟩

theorem Actor.Reading.evolves (h : a.Reading limit v n reads) (hok : ∀ i, (v i).Ok limit)
    (he : ∀ i, (v i).Evolves limit (v' i)) : a.Reading limit v' n reads := by
  unfold Actor.Reading at h ⊢
  cases hpc : a.pc <;> rw [hpc] at h
  case seekKey q w => exact ⟨h.1, h.2.1, h.2.2.evolves (he _)⟩
  case readLen | readStamp | readPublishAfter => exact Actor.Copies.evolves h hok he
  case readWord => exact ⟨h.1, h.2.evolves hok he⟩
  case readTenancyAfter q =>
    refine ⟨h.1, h.2.1, fun hc => ?_⟩
    obtain ⟨hle, htold⟩ := h.2.2 hc
    refine ⟨hle.trans (he _).tenancy_le, fun ht => (htold ?_).evolves (he _)⟩
    exact Nat.le_antisymm (ht ▸ (he _).tenancy_le) hle
  all_goals exact h

theorem Reader.Ok.evolves {r : Reader} (h : r.Ok v) (he : ∀ i, (v i).Evolves limit (v' i)) : r.Ok v' :=
  ⟨h.valid, h.hash, fun i hi => (h.held i hi).evolves (he i)⟩

theorem Actor.Answers.evolves {o : ReadOutcome} {data : List UInt8} (h : a.Answers v reads o data)
    (he : ∀ i, (v i).Evolves limit (v' i)) : a.Answers v' reads o data := by
  obtain ⟨r, f, rest, hr, hreads, hcount, htold⟩ := h
  exact ⟨r, f, rest, hr, hreads, hcount, htold.evolves (he _)⟩

/-- Whatever the others do. -/
theorem Actor.Faithful.evolves (h : a.Faithful limit v n reads) (hok : ∀ i, (v i).Ok limit)
    (he : ∀ i, (v i).Evolves limit (v' i)) : a.Faithful limit v' n reads where
  handle r hr := (h.handle r hr).evolves he
  reading := h.reading.evolves hok he
  counts := h.counts
  bounded f hf := ⟨(h.bounded f hf).1.trans (he _).life_le,
    (h.bounded f hf).2.trans ((he _).log_length (h.bounded f hf).1)⟩
  told o data hr hec := (h.told o data hr hec).evolves he

theorem Actor.reading_of_phase (h : a.pc.phase ≠ .read) : a.Reading limit v n reads := by
  unfold Actor.Reading
  cases hpc : a.pc <;> rw [hpc] at h <;> trivial

/-- A step that is not a reader's. -/
theorem Actor.Faithful.apart (h : a.Faithful limit v n reads) (hp : b.pc.phase ≠ .read)
    (hreader : b.reader = a.reader)
    (hres : b.result = a.result ∨ ∀ o data, b.result ≠ .read o data) : b.Faithful limit v n reads where
  handle := hreader ▸ h.handle
  reading := reading_of_phase hp
  counts := h.counts
  bounded := h.bounded
  told o data hr hec := by
    rcases hres with hres | hres
    · obtain ⟨r, f, rest, hr', hrest⟩ := h.told o data (hres ▸ hr) hec
      exact ⟨r, f, rest, hreader ▸ hr', hrest⟩
    · exact absurd hr (hres o data)

/-- A step within a `read`: the handle keeps its key, and there is no answer yet, or an error. -/
theorem Actor.Faithful.goOn (h : a.Faithful limit v n reads) {n' : Nat}
    (hreader : b.reader = a.reader ∨
      ∃ r r', a.reader = some r ∧ b.reader = some r' ∧ r'.key = r.key ∧ r'.Ok v)
    (hres : b.result = a.result ∨ ∃ o d, b.result = .read o d ∧ o.ec ≠ none)
    (hread : b.Reading limit v n' reads) : b.Faithful limit v n' reads where
  handle r hr := by
    rcases hreader with he | ⟨-, r', -, hb, -, hok⟩
    · exact h.handle r (he ▸ hr)
    · obtain rfl := Option.some.inj (hb.symm.trans hr)
      exact hok
  reading := hread
  counts := h.counts
  bounded := h.bounded
  told o data hr hec := by
    rcases hres with hres | ⟨o', d, hres, herr⟩
    · obtain ⟨r, f, rest, hr', hreads, hcount, htold⟩ := h.told o data (hres ▸ hr) hec
      rcases hreader with he | ⟨r₁, r₂, ha, hb, hkey, -⟩
      · exact ⟨r, f, rest, he ▸ hr', hreads, hcount, htold⟩
      · obtain rfl := Option.some.inj (ha.symm.trans hr')
        exact ⟨r₂, f, rest, hb, hreads, hcount, hkey ▸ htold⟩
    · obtain ⟨rfl, -⟩ := Result.read.inj (hres.symm.trans hr)
      exact absurd hec herr

theorem Actor.Faithful.seekAt (h : a.Faithful limit v n reads) {q : ReadCall} {i n' : Nat}
    (hq : a.reader = some q.reader) : (a.seekAt g q i).Faithful limit v n' reads := by
  unfold Actor.seekAt
  split
  · exact h.goOn (.inl rfl) (.inl rfl) hq
  · have hr := h.handle _ hq
    exact h.goOn (.inr ⟨_, _, hq, rfl, rfl, hr.valid, hr.hash, nofun⟩) (.inr ⟨_, _, rfl, fun e => by cases e⟩) trivial

theorem Actor.Faithful.resolve (h : a.Faithful limit v n reads) {q : ReadCall} {n' : Nat}
    (hq : a.reader = some q.reader) : (a.resolve g q).Faithful limit v n' reads := by
  unfold Actor.resolve
  split
  · rename_i i hi
    split
    · exact h.goOn (.inl rfl) (.inl rfl) ⟨hq, hi⟩
    · exact h.seekAt hq
  · exact h.seekAt hq

theorem Actor.Faithful.readRetry (h : a.Faithful limit v n reads) {q : ReadCall} {n' : Nat}
    (hq : a.reader = some q.reader) : (a.readRetry g q).Faithful limit v n' reads := by
  unfold Actor.readRetry
  split
  · exact h.resolve hq
  · exact h.goOn (.inl rfl) (.inr ⟨_, _, rfl, fun e => by cases e⟩) trivial

theorem Actor.Faithful.readWords (h : a.Faithful limit v n reads) {q : ReadCall} {k n' : Nat}
    (hk : k ≤ q.whole) (hc : a.Copies limit v n' reads q (q.Got k)) :
    (a.readWords q k).Faithful limit v n' reads := by
  unfold Actor.readWords
  split
  · rename_i hlt
    refine h.goOn (.inl rfl) (.inl rfl) ⟨?_, hc.goto⟩
    rw [ReadCall.whole, if_pos hlt.1]
    exact hlt.2
  · rename_i hge
    obtain rfl : k = q.whole := by
      unfold ReadCall.whole at hk ⊢
      split_ifs at hk ⊢ <;> omega
    exact h.goOn (.inl rfl) (.inl rfl) hc.goto

/-- The bytes of a copy that has been accepted. -/
theorem ReadCall.Has.data {q : ReadCall} {w : Written} (h : q.Has w) (hfits : q.c.len ≤ q.size) :
    q.data = w.data ∧ q.outcome.len = w.data.length ∧ q.outcome.updatedAtNs = w.stamp := by
  have hwords := h.got.words
  rw [ReadCall.whole, if_pos hfits] at hwords
  refine ⟨?_, h.got.len, h.stamp⟩
  rw [ReadCall.data, if_pos hfits, bytesOf_congr hwords, h.got.len]
  simpa using bytesOf_wordAt w.data 0

/-- What a call begins with. -/
theorem Actor.Faithful.call {ι : Type} [DecidableEq ι] {tr : Trace ι} {m : Loc → Nat} {t : ι} {c : Call}
    (h : a.Faithful limit v (tr.met t) (tr.reads t)) (hcall : a.call g c = some b) :
    b.Faithful limit v ((tr.trackCall m t c).met t) ((tr.trackCall m t c).reads t) := by
  have hkeep : ∀ {n' : Nat} {b : Actor}, b.pc.phase ≠ .read → b.reader = a.reader →
      (∀ o data, b.result = .read o data → o.ec ≠ none) → b.Faithful limit v n' (tr.reads t) := by
    intro n' b hp hr hres
    exact ⟨hr ▸ h.handle, Actor.reading_of_phase hp, h.counts, h.bounded,
      fun o data ho hec => absurd hec (hres o data ho)⟩
  unfold Actor.call at hcall
  cases hpc : a.pc <;> rw [hpc] at hcall <;> simp only [reduceCtorEq] at hcall
  cases c with
  | declare key =>
    dsimp only at hcall
    split at hcall
    · cases hcall
    · obtain rfl := Option.some.inj hcall
      exact hkeep nofun rfl nofun
    · obtain rfl := Option.some.inj hcall
      exact hkeep nofun rfl nofun
  | write d =>
    dsimp only at hcall
    split at hcall
    · obtain rfl := Option.some.inj hcall
      exact hkeep nofun rfl nofun
    · split_ifs at hcall <;> obtain rfl := Option.some.inj hcall <;> exact hkeep nofun rfl nofun
  | release =>
    dsimp only at hcall
    split at hcall
    · obtain rfl := Option.some.inj hcall
      exact hkeep nofun rfl nofun
    · split_ifs at hcall <;> obtain rfl := Option.some.inj hcall <;> exact hkeep nofun rfl nofun
  | sweepStale =>
    obtain rfl := Option.some.inj hcall
    exact hkeep nofun rfl nofun
  | observe key =>
    simp only [Trace.trackCall]
    dsimp only at hcall
    cases hk : checkKey key with
    | error e =>
      rw [hk] at hcall
      obtain rfl := Option.some.inj hcall
      exact hkeep nofun rfl nofun
    | ok k =>
      rw [hk] at hcall
      obtain rfl := Option.some.inj hcall
      dsimp only
      rw [Function.update_self]
      refine ⟨fun r hr => ?_, trivial, .nil, nofun, nofun⟩
      obtain rfl := Option.some.inj hr
      exact ⟨.of_check hk, rfl, nofun⟩
  | read size =>
    dsimp only at hcall
    split at hcall <;> obtain rfl := Option.some.inj hcall
    · exact hkeep nofun rfl fun o data ho => by
        obtain ⟨rfl, -⟩ := Result.read.inj ho
        nofun
    · rename_i r hr
      exact (h.apart (b := { a with result := .pending }) (by rw [hpc]; nofun) rfl (.inr nofun)).resolve hr
  | list l =>
    have hl : ∀ l, (listAt g { a with result := .pending } l [] 0).Faithful limit v (tr.met t) (tr.reads t) := by
      intro l
      have hst : Actor.StaysList _ (Actor.listAt g { a with result := .pending } l [] 0) :=
        Actor.staysList_listAt
      refine hkeep ?_ hst.reader fun o data ho => ?_
      · rcases hst.next with ⟨h, -⟩ | ⟨h, -⟩ <;> rw [h] <;> nofun
      · rcases hst.next with ⟨-, h⟩ | ⟨-, l', rows, h⟩ <;> rw [h] at ho <;> cases ho
    cases l with
    | snapshot =>
      obtain rfl := Option.some.inj hcall
      exact hkeep nofun rfl nofun
    | keys pre =>
      obtain rfl := Option.some.inj hcall
      exact hl _
    | readAll pre =>
      obtain rfl := Option.some.inj hcall
      exact hl _

end Actors

/-! ## Every run -/

section System

variable {ι : Type} [DecidableEq ι] {proc : ι → Nat × Nat} {s : Shared ι Loc Actor (Trace ι)} {g : Geometry}
  {t u : ι} {x : Access Loc Query} {now : Nat}

/-- What holds of every reader. -/
def AllFaithful (g : Geometry) (s : Shared ι Loc Actor (Trace ι)) : Prop :=
  ∀ t, (s.th t).Faithful g.maxValueSize (view s) (s.ghost.met t) (s.ghost.reads t)

theorem Trace.track_reads (tr : Trace ι) (m : Loc → Nat) (a : Actor) (r : Answer)
    (h : t ≠ u ∨ a.pc.phase ≠ .read) :
    (tr.track m u a r).met t = tr.met t ∧ (tr.track m u a r).reads t = tr.reads t := by
  unfold Trace.track
  cases hpc : a.pc <;> rw [hpc] at h
  case readPublish q =>
    exact ⟨Function.update_of_ne (h.resolve_right fun hp => hp rfl) .., rfl⟩
  case readTenancyAfter q =>
    dsimp only
    split
    · exact ⟨rfl, Function.update_of_ne (h.resolve_right fun hp => hp rfl) ..⟩
    · exact ⟨rfl, rfl⟩
  all_goals first
    | exact ⟨rfl, rfl⟩
    | (dsimp only; split <;> exact ⟨rfl, rfl⟩)

theorem Trace.trackCall_reads (tr : Trace ι) (m : Loc → Nat) (c : Call) (h : t ≠ u) :
    (tr.trackCall m u c).met t = tr.met t ∧ (tr.trackCall m u c).reads t = tr.reads t := by
  unfold Trace.trackCall
  split
  · split
    · exact ⟨rfl, rfl⟩
    · exact ⟨rfl, Function.update_of_ne h ..⟩
  · exact ⟨rfl, rfl⟩

/-- A step that is not a reader's leaves the reader as it is, and answers nothing for it. -/
theorem Actor.apart_resume {a : Actor} {r : Answer} (hph : a.pc.phase ≠ .read)
    (hs : a.pc.silent = true) : (a.resume g r).pc.phase ≠ .read ∧ (a.resume g r).reader = a.reader ∧
      ((a.resume g r).result = a.result ∨ ∀ o data, (a.resume g r).result ≠ .read o data) := by
  have hgo : ∀ {b : Actor} (p : Phase), p ≠ .read → a.Goes b p → b.pc.phase ≠ .read ∧
      b.reader = a.reader ∧ (b.result = a.result ∨ ∀ o data, b.result ≠ .read o data) := by
    intro b p hp h
    refine ⟨h.phase ▸ hp, h.reader, h.result.imp id fun hr o data he => ?_⟩
    rw [he] at hr
    cases hr
  have hlist : ∀ {b : Actor}, a.StaysList b → b.pc.phase ≠ .read ∧ b.reader = a.reader ∧
      (b.result = a.result ∨ ∀ o data, b.result ≠ .read o data) := by
    intro b h
    rcases h.next with ⟨hp, hr⟩ | ⟨hp, l, rows, hr⟩
    · exact ⟨by rw [hp]; nofun, h.reader, .inl hr⟩
    · exact ⟨by rw [hp]; nofun, h.reader, .inr (by rw [hr]; nofun)⟩
  cases hp : a.pc.phase with
  | desk =>
    rcases a.resume_desk (g := g) (r := r) hp hs with h | ⟨key, i, -, h⟩ | h
    · exact hgo .desk nofun h
    · rw [h]
      exact ⟨nofun, rfl, .inl rfl⟩
    · rw [h]
      exact hlist staysList_listAt
  | draft =>
    rcases a.resume_draft (g := g) (r := r) hp with h | h
    · exact hgo .desk nofun h
    · exact hgo .draft nofun h
  | read => exact absurd hp hph
  | list => exact hlist (resume_list hp)

/-- A reader's own step. -/
theorem Actor.Faithful.resume_read (hV : Values g proc s) {r : Answer}
    (hF : (s.th u).Faithful g.maxValueSize (view s) (s.ghost.met u) (s.ghost.reads u))
    (hans : ∀ l, (s.th u).request = some (.load l) → r.val = s.mem l) (hph : (s.th u).pc.phase = .read) :
    ((s.th u).resume g r).Faithful g.maxValueSize (view s) ((s.ghost.track s.mem u (s.th u) r).met u)
      ((s.ghost.track s.mem u (s.th u) r).reads u) := by
  have hr := hF.reading
  cases hpc : (s.th u).pc <;> rw [hpc] at hph <;> simp only [Pc.phase, reduceCtorEq] at hph <;>
    simp only [Actor.request, hpc, Option.some.injEq, Access.load.injEq, forall_eq'] at hans <;>
    simp only [Actor.Reading, hpc] at hr <;> simp only [Actor.resume, Trace.track, hpc]
  case notifySeq locked o | notifyWaiters locked o | notifyWake locked o => cases o <;> cases hph
  case unlock o => cases o <;> cases hph
  case resState q =>
    split
    · exact hF.goOn (.inl rfl) (.inl rfl) ⟨hr.reader, hr.entry⟩
    · exact hF.seekAt hr.reader
  case resTenancy q =>
    split
    · exact hF.goOn (.inl rfl) (.inl rfl) ⟨hr.reader, hr.entry⟩
    · exact hF.seekAt hr.reader
  case seekState q | seekHash q =>
    split
    · exact hF.goOn (.inl rfl) (.inl rfl) hr
    · exact hF.seekAt hr
  case seekTenancy q =>
    exact hF.goOn (.inl rfl) (.inl rfl)
      ⟨hr, by decide, Nat.le_of_eq hans, fun _ _ j hj => absurd hj (Nat.not_lt_zero j)⟩
  case seekKey q w =>
    obtain ⟨hq, hw, hscan⟩ := hr
    have hscan' : (view s q.i).Scanned q.c.tenancy (Function.update q.c.key w r.val) (w + 1) := by
      refine ⟨hscan.le, fun ht hb j hj => ?_⟩
      by_cases hjw : j = w
      · rw [hjw, Function.update_self, hans]
        rfl
      · rw [Function.update_of_ne hjw]
        exact hscan.words ht hb j (by omega)
    split
    · rename_i hlt
      exact hF.goOn (.inl rfl) (.inl rfl) ⟨hq, hlt, hscan'⟩
    rename_i hge
    split
    · rename_i hload
      have hok := hF.handle _ hq
      refine hF.goOn (.inr ⟨_, _, hq, rfl, rfl, hok.valid, hok.hash, fun i hi => ?_⟩) (.inl rfl)
        ⟨rfl, rfl⟩
      obtain rfl := Option.some.inj hi
      have hall : w + 1 = keyWords := by omega
      exact (hall ▸ hscan').held (hV.ok _) hload
    · exact hF.seekAt hq
  case readTenancy q =>
    split
    · rename_i ht
      exact hF.goOn (.inl rfl) (.inl rfl) ⟨⟨hr.reader, hr.entry⟩, ht⟩
    · exact hF.readRetry hr.reader
  case readPublish q =>
    obtain ⟨hc, ht⟩ := hr
    rw [Function.update_self]
    have hpub : r.val = (view s q.i).publish := hans
    split
    · exact hF.goOn (.inl rfl) (.inr ⟨_, _, rfl, fun e => by cases e⟩) trivial
    · rename_i h0
      refine hF.goOn (.inl rfl) (.inl rfl) ⟨⟨hc.reader, hc.entry⟩, fun f hf hi hn => ?_, ?_⟩
      · have hb := (hF.bounded f hf).2
        rw [hi, hn] at hb
        show f.count ≤ r.val / 2
        rw [hpub, (hV.ok q.i).count]
        exact hb
      · have hheld := (hF.handle _ hc.reader).held _ hc.entry
        rw [← ht] at hheld
        rw [hpub] at h0 ⊢
        exact hheld.copying (hV.ok q.i) h0
  case readLen q =>
    refine hF.readWords (Nat.zero_le _) ⟨⟨hr.cached.reader, hr.cached.entry⟩, hr.counts, ?_⟩
    refine hr.copying.load (hV.ok _) fun w hle _ hw => ⟨?_, fun j hj => absurd hj (Nat.not_lt_zero j)⟩
    have hlen : r.val = w.data.length := hans.trans hw.len
    show min r.val g.maxValueSize = w.data.length
    omega
  case readWord q k =>
    obtain ⟨hk, hc⟩ := hr
    refine hF.readWords (Nat.succ_le_of_lt hk) ⟨⟨hc.cached.reader, hc.cached.entry⟩, hc.counts, ?_⟩
    refine hc.copying.load (hV.ok _) fun w _ hgot hw => ⟨hgot.len, fun j hj => ?_⟩
    show Function.update q.c.words k r.val j = _
    by_cases hjk : j = k
    · rw [hjk, Function.update_self, hans]
      refine hw.words k ?_
      rw [← hgot.len]
      unfold ReadCall.whole at hk
      split at hk
      · exact hk
      · exact absurd hk (Nat.not_lt_zero k)
    · rw [Function.update_of_ne hjk]
      exact hgot.words j (by omega)
  case readStamp q =>
    refine hF.goOn (.inl rfl) (.inl rfl) ⟨⟨hr.cached.reader, hr.cached.entry⟩, hr.counts, ?_⟩
    exact hr.copying.load (hV.ok _) fun w _ hgot hw => ⟨⟨hgot.len, hgot.words⟩, hans.trans hw.stamp⟩
  case readPublishAfter q =>
    refine hF.goOn (.inl rfl) (.inl rfl) ⟨⟨hr.cached.reader, hr.cached.entry⟩, hr.counts, fun hc => ?_⟩
    have hpub : r.val = (view s q.i).publish := hans
    have hnot : ¬(r.val < 2 * q.c.writes ∨ 2 * q.c.writes + 3 ≤ r.val) := of_decide_eq_false hc
    refine ⟨hr.copying.le, fun ht => ?_⟩
    obtain ⟨h1, h2, h3, w, hw, hhas⟩ := hr.copying.told ht (by omega) (by omega)
    exact ⟨h1, h2, h3, w, hw, ⟨hhas.got.len, hhas.got.words⟩, hhas.stamp⟩
  case readTenancyAfter q =>
    obtain ⟨hcached, hcounts, hcopied⟩ := hr
    split
    swap
    · exact hF.readRetry hcached.reader
    rename_i hacc
    dsimp only
    rw [Function.update_self]
    have hboth : r.val = q.c.tenancy ∧ q.c.clobbered = false := by
      simpa [ReadCall.accepted] using hacc
    obtain ⟨hle, htold⟩ := hcopied hboth.2
    have htold := htold (hans.symm.trans hboth.1)
    have hvalue := htold.value
    obtain ⟨w, hw, hhas⟩ := hvalue
    refine ⟨hF.handle, trivial, ?_, fun f hf => ?_, fun o data hres hec => ?_⟩
    · rw [List.pairwise_cons]
      exact ⟨fun f hf he hn => hcounts f hf he.symm hn.symm, hF.counts⟩
    · rcases List.mem_cons.mp hf with rfl | hf
      · have hlt := (List.getElem?_eq_some_iff.mp hw).1
        have hpos := htold.pos
        exact ⟨htold.life, by show q.c.writes ≤ ((view s q.i).log (s.ghost.met u)).length; omega⟩
      · exact hF.bounded f hf
    · obtain ⟨rfl, rfl⟩ := Result.read.inj hres
      have hfits : q.c.len ≤ q.size := by
        by_contra hno
        rw [ReadCall.outcome, if_neg hno] at hec
        cases hec
      exact ⟨q.reader, _, _, hcached.reader, rfl, rfl, htold.life, htold.key, htold.pos, w, hw,
        hhas.data hfits⟩

/-- One step keeps what every reader knows and has answered. -/
theorem AllFaithful.ran (hF : AllFaithful g s) (hI : Inv g proc s) (hs : s.world.Sound)
    (hV : Values g proc s) (hu : s.world.alive (proc u) = true) (hreq : (s.th u).request = some x)
    (hnw : unwrapped s (.run u now) = true) : AllFaithful g ((program ι g).ran s u x now) := by
  intro t
  have hev : ∀ i, (view s i).Evolves g.maxValueSize (view ((program ι g).ran s u x now) i) :=
    fun i => (hV.evolves hI hs hu hreq hnw i).1
  have hrun : (s.ghost.track s.mem u (s.th u) (x.exec verdict s.world.procs s.mem now).2) =
      ((program ι g).ran s u x now).ghost := rfl
  by_cases htu : t = u
  · subst htu
    rw [ran_self]
    by_cases hph : (s.th t).pc.phase = .read
    · have hstep := Actor.Faithful.resume_read hV (hF t)
        (r := (x.exec verdict s.world.procs s.mem now).2) (fun l hl => ?_) hph
      · rw [hrun] at hstep
        exact hstep.evolves (fun i => hV.ok i) hev
      · obtain rfl := Option.some.inj (hreq.symm.trans hl)
        rfl
    · obtain ⟨hmet, hreads⟩ := s.ghost.track_reads (t := t) (u := t) s.mem (s.th t)
        (x.exec verdict s.world.procs s.mem now).2 (.inr hph)
      rw [hrun] at hmet hreads
      rw [hmet, hreads]
      obtain ⟨h1, h2, h3⟩ := Actor.apart_resume (g := g)
        (r := (x.exec verdict s.world.procs s.mem now).2) hph (hV.silent t)
      exact ((hF t).evolves (fun i => hV.ok i) hev).apart h1 h2 h3
  · rw [ran_other htu]
    obtain ⟨hmet, hreads⟩ := s.ghost.track_reads (t := t) (u := u) s.mem (s.th u)
      (x.exec verdict s.world.procs s.mem now).2 (.inl htu)
    rw [hrun] at hmet hreads
    rw [hmet, hreads]
    exact (hF t).evolves (fun i => hV.ok i) hev

omit [DecidableEq ι] in
theorem allFaithful_init (h : Init proc s) : AllFaithful g s := by
  intro t
  rw [h.th t, h.ghost]
  exact ⟨nofun, trivial, .nil, nofun, nofun⟩

/-- The start of a call. -/
theorem AllFaithful.called (hF : AllFaithful g s) {a : Actor} {c : Call}
    (hcall : (s.th u).call g c = some a) :
    AllFaithful g { s with th := Function.update s.th u a, ghost := s.ghost.trackCall s.mem u c } := by
  have hview : view { s with th := Function.update s.th u a, ghost := s.ghost.trackCall s.mem u c } =
      view s := funext fun i => Trace.trackCall_lives ..
  intro t
  rw [hview]
  show ((Function.update s.th u a) t).Faithful g.maxValueSize (view s) ((s.ghost.trackCall s.mem u c).met t)
    ((s.ghost.trackCall s.mem u c).reads t)
  by_cases htu : t = u
  · subst htu
    rw [Function.update_self]
    exact (hF t).call hcall
  · obtain ⟨h1, h2⟩ := s.ghost.trackCall_reads (t := t) (u := u) s.mem c htu
    rw [Function.update_of_ne htu, h1, h2]
    exact hF t

theorem faithful_reach (h : Steady g proc s) :
    ((Inv g proc s ∧ Values g proc s) ∧ AllFaithful g s) ∧ s.world.Sound :=
  Program.invariant (I := fun s => (Inv g proc s ∧ Values g proc s) ∧ AllFaithful g s)
    (fun _ h0 => ⟨⟨⟨inv_init h0, values_init h0⟩, allFaithful_init h0⟩, h0.world⟩)
    (fun _ _ _ _ ⟨⟨hI, hV⟩, hF⟩ hs hu hreq hst => by
      obtain ⟨hup, hnw⟩ := steady_iff.mp hst
      exact ⟨⟨hI.ran hs hu hreq hup, hV.ran hI hs hu hreq hnw⟩, hF.ran hI hs hV hu hreq hnw⟩)
    (fun _ _ _ _ ⟨⟨hI, hV⟩, hF⟩ _ _ hcall => ⟨⟨hI.called hcall, hV.called hcall⟩, hF.called hcall⟩)
    (fun _ _ ⟨⟨hI, hV⟩, hF⟩ _ hle _ => ⟨⟨hI.world hle, hV.world hle⟩, hF⟩) h

/-- What readers promise. A read that returns without an error and with the count `k` returns the `k`-th
write completed since its key was claimed on that entry, whole, and that write was made for the same key.
The counts that one reader gets from one life of an entry never go down. -/
structure ReadsRight (s : Shared ι Loc Actor (Trace ι)) : Prop where
  value : ∀ t o data, (s.th t).result = .read o data → o.ec = none →
    ∃ r f rest w, (s.th t).reader = some r ∧ s.ghost.reads t = f :: rest ∧
      f.count = o.updateCount ∧ 1 ≤ o.updateCount ∧ s.ghost.lifeKey f.entry f.life = r.key ∧
      (s.ghost.log f.entry f.life)[o.updateCount - 1]? = some w ∧ w.key = r.key ∧
      data = w.data ∧ o.len = w.data.length ∧ o.updatedAtNs = w.stamp
  counts : ∀ t, (s.ghost.reads t).Pairwise fun f g =>
    f.entry = g.entry → f.life = g.life → g.count ≤ f.count

/-- Readers are right in every run in which no recoverer takes the lock from a running process and no counter
of an entry wraps: whatever writers, take-overs, deaths in the middle of a write, releases, sweeps and claims
by other keys do between any two of their loads. -/
theorem reads_right (h : Steady g proc s) : ReadsRight s := by
  obtain ⟨⟨⟨-, hV⟩, hF⟩, -⟩ := faithful_reach h
  refine ⟨fun t o data hres hec => ?_, fun t => (hF t).counts⟩
  obtain ⟨r, f, rest, hr, hreads, hcount, htold⟩ := (hF t).told o data hres hec
  obtain ⟨w, hw, hdata, hlen, hstamp⟩ := htold.value
  have hkey := ((hV.ok f.entry).fits f.life w (List.mem_of_getElem? hw)).2
  have hlife : s.ghost.lifeKey f.entry f.life = r.key := htold.key
  exact ⟨r, f, rest, w, hr, hreads, hcount, hcount ▸ htold.pos, hlife, hcount ▸ hw, hkey.trans hlife,
    hdata, hlen, hstamp⟩

/-- Thread 0 declares a key and writes under it, and thread 2 reads. -/
def crewReads : List (Action (Fin 4) Call) :=
  crewDeclares ++ .call 0 (.write [1, 2]) :: List.replicate 10 (.run 0 9) ++
    .call 2 (.observe [107]) :: .call 2 (.read 16) :: List.replicate 26 (.run 2 0)

theorem reads_right_crew : ∃ s : Shared (Fin 4) Loc Actor (Trace (Fin 4)),
    (s.th 2).result = .read ⟨none, 2, 9, 1⟩ [1, 2] ∧
      ∃ f rest w, s.ghost.reads 2 = f :: rest ∧ (s.ghost.log f.entry f.life)[0]? = some w ∧
        w.data = [1, 2] := by
  have h0 : Steady small crewProc crew := .init init_crew
  obtain ⟨s, hs, hP⟩ := LTS.Reach.play_any h0 crewReads
    (fun s : Shared (Fin 4) Loc Actor (Trace (Fin 4)) => match (s.th 2).result with
      | .read o data => decide (o = ⟨none, 2, 9, 1⟩ ∧ data = [1, 2])
      | _ => false)
    (by decide +kernel)
  have hres : (s.th 2).result = .read ⟨none, 2, 9, 1⟩ [1, 2] := by
    cases hr : (s.th 2).result <;> rw [hr] at hP <;> simp only [Bool.false_eq_true] at hP
    obtain ⟨rfl, rfl⟩ := of_decide_eq_true hP
    rfl
  obtain ⟨r, f, rest, w, -, hreads, -, -, -, hw, -, hdata, -⟩ := (reads_right hs).value 2 _ _ hres rfl
  exact ⟨s, hres, f, rest, w, hreads, hw, hdata.symm⟩

end System

end Kickmsg.Blackboard
