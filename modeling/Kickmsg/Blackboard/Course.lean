import Kickmsg.Blackboard.Lock

/-!
# What one step can do

`Course` lists what a step means for the section under the lock and for the `Writer` of its actor;
`edit_entry` and `settle` what it leaves of the entry that it changes.
-/

namespace Kickmsg.Blackboard

open Lib

/-! ## What an access does to the section and to the `Writer` -/

/-- The outcome of a running call does not concern the `Writer`. -/
def Pc.plain : Pc → Bool
  | .notifySeq _ (.gain _) | .notifyWaiters _ (.gain _) | .notifyWake _ (.gain _)
  | .unlock (.gain _) => false
  | .notifySeq _ (.drop _) | .notifyWaiters _ (.drop _) | .notifyWake _ (.drop _)
  | .unlock (.drop _) => false
  | _ => true

theorem Actor.claim_of_plain {a : Actor} (h : a.pc.plain = true) : a.claim = a.writer := by
  unfold Actor.claim
  split <;> simp_all [Pc.plain]

/-- The actor has gone on under the lock. -/
def Actor.Onward (a b : Actor) : Prop := ∃ pc, b = a.goto pc ∧ pc.inside = true ∧ pc.plain = true

/-- The actor is, or stays, outside the section. -/
structure Actor.Aside (a b : Actor) : Prop where
  pid : b.pid = a.pid
  starttime : b.starttime = a.starttime
  writer : b.writer = a.writer ∨ b.writer = none
  inside : b.pc.inside = false
  plain : b.pc.plain = true

section Heads

variable {g : Geometry} {a : Actor} {key : List UInt8} {i n : Nat}

theorem Actor.onward_full : a.Onward a.full := ⟨_, rfl, rfl, rfl⟩

theorem Actor.onward_reclaimAt : a.Onward (a.reclaimAt g key i) := by
  unfold Actor.reclaimAt
  split
  · exact ⟨_, rfl, rfl, rfl⟩
  · exact onward_full

theorem Actor.onward_sweepAt {k : SweepFor} {c : Nat} : a.Onward (a.sweepAt g k c i) := by
  unfold Actor.sweepAt
  split
  · exact ⟨_, rfl, rfl, rfl⟩
  · cases k with
    | ret => dsimp only; split <;> exact ⟨_, rfl, rfl, rfl⟩
    | claim key =>
      dsimp only
      split
      · exact onward_reclaimAt
      · exact onward_full

theorem Actor.onward_claimAt {swept : Bool} : a.Onward (a.claimAt g key swept i) := by
  unfold Actor.claimAt
  split_ifs
  · exact onward_reclaimAt
  · exact ⟨_, rfl, rfl, rfl⟩
  · exact onward_sweepAt

theorem Actor.onward_scanAt : a.Onward (a.scanAt g key i) := by
  unfold Actor.scanAt
  split
  · exact ⟨_, rfl, rfl, rfl⟩
  · exact onward_claimAt

theorem Actor.onward_listAt {rows : List Row} : a.Onward (a.listAt g .snapshot rows i) := by
  unfold Actor.listAt
  split
  · exact ⟨_, rfl, rfl, rfl⟩
  · exact ⟨_, rfl, rfl, rfl⟩

theorem Actor.aside_listAt {l : Listing} {rows : List Row} (hl : l ≠ .snapshot) :
    a.Aside (a.listAt g l rows i) := by
  unfold Actor.listAt
  split
  · exact ⟨rfl, rfl, .inl rfl, by simpa [Pc.inside, goto] using hl, rfl⟩
  · cases l with
    | snapshot => exact absurd rfl hl
    | keys | readAll => exact ⟨rfl, rfl, .inl rfl, rfl, rfl⟩

theorem Actor.onward_enter {j : Job} : a.Onward (a.enter g j) := by
  cases j with
  | declare key => exact onward_scanAt
  | release w => exact ⟨_, rfl, rfl, rfl⟩
  | sweep => exact onward_sweepAt
  | snapshot => exact onward_listAt

theorem Actor.onward_repairAt {j : Job} : a.Onward (a.repairAt g j i) := by
  unfold Actor.repairAt
  split
  · exact ⟨_, rfl, rfl, rfl⟩
  · exact onward_enter

theorem Actor.onward_cleaned {v : Visit} : a.Onward (a.cleaned g v i) := by
  cases v with
  | repair j => exact onward_repairAt
  | sweep k c => exact onward_sweepAt

theorem Actor.onward_inOrder {v : Visit} : a.Onward (a.inOrder g v i) := by
  cases v with
  | repair j => exact onward_repairAt
  | sweep k c => exact ⟨_, rfl, rfl, rfl⟩

theorem Actor.aside_lockFailed {j : Job} : a.Aside (a.lockFailed j) := by
  cases j <;> exact ⟨rfl, rfl, by simp [lockFailed, ret], rfl, rfl⟩

theorem Actor.aside_lockRetry {j : Job} {start c : Nat} : a.Aside (a.lockRetry j start c) := by
  unfold Actor.lockRetry
  split
  · exact ⟨rfl, rfl, .inl rfl, rfl, rfl⟩
  · exact aside_lockFailed

theorem Actor.aside_probeFrom {done todo : List Row} : a.Aside (a.probeFrom done todo) := by
  rcases a.probeFrom_eq done todo with ⟨rows, h⟩ | ⟨d, r, t, h⟩ <;> rw [h] <;>
    exact ⟨rfl, rfl, .inl rfl, rfl, rfl⟩

theorem Actor.aside_seekAt {q : ReadCall} : a.Aside (a.seekAt g q i) := by
  unfold Actor.seekAt
  split <;> exact ⟨rfl, rfl, .inl rfl, rfl, rfl⟩

theorem Actor.aside_resolve {q : ReadCall} : a.Aside (a.resolve g q) := by
  unfold Actor.resolve
  split
  · split
    · exact ⟨rfl, rfl, .inl rfl, rfl, rfl⟩
    · exact aside_seekAt
  · exact aside_seekAt

theorem Actor.aside_readRetry {q : ReadCall} : a.Aside (a.readRetry g q) := by
  unfold Actor.readRetry
  split
  · exact aside_resolve
  · exact ⟨rfl, rfl, .inl rfl, rfl, rfl⟩

theorem Actor.aside_readWords {q : ReadCall} {k : Nat} : a.Aside (a.readWords q k) := by
  unfold Actor.readWords
  split <;> exact ⟨rfl, rfl, .inl rfl, rfl, rfl⟩

theorem Actor.aside_writeWords {w : Writer} {d : List UInt8} {k : Nat} :
    a.Aside (a.writeWords w d k) := by
  unfold Actor.writeWords
  split <;> exact ⟨rfl, rfl, .inl rfl, rfl, rfl⟩

/-- A listing stays under the lock if it is a snapshot, and outside if it is not. -/
def Actor.Lists (a b : Actor) (l : Listing) : Prop :=
  if l = .snapshot then a.Onward b else a.Aside b

theorem Actor.lists_goto {l : Listing} {pc : Pc} (h : pc.inside = decide (l = .snapshot))
    (hp : pc.plain = true) : a.Lists (a.goto pc) l := by
  unfold Actor.Lists
  split
  · exact ⟨pc, rfl, by simp [*], hp⟩
  · exact ⟨rfl, rfl, .inl rfl, by simp [goto, *], hp⟩

theorem Actor.lists_listAt {l : Listing} {rows : List Row} : a.Lists (a.listAt g l rows i) l := by
  unfold Actor.Lists
  split
  · rename_i h
    subst h
    exact onward_listAt
  · exact aside_listAt ‹_›

theorem Actor.lists_listRetry {q : ListCall} : a.Lists (a.listRetry g q) q.listing := by
  unfold Actor.listRetry
  split
  · exact lists_goto rfl rfl
  · exact lists_listAt

theorem Actor.lists_listed {q : ListCall} : a.Lists (a.listed g q) q.listing := by
  unfold Actor.listed
  split
  · exact lists_goto rfl rfl
  · exact lists_listAt

theorem Actor.lists_listWords {q : ListCall} {k : Nat} : a.Lists (a.listWords q k) q.listing := by
  unfold Actor.listWords
  split
  · split <;> exact lists_goto rfl rfl
  · exact lists_goto rfl rfl

end Heads

/-- The access may take the lock. -/
def Pc.locks : Pc → Bool
  | .lockTake _ _ _ | .lockSteal _ _ _ _ => true
  | _ => false

/-- What a step may be, as far as the section and the `Writer` are concerned. -/
inductive Actor.Course (a b : Actor) (r : Answer) : Prop
  /-- it goes on under the lock -/
  | on (hin : a.pc.inside = true) (hun : ∀ o, a.pc ≠ .unlock o) (hp : a.pc.plain = true)
      (h : a.Onward b)
  /-- it stays outside -/
  | off (hin : a.pc.inside = false) (hp : a.pc.plain = true)
      (hok : a.pc.locks = true → r.ok = false) (h : a.Aside b)
  /-- it takes the lock -/
  | enter (hlk : a.pc.locks = true) (hok : r.ok = true) (h : a.Onward b)
  /-- it is about to have a `Writer` -/
  | gain (w : Writer)
      (hpc : (∃ key i ten, a.pc = .takePublish key i ten ∧ w = ⟨i, ten, r.val / 2, a.pid, key⟩) ∨
        ∃ key i, a.pc = .claimTenancy key i ∧ w = ⟨i, r.val, 0, a.pid, key⟩)
      (hb : b = a.goto (.notifySeq true (.gain w)))
  /-- it is about to lose it -/
  | drop (e : Option Errc) (hpc : ∃ w, a.pc = .relState w ∨ a.pc = .relTenancy w ∨ a.pc = .relBump w)
      (hb : b = a.goto (.notifySeq true (.drop e)) ∨ b = a.goto (.unlock (.drop e)))
  /-- it notifies, and unlocks if it has the lock -/
  | relay (locked : Bool) (o : Outcome)
      (hpc : a.pc = .notifySeq locked o ∨ a.pc = .notifyWaiters locked o ∨ a.pc = .notifyWake locked o)
      (hb : b = a.goto (.notifyWaiters locked o) ∨ b = a.goto (.notifyWake locked o) ∨
        locked = true ∧ b = a.goto (.unlock o))
  /-- it returns the outcome -/
  | leave (o : Outcome)
      (hpc : a.pc = .unlock o ∨ a.pc = .notifyWaiters false o ∨ a.pc = .notifyWake false o)
      (hb : b = a.finish o)
  /-- a write completes -/
  | wrote (w : Writer) (d : List UInt8) (now : Nat) (hpc : a.pc = .writeClose w d now)
      (hb : b = { a with writer := some { w with writes := u64 (w.writes + 1) } }.goto
        (.notifySeq false (.keep (.ec none))))

section Course

variable {g : Geometry} {a : Actor} {r : Answer}

theorem Actor.Lists.course {b : Actor} {l : Listing} (h : a.Lists b l)
    (hin : a.pc.inside = decide (l = .snapshot)) (hun : ∀ o, a.pc ≠ .unlock o)
    (hp : a.pc.plain = true) (hlk : a.pc.locks = false) : a.Course b r := by
  unfold Actor.Lists at h
  split at h
  · exact .on (by simp [*]) hun hp h
  · exact .off (by simp [*]) hp (by simp [hlk]) h

theorem Actor.course_notified {locked : Bool} {o : Outcome}
    (hpc : a.pc = .notifyWaiters locked o ∨ a.pc = .notifyWake locked o) :
    a.Course (a.notified locked o) r := by
  cases locked with
  | true => exact .relay true o (.inr hpc) (.inr (.inr ⟨rfl, rfl⟩))
  | false => exact .leave o (.inr hpc) rfl

/-- What a step may be. -/
theorem Actor.course (hreq : a.request ≠ none) : a.Course (a.resume g r) r := by
  by_cases hex : ∃ o, a.pc = .unlock o
  · obtain ⟨o, hpc⟩ := hex
    simp only [Actor.resume, hpc]
    exact .leave o (.inl hpc) rfl
  have hun : ∀ o, a.pc ≠ .unlock o := fun o h => hex ⟨o, h⟩
  have hon : ∀ {b}, a.Onward b → a.pc.inside = true → a.pc.plain = true → a.Course b r :=
    fun h hin hp => .on hin hun hp h
  have hoff : ∀ {b}, a.Aside b → a.pc.inside = false → a.pc.plain = true → a.pc.locks = false →
      a.Course b r := fun h hin hp hlk => .off hin hp (by simp [hlk]) h
  have hlist : ∀ {b} l, a.Lists b l → a.pc.inside = decide (l = .snapshot) → a.pc.plain = true →
      a.pc.locks = false → a.Course b r := fun l h h1 h2 h3 => h.course h1 hun h2 h3
  have hgo : ∀ pc, pc.inside = false → pc.plain = true → a.Aside (a.goto pc) :=
    fun pc h1 h2 => ⟨rfl, rfl, .inl rfl, h1, h2⟩
  have hin : ∀ pc, pc.inside = true → pc.plain = true → a.Onward (a.goto pc) :=
    fun pc h1 h2 => ⟨pc, rfl, h1, h2⟩
  cases hpc : a.pc <;> simp only [Actor.request, hpc, ne_eq, not_true_eq_false] at hreq <;>
    simp only [Actor.resume, hpc] <;> simp only [hpc] at hon hoff hlist
  case lockClock j => exact hoff (hgo _ rfl rfl) rfl rfl rfl
  case lockLoad j start n => split <;> exact hoff (hgo _ rfl rfl) rfl rfl rfl
  case lockTake j start n =>
    split
    · exact .enter (by rw [hpc]; rfl) ‹_› onward_enter
    · rename_i h
      exact .off (by rw [hpc]; rfl) (by rw [hpc]; rfl) (fun _ => by simpa using h) aside_lockRetry
  case lockProbe j start n held =>
    split
    · exact hoff (hgo _ rfl rfl) rfl rfl rfl
    · exact hoff aside_lockRetry rfl rfl rfl
  case lockSteal j start n held =>
    split
    · exact .enter (by rw [hpc]; rfl) ‹_› onward_repairAt
    · rename_i h
      exact .off (by rw [hpc]; rfl) (by rw [hpc]; rfl) (fun _ => by simpa using h) aside_lockRetry
  case lockYield j start n => split <;> exact hoff (hgo _ rfl rfl) rfl rfl rfl
  case lockTime j start n =>
    split
    · exact hoff aside_lockFailed rfl rfl rfl
    · exact hoff (hgo _ rfl rfl) rfl rfl rfl
  case normState v i =>
    split_ifs
    · exact hon (hin _ rfl rfl) rfl rfl
    · exact hon (hin _ rfl rfl) rfl rfl
    · exact hon onward_inOrder rfl rfl
  case normHash v i st =>
    split_ifs
    · exact hon (hin _ rfl rfl) rfl rfl
    · exact hon onward_inOrder rfl rfl
    · exact hon (hin _ rfl rfl) rfl rfl
    · exact hon (hin _ rfl rfl) rfl rfl
  case normPid v i =>
    split
    · exact hon (hin _ rfl rfl) rfl rfl
    · exact hon onward_inOrder rfl rfl
  case wipeHash v i b => exact hon (hin _ rfl rfl) rfl rfl
  case wipePid v i b => exact hon (hin _ rfl rfl) rfl rfl
  case wipeStart v i b =>
    split
    · exact hon (hin _ rfl rfl) rfl rfl
    · exact hon onward_cleaned rfl rfl
  case wipeState v i => exact hon onward_cleaned rfl rfl
  case sweepPid k n i =>
    split
    · exact hon onward_sweepAt rfl rfl
    · exact hon (hin _ rfl rfl) rfl rfl
  case sweepStart k n i pid => exact hon (hin _ rfl rfl) rfl rfl
  case sweepProbe k n i pid start =>
    split
    · exact hon (hin _ rfl rfl) rfl rfl
    · exact hon onward_sweepAt rfl rfl
  case sweepBump k n i => exact hon (hin _ rfl rfl) rfl rfl
  case scanState key i =>
    split
    · exact hon (hin _ rfl rfl) rfl rfl
    · exact hon onward_scanAt rfl rfl
  case scanHash key i =>
    split
    · exact hon (hin _ rfl rfl) rfl rfl
    · exact hon onward_scanAt rfl rfl
  case scanKey key i v w =>
    split_ifs
    · exact hon (hin _ rfl rfl) rfl rfl
    · exact hon (hin _ rfl rfl) rfl rfl
    · exact hon onward_scanAt rfl rfl
  case scanPid key i => exact hon (hin _ rfl rfl) rfl rfl
  case scanStart key i pid => split <;> exact hon (hin _ rfl rfl) rfl rfl
  case scanProbe key i pid start => split <;> exact hon (hin _ rfl rfl) rfl rfl
  case takeStart key i => exact hon (hin _ rfl rfl) rfl rfl
  case takePid key i => exact hon (hin _ rfl rfl) rfl rfl
  case takeBump key i => exact hon (hin _ rfl rfl) rfl rfl
  case takePublish key i tenancy => exact .gain _ (.inl ⟨key, i, tenancy, hpc, rfl⟩) rfl
  case claimState key swept i =>
    split
    · exact hon (hin _ rfl rfl) rfl rfl
    · exact hon onward_claimAt rfl rfl
  case claimMark key i => exact hon (hin _ rfl rfl) rfl rfl
  case claimClear key i => exact hon (hin _ rfl rfl) rfl rfl
  case claimKey key i w => split <;> exact hon (hin _ rfl rfl) rfl rfl
  case claimClock key i => exact hon (hin _ rfl rfl) rfl rfl
  case claimStamp key i now => exact hon (hin _ rfl rfl) rfl rfl
  case claimStart key i => exact hon (hin _ rfl rfl) rfl rfl
  case claimPid key i => exact hon (hin _ rfl rfl) rfl rfl
  case claimHash key i => exact hon (hin _ rfl rfl) rfl rfl
  case claimBump key i => exact hon (hin _ rfl rfl) rfl rfl
  case claimActivate key i => exact hon (hin _ rfl rfl) rfl rfl
  case claimTenancy key i => exact .gain _ (.inr ⟨key, i, hpc, rfl⟩) rfl
  case notifySeq locked o => exact .relay locked o (.inl hpc) (.inl rfl)
  case notifyWaiters locked o =>
    split
    · exact course_notified (.inl hpc)
    · exact .relay locked o (.inr (.inl hpc)) (.inr (.inl rfl))
  case notifyWake locked o => exact course_notified (.inr hpc)
  case unlock o => exact absurd hpc (hun o)
  case writeState w d => split <;> exact hoff ⟨rfl, rfl, .inl rfl, rfl, rfl⟩ rfl rfl rfl
  case writeTenancy w d => split <;> exact hoff ⟨rfl, rfl, .inl rfl, rfl, rfl⟩ rfl rfl rfl
  case writeOpen w d => exact hoff aside_writeWords rfl rfl rfl
  case writeWord w d k => exact hoff aside_writeWords rfl rfl rfl
  case writeLen w d => exact hoff (hgo _ rfl rfl) rfl rfl rfl
  case writeClock w d => exact hoff (hgo _ rfl rfl) rfl rfl rfl
  case writeStamp w d now => exact hoff (hgo _ rfl rfl) rfl rfl rfl
  case writeClose w d now => exact .wrote w d now hpc rfl
  case relState w =>
    split
    · exact hon (hin _ rfl rfl) rfl rfl
    · exact .drop _ ⟨w, .inl hpc⟩ (.inr rfl)
  case relTenancy w =>
    split
    · exact hon (hin _ rfl rfl) rfl rfl
    · exact .drop _ ⟨w, .inr (.inl hpc)⟩ (.inr rfl)
  case relPid w => exact hon (hin _ rfl rfl) rfl rfl
  case relStart w => exact hon (hin _ rfl rfl) rfl rfl
  case relBump w => exact .drop _ ⟨w, .inr (.inr hpc)⟩ (.inl rfl)
  case resState q =>
    split
    · exact hoff (hgo _ rfl rfl) rfl rfl rfl
    · exact hoff aside_seekAt rfl rfl rfl
  case resTenancy q =>
    split
    · exact hoff (hgo _ rfl rfl) rfl rfl rfl
    · exact hoff aside_seekAt rfl rfl rfl
  case seekState q =>
    split
    · exact hoff (hgo _ rfl rfl) rfl rfl rfl
    · exact hoff aside_seekAt rfl rfl rfl
  case seekHash q =>
    split
    · exact hoff (hgo _ rfl rfl) rfl rfl rfl
    · exact hoff aside_seekAt rfl rfl rfl
  case seekTenancy q => exact hoff (hgo _ rfl rfl) rfl rfl rfl
  case seekKey q w =>
    split_ifs
    · exact hoff (hgo _ rfl rfl) rfl rfl rfl
    · exact hoff ⟨rfl, rfl, .inl rfl, rfl, rfl⟩ rfl rfl rfl
    · exact hoff aside_seekAt rfl rfl rfl
  case readTenancy q =>
    split
    · exact hoff (hgo _ rfl rfl) rfl rfl rfl
    · exact hoff aside_readRetry rfl rfl rfl
  case readPublish q =>
    split
    · exact hoff ⟨rfl, rfl, .inl rfl, rfl, rfl⟩ rfl rfl rfl
    · exact hoff (hgo _ rfl rfl) rfl rfl rfl
  case readLen q => exact hoff aside_readWords rfl rfl rfl
  case readWord q k => exact hoff aside_readWords rfl rfl rfl
  case readStamp q => exact hoff (hgo _ rfl rfl) rfl rfl rfl
  case readPublishAfter q => exact hoff (hgo _ rfl rfl) rfl rfl rfl
  case readTenancyAfter q =>
    split
    · exact hoff ⟨rfl, rfl, .inl rfl, rfl, rfl⟩ rfl rfl rfl
    · exact hoff aside_readRetry rfl rfl rfl
  case entState q =>
    split
    · exact hlist q.listing (lists_goto rfl rfl) rfl rfl rfl
    · exact hlist q.listing lists_listAt rfl rfl rfl
  case entTenancy q => exact hlist q.listing (lists_goto rfl rfl) rfl rfl rfl
  case entKey q w => split <;> exact hlist q.listing (lists_goto rfl rfl) rfl rfl rfl
  case entPublish q => split <;> exact hlist q.listing (lists_goto rfl rfl) rfl rfl rfl
  case entLen q => exact hlist q.listing (lists_goto rfl rfl) rfl rfl rfl
  case entStamp q => exact hlist q.listing lists_listWords rfl rfl rfl
  case entWord q k => exact hlist q.listing lists_listWords rfl rfl rfl
  case entPublishAfter q => exact hlist q.listing (lists_goto rfl rfl) rfl rfl rfl
  case entTenancyAfter q => exact hlist q.listing (lists_goto rfl rfl) rfl rfl rfl
  case entStateAfter q =>
    split
    · exact hlist q.listing lists_listed rfl rfl rfl
    · exact hlist q.listing lists_listRetry rfl rfl rfl
  case rowPid q => exact hlist q.listing (lists_goto rfl rfl) rfl rfl rfl
  case rowStart q pid => exact hlist q.listing lists_listAt rfl rfl rfl
  case rowProbe done row todo => exact hoff aside_probeFrom rfl rfl rfl

theorem Actor.aside_finish {o : Outcome} :
    (a.finish o).pid = a.pid ∧ (a.finish o).starttime = a.starttime ∧ (a.finish o).pc.inside = false ∧
      (a.finish o).pc.plain = true := by
  cases o with
  | probe rows =>
    have h : a.Aside (a.probeFrom [] rows) := a.aside_probeFrom
    exact ⟨h.pid, h.starttime, h.inside, h.plain⟩
  | keep | gain | drop => exact ⟨rfl, rfl, rfl, rfl⟩

variable {b : Actor}

theorem Actor.Course.ident (h : a.Course b r) : b.pid = a.pid ∧ b.starttime = a.starttime := by
  cases h with
  | on _ _ _ h | enter _ _ h =>
    obtain ⟨pc, rfl, -, -⟩ := h
    exact ⟨rfl, rfl⟩
  | off _ _ _ h => exact ⟨h.pid, h.starttime⟩
  | gain w _ hb => exact hb ▸ ⟨rfl, rfl⟩
  | drop e _ hb => rcases hb with rfl | rfl <;> exact ⟨rfl, rfl⟩
  | relay l o _ hb => rcases hb with rfl | rfl | ⟨-, rfl⟩ <;> exact ⟨rfl, rfl⟩
  | leave o _ hb => exact hb ▸ ⟨aside_finish.1, aside_finish.2.1⟩
  | wrote w d now _ hb => exact hb ▸ ⟨rfl, rfl⟩

/-- Who is in the section was in it, or has just taken the lock. -/
theorem Actor.Course.from_inside (h : a.Course b r) (hb : b.pc.inside = true) :
    (a.pc.inside = true ∧ ∀ o, a.pc ≠ .unlock o) ∨ (a.pc.locks = true ∧ r.ok = true) := by
  cases h with
  | on hin hun _ _ => exact .inl ⟨hin, hun⟩
  | off _ _ _ h => simp [h.inside] at hb
  | enter hlk hok _ => exact .inr ⟨hlk, hok⟩
  | gain w hpc _ =>
    rcases hpc with ⟨key, i, ten, hpc, -⟩ | ⟨key, i, hpc, -⟩ <;> exact .inl (by simp [hpc, Pc.inside])
  | drop e hpc _ =>
    obtain ⟨w, hpc | hpc | hpc⟩ := hpc <;> exact .inl (by simp [hpc, Pc.inside])
  | relay l o hpc hb' =>
    obtain rfl : l = true := by
      rcases hb' with rfl | rfl | ⟨h, -⟩
      · exact hb
      · exact hb
      · exact h
    rcases hpc with hpc | hpc | hpc <;> exact .inl (by simp [hpc, Pc.inside])
  | leave o _ hb' => simp [hb', aside_finish.2.2.1] at hb
  | wrote w d now _ hb' =>
    subst hb'
    cases hb

/-- Who is in the section stays there until it unlocks. -/
theorem Actor.Course.inside (h : a.Course b r) (ha : a.pc.inside = true) (hun : ∀ o, a.pc ≠ .unlock o) :
    b.pc.inside = true := by
  cases h with
  | on _ _ _ h | enter _ _ h =>
    obtain ⟨pc, rfl, h, -⟩ := h
    exact h
  | off hin _ _ _ => simp [hin] at ha
  | gain w _ hb => exact hb ▸ rfl
  | drop e _ hb => rcases hb with rfl | rfl <;> rfl
  | relay l o hpc hb =>
    obtain rfl : l = true := by
      rcases hpc with hpc | hpc | hpc <;> simpa [hpc, Pc.inside] using ha
    rcases hb with rfl | rfl | ⟨-, rfl⟩ <;> rfl
  | leave o hpc _ =>
    rcases hpc with hpc | hpc | hpc
    · exact absurd hpc (hun o)
    all_goals simp [hpc, Pc.inside] at ha
  | wrote w d now hpc _ => simp [hpc, Pc.inside] at ha

theorem Actor.Course.outside (h : a.Course b r) (hun : ∃ o, a.pc = .unlock o) :
    b.pc.inside = false := by
  obtain ⟨o, hpc⟩ := hun
  cases hb : b.pc.inside with
  | false => rfl
  | true =>
    rcases h.from_inside hb with ⟨-, h⟩ | ⟨h, -⟩
    · exact absurd hpc (h o)
    · simp [hpc, Pc.locks] at h

/-- Two handles of one claim; the count of writes may differ. -/
structure Writer.Same (w w' : Writer) : Prop where
  entryIdx : w'.entryIdx = w.entryIdx
  tenancy : w'.tenancy = w.tenancy
  key : w'.key = w.key

theorem Writer.Same.refl (w : Writer) : w.Same w := ⟨rfl, rfl, rfl⟩

theorem Pc.inside_of_disowning {pc : Pc} (h : pc.disowning = true) : pc.inside = true := by
  cases pc <;> simp_all [Pc.disowning, Pc.inside]

theorem Pc.inside_of_unsettled {pc : Pc} {i : Nat} (h : pc.unsettled i = true) : pc.inside = true := by
  unfold Pc.unsettled at h
  split at h <;> first | rfl | cases h

theorem Pc.plain_of_locks {pc : Pc} (h : pc.locks = true) : pc.plain = true := by
  cases pc <;> simp_all [Pc.locks, Pc.plain]

/-- A `Writer` is one that was there, with one write more if one has just completed, or the `declare` that
ends makes it. -/
theorem Actor.Course.counts (h : a.Course b r) {w' : Writer} (hb : b.claim = some w')
    (hw : ∀ w d now, a.pc = .writeClose w d now → a.writer = some w) :
    (∃ w, a.claim = some w ∧
      (w' = w ∨ ∃ d now, a.pc = .writeClose w d now ∧ w' = { w with writes := u64 (w.writes + 1) })) ∨
      (∃ key i ten, a.pc = .takePublish key i ten ∧ w' = ⟨i, ten, r.val / 2, a.pid, key⟩) ∨
      ∃ key i, a.pc = .claimTenancy key i ∧ w' = ⟨i, r.val, 0, a.pid, key⟩ := by
  cases h with
  | on _ _ hp h =>
    obtain ⟨pc, rfl, -, hp'⟩ := h
    rw [claim_of_plain hp'] at hb
    exact .inl ⟨w', by rw [claim_of_plain hp]; exact hb, .inl rfl⟩
  | enter hlk _ h =>
    obtain ⟨pc, rfl, -, hp'⟩ := h
    rw [claim_of_plain hp'] at hb
    exact .inl ⟨w', by rw [claim_of_plain (Pc.plain_of_locks hlk)]; exact hb, .inl rfl⟩
  | off _ hp _ h =>
    rw [claim_of_plain h.plain] at hb
    rcases h.writer with hwr | hwr <;> rw [hwr] at hb
    · exact .inl ⟨w', by rw [claim_of_plain hp]; exact hb, .inl rfl⟩
    · simp at hb
  | gain w hpc hb' =>
    subst hb'
    obtain rfl : w = w' := Option.some.inj hb
    exact .inr hpc
  | drop e _ hb' => rcases hb' with rfl | rfl <;> simp [Actor.claim, goto] at hb
  | relay l o hpc hb' =>
    refine .inl ⟨w', ?_, .inl rfl⟩
    rw [← hb]
    cases o <;> rcases hpc with hpc | hpc | hpc <;> rcases hb' with rfl | rfl | ⟨-, rfl⟩ <;>
      simp [Actor.claim, hpc, goto]
  | leave o hpc hb' =>
    refine .inl ⟨w', ?_, .inl rfl⟩
    rw [hb', claim_of_plain aside_finish.2.2.2] at hb
    rw [← hb]
    cases o with
    | probe rows =>
      have hpf : (a.probeFrom [] rows).writer = a.writer := by
        rcases a.probeFrom_eq [] rows with ⟨x, hx⟩ | ⟨d, y, t, hx⟩ <;> rw [hx] <;> rfl
      rcases hpc with hpc | hpc | hpc <;> simp [Actor.claim, hpc, finish, hpf]
    | keep x => rcases hpc with hpc | hpc | hpc <;> simp [Actor.claim, hpc, finish, ret]
    | gain w => rcases hpc with hpc | hpc | hpc <;> simp [Actor.claim, hpc, finish, ret]
    | drop e => simp [finish, ret] at hb
  | wrote w d now hpc hb' =>
    subst hb'
    obtain rfl := Option.some.inj hb
    exact .inl ⟨w, by rw [claim_of_plain (by rw [hpc]; rfl)]; exact hw w d now hpc, .inr ⟨d, now, hpc, rfl⟩⟩

/-- A `Writer` after a step was there before, or has just been made. -/
theorem Actor.Course.claim (h : a.Course b r) {w' : Writer} (hb : b.claim = some w')
    (hw : ∀ w d now, a.pc = .writeClose w d now → a.writer = some w) :
    (∃ w, a.claim = some w ∧ w.Same w') ∨
      (∃ key i ten, a.pc = .takePublish key i ten ∧ w' = ⟨i, ten, r.val / 2, a.pid, key⟩) ∨
      ∃ key i, a.pc = .claimTenancy key i ∧ w' = ⟨i, r.val, 0, a.pid, key⟩ := by
  refine (h.counts hb hw).imp ?_ id
  rintro ⟨w, hc, rfl | ⟨d, now, -, rfl⟩⟩
  · exact ⟨w', hc, .refl _⟩
  · exact ⟨w, hc, rfl, rfl, rfl⟩

end Course

/-- A call begins outside the section, and what it needs to know it knows. -/
theorem Actor.call_spec {g : Geometry} {a b : Actor} {c : Call} (h : a.call g c = some b) :
    a.pc = .idle ∧ a.Aside b ∧ ∀ n m vac, b.Work n m vac := by
  unfold Actor.call at h
  cases hpc : a.pc <;> rw [hpc] at h <;> simp only [reduceCtorEq] at h
  refine ⟨rfl, ?_⟩
  cases c with
  | declare key =>
    dsimp only at h
    split at h
    · cases h
    · obtain rfl := Option.some.inj h
      exact ⟨⟨rfl, rfl, .inl rfl, rfl, rfl⟩, fun _ _ _ => trivial⟩
    · rename_i hw hk
      obtain rfl := Option.some.inj h
      exact ⟨⟨rfl, rfl, .inl rfl, rfl, rfl⟩, fun _ _ _ => ⟨.of_check hk, hw⟩⟩
  | write d =>
    dsimp only at h
    split at h
    · obtain rfl := Option.some.inj h
      exact ⟨⟨rfl, rfl, .inl rfl, rfl, rfl⟩, fun _ _ _ => trivial⟩
    · rename_i w hw
      split_ifs at h <;> obtain rfl := Option.some.inj h
      all_goals first
        | exact ⟨⟨rfl, rfl, .inl rfl, rfl, rfl⟩, fun _ _ _ => trivial⟩
        | exact ⟨⟨rfl, rfl, .inl rfl, rfl, rfl⟩, fun _ _ _ => hw⟩
  | release =>
    dsimp only at h
    split at h
    · obtain rfl := Option.some.inj h
      exact ⟨⟨rfl, rfl, .inl rfl, rfl, rfl⟩, fun _ _ _ => trivial⟩
    · rename_i w hw
      split_ifs at h <;> obtain rfl := Option.some.inj h
      · exact ⟨⟨rfl, rfl, .inr rfl, rfl, rfl⟩, fun _ _ _ => trivial⟩
      · exact ⟨⟨rfl, rfl, .inr rfl, rfl, rfl⟩, fun _ _ _ => trivial⟩
      · exact ⟨⟨rfl, rfl, .inl rfl, rfl, rfl⟩, fun _ _ _ => hw⟩
  | sweepStale =>
    obtain rfl := Option.some.inj h
    exact ⟨⟨rfl, rfl, .inl rfl, rfl, rfl⟩, fun _ _ _ => trivial⟩
  | observe key =>
    dsimp only at h
    split at h <;> obtain rfl := Option.some.inj h <;>
      exact ⟨⟨rfl, rfl, .inl rfl, rfl, rfl⟩, fun _ _ _ => trivial⟩
  | read size =>
    dsimp only at h
    split at h <;> obtain rfl := Option.some.inj h
    · exact ⟨⟨rfl, rfl, .inl rfl, rfl, rfl⟩, fun _ _ _ => trivial⟩
    · refine ⟨?_, fun _ _ _ => work_resolve⟩
      have ha := aside_resolve (g := g) (a := { a with result := .pending, pc := .idle })
        (q := ⟨‹_›, size, 0, 0, .empty⟩)
      exact ⟨ha.pid, ha.starttime, ha.writer, ha.inside, ha.plain⟩
  | list l =>
    cases l with
    | snapshot =>
      obtain rfl := Option.some.inj h
      exact ⟨⟨rfl, rfl, .inl rfl, rfl, rfl⟩, fun _ _ _ => trivial⟩
    | keys pre =>
      obtain rfl := Option.some.inj h
      have ha : Actor.Aside { a with result := .pending, pc := .idle }
          (Actor.listAt g { a with result := .pending, pc := .idle } (.keys pre) [] 0) :=
        aside_listAt (by simp)
      exact ⟨⟨ha.pid, ha.starttime, ha.writer, ha.inside, ha.plain⟩, fun _ _ _ => work_listAt⟩
    | readAll pre =>
      obtain rfl := Option.some.inj h
      have ha : Actor.Aside { a with result := .pending, pc := .idle }
          (Actor.listAt g { a with result := .pending, pc := .idle } (.readAll pre) [] 0) :=
        aside_listAt (by simp)
      exact ⟨⟨ha.pid, ha.starttime, ha.writer, ha.inside, ha.plain⟩, fun _ _ _ => work_listAt⟩

/-! ## What an edit leaves of an entry -/

theorem Keyed.congr {m m' : Loc → Nat} {i : Nat} {key : List UInt8} (h : Keyed m i key)
    (hm : ∀ f, f ≠ .publish → m' (.entry i f) = m (.entry i f)) : Keyed m' i key :=
  ⟨(hm .state (by simp)).trans h.state, (hm .keyHash (by simp)).trans h.hash,
    fun w hw => (hm (.key w) (by simp)).trans (h.words w hw)⟩

section Edit

variable {g : Geometry} {a : Actor} {m : Loc → Nat} {vac : Nat → Prop} {procs : Nat → Option Nat}
  {key : List UInt8} {i now n : Nat}

theorem EntryOk.of_claiming (h : m (.entry i .state) = claiming) : EntryOk m i where
  states := .inr (.inl h)
  free hf := by rw [h] at hf; simp [claiming, Blackboard.free] at hf
  keyed ha := by rw [h] at ha; simp [claiming, active] at ha

theorem EntryOk.of_keyed (hv : ValidKey key) (h : Keyed m i key) : EntryOk m i where
  states := .inr (.inr h.state)
  free hf := by rw [h.state] at hf; simp [active, Blackboard.free] at hf
  keyed _ _ := ⟨key, hv, h⟩

/-- A store in an entry that stays claimed. -/
theorem EntryOk.fill {f : Field} {x : Nat} (h : m (.entry i .state) = claiming) (hf : f ≠ .state) :
    EntryOk (Function.update m (.entry i f) x) i :=
  .of_claiming (by rw [Function.update_of_ne (by simpa using hf.symm)]; exact h)

/-- The entry that an edit leaves is in one of its forms, and carries no key that it did not carry,
unless nobody carried that one. -/
theorem Actor.edit_entry {x : Access Loc Query} (hw : a.Work n m vac) (hreq : a.request = some x)
    (hi : a.pc.edits = some i) (hentry : EntryOk m i)
    (hrel : ∀ w, (a.pc = .relPid w ∨ a.pc = .relStart w ∨ a.pc = .relBump w) →
      ValidKey w.key ∧ Keyed m w.entryIdx w.key) :
    EntryOk (x.exec verdict procs m now).1 i ∧
      ∀ key, Keyed (x.exec verdict procs m now).1 i key → Keyed m i key ∨ Absent n m key := by
  have hkeyed : ∀ {key : List UInt8} {l : Loc} {y : Nat}, ValidKey key → Keyed m i key →
      (∀ j, l ≠ .entry j .state ∧ l ≠ .entry j .keyHash ∧ ∀ w, l ≠ .entry j (.key w)) →
      EntryOk (Function.update m l y) i ∧
        ∀ k, Keyed (Function.update m l y) i k → Keyed m i k ∨ Absent n m k :=
    fun hv hk hl => ⟨.of_keyed hv (hk.update hl), fun k h => .inl (h.of_update hl)⟩
  have hclaim : ∀ {f : Field} {y : Nat}, m (.entry i .state) = claiming → f ≠ .state →
      EntryOk (Function.update m (.entry i f) y) i ∧
        ∀ k, Keyed (Function.update m (.entry i f) y) i k → Keyed m i k ∨ Absent n m k := by
    refine fun hst hf => ⟨.fill hst hf, fun k h => ?_⟩
    have := h.state
    rw [Function.update_of_ne (by simpa using hf.symm), hst] at this
    simp [claiming, active] at this
  have hzero : ∀ {f : Field}, f ≠ .state → f ≠ .keyHash → (∀ w, f ≠ .key w) → m (.entry i .keyHash) = 0 →
      EntryOk (Function.update m (.entry i f) 0) i ∧
        ∀ k, Keyed (Function.update m (.entry i f) 0) i k → Keyed m i k ∨ Absent n m k := by
    intro f h1 h2 h3 hh
    refine ⟨⟨?_, fun hf => ?_, fun _ hne => ?_⟩, fun k h => ?_⟩
    · rw [Function.update_of_ne (by simpa using h1.symm)]
      exact hentry.states
    · rw [Function.update_of_ne (by simpa using h1.symm)] at hf
      rw [Function.update_of_ne (by simpa using h2.symm)]
      refine ⟨hh, ?_⟩
      by_cases he : f = .ownerPid
      · simp [he]
      · rw [Function.update_of_ne (by simpa using Ne.symm he)]
        exact (hentry.free hf).2
    · rw [Function.update_of_ne (by simpa using h2.symm)] at hne
      exact absurd hh hne
    · have := h.hash
      rw [Function.update_of_ne (by simpa using h2.symm), hh] at this
      exact absurd this.symm (keyFingerprint_ne k)
  cases hpc : a.pc <;> rw [hpc] at hi <;> simp only [Pc.edits, Option.some.injEq, reduceCtorEq] at hi <;>
    simp only [Actor.request, hpc, Option.some.injEq] at hreq <;> subst hreq <;> subst hi <;>
    simp only [Actor.Work, hpc] at hw <;> simp only [Access.exec]
  case wipeHash v i b =>
    refine ⟨⟨by simpa using hentry.states, fun hf => ?_, by simp⟩, fun k h => ?_⟩
    · simpa using (hentry.free (by simpa using hf)).2
    · have := h.hash
      simp only [Function.update_self] at this
      exact absurd this.symm (keyFingerprint_ne k)
  case wipePid v i b => exact hzero (by simp) (by simp) (by simp) hw.2.2.2.2
  case wipeStart v i b => exact hzero (by simp) (by simp) (by simp) hw.2.2.2.2.1
  case wipeState v i =>
    obtain ⟨-, -, -, hh, hp⟩ := hw
    refine ⟨⟨by simp [free], by simp [hh, hp], by simp [active, free]⟩, fun k h => ?_⟩
    have := h.state
    simp [active, free] at this
  case sweepBump k c i =>
    refine ⟨⟨by simpa using hentry.states, by simpa using hentry.free, fun ha hh => ?_⟩,
      fun k h => .inl (h.of_update (by simp))⟩
    obtain ⟨key, hv, hk⟩ := hentry.keyed (by simpa using ha) (by simpa using hh)
    exact ⟨key, hv, hk.update (by simp)⟩
  case takeStart key i => exact hkeyed hw.1.1 hw.2.2.1 (by simp)
  case takePid key i => exact hkeyed hw.1.1 hw.2.2.1 (by simp)
  case takeBump key i => exact hkeyed hw.1.1 hw.2.2.1 (by simp)
  case claimMark key i =>
    refine ⟨.of_claiming (by simp), fun k h => ?_⟩
    have := h.state
    simp [claiming, active] at this
  case claimKey key i w => exact hclaim hw.2.2.2.2.1 (by simp)
  case claimStamp key i t => exact hclaim hw.2.2.2.2.1 (by simp)
  case claimStart key i => exact hclaim hw.2.2.2.2.1 (by simp)
  case claimPid key i => exact hclaim hw.2.2.2.2.1.1 (by simp)
  case claimHash key i => exact hclaim hw.2.2.2.2.1.1 (by simp)
  case claimBump key i => exact hclaim hw.2.2.2.2.1.1 (by simp)
  case claimActivate key i =>
    obtain ⟨hd, hi, habs, -, hs, -, hh⟩ := hw
    have hk : Keyed (Function.update m (.entry i .state) active) i key :=
      ⟨by simp, by simpa using hh, fun w hw => by simpa using hs.2 w hw⟩
    refine ⟨.of_keyed hd.1 hk, fun k h => .inr fun j hj hjk => habs j hj ⟨hjk.state, ?_, fun w hw => ?_⟩⟩
    · rw [hjk.hash, ← h.hash, hk.hash]
    · rw [hjk.words w hw, ← h.words w hw, hk.words w hw]
  case relPid w => exact hkeyed (hrel w (.inl hpc)).1 (hrel w (.inl hpc)).2 (by simp)
  case relStart w => exact hkeyed (hrel w (.inr (.inl hpc))).1 (hrel w (.inr (.inl hpc))).2 (by simp)
  case relBump w => exact hkeyed (hrel w (.inr (.inr hpc))).1 (hrel w (.inr (.inr hpc))).2 (by simp)

/-- An entry that is settled, or in the hands of an actor under the lock, stays so. -/
theorem Actor.settle {x : Access Loc Query} (hw : a.Work g.capacity m vac) (hreq : a.request = some x)
    (hin : a.pc.inside = true) (hi : i < g.capacity) (hentry : EntryOk m i)
    (h : Settled m i ∨ a.pc.unsettled i = true)
    (hrel : ∀ w, (a.pc = .relPid w ∨ a.pc = .relStart w ∨ a.pc = .relBump w) →
      m (.entry w.entryIdx .state) = active ∧ m (.entry w.entryIdx .keyHash) ≠ 0) :
    Settled (x.exec verdict procs m now).1 i ∨
      (a.resume g (x.exec verdict procs m now).2).pc.unsettled i = true := by
  have hrepair : ∀ (j : Job) (k : Nat), k ≤ i → k ≠ i → (a.repairAt g j (k + 1)).pc.unsettled i = true := by
    intro j k hk hne
    rw [Actor.repairAt, if_pos (show k + 1 < g.capacity by omega)]
    exact decide_eq_true (by omega)
  have hedit : ∀ {j : Nat} {f : Field} {y : Nat}, j ≠ i → (Settled m i) →
      Settled (Function.update m (.entry j f) y) i := by
    intro j f y hne h
    have hu : ∀ f', Function.update m (.entry j f) y (.entry i f') = m (.entry i f') :=
      fun f' => Function.update_of_ne (by simp [Ne.symm hne]) ..
    simpa only [Settled, hu] using h
  have hset : ∀ {k : Nat}, k ≠ i → Settled m i ∨ decide (k = i) = true → Settled m i :=
    fun hne h => h.resolve_right (by simpa using hne)
  have hkeyed : ∀ {m' : Loc → Nat} {k : List UInt8}, Keyed m' i k → Settled m' i :=
    fun h => .inr ⟨h.state, by rw [h.hash]; exact keyFingerprint_ne _⟩
  cases hpc : a.pc <;> rw [hpc] at hin h <;> simp only [Pc.inside, Bool.false_eq_true] at hin <;>
    simp only [Actor.request, hpc, Option.some.injEq] at hreq <;> subst hreq <;>
    simp only [Actor.Work, hpc] at hw <;> simp only [Pc.unsettled, Bool.false_eq_true, or_false] at h <;>
    simp only [Access.exec] <;> simp only [Actor.resume, hpc] <;> try exact .inl h
  case normState v k =>
    cases v with
    | sweep c n => exact .inl (h.resolve_right Bool.false_ne_true)
    | repair j =>
      rcases h with h | h
      · exact .inl h
      have hk : k ≤ i := of_decide_eq_true h
      split_ifs with h1 h2
      · exact .inr h
      · exact .inr h
      · refine .inr (hrepair j k hk ?_)
        rintro rfl
        rcases hentry.states with hs | hs | hs
        · exact h2 (.inr hs)
        · exact h1 hs
        · exact h2 (.inl hs)
  case normHash v k st =>
    obtain ⟨-, -, rfl, hst⟩ := hw
    cases v with
    | sweep c n => exact .inl (h.resolve_right Bool.false_ne_true)
    | repair j =>
      rcases h with h | h
      · exact .inl h
      have hk : k ≤ i := of_decide_eq_true h
      split_ifs with h1 h2 h3
      · exact .inr h
      · by_cases hki : k = i
        · exact .inl (.inr ⟨hki ▸ h1, hki ▸ h2⟩)
        · exact .inr (hrepair j k hk hki)
      · exact .inr h
      · exact .inr h
  case normPid v k =>
    obtain ⟨-, -, hst, hh⟩ := hw
    cases v with
    | sweep c n => exact .inl (h.resolve_right Bool.false_ne_true)
    | repair j =>
      rcases h with h | h
      · exact .inl h
      have hk : k ≤ i := of_decide_eq_true h
      split_ifs with h1
      · exact .inr h
      · by_cases hki : k = i
        · subst hki
          exact .inl (.inl ⟨hst, hh, by simpa using h1⟩)
        · exact .inr (hrepair j k hk hki)
  case wipeHash v k b =>
    by_cases hki : k = i
    · subst hki
      cases v <;> exact .inr (by simp [goto, Pc.unsettled])
    · cases v with
      | sweep c n => exact .inl (hedit hki (hset hki h))
      | repair j =>
        rcases h with h | h
        · exact .inl (hedit hki h)
        · exact .inr h
  case wipePid v k b =>
    by_cases hki : k = i
    · subst hki
      cases v <;> exact .inr (by simp [goto, Pc.unsettled])
    · cases v with
      | sweep c n => exact .inl (hedit hki (hset hki h))
      | repair j =>
        rcases h with h | h
        · exact .inl (hedit hki h)
        · exact .inr h
  case wipeStart v k b =>
    obtain ⟨-, -, -, hst, hh, hp⟩ := hw
    by_cases hki : k = i
    · subst hki
      cases b with
      | true => cases v <;> exact .inr (by simp [goto, Pc.unsettled])
      | false => exact .inl (.inl ⟨by simpa using hst rfl, by simpa using hh, by simpa using hp⟩)
    · cases v with
      | sweep c n => exact .inl (hedit hki (hset hki h))
      | repair j =>
        rcases h with h | h
        · exact .inl (hedit hki h)
        · cases b with
          | true => exact .inr h
          | false => exact .inr (hrepair j k (of_decide_eq_true h) hki)
  case wipeState v k =>
    obtain ⟨-, -, -, hh, hp⟩ := hw
    by_cases hki : k = i
    · subst hki
      exact .inl (.inl ⟨by simp, by simpa using hh, by simpa using hp⟩)
    · cases v with
      | sweep c n => exact .inl (hedit hki (hset hki h))
      | repair j =>
        rcases h with h | h
        · exact .inl (hedit hki h)
        · exact .inr (hrepair j k (of_decide_eq_true h) hki)
  case sweepBump c n k => exact .inl (by simpa [Settled] using h)
  case takeStart key k =>
    by_cases hki : k = i
    · subst hki
      exact .inl (hkeyed (hw.2.2.1.update (by simp)))
    · exact .inl (hedit hki h)
  case takePid key k =>
    by_cases hki : k = i
    · subst hki
      exact .inl (hkeyed (hw.2.2.1.update (by simp)))
    · exact .inl (hedit hki h)
  case takeBump key k =>
    by_cases hki : k = i
    · subst hki
      exact .inl (hkeyed (hw.2.2.1.update (by simp)))
    · exact .inl (hedit hki h)
  case claimMark key k =>
    by_cases hki : k = i
    · exact .inr (by simp [goto, Pc.unsettled, hki])
    · exact .inl (hedit hki (h))
  case claimClear key k =>
    by_cases hki : k = i
    · exact .inr (by simp [goto, Pc.unsettled, hki])
    · exact .inl (hedit hki (hset hki h))
  case claimKey key k w =>
    by_cases hki : k = i
    · exact .inr (by split <;> simp [goto, Pc.unsettled, hki])
    · exact .inl (hedit hki (hset hki h))
  case claimClock key k => exact h
  case claimStamp key k t =>
    by_cases hki : k = i
    · exact .inr (by simp [goto, Pc.unsettled, hki])
    · exact .inl (hedit hki (hset hki h))
  case claimStart key k =>
    by_cases hki : k = i
    · exact .inr (by simp [goto, Pc.unsettled, hki])
    · exact .inl (hedit hki (hset hki h))
  case claimPid key k =>
    by_cases hki : k = i
    · exact .inr (by simp [goto, Pc.unsettled, hki])
    · exact .inl (hedit hki (hset hki h))
  case claimHash key k =>
    by_cases hki : k = i
    · exact .inr (by simp [goto, Pc.unsettled, hki])
    · exact .inl (hedit hki (hset hki h))
  case claimBump key k =>
    by_cases hki : k = i
    · exact .inr (by simp [goto, Pc.unsettled, hki])
    · exact .inl (hedit hki (hset hki h))
  case claimActivate key k =>
    by_cases hki : k = i
    · subst hki
      refine .inl (.inr ⟨by simp, ?_⟩)
      simpa [hw.2.2.2.2.2.2] using keyFingerprint_ne key
    · exact .inl (hedit hki (hset hki h))
  case relPid w =>
    by_cases hki : w.entryIdx = i
    · subst hki
      exact .inl (.inr (by simpa using hrel w (.inl hpc)))
    · exact .inl (hedit hki h)
  case relStart w =>
    by_cases hki : w.entryIdx = i
    · subst hki
      exact .inl (.inr (by simpa using hrel w (.inr (.inl hpc))))
    · exact .inl (hedit hki h)
  case relBump w =>
    by_cases hki : w.entryIdx = i
    · subst hki
      exact .inl (.inr (by simpa using hrel w (.inr (.inr hpc))))
    · exact .inl (hedit hki h)

end Edit

end Kickmsg.Blackboard
