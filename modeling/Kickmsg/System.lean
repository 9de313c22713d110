import Kickmsg.Recovery
import Kickmsg.Region
import Kickmsg.Lib.Actors
import Kickmsg.Lib.Transition
import Mathlib.Tactic.FinCases

/-!
# The whole region

Any number of actors over one region, interleaved access by access. An actor is a `Publisher`, a
`Subscriber`, a thread that destroys `SampleView`s, or a thread that runs one of the recovery passes. It
belongs to a process; an actor whose process is gone never moves again, at whatever access it stopped.

`Ghost` is what the statements speak about and the program does not keep: how often `free_top` changed,
which publication claimed a position, who tenants a ring, and what a subscriber was handed.
-/

namespace Kickmsg

open Lib

/-- One actor of the system. -/
inductive Local
  | pub (u : Pub)
  | sub (u : Sub)
  | view (pc : ViewPc)
  | repair (u : Repair)
  | reclaim (u : Reclaim)
  | orphan (u : Orphan)

/-- The calls an application makes on an actor that is at rest. -/
inductive Call
  | allocate
  | publish (len : Nat)
  | releasePending
  | join (waker : Bool)
  | receive (copy blocking : Bool)
  | armWait
  | disarmWait
  | releaseRing
  | repairLockedEntries
  | reclaimDeadRings
  | reclaimOrphanedSlots
  deriving DecidableEq, Repr

namespace Local

def request (g : Geometry) : Local → Option Op
  | .pub u => u.request g
  | .sub u => u.request g
  | .view pc => pc.request
  | .repair u => u.request g
  | .reclaim u => u.request
  | .orphan u => u.request

def resume (g : Geometry) (r : Resp) : Local → Local
  | .pub u => .pub (u.resume g r)
  | .sub u => .sub (u.resume g r)
  | .view pc => .view (pc.resume r)
  | .repair u => .repair (u.resume g r)
  | .reclaim u => .reclaim (u.resume g r)
  | .orphan u => .orphan (u.resume g r)

/-- The start of a call; `none` if the actor is busy or not of the right kind. -/
def call (g : Geometry) : Local → Call → Option Local
  | .pub u, c =>
    if u.pc = .idle then
      match c with
      | .allocate => some (.pub u.allocate)
      | .publish len => some (.pub (u.publish g len))
      | .releasePending => some (.pub u.releasePending)
      | _ => none
    else none
  | .sub u, c =>
    if u.pc = .out then
      match c with
      | .join waker => some (.sub (u.join g waker))
      | _ => none
    else if u.pc = .live then
      match c with
      | .receive copy blocking => some (.sub (u.receive copy blocking))
      | .armWait => some (.sub u.armWait)
      | .disarmWait => some (.sub u.disarmWait)
      | .releaseRing => some (.sub u.releaseRing)
      | _ => none
    else none
  | .repair u, .repairLockedEntries => if u.pc = .idle then some (.repair (u.start g)) else none
  | .reclaim u, .reclaimDeadRings => if u.pc = .idle then some (.reclaim (u.start g)) else none
  | .orphan u, .reclaimOrphanedSlots =>
    match u.pc with
    | .idle => some (.orphan (u.start g))
    | _ => none
  | _, _ => none

/-- What a call on a publisher starts: a push of its reservation, a pop, a publication, or nothing. -/
theorem call_pub {g : Geometry} {u : Pub} {c : Call} {l' : Local} (h : (pub u).call g c = some l') :
    u.pc = .idle ∧ ∃ u', l' = .pub u' ∧
      ((∃ n, u' = { u with result := n }) ∨
        (∃ x k n, u.pending = some x ∧
          u' = { u with result := n, pc := .releasePending x k .load }) ∨
        (u.pending = none ∧
          u' = { u with reservation := u.reservation + 1, pc := .allocate .load }) ∨
        (∃ x len, u.pending = some x ∧ len ≤ g.slotDataSize ∧ c = .publish len ∧
          u' = { u with pending := none, pc := .storeLen x len })) := by
  simp only [call] at h
  split_ifs at h with hidle
  refine ⟨hidle, ?_⟩
  split at h <;> simp only [Option.some.injEq, reduceCtorEq] at h <;> subst h
  · refine ⟨_, rfl, ?_⟩
    unfold Pub.allocate
    split
    · rename_i x hx
      exact .inr (.inl ⟨x, .allocate, u.result, hx, rfl⟩)
    · rename_i hx
      exact .inr (.inr (.inl ⟨hx, rfl⟩))
  · rename_i len
    refine ⟨_, rfl, ?_⟩
    unfold Pub.publish Pub.releasePending
    split_ifs with hlen
    · split
      · rename_i x hx
        exact .inr (.inl ⟨x, .ret, 0, hx, rfl⟩)
      · exact .inl ⟨0, rfl⟩
    · split
      · rename_i x hx
        exact .inr (.inr (.inr ⟨x, len, hx, Nat.le_of_not_gt hlen, rfl, rfl⟩))
      · exact .inl ⟨0, rfl⟩
  · refine ⟨_, rfl, ?_⟩
    unfold Pub.releasePending
    split
    · rename_i x hx
      exact .inr (.inl ⟨x, .ret, u.result, hx, rfl⟩)
    · exact .inl ⟨u.result, rfl⟩

/-- What a call on a subscriber starts. -/
theorem call_sub {g : Geometry} {u : Sub} {c : Call} {l' : Local} (h : (sub u).call g c = some l') :
    ∃ u', l' = .sub u' ∧
      ((u.pc = .out ∧ ∃ waker, u' = u.join g waker) ∨
        (u.pc = .live ∧ ((∃ copy blocking, u' = u.receive copy blocking) ∨ u' = u.armWait ∨
          u' = u.disarmWait ∨ u' = u.releaseRing))) := by
  simp only [call] at h
  split_ifs at h with hout hlive
  · split at h <;> simp only [Option.some.injEq, reduceCtorEq] at h
    rename_i waker
    exact ⟨_, h.symm, .inl ⟨hout, waker, rfl⟩⟩
  · split at h <;> simp only [Option.some.injEq, reduceCtorEq] at h
    · rename_i copy blocking
      exact ⟨_, h.symm, .inr ⟨hlive, .inl ⟨copy, blocking, rfl⟩⟩⟩
    · exact ⟨_, h.symm, .inr ⟨hlive, .inr (.inl rfl)⟩⟩
    · exact ⟨_, h.symm, .inr ⟨hlive, .inr (.inr (.inl rfl))⟩⟩
    · exact ⟨_, h.symm, .inr ⟨hlive, .inr (.inr (.inr rfl))⟩⟩

/-- What a call on one of the other actors starts. -/
theorem call_pass {g : Geometry} {l l' : Local} {c : Call} (h : l.call g c = some l') :
    (∃ u, l = .pub u) ∨ (∃ u, l = .sub u) ∨
      (∃ u, l = .repair u ∧ u.pc = .idle ∧ l' = .repair (u.start g)) ∨
      (∃ u, l = .reclaim u ∧ u.pc = .idle ∧ c = .reclaimDeadRings ∧ l' = .reclaim (u.start g)) ∨
      (∃ u, l = .orphan u ∧ u.pc = .idle ∧ c = .reclaimOrphanedSlots ∧ l' = .orphan (u.start g)) := by
  cases l with
  | pub u => exact .inl ⟨u, rfl⟩
  | sub u => exact .inr (.inl ⟨u, rfl⟩)
  | view pc => cases c <;> simp [call] at h
  | repair u =>
    cases c <;> simp only [call, reduceCtorEq] at h
    split_ifs at h with hi
    exact .inr (.inr (.inl ⟨u, rfl, hi, (Option.some.inj h).symm⟩))
  | reclaim u =>
    cases c <;> simp only [call, reduceCtorEq] at h
    split_ifs at h with hi
    exact .inr (.inr (.inr (.inl ⟨u, rfl, hi, rfl, (Option.some.inj h).symm⟩)))
  | orphan u =>
    cases c <;> simp only [call, reduceCtorEq] at h
    split at h
    · rename_i hi
      exact .inr (.inr (.inr (.inr ⟨u, rfl, hi, rfl, (Option.some.inj h).symm⟩)))
    · simp at h

/-- A new actor of process `(pid, starttime)`. -/
def Fresh (pid starttime : Nat) : Local → Prop
  | .pub u => u.pending = none ∧ u.reservation = 0 ∧ u.pc = .idle
  | .sub u => u.pid = pid ∧ u.starttime = starttime ∧ u.views = [] ∧ u.pc = .out
  | .view pc => pc = .idle
  | .repair u => u.pc = .idle
  | .reclaim u => u.pc = .idle
  | .orphan u => u.pc = .idle

end Local

/-- A message as `publish(len)` was called on it: the reservation, its slot, and the payload bytes. -/
structure Msg where
  reservation : Nat
  slotIdx : Nat
  bytes : List Nat
  deriving DecidableEq, Repr

/-- What a receive returned. -/
structure Sample where
  ring : Nat
  ringPos : Nat
  bytes : List Nat
  deriving DecidableEq, Repr

/-- Bookkeeping of a run. -/
structure Ghost (ι : Type) where
  /-- successful changes of `free_top` -/
  changes : Nat
  /-- `changes` when the actor last observed `free_top` -/
  seen : ι → Nat
  /-- the message of the actor's last `publish()` -/
  msg : ι → Msg
  /-- whose `fetch_add` of a ring's `write_pos` returned a position, and for which message -/
  log : Nat → Nat → Option (ι × Msg)
  /-- who moved a ring out of `Free` last, until it is `Free` again -/
  tenant : Nat → Option ι
  /-- what the actor's `recv_buf_` holds -/
  buf : ι → List Nat
  /-- the samples that the calls of the actor's `Subscriber` returned since it joined, latest first -/
  got : ι → List Sample
  /-- the `read_pos` the actor's `Subscriber` joined at -/
  origin : ι → Nat

/-- The region, its processes and its actors. -/
structure Sys (ι : Type) where
  mem : Mem
  data : Nat → Nat → Nat
  procs : Procs
  gone : List (Nat × Nat)
  th : ι → Local
  ghost : Ghost ι

/-- One step of the system: an actor performs its next access (`choice` is the environment's, see
`Op.exec`); a call starts; `v` destroys the `k`-th view of subscriber `t`; a publisher writes a payload
byte into its reservation; a process exits; a process starts. -/
inductive Label (ι : Type)
  | run (t : ι) (choice : Bool)
  | call (t : ι) (c : Call)
  | destroy (t v : ι) (k : Nat)
  | write (t : ι) (off byte : Nat)
  | exit (pid : Nat)
  | spawn (pid starttime : Nat)

namespace Ghost

variable {ι : Type} [DecidableEq ι]

/-- The payload bytes of a slot. -/
def payload (data : Nat → Nat → Nat) (slotIdx len : Nat) : List Nat :=
  (List.range len).map (data slotIdx)

/-- The sample of a call that has returned, with the bytes its caller sees: those of the slot, or those
that were copied out of it. -/
def handed (data : Nat → Nat → Nat) (buf : List Nat) : Local → Option Sample
  | .sub u => u.handed.map fun v =>
      ⟨v.ring, v.ringPos, if u.copy then buf else payload data v.slotIdx v.len⟩
  | _ => none

/-- The buffers after an access: a copy overwrites its actor's. -/
def bufAfter (gh : Ghost ι) (data : Nat → Nat → Nat) (t : ι) (op : Op) : ι → List Nat :=
  match op with
  | .copyOut slot len => Function.update gh.buf t (payload data slot len)
  | _ => gh.buf

/-- The end of a subscriber's constructor: the `read_pos` it starts from. -/
def joined (r : Resp) : Local → Option Nat
  | .sub u =>
    match u.pc with
    | .joinPos2 _ wp => some (if r.val > wp then r.val else wp)
    | _ => none
  | _ => none

/-- The log after an access: only a `fetch_add` of a `write_pos` claims a position. -/
def logAfter (gh : Ghost ι) (t : ι) (op : Op) (r : Resp) : Nat → Nat → Option (ι × Msg) :=
  match op with
  | .fetchAdd (.writePos i) _ =>
    Function.update gh.log i (Function.update (gh.log i) r.val (some (t, gh.msg t)))
  | _ => gh.log

/-- The tenants after an access of `t` that took the memory from `m` to `m'`. -/
def tenantAfter (gh : Ghost ι) (t : ι) (op : Op) (m m' : Mem) : Nat → Option ι :=
  match op.target with
  | some (.stateFlight i) =>
    if getState (m' (.stateFlight i)) = .free then Function.update gh.tenant i none
    else if getState (m (.stateFlight i)) = .free then Function.update gh.tenant i (some t)
    else gh.tenant
  | _ => gh.tenant

/-- The bookkeeping of one access. -/
def after (gh : Ghost ι) (g : Geometry) (data : Nat → Nat → Nat) (l : Local) (t : ι) (op : Op)
    (m m' : Mem) (r : Resp) : Ghost ι where
  changes := op.changesAfter r gh.changes
  seen := op.seenAfter t gh.changes gh.seen
  msg := gh.msg
  log := gh.logAfter t op r
  tenant := gh.tenantAfter t op m m'
  buf := gh.bufAfter data t op
  got :=
    match joined r l, handed data (gh.buf t) (l.resume g r) with
    | some _, _ => Function.update gh.got t []
    | none, some x => Function.update gh.got t (x :: gh.got t)
    | none, none => gh.got
  origin :=
    match joined r l with
    | some p => Function.update gh.origin t p
    | none => gh.origin

/-- The message of a `publish(len)` that starts. -/
def published (gh : Ghost ι) (data : Nat → Nat → Nat) (t : ι) : Local → Ghost ι
  | .pub u =>
    match u.pc with
    | .storeLen s len =>
      { gh with msg := Function.update gh.msg t ⟨u.reservation, s, payload data s len⟩ }
    | _ => gh
  | _ => gh

end Ghost

namespace Sys

variable {ι : Type} [DecidableEq ι]

/-- The actor's process exists. -/
def alive (proc : ι → Nat × Nat) (s : Sys ι) (t : ι) : Bool :=
  decide (s.procs (proc t).1 = some (proc t).2)

def next (g : Geometry) (proc : ι → Nat × Nat) (s : Sys ι) : Label ι → Option (Sys ι)
  | .run t choice =>
    if s.alive proc t then
      match (s.th t).request g with
      | none => none
      | some op =>
        let out := op.exec s.procs s.mem choice
        some { s with
          mem := out.1
          th := Function.update s.th t ((s.th t).resume g out.2)
          ghost := s.ghost.after g s.data (s.th t) t op s.mem out.1 out.2 }
    else none
  | .call t c =>
    if s.alive proc t then
      match (s.th t).call g c with
      | none => none
      | some l => some { s with
          th := Function.update s.th t l
          ghost := s.ghost.published s.data t l }
    else none
  | .destroy t v k =>
    match s.th t, s.th v with
    | .sub u, .view .idle =>
      match u.views[k]? with
      | some w =>
        if s.alive proc v then
          some { s with
            th := Function.update (Function.update s.th t
              (.sub { u with views := u.views.eraseIdx k })) v (.view (.sub w)) }
        else none
      | none => none
    | _, _ => none
  | .write t off byte =>
    match s.th t with
    | .pub u =>
      match u.pending with
      | some slot =>
        if s.alive proc t = true ∧ u.pc = .idle ∧ off < g.slotDataSize then
          some { s with
            data := Function.update s.data slot (Function.update (s.data slot) off byte) }
        else none
      | none => none
    | _ => none
  | .exit pid =>
    match s.procs pid with
    | some starttime => some { s with
        procs := Function.update s.procs pid none
        gone := (pid, starttime) :: s.gone }
    | none => none
  | .spawn pid starttime =>
    if s.procs pid = none ∧ pid ≠ 0 ∧ starttime ≠ 0 ∧ (pid, starttime) ∉ s.gone then
      some { s with procs := Function.update s.procs pid (some starttime) }
    else none

/-- A new region, and actors that have not done anything. -/
structure Init (g : Geometry) (proc : ι → Nat × Nat) (s : Sys ι) : Prop where
  mem : s.mem = stampNewRegion g
  procs : ∀ pid starttime, s.procs pid = some starttime → pid ≠ 0 ∧ starttime ≠ 0
  gone : s.gone = []
  th : ∀ t, (s.th t).Fresh (proc t).1 (proc t).2
  changes : s.ghost.changes = g.poolSize
  log : ∀ r p, s.ghost.log r p = none
  tenant : ∀ r, s.ghost.tenant r = none
  got : ∀ t, s.ghost.got t = []

/-- The system. -/
def machine (g : Geometry) (proc : ι → Nat × Nat) : LTS (Sys ι) (Label ι) :=
  .ofNext (Init g proc) (next g proc)

/-- What one access does. -/
theorem run_cases {g : Geometry} {proc : ι → Nat × Nat} {s s' : Sys ι} {t : ι} {c : Bool}
    (h : s.next g proc (.run t c) = some s') : s.alive proc t = true ∧
      ∃ op, (s.th t).request g = some op ∧
        s' = { s with
          mem := (op.exec s.procs s.mem c).1
          th := Function.update s.th t ((s.th t).resume g (op.exec s.procs s.mem c).2)
          ghost := s.ghost.after g s.data (s.th t) t op s.mem (op.exec s.procs s.mem c).1
            (op.exec s.procs s.mem c).2 } := by
  simp only [next] at h
  split at h
  · rename_i ha
    split at h
    · simp at h
    · rename_i op hop
      exact ⟨ha, op, hop, (Option.some.inj h).symm⟩
  · simp at h

/-- The state after actor `t` has performed access `op`. -/
def ran (g : Geometry) (s : Sys ι) (t : ι) (op : Op) (c : Bool) : Sys ι :=
  { s with
    mem := (op.exec s.procs s.mem c).1
    th := Function.update s.th t ((s.th t).resume g (op.exec s.procs s.mem c).2)
    ghost := s.ghost.after g s.data (s.th t) t op s.mem (op.exec s.procs s.mem c).1
      (op.exec s.procs s.mem c).2 }

theorem ran_cases {g : Geometry} {proc : ι → Nat × Nat} {s s' : Sys ι} {t : ι} {c : Bool}
    (h : s.next g proc (.run t c) = some s') : s.alive proc t = true ∧
      ∃ op, (s.th t).request g = some op ∧ s' = s.ran g t op c :=
  run_cases h

theorem call_cases {g : Geometry} {proc : ι → Nat × Nat} {s s' : Sys ι} {t : ι} {c : Call}
    (h : s.next g proc (.call t c) = some s') : s.alive proc t = true ∧
      ∃ l, (s.th t).call g c = some l ∧
        s' = { s with th := Function.update s.th t l, ghost := s.ghost.published s.data t l } := by
  simp only [next] at h
  split at h
  · rename_i ha
    split at h
    · simp at h
    · rename_i l hl
      exact ⟨ha, l, hl, (Option.some.inj h).symm⟩
  · simp at h

theorem destroy_cases {g : Geometry} {proc : ι → Nat × Nat} {s s' : Sys ι} {t v : ι} {k : Nat}
    (h : s.next g proc (.destroy t v k) = some s') : s.alive proc v = true ∧
      ∃ u w, s.th t = .sub u ∧ s.th v = .view .idle ∧ u.views[k]? = some w ∧
        s' = { s with
          th := Function.update (Function.update s.th t
            (.sub { u with views := u.views.eraseIdx k })) v (.view (.sub w)) } := by
  simp only [next] at h
  split at h
  · rename_i u ht hv
    split at h
    · rename_i w hw
      split at h
      · rename_i ha
        exact ⟨ha, u, w, ht, hv, hw, (Option.some.inj h).symm⟩
      · simp at h
    · simp at h
  · simp at h

theorem write_cases {g : Geometry} {proc : ι → Nat × Nat} {s s' : Sys ι} {t : ι} {off byte : Nat}
    (h : s.next g proc (.write t off byte) = some s') : s.alive proc t = true ∧
      ∃ u slot, s.th t = .pub u ∧ u.pending = some slot ∧ u.pc = .idle ∧ off < g.slotDataSize ∧
        s' = { s with
          data := Function.update s.data slot (Function.update (s.data slot) off byte) } := by
  simp only [next] at h
  split at h
  · rename_i u ht
    split at h
    · rename_i slot hp
      split at h
      · rename_i hc
        exact ⟨hc.1, u, slot, ht, hp, hc.2.1, hc.2.2, (Option.some.inj h).symm⟩
      · simp at h
    · simp at h
  · simp at h

theorem exit_cases {g : Geometry} {proc : ι → Nat × Nat} {s s' : Sys ι} {pid : Nat}
    (h : s.next g proc (.exit pid) = some s') : ∃ starttime, s.procs pid = some starttime ∧
      s' = { s with
        procs := Function.update s.procs pid none
        gone := (pid, starttime) :: s.gone } := by
  simp only [next] at h
  split at h
  · rename_i st hp
    exact ⟨st, hp, (Option.some.inj h).symm⟩
  · simp at h

theorem spawn_cases {g : Geometry} {proc : ι → Nat × Nat} {s s' : Sys ι} {pid starttime : Nat}
    (h : s.next g proc (.spawn pid starttime) = some s') :
      (s.procs pid = none ∧ pid ≠ 0 ∧ starttime ≠ 0 ∧ (pid, starttime) ∉ s.gone) ∧
      s' = { s with procs := Function.update s.procs pid (some starttime) } := by
  simp only [next] at h
  split at h
  · rename_i hc
    exact ⟨hc, (Option.some.inj h).symm⟩
  · simp at h

/-! ## A crew

Nine actors, each in a process of its own: enough for the runs that later modules exhibit. -/

section Crew

/-- A crew has a first member. The numerals of the crew's runs are read with this proof in every module,
whatever else it imports; hence its priority. -/
instance (priority := 2000) neZero_crew : NeZero 9 := ⟨by decide⟩

/-- The process of each actor. -/
def crewProc (t : Fin 9) : Nat × Nat := (t.val + 1, 1)

/-- Publishers 0, 1 and 2, subscribers 3 and 4, a thread for views, and the three recovery passes. -/
def crew (g : Geometry) : Sys (Fin 9) where
  mem := stampNewRegion g
  data := fun _ _ => 0
  procs := fun pid => if 0 < pid ∧ pid ≤ 9 then some 1 else none
  gone := []
  th := fun t =>
    match t with
    | 3 => .sub ⟨4, 1, 0, 0, 0, 0, 0, [], false, false, false, .ready, none, .out⟩
    | 4 => .sub ⟨5, 1, 0, 0, 0, 0, 0, [], false, false, false, .ready, none, .out⟩
    | 5 => .view .idle
    | 6 => .repair ⟨0, .idle⟩
    | 7 => .reclaim ⟨0, .idle⟩
    | 8 => .orphan ⟨0, .idle⟩
    | _ => .pub ⟨none, 0, 0, false, 0, .idle⟩
  ghost := ⟨g.poolSize, fun _ => 0, fun _ => ⟨0, 0, []⟩, fun _ _ => none, fun _ => none, fun _ => [],
    fun _ => [], fun _ => 0⟩

theorem init_crew (g : Geometry) : Init g crewProc (crew g) where
  mem := rfl
  procs pid st h := by
    simp only [crew] at h
    split_ifs at h with hp
    simp only [Option.some.injEq] at h
    omega
  gone := rfl
  th t := by fin_cases t <;> simp [crew, Local.Fresh, crewProc]
  changes := rfl
  log _ _ := rfl
  tenant _ := rfl
  got _ := rfl

/-- Actor `t` performs `n` accesses. -/
def runs (t : Fin 9) (n : Nat) : List (Label (Fin 9)) := List.replicate n (.run t false)

/-- One ring of two entries, three slots of eight bytes. -/
def smallGeometry : Geometry := (Config.mk 1 2 3 8 0 0).geometry 0

theorem valid_smallGeometry : smallGeometry.Valid :=
  (Config.Accepted.mk ⟨1, by decide, rfl⟩ (by decide) (by decide) (by decide) :
    (Config.mk 1 2 3 8 0 0).Accepted).valid 0

end Crew

end Sys

end Kickmsg
