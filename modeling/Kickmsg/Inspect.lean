import Kickmsg.Layout
import Kickmsg.Quiescent

/-!
# Inspections of a region

`Region.cc`: `diagnose`, `stats` and `info` as automata over single reads, the way they run while the region is
in use; `schema_blob` is in `Schema`. With nobody else about, `diagnose` is the function of `Quiescent`.
-/

namespace Kickmsg

open Lib

/-! ## `diagnose` -/

/-- The next read of `diagnose`. -/
inductive DiagnosePc
  | idle
  | schemaState
  | ringPos (i : Nat)
  | entry (i wp pos : Nat)
  | flight (i : Nat)
  | pid (i : Nat)
  | starttime (i pid : Nat)
  | probe (i pid starttime : Nat)
  deriving DecidableEq, Repr

structure Diagnose where
  report : HealthReport
  pc : DiagnosePc
  deriving DecidableEq, Repr

/-- A read of an inspection: an access as any actor makes it, or a plain field of the `Header`. -/
inductive Glance
  | access (op : Op)
  | schemaState
  | channelType
  | version
  | configHash
  | totalSize
  | creatorPid
  | createdAtNs
  | creatorNameLen
  | creatorName (k : Nat)
  deriving DecidableEq, Repr

def Glance.op : Glance → Option Op
  | .access op => some op
  | _ => none

namespace Diagnose

/-- The loop over the rings. -/
def scanRing (g : Geometry) (u : Diagnose) (i : Nat) : Diagnose :=
  if i < g.maxSubs then { u with pc := .ringPos i } else { u with pc := .idle }

/-- The loop over the window of ring `i`. -/
def scanEntry (u : Diagnose) (i wp pos : Nat) : Diagnose :=
  if pos < wp then { u with pc := .entry i wp pos } else { u with pc := .flight i }

/-- The counters of a ring's state. -/
def countState (report : HealthReport) (packed : Nat) : HealthReport :=
  let state := getState packed
  let inFlight := getInFlight packed
  if state = .live then { report with liveRings := u32 (report.liveRings + 1) }
  else if state = .free ∧ inFlight > 0 then { report with retiredRings := u32 (report.retiredRings + 1) }
  else if state = .draining ∧ inFlight > 0 then
    { report with drainingRings := u32 (report.drainingRings + 1) }
  else report

def request (g : Geometry) (u : Diagnose) : Option Glance :=
  match u.pc with
  | .idle => none
  | .schemaState => some .schemaState
  | .ringPos i => some (.access (.load (.writePos i)))
  | .entry i _ pos => some (.access (.load (.sequence i (g.entryIdx pos))))
  | .flight i => some (.access (.load (.stateFlight i)))
  | .pid i => some (.access (.load (.ownerPid i)))
  | .starttime i _ => some (.access (.load (.ownerStarttime i)))
  | .probe _ pid starttime => some (.access (.probeOwner pid starttime))

def resume (g : Geometry) (u : Diagnose) (r : Resp) : Diagnose :=
  match u.pc with
  | .idle => u
  | .schemaState =>
    { u with report := { u.report with schemaStuck := decide (r.val = Schema.claiming) } }.scanRing g 0
  | .ringPos i => u.scanEntry i r.val (windowStart g r.val)
  | .entry i wp pos =>
    if entryStuck g pos r.val = true then
      { u with report := { u.report with lockedEntries := u32 (u.report.lockedEntries + 1) } }.scanEntry i wp
        (pos + 1)
    else u.scanEntry i wp (pos + 1)
  | .flight i =>
    let u := { u with report := countState u.report r.val }
    -- A free ring has no owner to look for.
    if getState r.val = .free then u.scanRing g (i + 1) else { u with pc := .pid i }
  | .pid i => { u with pc := .starttime i r.val }
  | .starttime i pid => { u with pc := .probe i pid r.val }
  | .probe i _ _ =>
    if r.ok then
      { u with report := { u.report with deadRings := u32 (u.report.deadRings + 1) } }.scanRing g (i + 1)
    else u.scanRing g (i + 1)

/-- The call, up to its first read. -/
def start : Diagnose := ⟨⟨0, 0, 0, 0, 0, false⟩, .schemaState⟩

/-- `diagnose` alone with the region, after its read of the schema's state. -/
def alone (g : Geometry) (procs : Procs) : Mem × Diagnose → Bool → Option (Mem × Diagnose) :=
  Kickmsg.alone procs (fun u => (u.request g).bind Glance.op) (resume g)

section Alone

variable {g : Geometry} {procs : Procs} {m : Mem} {report : HealthReport} {i : Nat}

/-- The report after a window. -/
def countLocked (g : Geometry) (m : Mem) (i : Nat) (report : HealthReport) (l : List Nat) : HealthReport :=
  { report with
    lockedEntries := l.foldl (fun n pos => if entryStuck g pos (m (g.seqAt (i, pos))) then u32 (n + 1) else n)
      report.lockedEntries }

theorem ends_load {P : Mem × Diagnose → Prop} {u : Diagnose} {l : Loc}
    (hr : u.request g = some (.access (.load l)))
    (h : ∀ c, Ends (alone g procs) P (m, u.resume g ⟨m l, c⟩)) : Ends (alone g procs) P (m, u) :=
  .advance (fun c => (m, u.resume g ⟨m l, c⟩)) trivial
    (fun c => by simp [alone, Kickmsg.alone, hr, Glance.op, Op.exec]) h

theorem ends_entries {P : Mem × Diagnose → Prop} {wp : Nat} (n : Nat) {pos : Nat} (hn : pos + n = wp)
    {pc : DiagnosePc}
    (h : Ends (alone g procs) P (m, ⟨countLocked g m i report (List.range' pos n), .flight i⟩)) :
    Ends (alone g procs) P (m, scanEntry ⟨report, pc⟩ i wp pos) := by
  induction n generalizing pos pc report with
  | zero =>
    rw [scanEntry, if_neg (by omega)]
    exact h
  | succ n ih =>
    rw [scanEntry, if_pos (by omega)]
    refine ends_load rfl fun c => ?_
    rw [List.range'_succ, countLocked, List.foldl_cons] at h
    show Ends _ _ (m, if entryStuck g pos (m (g.seqAt (i, pos))) = true then _ else _)
    split_ifs with hs
    · rw [if_pos hs] at h
      exact ih (by omega) h
    · rw [if_neg hs] at h
      exact ih (by omega) h

/-- What the two states of a ring's word add to the report. -/
theorem countState_eq (packed : Nat) : countState report packed =
    { report with
      liveRings := if getState packed = .live then u32 (report.liveRings + 1) else report.liveRings
      retiredRings := if getState packed = .free ∧ getInFlight packed > 0 then u32 (report.retiredRings + 1)
        else report.retiredRings
      drainingRings := if getState packed = .draining ∧ getInFlight packed > 0 then
        u32 (report.drainingRings + 1) else report.drainingRings } := by
  unfold countState
  cases getState packed
  · by_cases h : getInFlight packed > 0 <;> simp [h]
  · simp
  · by_cases h : getInFlight packed > 0 <;> simp [h]
  · simp

theorem scanRing_congr (report : HealthReport) (pc pc' : DiagnosePc) (i : Nat) :
    scanRing g ⟨report, pc⟩ i = scanRing g ⟨report, pc'⟩ i := by
  unfold scanRing
  split_ifs <;> rfl

theorem ends_ring {P : Mem × Diagnose → Prop} {pc : DiagnosePc} (hi : i < g.maxSubs)
    (h : Ends (alone g procs) P (m, scanRing g ⟨diagnoseRing g procs m report i, .idle⟩ (i + 1))) :
    Ends (alone g procs) P (m, scanRing g ⟨report, pc⟩ i) := by
  have hle : windowStart g (m (.writePos i)) ≤ m (.writePos i) := by
    unfold windowStart
    split_ifs <;> omega
  rw [scanRing, if_pos hi]
  refine ends_load rfl fun _ => ends_entries _ (Nat.add_sub_of_le hle) (ends_load rfl fun _ => ?_)
  rw [← window]
  by_cases hf : getState (m (.stateFlight i)) = .free
  · rw [resume]
    dsimp only
    rw [if_pos hf, scanRing_congr _ _ .idle, countState_eq]
    simpa [diagnoseRing, countLocked, hf] using h
  · rw [resume]
    dsimp only
    rw [if_neg hf]
    have howned : getState (m (.stateFlight i)) = .live ∨ getState (m (.stateFlight i)) = .draining ∨
        getState (m (.stateFlight i)) = .reclaiming := by
      cases hst : getState (m (.stateFlight i)) <;> simp_all
    refine ends_load rfl fun _ => ends_load rfl fun _ => ?_
    refine .advance _ trivial (fun _ => rfl) fun _ => ?_
    show Ends _ _ (m, if ownerIsDead procs (m (.ownerPid i)) (m (.ownerStarttime i)) = true then _ else _)
    by_cases hd : ownerIsDead procs (m (.ownerPid i)) (m (.ownerStarttime i)) = true
    · rw [if_pos hd, scanRing_congr _ _ .idle]
      simp only [resume, countState_eq]
      simpa [diagnoseRing, countLocked, hf, howned, hd] using h
    · rw [if_neg hd]
      simp only [resume, countState_eq]
      rw [scanRing_congr _ _ .idle]
      simpa [diagnoseRing, countLocked, hf, hd] using h

/-- With nobody else about, `diagnose` ends with the report of the words it finds. -/
theorem ends_diagnose (c : Bool) : Ends (alone g procs) (fun x => x = (m, ⟨diagnose g procs c m, .idle⟩))
    (m, scanRing g ⟨⟨0, 0, 0, 0, 0, c⟩, .schemaState⟩ 0) := by
  have key : ∀ n i report pc, i + n = g.maxSubs → Ends (alone g procs)
      (fun x => x = (m, ⟨(List.range' i n).foldl (diagnoseRing g procs m) report, .idle⟩))
      (m, scanRing g ⟨report, pc⟩ i) := by
    intro n
    induction n with
    | zero =>
      intro i report pc hn
      rw [scanRing, if_neg (by omega)]
      exact .here rfl
    | succ n ih =>
      intro i report pc hn
      exact ends_ring (by omega) (ih (i + 1) _ .idle (by omega))
  rw [diagnose, List.range_eq_range']
  exact key g.maxSubs 0 _ _ (Nat.zero_add _)

end Alone

end Diagnose

/-! ## `stats` -/

/-- `RingStats`. -/
structure RingStats where
  state : RingState
  inFlight : Nat
  writePos : Nat
  droppedCount : Nat
  lostCount : Nat
  deriving DecidableEq, Repr

/-- `RegionStats`. -/
structure RegionStats where
  rings : List RingStats
  totalWrites : Nat
  totalDrops : Nat
  totalLosses : Nat
  totalSteals : Nat
  liveRings : Nat
  poolFree : Nat
  poolSize : Nat
  deriving DecidableEq, Repr

/-- The next read of `stats`. -/
inductive StatsPc
  | idle
  | steals
  | flight (i : Nat)
  | ringPos (i : Nat) (rs : RingStats)
  | dropped (i : Nat) (rs : RingStats)
  | lost (i : Nat) (rs : RingStats)
  | top
  | walk (idx count : Nat)
  deriving DecidableEq, Repr

structure Stats where
  out : RegionStats
  pc : StatsPc
  deriving DecidableEq, Repr

namespace Stats

/-- The loop over the rings; after it the free stack is walked. -/
def scanRing (g : Geometry) (u : Stats) (i : Nat) : Stats :=
  if i < g.maxSubs then { u with pc := .flight i } else { u with pc := .top }

/-- One turn of the walk. -/
def walkFrom (g : Geometry) (u : Stats) (idx count : Nat) : Stats :=
  if idx ≠ invalidSlot ∧ count < g.poolSize ∧ idx < g.poolSize then { u with pc := .walk idx count }
  else { u with out := { u.out with poolFree := count }, pc := .idle }

/-- `out.rings.push_back(rs)` and the sums. -/
def add (out : RegionStats) (rs : RingStats) : RegionStats :=
  { out with
    rings := out.rings ++ [rs]
    liveRings := if rs.state = .live then u64 (out.liveRings + 1) else out.liveRings
    totalWrites := if rs.writePos > out.totalWrites then rs.writePos else out.totalWrites
    totalDrops := u64 (out.totalDrops + rs.droppedCount)
    totalLosses := u64 (out.totalLosses + rs.lostCount) }

def request (u : Stats) : Option Op :=
  match u.pc with
  | .idle => none
  | .steals => some (.load .stealCount)
  | .flight i => some (.load (.stateFlight i))
  | .ringPos i _ => some (.load (.writePos i))
  | .dropped i _ => some (.load (.droppedCount i))
  | .lost i _ => some (.load (.lostCount i))
  | .top => some (.load .freeTop)
  | .walk idx _ => some (.load (.nextFree idx))

def resume (g : Geometry) (u : Stats) (r : Resp) : Stats :=
  match u.pc with
  | .idle => u
  | .steals => { u with out := { u.out with totalSteals := r.val } }.scanRing g 0
  | .flight i => { u with pc := .ringPos i ⟨getState r.val, getInFlight r.val, 0, 0, 0⟩ }
  | .ringPos i rs => { u with pc := .dropped i { rs with writePos := r.val } }
  | .dropped i rs => { u with pc := .lost i { rs with droppedCount := r.val } }
  | .lost i rs => { u with out := add u.out { rs with lostCount := r.val } }.scanRing g (i + 1)
  | .top => u.walkFrom g (taggedIdx r.val) 0
  | .walk _ count => u.walkFrom g r.val (count + 1)

/-- The call, up to its first read. -/
def start (g : Geometry) : Stats := ⟨⟨[], 0, 0, 0, 0, 0, 0, g.poolSize⟩, .steals⟩

end Stats

/-! ## `info` -/

/-- `RegionInfo`, without the name of the region and what the handle knows itself. -/
structure RegionInfo where
  channelType : Nat
  version : Nat
  configHash : Nat
  totalSize : Nat
  creatorPid : Nat
  createdAtNs : Nat
  creatorName : List Nat
  deriving DecidableEq, Repr

/-- The next read of `info`. -/
inductive InfoPc
  | idle
  | channelType
  | version
  | configHash
  | totalSize
  | creatorPid
  | createdAtNs
  | creatorNameLen
  | creatorName (k len : Nat)
  deriving DecidableEq, Repr

structure Info where
  out : RegionInfo
  pc : InfoPc
  deriving DecidableEq, Repr

namespace Info

/-- The copy of the name from byte `k` on. -/
def copyName (u : Info) (k len : Nat) : Info :=
  if k < len then { u with pc := .creatorName k len } else { u with pc := .idle }

def request (u : Info) : Option Glance :=
  match u.pc with
  | .idle => none
  | .channelType => some .channelType
  | .version => some .version
  | .configHash => some .configHash
  | .totalSize => some .totalSize
  | .creatorPid => some .creatorPid
  | .createdAtNs => some .createdAtNs
  | .creatorNameLen => some .creatorNameLen
  | .creatorName k _ => some (.creatorName k)

def resume (g : Geometry) (u : Info) (r : Resp) : Info :=
  match u.pc with
  | .idle => u
  | .channelType => { out := { u.out with channelType := r.val }, pc := .version }
  | .version => { out := { u.out with version := r.val }, pc := .configHash }
  | .configHash => { out := { u.out with configHash := r.val }, pc := .totalSize }
  | .totalSize => { out := { u.out with totalSize := r.val }, pc := .creatorPid }
  | .creatorPid => { out := { u.out with creatorPid := r.val }, pc := .createdAtNs }
  | .createdAtNs => { out := { u.out with createdAtNs := r.val }, pc := .creatorNameLen }
  -- The live length is bounded again: a peer can rewrite it.
  | .creatorNameLen => u.copyName 0 (min r.val (g.schemaBlobOffset - sizeofHeader))
  | .creatorName k len =>
    { u with out := { u.out with creatorName := u.out.creatorName ++ [r.val] } }.copyName (k + 1) len

/-- The call, up to its first read. -/
def start : Info := ⟨⟨0, 0, 0, 0, 0, 0, []⟩, .channelType⟩

end Info

end Kickmsg
