import Kickmsg.HeadState

/-!
# Diagnosis and repair of a quiescent region

`diagnose` counts the entries of a window that are locked or more than one wrap behind;
`repair_locked_entries` steals them. Both walk the rings with their own code. Here nobody else is about:
the region is diagnosed, repaired, diagnosed and repaired again, whatever its sequence words are.
-/

namespace Kickmsg

open Lib

/-! ## `diagnose` -/

/-- `SharedRegion::HealthReport`. -/
structure HealthReport where
  lockedEntries : Nat
  retiredRings : Nat
  drainingRings : Nat
  deadRings : Nat
  liveRings : Nat
  schemaStuck : Bool
  deriving DecidableEq, Repr

/-- The first position of the window of a ring. -/
def windowStart (g : Geometry) (wp : Nat) : Nat :=
  if wp > g.subRingCapacity then wp - g.subRingCapacity else 0

/-- Case A: locked. Case B: more than one full wrap behind. -/
def entryStuck (g : Geometry) (pos seq : Nat) : Bool :=
  seqIsLocked seq || decide (u64 (seqPos seq + g.subRingCapacity) < u64 (pos + 1))

/-- The positions of the current window of ring `i`. -/
def window (g : Geometry) (m : Mem) (i : Nat) : List Nat :=
  let wp := m (.writePos i)
  List.range' (windowStart g wp) (wp - windowStart g wp)

/-- The sequence word of the entry of a position. -/
def Geometry.seqAt (g : Geometry) (x : Nat × Nat) : Loc := .sequence x.1 (g.entryIdx x.2)

/-- One ring of `diagnose`. -/
def diagnoseRing (g : Geometry) (procs : Procs) (m : Mem) (report : HealthReport) (i : Nat) :
    HealthReport :=
  let locked := (window g m i).foldl (fun n pos =>
    if entryStuck g pos (m (g.seqAt (i, pos))) then u32 (n + 1) else n) report.lockedEntries
  let packed := m (.stateFlight i)
  let state := getState packed
  let inFlight := getInFlight packed
  let dead := (state = .live ∨ state = .draining ∨ state = .reclaiming) ∧
    ownerIsDead procs (m (.ownerPid i)) (m (.ownerStarttime i)) = true
  { report with
    lockedEntries := locked
    liveRings := if state = .live then u32 (report.liveRings + 1) else report.liveRings
    retiredRings :=
      if state = .free ∧ inFlight > 0 then u32 (report.retiredRings + 1) else report.retiredRings
    drainingRings :=
      if state = .draining ∧ inFlight > 0 then u32 (report.drainingRings + 1)
      else report.drainingRings
    deadRings := if dead then u32 (report.deadRings + 1) else report.deadRings }

/-- `diagnose()` on words that nobody changes; the schema's state word is a world of its own. -/
def diagnose (g : Geometry) (procs : Procs) (schemaClaiming : Bool) (m : Mem) : HealthReport :=
  (List.range g.maxSubs).foldl (diagnoseRing g procs m) ⟨0, 0, 0, 0, 0, schemaClaiming⟩

/-- The positions of all windows, ring by ring. -/
def spots (g : Geometry) (m : Mem) : List (Nat × Nat) :=
  (List.range g.maxSubs).flatMap fun i => (window g m i).map (Prod.mk i)

/-- The spot is one that `diagnose` counts. -/
def spotStuck (g : Geometry) (m : Mem) (x : Nat × Nat) : Bool := entryStuck g x.2 (m (g.seqAt x))

/-- A counter that is 32 bits wide. -/
theorem foldl_count {α : Type} (p : α → Bool) (l : List α) (n : Nat) :
    l.foldl (fun n x => if p x then u32 (n + 1) else n) (u32 n) = u32 (n + l.countP p) := by
  induction l generalizing n with
  | nil => rfl
  | cons x l ih =>
    rw [List.foldl_cons, List.countP_cons]
    cases hp : p x
    · simpa [hp] using ih n
    · have hu : u32 (u32 n + 1) = u32 (n + 1) := by simp [u32]
      rw [if_pos rfl, hu, ih, if_pos rfl]
      congr 1
      omega

/-- `locked_entries` counts the stuck spots, in 32 bits. -/
theorem diagnose_lockedEntries (g : Geometry) (procs : Procs) (c : Bool) (m : Mem) :
    (diagnose g procs c m).lockedEntries = u32 ((spots g m).countP (spotStuck g m)) := by
  have key : ∀ (l : List Nat) (r : HealthReport) (n : Nat), r.lockedEntries = u32 n →
      (l.foldl (diagnoseRing g procs m) r).lockedEntries =
        u32 (n + (l.flatMap fun i => (window g m i).map (Prod.mk i)).countP (spotStuck g m)) := by
    intro l
    induction l with
    | nil => exact fun r n h => h
    | cons i l ih =>
      intro r n h
      rw [List.foldl_cons, ih _ (n + (window g m i).countP fun pos => spotStuck g m (i, pos)) ?_]
      · rw [List.flatMap_cons, List.countP_append, List.countP_map, Nat.add_assoc]
        rfl
      · simp only [diagnoseRing]
        rw [h]
        exact foldl_count (fun pos => spotStuck g m (i, pos)) _ n
  simpa [spots, diagnose] using key (List.range g.maxSubs) ⟨0, 0, 0, 0, 0, c⟩ 0 rfl

/-! ## What a steal leaves -/

/-- One steal: the skip marker, and the count. -/
def stealAt (g : Geometry) (m : Mem) (x : Nat × Nat) : Mem :=
  Function.update (Function.update m (g.seqAt x) (seqSkip x.2)) .stealCount
    ((m .stealCount + 1) % 2 ^ 64)

/-- `m'` is `m` after the spots of `l` have been stolen. -/
structure Stolen (g : Geometry) (l : List (Nat × Nat)) (m m' : Mem) : Prop where
  skip : ∀ x ∈ l, m' (g.seqAt x) = seqSkip x.2
  count : m' .stealCount = (m .stealCount + l.length) % 2 ^ 64
  rest : ∀ w, w ≠ .stealCount → (∀ x ∈ l, w ≠ g.seqAt x) → m' w = m w

namespace Stolen

variable {g : Geometry} {l l' : List (Nat × Nat)} {m m' m'' : Mem}

theorem nil (h : m .stealCount < 2 ^ 64) : Stolen g [] m m :=
  ⟨by simp, (Nat.mod_eq_of_lt h).symm, fun _ _ _ => rfl⟩

theorem single (g : Geometry) (m : Mem) (x : Nat × Nat) : Stolen g [x] m (stealAt g m x) where
  skip y hy := by
    obtain rfl := List.mem_singleton.mp hy
    simp [stealAt, Geometry.seqAt]
  count := by simp [stealAt]
  rest w hw hx := by
    rw [stealAt, Function.update_of_ne hw, Function.update_of_ne (hx x (by simp))]

/-- Steals of different entries add up. -/
theorem append (h : Stolen g l m m') (h' : Stolen g l' m' m'')
    (hne : ∀ x ∈ l, ∀ y ∈ l', g.seqAt x ≠ g.seqAt y) : Stolen g (l ++ l') m m'' where
  skip x hx := by
    rcases List.mem_append.mp hx with hx | hx
    · rw [h'.rest _ (by simp [Geometry.seqAt]) (hne x hx), h.skip x hx]
    · exact h'.skip x hx
  count := by
    rw [h'.count, h.count, List.length_append]
    omega
  rest w hw hx := by
    rw [h'.rest w hw fun y hy => hx y (List.mem_append_right _ hy),
      h.rest w hw fun y hy => hx y (List.mem_append_left _ hy)]

end Stolen

/-! ## The two passes -/

/-- Case B on its own. -/
def spotStale (g : Geometry) (m : Mem) (x : Nat × Nat) : Bool :=
  !seqIsLocked (m (g.seqAt x)) &&
    decide (u64 (seqPos (m (g.seqAt x)) + g.subRingCapacity) < u64 (x.2 + 1))

/-- Case A on its own. -/
def spotLocked (g : Geometry) (m : Mem) (x : Nat × Nat) : Bool := seqIsLocked (m (g.seqAt x))

theorem not_stale_of_locked {g : Geometry} {m : Mem} {x : Nat × Nat} (h : spotLocked g m x = true) :
    spotStale g m x = false := by
  unfold spotLocked at h
  simp [spotStale, h]

/-- What the scan carries: the words, the count, and the candidates, latest first. -/
structure Scan where
  mem : Mem
  repaired : Nat
  candidates : List Candidate

/-- The scan of one position. -/
def Scan.visit (g : Geometry) (a : Scan) (x : Nat × Nat) : Scan :=
  if spotLocked g a.mem x then
    { a with candidates := ⟨x.1, x.2, a.mem (g.seqAt x)⟩ :: a.candidates }
  else if spotStale g a.mem x then { a with mem := stealAt g a.mem x, repaired := a.repaired + 1 }
  else a

/-- The scan steals the stale spots and sets the locked ones aside. `m` is the memory it began with. -/
theorem Scan.foldl_visit {g : Geometry} {m : Mem} {l : List (Nat × Nat)}
    (hl : l.Pairwise fun x y => g.seqAt x ≠ g.seqAt y) {a : Scan} (hcount : a.mem .stealCount < 2 ^ 64)
    (ha : ∀ x ∈ l, a.mem (g.seqAt x) = m (g.seqAt x)) :
    Stolen g (l.filter (spotStale g m)) a.mem (l.foldl (visit g) a).mem ∧
      (l.foldl (visit g) a).repaired = a.repaired + l.countP (spotStale g m) ∧
      (l.foldl (visit g) a).candidates = ((l.filter (spotLocked g m)).map fun x =>
        Candidate.mk x.1 x.2 (m (g.seqAt x))).reverse ++ a.candidates := by
  induction l generalizing a with
  | nil => exact ⟨.nil hcount, rfl, rfl⟩
  | cons x l ih =>
    obtain ⟨hx, hl⟩ := List.pairwise_cons.mp hl
    have hseq := ha x List.mem_cons_self
    have hlocked : spotLocked g a.mem x = spotLocked g m x := by simp only [spotLocked, hseq]
    have hstale : spotStale g a.mem x = spotStale g m x := by simp only [spotStale, hseq]
    have hrest : ∀ y ∈ l, a.mem (g.seqAt y) = m (g.seqAt y) := fun y hy =>
      ha y (List.mem_cons_of_mem _ hy)
    rw [List.foldl_cons, visit, hlocked, hstale]
    by_cases h1 : spotLocked g m x = true
    · have h2 := not_stale_of_locked h1
      obtain ⟨hs, hr, hc⟩ := @ih hl { a with candidates := ⟨x.1, x.2, a.mem (g.seqAt x)⟩ :: a.candidates }
        hcount hrest
      rw [if_pos h1, List.filter_cons_of_neg (by simp [h2]), List.countP_cons_of_neg (by simp [h2]),
        List.filter_cons_of_pos h1, hc]
      exact ⟨hs, hr, by simp [hseq]⟩
    · rw [if_neg h1, List.filter_cons_of_neg h1]
      by_cases h2 : spotStale g m x = true
      · have hst := Stolen.single g a.mem x
        have hcount' : stealAt g a.mem x .stealCount < 2 ^ 64 := by
          rw [hst.count]
          exact Nat.mod_lt _ (by decide)
        have hrest' : ∀ y ∈ l, stealAt g a.mem x (g.seqAt y) = m (g.seqAt y) := fun y hy => by
          rw [hst.rest _ (by simp [Geometry.seqAt]) (by simpa using (hx y hy).symm), hrest y hy]
        obtain ⟨hs, hr, hc⟩ :=
          @ih hl { a with mem := stealAt g a.mem x, repaired := a.repaired + 1 } hcount' hrest'
        rw [if_pos h2, List.filter_cons_of_pos h2, List.countP_cons_of_pos h2]
        refine ⟨hst.append hs ?_, by rw [hr]; dsimp only; omega, hc⟩
        intro y hy z hz
        obtain rfl := List.mem_singleton.mp hy
        exact hx z (List.mem_of_mem_filter hz)
      · rw [if_neg h2, List.filter_cons_of_neg h2, List.countP_cons_of_neg h2]
        exact ih hl hcount hrest

/-- The grace pass on one candidate. -/
def Scan.settle (g : Geometry) (a : Scan) (c : Candidate) : Scan :=
  if a.mem (g.seqAt (c.ring, c.pos)) = c.seq then
    { a with mem := stealAt g a.mem (c.ring, c.pos), repaired := a.repaired + 1 }
  else a

/-- The grace pass finds every candidate as the scan left it. -/
theorem Scan.foldl_settle {g : Geometry} {m : Mem} {l : List (Nat × Nat)}
    (hl : l.Pairwise fun x y => g.seqAt x ≠ g.seqAt y) {a : Scan} (hcount : a.mem .stealCount < 2 ^ 64)
    (ha : ∀ x ∈ l, a.mem (g.seqAt x) = m (g.seqAt x)) :
    let b := (l.map fun x => Candidate.mk x.1 x.2 (m (g.seqAt x))).foldl (settle g) a
    Stolen g l a.mem b.mem ∧ b.repaired = a.repaired + l.length := by
  induction l generalizing a with
  | nil => exact ⟨.nil hcount, rfl⟩
  | cons x l ih =>
    obtain ⟨hx, hl⟩ := List.pairwise_cons.mp hl
    have hst := Stolen.single g a.mem x
    have hcount' : stealAt g a.mem x .stealCount < 2 ^ 64 := by
      rw [hst.count]
      exact Nat.mod_lt _ (by decide)
    have hrest : ∀ y ∈ l, stealAt g a.mem x (g.seqAt y) = m (g.seqAt y) := fun y hy => by
      rw [hst.rest _ (by simp [Geometry.seqAt]) (by simpa using (hx y hy).symm),
        ha y (List.mem_cons_of_mem _ hy)]
    obtain ⟨hs, hr⟩ :=
      @ih hl { a with mem := stealAt g a.mem x, repaired := a.repaired + 1 } hcount' hrest
    simp only [List.map_cons, List.foldl_cons, settle, ha x List.mem_cons_self, if_true]
    refine ⟨hst.append hs fun y hy z hz => ?_, hr.trans (by dsimp only [List.length_cons]; omega)⟩
    obtain rfl := List.mem_singleton.mp hy
    exact hx z hz

namespace Repair

/-- A repairer alone with the region. -/
def alone (g : Geometry) (procs : Procs) : Mem × Repair → Bool → Option (Mem × Repair) :=
  Kickmsg.alone procs (request g) (resume g)

variable {g : Geometry} {procs : Procs} {m : Mem} {u : Repair}

/-- No access of the repairer depends on a choice. -/
theorem alone_det (x : Mem × Repair) (c c' : Bool) : alone g procs x c = alone g procs x c' := by
  obtain ⟨m, u⟩ := x
  cases hpc : u.pc <;> simp only [alone, Kickmsg.alone, request, hpc, Option.map_none, Option.map_some] <;>
    simp only [Op.exec] <;> simp only [resume, hpc, Bool.false_eq_true, false_and, not_false_eq_true, and_true]

/-- A steal in the scan, of an entry whose word is the one observed. -/
theorem leads_steal {i wp pos seq : Nat} {cs : List Candidate} (h : m (g.seqAt (i, pos)) = seq) :
    Leads (alone g procs) (m, { u with pc := .stealCas i wp pos seq cs })
      (stealAt g m (i, pos), { u with repaired := u.repaired + 1 }.scanEntry g i wp (pos + 1) cs) := by
  have h1 : alone g procs (m, { u with pc := .stealCas i wp pos seq cs }) false =
      some (Function.update m (g.seqAt (i, pos)) (seqRepair pos),
        { u with pc := .stealSkip i wp pos cs }) := by
    simp [alone, Kickmsg.alone, request, Op.exec, resume, Geometry.seqAt, ← h]
  have h2 : alone g procs (Function.update m (g.seqAt (i, pos)) (seqRepair pos),
        { u with pc := .stealSkip i wp pos cs }) false =
      some (Function.update m (g.seqAt (i, pos)) (seqSkip pos),
        { u with pc := .stealCount i wp pos cs }) := by
    simp [alone, Kickmsg.alone, request, Op.exec, resume, Geometry.seqAt]
  have h3 : alone g procs (Function.update m (g.seqAt (i, pos)) (seqSkip pos),
        { u with pc := .stealCount i wp pos cs }) false =
      some (stealAt g m (i, pos),
        { u with repaired := u.repaired + 1 }.scanEntry g i wp (pos + 1) cs) := by
    simp [alone, Kickmsg.alone, request, Op.exec, resume, Geometry.seqAt, stealAt, scanEntry, scanRing,
      grace, Loc.modulus]
  exact .head h1 (.head h2 (.head h3 (.refl _)))

/-- A steal in the grace pass. -/
theorem leads_grace {c : Candidate} {cs : List Candidate} (h : m (g.seqAt (c.ring, c.pos)) = c.seq) :
    Leads (alone g procs) (m, { u with pc := .graceLoad c cs })
      (stealAt g m (c.ring, c.pos), { u with repaired := u.repaired + 1 }.grace cs) := by
  have h0 : alone g procs (m, { u with pc := .graceLoad c cs }) false =
      some (m, { u with pc := .graceCas c cs }) := by
    simp [alone, Kickmsg.alone, request, Op.exec, resume, ← h, Geometry.seqAt]
  have h1 : alone g procs (m, { u with pc := .graceCas c cs }) false =
      some (Function.update m (g.seqAt (c.ring, c.pos)) (seqRepair c.pos),
        { u with pc := .graceSkip c cs }) := by
    simp [alone, Kickmsg.alone, request, Op.exec, resume, Geometry.seqAt, ← h]
  have h2 : alone g procs (Function.update m (g.seqAt (c.ring, c.pos)) (seqRepair c.pos),
        { u with pc := .graceSkip c cs }) false =
      some (Function.update m (g.seqAt (c.ring, c.pos)) (seqSkip c.pos),
        { u with pc := .graceCount c cs }) := by
    simp [alone, Kickmsg.alone, request, Op.exec, resume, Geometry.seqAt]
  have h3 : alone g procs (Function.update m (g.seqAt (c.ring, c.pos)) (seqSkip c.pos),
        { u with pc := .graceCount c cs }) false =
      some (stealAt g m (c.ring, c.pos), { u with repaired := u.repaired + 1 }.grace cs) := by
    cases cs <;>
      simp [alone, Kickmsg.alone, request, Op.exec, resume, Geometry.seqAt, stealAt, grace, Loc.modulus]
  exact .head h0 (.head h1 (.head h2 (.head h3 (.refl _))))

/-- The scan of the rest of a ring's window. -/
theorem leads_entries {i wp : Nat} (n : Nat) {pos : Nat} (hn : pos + n = wp) (a : Scan) :
    let b := ((List.range' pos n).map (Prod.mk i)).foldl (Scan.visit g) a
    Leads (alone g procs) (a.mem, { u with repaired := a.repaired }.scanEntry g i wp pos a.candidates)
      (b.mem, { u with repaired := b.repaired }.scanRing g (i + 1) b.candidates) := by
  induction n generalizing pos a with
  | zero =>
    rw [scanEntry, if_neg (by omega)]
    exact .refl _
  | succ n ih =>
    rw [scanEntry, if_pos (by omega)]
    simp only [List.range'_succ, List.map_cons, List.foldl_cons]
    have hload : alone g procs (a.mem, { u with repaired := a.repaired, pc := .entry i wp pos a.candidates })
          false = some (a.mem, resume g
            { u with repaired := a.repaired, pc := .entry i wp pos a.candidates }
            ⟨a.mem (g.seqAt (i, pos)), false⟩) := rfl
    refine .head hload ?_
    simp only [resume]
    by_cases h1 : seqIsLocked (a.mem (g.seqAt (i, pos))) = true
    · have hlocked : spotLocked g a.mem (i, pos) = true := h1
      rw [if_pos h1, Scan.visit, if_pos hlocked]
      exact ih (by omega)
        { a with candidates := ⟨i, pos, a.mem (g.seqAt (i, pos))⟩ :: a.candidates }
    · have hlocked : ¬spotLocked g a.mem (i, pos) = true := h1
      rw [if_neg h1, Scan.visit, if_neg hlocked]
      by_cases h2 : u64 (seqPos (a.mem (g.seqAt (i, pos))) + g.subRingCapacity) < u64 (pos + 1)
      · have hstale : spotStale g a.mem (i, pos) = true := by simp [spotStale, h1, h2]
        rw [if_pos h2, if_pos hstale]
        exact .trans (leads_steal (u := { u with repaired := a.repaired }) rfl) (ih (by omega)
          { a with mem := stealAt g a.mem (i, pos), repaired := a.repaired + 1 })
      · have hstale : ¬spotStale g a.mem (i, pos) = true := by
          simp only [spotStale, h2, decide_false, Bool.and_false, Bool.false_eq_true, not_false_eq_true]
        rw [if_neg h2, if_neg hstale]
        exact ih (by omega) a

/-- The scan leaves every `write_pos` alone. -/
theorem writePos_foldl_visit (l : List (Nat × Nat)) (a : Scan) (r : Nat) :
    (l.foldl (Scan.visit g) a).mem (.writePos r) = a.mem (.writePos r) := by
  induction l generalizing a with
  | nil => rfl
  | cons x l ih =>
    rw [List.foldl_cons, ih, Scan.visit]
    split_ifs <;> simp [stealAt, Geometry.seqAt]

variable (procs) in
/-- The scan of the rings that are left. -/
theorem leads_rings (n : Nat) {i : Nat} (hn : i + n = g.maxSubs) (a : Scan)
    (ha : ∀ r, a.mem (.writePos r) = m (.writePos r)) :
    let b := ((List.range' i n).flatMap fun i => (window g m i).map (Prod.mk i)).foldl
      (Scan.visit g) a
    Leads (alone g procs) (a.mem, { u with repaired := a.repaired }.scanRing g i a.candidates)
      (b.mem, { u with repaired := b.repaired }.grace b.candidates.reverse) := by
  induction n generalizing i a with
  | zero =>
    rw [scanRing, if_neg (by omega)]
    exact .refl _
  | succ n ih =>
    rw [scanRing, if_pos (by omega)]
    simp only [List.range'_succ, List.flatMap_cons, List.foldl_append]
    have hload : alone g procs (a.mem, { u with repaired := a.repaired, pc := .ringPos i a.candidates })
          false = some (a.mem, { u with repaired := a.repaired }.scanEntry g i (m (.writePos i))
            (windowStart g (m (.writePos i))) a.candidates) := by
      rw [← ha]
      simp [alone, Kickmsg.alone, request, Op.exec, resume, windowStart, scanEntry, scanRing, grace]
    refine .head hload (.trans (leads_entries (m (.writePos i) - windowStart g (m (.writePos i)))
      (by unfold windowStart; split_ifs <;> omega) a) ?_)
    exact ih (by omega) _ fun r => (writePos_foldl_visit _ _ _).trans (ha r)

/-- The grace pass. -/
theorem leads_candidates (cs : List Candidate) (a : Scan) :
    Leads (alone g procs) (a.mem, { u with repaired := a.repaired }.grace cs)
      ((cs.foldl (Scan.settle g) a).mem, ⟨(cs.foldl (Scan.settle g) a).repaired, .idle⟩) := by
  induction cs generalizing a with
  | nil => exact .refl _
  | cons c cs ih =>
    rw [List.foldl_cons, Scan.settle]
    by_cases h : a.mem (g.seqAt (c.ring, c.pos)) = c.seq
    · rw [if_pos h]
      exact .trans (leads_grace h) (ih { a with
        mem := stealAt g a.mem (c.ring, c.pos), repaired := a.repaired + 1 })
    · rw [if_neg h]
      have h' : a.mem (.sequence c.ring (g.entryIdx c.pos)) ≠ c.seq := h
      have hload : alone g procs (a.mem, { u with repaired := a.repaired, pc := .graceLoad c cs })
            false = some (a.mem, { u with repaired := a.repaired }.grace cs) := by
        cases cs <;> simp [alone, Kickmsg.alone, request, Op.exec, resume, grace, h']
      exact .head hload (ih a)

/-- `repair_locked_entries()` returns `n` and leaves the words `m'`: there is such a run, and every run
that returns is one. -/
def Yields (g : Geometry) (procs : Procs) (m : Mem) (u : Repair) (n : Nat) (m' : Mem) : Prop :=
  Leads (alone g procs) (m, u.start g) (m', ⟨n, .idle⟩) ∧
    ∀ es x, solo (alone g procs) (m, u.start g) es = some x → x.2.pc = .idle → x = (m', ⟨n, .idle⟩)

theorem alone_idle {x : Mem × Repair} (h : x.2.pc = .idle) (c : Bool) : alone g procs x c = none := by
  simp [alone, Kickmsg.alone, request, h]

theorem Yields.of_leads {n : Nat} {m' : Mem}
    (h : Leads (alone g procs) (m, u.start g) (m', ⟨n, .idle⟩)) : Yields g procs m u n m' := by
  refine ⟨h, fun es x hes hx => ?_⟩
  obtain ⟨fs, hfs⟩ := h
  exact solo_unique alone_det hes hfs (alone_idle hx) (alone_idle rfl)

end Repair

/-! ## Distinct entries -/

section Spots

variable {g : Geometry} (hg : g.Valid) (m : Mem)

theorem mem_spots {x : Nat × Nat} : x ∈ spots g m ↔
    x.1 < g.maxSubs ∧ windowStart g (m (.writePos x.1)) ≤ x.2 ∧ x.2 < m (.writePos x.1) := by
  obtain ⟨r, p⟩ := x
  have hle : windowStart g (m (.writePos r)) ≤ m (.writePos r) := by
    unfold windowStart
    split_ifs <;> omega
  simp only [spots, window, List.mem_flatMap, List.mem_range, List.mem_map, List.mem_range'_1,
    Prod.mk.injEq]
  constructor
  · rintro ⟨i, hi, q, ⟨h1, h2⟩, rfl, rfl⟩
    exact ⟨hi, h1, by omega⟩
  · rintro ⟨hr, h1, h2⟩
    exact ⟨r, hr, p, ⟨h1, by omega⟩, rfl, rfl⟩

include hg

/-- Positions less than a lap apart have different entries. -/
theorem seqAt_ne {r r' p q : Nat} (hlt : r ≠ r' ∨ (p < q ∧ q < p + g.subRingCapacity)) :
    g.seqAt (r, p) ≠ g.seqAt (r', q) := by
  intro he
  simp only [Geometry.seqAt, Loc.sequence.injEq, hg.entryIdx_eq] at he
  rcases hlt with hne | ⟨hlt, hgt⟩
  · exact hne he.1
  · have hmod := Nat.sub_mod_eq_zero_of_mod_eq he.2.symm
    have hpos : 0 < q - p := by omega
    have := Nat.le_of_dvd hpos (Nat.dvd_of_mod_eq_zero hmod)
    omega

/-- No two spots share an entry. -/
theorem pairwise_spots : (spots g m).Pairwise fun x y => g.seqAt x ≠ g.seqAt y := by
  unfold spots
  rw [List.flatMap, List.pairwise_flatten]
  refine ⟨fun l hl => ?_, ?_⟩
  · obtain ⟨i, -, rfl⟩ := List.mem_map.mp hl
    rw [List.pairwise_map]
    refine List.Pairwise.imp_of_mem ?_ (List.pairwise_lt_range' (s := windowStart g (m (.writePos i)))
      (n := m (.writePos i) - windowStart g (m (.writePos i))))
    intro p q hp hq hlt
    refine seqAt_ne hg (.inr ⟨hlt, ?_⟩)
    simp only [window, List.mem_range'_1, windowStart] at hp hq
    split_ifs at hp hq <;> omega
  · rw [List.pairwise_map]
    refine List.Pairwise.imp ?_ List.nodup_range
    intro i j hij x hx y hy
    obtain ⟨p, -, rfl⟩ := List.mem_map.mp hx
    obtain ⟨q, -, rfl⟩ := List.mem_map.mp hy
    exact seqAt_ne hg (.inl hij)

/-- A spot is known by its entry. -/
theorem spot_eq {x y : Nat × Nat} (hx : x ∈ spots g m) (hy : y ∈ spots g m)
    (he : g.seqAt x = g.seqAt y) : x = y := by
  by_contra hxy
  have hsymm : Std.Symm fun x y : Nat × Nat => g.seqAt x ≠ g.seqAt y := ⟨fun _ _ => Ne.symm⟩
  exact (pairwise_spots hg m).forall hx hy hxy he

end Spots

/-! ## One repair -/

/-- A publisher alone with the region. -/
def Pub.alone (g : Geometry) (procs : Procs) : Mem × Pub → Bool → Option (Mem × Pub) :=
  Kickmsg.alone procs (Pub.request g) (Pub.resume g)

section Repaired

variable {g : Geometry} {procs : Procs} {m m' : Mem}

theorem spotStuck_eq (x : Nat × Nat) : spotStuck g m x = (spotStale g m x || spotLocked g m x) := by
  unfold spotStuck entryStuck spotStale spotLocked
  cases seqIsLocked (m (g.seqAt x)) <;> simp

/-- A stuck spot is locked or stale, and not both. -/
theorem countP_spotStuck (l : List (Nat × Nat)) :
    l.countP (spotStuck g m) = (l.filter (spotStale g m) ++ l.filter (spotLocked g m)).length := by
  rw [List.length_append, ← List.countP_eq_length_filter, ← List.countP_eq_length_filter]
  induction l with
  | nil => rfl
  | cons x l ih =>
    rw [List.countP_cons, List.countP_cons, List.countP_cons, ih, spotStuck_eq]
    cases hl : spotLocked g m x
    · simp
      omega
    · simp [not_stale_of_locked hl]
      omega

theorem mem_stuck {l : List (Nat × Nat)} {x : Nat × Nat} :
    x ∈ l.filter (spotStale g m) ++ l.filter (spotLocked g m) ↔ x ∈ l ∧ spotStuck g m x = true := by
  rw [List.mem_append, List.mem_filter, List.mem_filter, spotStuck_eq, Bool.or_eq_true]
  exact and_or_left.symm

variable (procs) in
/-- The repair steals the stuck spots, each once. -/
theorem repair_yields (hg : g.Valid) (hm : m.InRange) (u : Repair) : ∃ m',
    Repair.Yields g procs m u ((spots g m).countP (spotStuck g m)) m' ∧
    Stolen g ((spots g m).filter (spotStale g m) ++ (spots g m).filter (spotLocked g m)) m m' := by
  have hl := pairwise_spots hg m
  have hscan := Scan.foldl_visit (g := g) (m := m) hl (a := ⟨m, 0, []⟩) (hm .stealCount) fun _ _ => rfl
  obtain ⟨hs, hr, hc⟩ := hscan
  have hruns := Repair.leads_rings procs (m := m) (u := u) g.maxSubs (Nat.zero_add _)
    ⟨m, 0, []⟩ fun _ => rfl
  rw [← List.range_eq_range'] at hruns
  set b := (spots g m).foldl (Scan.visit g) ⟨m, 0, []⟩ with hb
  have hb64 : b.mem .stealCount < 2 ^ 64 := by
    rw [hs.count]
    exact Nat.mod_lt _ (by decide)
  -- the locked spots are as they were when the scan passed them
  have hne : ∀ x ∈ (spots g m).filter (spotStale g m), ∀ y ∈ (spots g m).filter (spotLocked g m),
      g.seqAt x ≠ g.seqAt y := by
    intro x hx y hy he
    rw [List.mem_filter] at hx hy
    have h1 := hx.2
    have h2 := hy.2
    rw [spotStale, he] at h1
    rw [spotLocked] at h2
    rw [h2] at h1
    simp at h1
  have hlocked : ∀ y ∈ (spots g m).filter (spotLocked g m), b.mem (g.seqAt y) = m (g.seqAt y) :=
    fun y hy => hs.rest _ (by simp [Geometry.seqAt]) fun x hx => (hne x hx y hy).symm
  have hgrace := Scan.foldl_settle (g := g) (m := m) (hl.sublist List.filter_sublist) hb64 hlocked
  obtain ⟨hs', hr'⟩ := hgrace
  have hcs : b.candidates.reverse = ((spots g m).filter (spotLocked g m)).map fun x =>
      Candidate.mk x.1 x.2 (m (g.seqAt x)) := by
    rw [hc, List.append_nil, List.reverse_reverse]
  rw [← hcs] at hs' hr'
  refine ⟨_, .of_leads (.trans hruns ?_), hs.append hs' hne⟩
  have hcount : (spots g m).countP (spotStuck g m) =
      (b.candidates.reverse.foldl (Scan.settle g) b).repaired := by
    rw [hr', hr, countP_spotStuck, List.length_append, ← List.countP_eq_length_filter, Nat.zero_add]
  rw [hcount]
  exact Repair.leads_candidates _ b

/-- A quiescent repair does to the region what the diagnosis says of it: it steals the stuck spots and
nothing else, as many as were reported, and none is left; a subscriber at such a position loses one
sample, and the publisher of the next lap finds the entry it waits for. -/
structure Mends (g : Geometry) (procs : Procs) (m m' : Mem) : Prop where
  skip : ∀ x ∈ spots g m, spotStuck g m x = true → m' (g.seqAt x) = seqSkip x.2
  rest : ∀ w, w ≠ .stealCount → (∀ x ∈ spots g m, spotStuck g m x = true → w ≠ g.seqAt x) → m' w = m w
  clean : ∀ c, (diagnose g procs c m').lockedEntries = 0
  again : ∀ u, Repair.Yields g procs m' u 0 m'
  lost : ∀ x ∈ spots g m, spotStuck g m x = true → ∀ (v : Sub) (k : Nat) (cs : Bool × Bool × Bool),
    v.ringIdx = x.1 → v.readPos = x.2 →
    solo (Sub.alone g procs) (m', { v with pc := .recvPos k }) [cs.1, cs.2.1, cs.2.2] =
      some (Function.update m' (.lostCount x.1) ((m' (.lostCount x.1) + 1) % 2 ^ 64),
        { v with lost := v.lost + 1, readPos := x.2 + 1 }.recvLoop (k + 1))
  next : ∀ x ∈ spots g m, spotStuck g m x = true → ∀ (v : Pub) (d : Delivery) (cs : Bool × Bool),
    d.i = x.1 →
    solo (Pub.alone g procs) (m', { v with pc := .peek d (x.2 + g.subRingCapacity) })
        [cs.1, cs.2, false] =
      some (Function.update m' (g.seqAt x) (seqLock (x.2 + g.subRingCapacity)),
        { v with pc := .check d (x.2 + g.subRingCapacity) })

theorem seqSkip_lt {p : Nat} (h : p + 1 < 2 ^ 62) : seqSkip p < 2 ^ 64 := by
  rw [seqSkip_eq h]
  omega

/-- A skip marker of the current lap is not stuck. -/
theorem not_stuck_skip (hg : g.Valid) {p : Nat} (h : p + 1 < 2 ^ 62) :
    entryStuck g p (seqSkip p) = false := by
  have hcap := hg.capacity_lt
  have hpos := hg.capacity_pos
  have hs := seqSkip_lt h
  rw [entryStuck, seqIsLocked_eq hs, seqPos_eq, seqSkip_eq h, Bool.or_eq_false_iff,
    decide_eq_false_iff_not, decide_eq_false_iff_not, u64, u64]
  constructor <;> omega

/-- A subscriber at a skip marker of its position loses one sample. -/
theorem solo_lost {v : Sub} {k p r : Nat} {c₁ c₂ c₃ : Bool} (hr : v.ringIdx = r) (hp : v.readPos = p)
    (h62 : p + 1 < 2 ^ 62) (hlt : p < m' (.writePos r)) (hle : m' (.writePos r) - p ≤ g.subRingCapacity)
    (hskip : m' (g.seqAt (r, p)) = seqSkip p) :
    solo (Sub.alone g procs) (m', { v with pc := .recvPos k }) [c₁, c₂, c₃] =
      some (Function.update m' (.lostCount r) ((m' (.lostCount r) + 1) % 2 ^ 64),
        { v with lost := v.lost + 1, readPos := p + 1 }.recvLoop (k + 1)) := by
  subst hr hp
  have hu : u64 (v.readPos + 1) = v.readPos + 1 := Nat.mod_eq_of_lt (by omega)
  have hs : m' (.sequence v.ringIdx (g.entryIdx v.readPos)) = seqSkip v.readPos := hskip
  have h₁ : Sub.alone g procs (m', { v with pc := .recvPos k }) c₁ =
      some (m', { v with pc := .recvSeq k }) := by
    simp [Sub.alone, alone, Sub.request, Op.exec, Sub.resume, Nat.not_le.mpr hlt, Nat.not_lt.mpr hle]
  have hwith : ∀ w : Sub, w.readPos = v.readPos →
      w.recvWith k (seqSkip v.readPos) = { w with pc := .recvLost k } := by
    intro w hw
    have hne : seqSkip v.readPos ≠ v.readPos + 1 := by
      rw [seqSkip_eq h62]
      omega
    have hsk : seqIsSkip (seqSkip v.readPos) = true ∧ seqPos (seqSkip v.readPos) = v.readPos + 1 := by
      rw [seqIsSkip_eq (seqSkip_lt h62), seqPos_eq, seqSkip_eq h62, decide_eq_true_eq]
      omega
    rw [Sub.recvWith, hw, hu, if_pos hne, if_pos hsk]
  have h₂ : Sub.alone g procs (m', { v with pc := .recvSeq k }) c₂ =
      some (m', { v with pc := .recvLost k }) := by
    simp [Sub.alone, alone, Sub.request, Op.exec, Sub.resume, hs, hwith]
  have h₃ : Sub.alone g procs (m', { v with pc := .recvLost k }) c₃ =
      some (Function.update m' (.lostCount v.ringIdx) ((m' (.lostCount v.ringIdx) + 1) % 2 ^ 64),
        { v with lost := v.lost + 1, readPos := v.readPos + 1 }.recvLoop (k + 1)) := by
    simp only [Sub.alone, alone, Sub.request, Option.map_some, Op.exec]
    simp only [Sub.resume, hu]
    rfl
  rw [solo_cons, h₁, Option.bind_some, solo_cons, h₂, Option.bind_some, solo_cons, h₃]
  rfl

/-- The publisher one lap later finds a skip marker resolved, and locks the entry. -/
theorem solo_next (hg : g.Valid) {v : Pub} {d : Delivery} {p : Nat} {c₁ c₂ : Bool}
    (h62 : p + 1 < 2 ^ 62) (hskip : m' (g.seqAt (d.i, p)) = seqSkip p) :
    solo (Pub.alone g procs) (m', { v with pc := .peek d (p + g.subRingCapacity) }) [c₁, c₂, false] =
      some (Function.update m' (g.seqAt (d.i, p)) (seqLock (p + g.subRingCapacity)),
        { v with pc := .check d (p + g.subRingCapacity) }) := by
  have hidx : g.entryIdx (p + g.subRingCapacity) = g.entryIdx p := by
    rw [hg.entryIdx_eq, hg.entryIdx_eq, Nat.add_mod_right]
  have hs : m' (.sequence d.i (g.entryIdx p)) = seqSkip p := hskip
  have hprev : Pub.prevSeq g (p + g.subRingCapacity) = p + 1 := by
    rw [Pub.prevSeq, if_pos (Nat.le_add_left _ _), Nat.add_sub_cancel]
    exact Nat.mod_eq_of_lt (by omega)
  have hfree : seqIsLocked (seqSkip p) = false ∧ seqPos (seqSkip p) = p + 1 := by
    rw [seqIsLocked_eq (seqSkip_lt h62), seqPos_eq, seqSkip_eq h62, decide_eq_false_iff_not]
    omega
  have hres : Pub.resolved (seqSkip p) (p + 1) = true := by
    simp [Pub.resolved, hfree.1, hfree.2]
  have h₁ : Pub.alone g procs (m', { v with pc := .peek d (p + g.subRingCapacity) }) c₁ =
      some (m', { v with pc := .waitFirst d (p + g.subRingCapacity) }) := by
    simp [Pub.alone, alone, Pub.request, Op.exec, Pub.resume, hidx, hs, hprev, hres]
  have h₂ : Pub.alone g procs (m', { v with pc := .waitFirst d (p + g.subRingCapacity) }) c₂ =
      some (m', { v with
        pc := .lock d (p + g.subRingCapacity) ⟨seqSkip p, false⟩ 0 (seqSkip p) }) := by
    simp [Pub.alone, alone, Pub.request, Op.exec, Pub.resume, hidx, hs, hprev, hres, Pub.tryLock,
      hfree.1, hfree.2]
  have h₃ : Pub.alone g procs (m', { v with
        pc := .lock d (p + g.subRingCapacity) ⟨seqSkip p, false⟩ 0 (seqSkip p) }) false =
      some (Function.update m' (g.seqAt (d.i, p)) (seqLock (p + g.subRingCapacity)),
        { v with pc := .check d (p + g.subRingCapacity) }) := by
    simp [Pub.alone, alone, Pub.request, Op.exec, Pub.resume, hidx, hs, Geometry.seqAt]
  rw [solo_cons, h₁, Option.bind_some, solo_cons, h₂, Option.bind_some, solo_cons, h₃]
  rfl

/-- What the steals leave is mended. -/
theorem mends_of_stolen (hg : g.Valid) (hm : m.InRange)
    (hwp : ∀ r < g.maxSubs, m (.writePos r) < 2 ^ 62)
    (h : Stolen g ((spots g m).filter (spotStale g m) ++ (spots g m).filter (spotLocked g m)) m m') :
    Mends g procs m m' := by
  have hskip : ∀ x ∈ spots g m, spotStuck g m x = true → m' (g.seqAt x) = seqSkip x.2 :=
    fun x hx hs => h.skip x (mem_stuck.mpr ⟨hx, hs⟩)
  have hrest : ∀ w, w ≠ .stealCount → (∀ x ∈ spots g m, spotStuck g m x = true → w ≠ g.seqAt x) →
      m' w = m w :=
    fun w hw hx => h.rest w hw fun x hmem => hx x (mem_stuck.mp hmem).1 (mem_stuck.mp hmem).2
  have hpos : ∀ r, m' (.writePos r) = m (.writePos r) := fun r =>
    hrest _ (by simp) fun x _ _ => by simp [Geometry.seqAt]
  have hlt : ∀ x ∈ spots g m, x.2 < m (.writePos x.1) ∧ x.2 + 1 < 2 ^ 62 := by
    intro x hx
    obtain ⟨h1, -, h3⟩ := (mem_spots m).mp hx
    have := hwp _ h1
    exact ⟨h3, by omega⟩
  have hspots : spots g m' = spots g m := by
    unfold spots window
    simp only [hpos]
  -- no spot is stuck any more
  have hfree : ∀ x ∈ spots g m, spotStuck g m' x = false := by
    intro x hx
    by_cases hs : spotStuck g m x = true
    · rw [spotStuck, hskip x hx hs]
      exact not_stuck_skip hg (hlt x hx).2
    · have hsame : m' (g.seqAt x) = m (g.seqAt x) := by
        refine hrest _ (by simp [Geometry.seqAt]) fun y hy hys he => ?_
        exact hs (spot_eq hg m hx hy he ▸ hys)
      rw [spotStuck, hsame]
      simpa [spotStuck] using hs
  have hcount : (spots g m').countP (spotStuck g m') = 0 := by
    rw [hspots, List.countP_eq_zero]
    exact fun x hx => by simp [hfree x hx]
  have hm' : m'.InRange := by
    intro w
    by_cases hw : w = .stealCount
    · rw [hw, h.count]
      exact Nat.mod_lt _ (by decide)
    · by_cases hx : ∃ x ∈ spots g m, spotStuck g m x = true ∧ w = g.seqAt x
      · obtain ⟨x, hx, hs, rfl⟩ := hx
        rw [hskip x hx hs]
        exact seqSkip_lt (hlt x hx).2
      · rw [hrest w hw fun x hx' hs he => hx ⟨x, hx', hs, he⟩]
        exact hm w
  refine ⟨hskip, hrest, fun c => ?_, fun u => ?_, fun x hx hs v k cs hr hp => ?_,
    fun x hx hs v d cs hd => ?_⟩
  · rw [diagnose_lockedEntries, hcount]
    rfl
  · obtain ⟨m₂, hy, hst⟩ := repair_yields procs hg hm' u
    have hm₂ : m₂ = m' := by
      have hnil := countP_spotStuck (g := g) (m := m') (spots g m')
      rw [hcount] at hnil
      rw [List.length_eq_zero_iff.mp hnil.symm] at hst
      funext w
      by_cases hw : w = .stealCount
      · rw [hw, hst.count]
        exact Nat.mod_eq_of_lt (hm' .stealCount)
      · exact hst.rest w hw (by simp)
    rw [hcount, hm₂] at hy
    exact hy
  · obtain ⟨h1, h2, h3⟩ := (mem_spots m).mp hx
    refine solo_lost hr hp (hlt x hx).2 (by rw [hpos]; exact h3) ?_ (hskip x hx hs)
    rw [hpos]
    unfold windowStart at h2
    split_ifs at h2 <;> omega
  · have hx' : g.seqAt x = g.seqAt (d.i, x.2) := by rw [hd]
    rw [hx']
    exact solo_next hg (hlt x hx).2 (hx' ▸ hskip x hx hs)

/-- What is claimed of a quiescent repair: it returns what `diagnose` has just reported as
`locked_entries`, adds it to `steal_count`, and mends the region. -/
def RepairsWhatIsReported (g : Geometry) (procs : Procs) (m : Mem) : Prop :=
  ∀ c u, ∃ m', Repair.Yields g procs m u (diagnose g procs c m).lockedEntries m' ∧
    m' .stealCount = (m .stealCount + (diagnose g procs c m).lockedEntries) % 2 ^ 64 ∧
    Mends g procs m m'

/-- `diagnose` counts in 32 bits and the repair in the width of the machine: the two agree, and all the
rest holds, exactly when fewer than `2 ^ 32` entries are stuck. -/
theorem repairs_what_is_reported (hg : g.Valid) (hm : m.InRange)
    (hwp : ∀ r < g.maxSubs, m (.writePos r) < 2 ^ 62) :
    RepairsWhatIsReported g procs m ↔ (spots g m).countP (spotStuck g m) < 2 ^ 32 := by
  constructor
  · intro h
    obtain ⟨m₁, ⟨hy, -⟩, -, -⟩ := h false ⟨0, .idle⟩
    obtain ⟨m₂, ⟨-, hy'⟩, -⟩ := repair_yields procs hg hm ⟨0, .idle⟩
    obtain ⟨es, hes⟩ := hy
    have heq := hy' es _ hes rfl
    simp only [Prod.mk.injEq, Repair.mk.injEq] at heq
    rw [diagnose_lockedEntries] at heq
    rw [← heq.2.1]
    exact Nat.mod_lt _ (by decide)
  · intro hlt c u
    have hcount : (diagnose g procs c m).lockedEntries = (spots g m).countP (spotStuck g m) := by
      rw [diagnose_lockedEntries]
      exact Nat.mod_eq_of_lt hlt
    obtain ⟨m', hy, hst⟩ := repair_yields procs hg hm u
    rw [hcount]
    exact ⟨m', hy, by rw [hst.count, countP_spotStuck], mends_of_stolen hg hm hwp hst⟩

end Repaired

/-- One locked entry, and one that a publisher left before its lock. -/
def stuckRing : Mem :=
  Function.update (Function.update (fun _ => 0) (.writePos 0) 4) (.sequence 0 1) (seqLock 3)

theorem repairs_what_is_reported_stuck :
    RepairsWhatIsReported Sys.smallGeometry (fun _ => none) stuckRing ∧
      (spots Sys.smallGeometry stuckRing).countP (spotStuck Sys.smallGeometry stuckRing) = 2 := by
  have hm : stuckRing.InRange :=
    Mem.InRange.update (Mem.InRange.update (fun l => l.modulus_pos) (by decide)) (by decide)
  refine ⟨(repairs_what_is_reported Sys.valid_smallGeometry hm fun r hr => ?_).mpr (by decide), by decide⟩
  obtain rfl : r = 0 := Nat.lt_one_iff.mp hr
  decide

/-- A ring of `2 ^ 32` entries, each of them locked. -/
def hugeGeometry : Geometry := (Config.mk 1 (2 ^ 32) 1 8 0 0).geometry 0

theorem valid_hugeGeometry : hugeGeometry.Valid :=
  (Config.Accepted.mk ⟨32, by decide, rfl⟩ (by decide) (by decide) (by decide) :
    (Config.mk 1 (2 ^ 32) 1 8 0 0).Accepted).valid 0

def lockedRegion : Mem
  | .writePos _ => 2 ^ 32
  | .sequence _ _ => 2 ^ 63
  | _ => 0

/-- All of them are repaired, and none was reported. -/
theorem reported_none_of_many : ¬RepairsWhatIsReported hugeGeometry (fun _ => none) lockedRegion := by
  have hm : lockedRegion.InRange := by
    intro l
    cases l <;> simp [lockedRegion, Loc.modulus]
  rw [repairs_what_is_reported valid_hugeGeometry hm fun r _ => by simp [lockedRegion], Nat.not_lt]
  have hall : ∀ x ∈ spots hugeGeometry lockedRegion, spotStuck hugeGeometry lockedRegion x = true := by
    intro x _
    have hl : seqIsLocked (2 ^ 63) = true := by decide
    simp only [spotStuck, entryStuck, Geometry.seqAt, lockedRegion, hl, Bool.true_or]
  have hlen : (window hugeGeometry lockedRegion 0).length = 2 ^ 32 := by
    rw [window, List.length_range']
    rfl
  rw [List.countP_eq_length.mpr hall, spots, show hugeGeometry.maxSubs = 1 from rfl]
  simp only [List.range_one, List.flatMap_cons, List.flatMap_nil, List.append_nil, List.length_map, hlen,
    le_refl]

end Kickmsg
