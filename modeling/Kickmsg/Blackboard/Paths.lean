import Kickmsg.Blackboard.Opening

/-!
# The two ways to a board

`Blackboard::open_or_create` and `Node::blackboard` on one namespace and one name. Both reach the region of
one name. A node hashes the namespace it has sanitized and a direct open the raw one, so the fingerprints
agree when the namespace is its own sanitization, and otherwise only if FNV-1a collides.
-/

namespace Kickmsg.Blackboard

open Lib Naming Identity

variable {s : Shm} {ns ns' name shm node : List UInt8} {cfg cfg' : BoardConfig} {c d : Caller}
  {check : Bool} {owner : List UInt8}

/-! ## Opening what a creator left -/

theorem derivedIdentity_ne_zero (ns name : List UInt8) : derivedIdentity ns name ≠ 0 := by
  unfold derivedIdentity
  split_ifs with hz
  · decide
  · exact hz

variable (shm cfg' check) in
/-- The first look decides, if the region is initialized. -/
theorem spinOpen_created (hv : cfg.Valid) (hc : check = true → bbConfigHash cfg = bbConfigHash cfg') (n : Nat) :
    spinOpen shm cfg' check (List.replicate (n + 1) (some (initAsCreator cfg c))) =
      if cfg'.identity != 0 && cfg.identity != 0 && cfg.identity != cfg'.identity then
        .error (.runtimeError "Blackboard identity mismatch on " shm)
      else .ok (some ⟨shm, [], regionSize cfg.capacity cfg.maxValueSize,
        makeGeometry cfg.capacity cfg.maxValueSize, stampHeader cfg c⟩) := by
  have hsized : (stampHeader cfg c).Sized (regionSize cfg.capacity cfg.maxValueSize) :=
    sized_stampHeader hv (UInt64.le_refl _)
  have hlarge : ¬ (initAsCreator cfg c).size < sizeofBoardHeader := by
    have h := hsized.total
    rw [Bool.or_eq_false_iff, decide_eq_false_iff_not] at h
    exact h.1
  have hmagic : (initAsCreator cfg c).header.magic = boardMagic := rfl
  have hcheck : checkHeader (initAsCreator cfg c).header (initAsCreator cfg c).size cfg' check = _ :=
    checkHeader_sized rfl hsized hc
  rw [List.replicate_succ, spinOpen, if_neg hlarge, if_neg (not_not_intro hmagic), hcheck]
  split_ifs with h₁ h₂ h₂
  · rfl
  · exact absurd h₁ h₂
  · exact absurd h₂ h₁
  · rfl

variable (ns name) in
theorem BoardConfig.Valid.stampIdentity (hv : cfg.Valid) : (stampIdentity ns name cfg).Valid := by
  unfold Blackboard.stampIdentity
  split_ifs
  · exact ⟨hv.capacity_pos, hv.capacity_le, hv.value_pos, hv.value_le⟩
  · exact hv

variable (ns name cfg) in
theorem stampIdentity_sizes : (stampIdentity ns name cfg).capacity = cfg.capacity ∧
    (stampIdentity ns name cfg).maxValueSize = cfg.maxValueSize := by
  unfold stampIdentity
  split_ifs
  · exact ⟨rfl, rfl⟩
  · exact ⟨rfl, rfl⟩

theorem bbConfigHash_stampIdentity : bbConfigHash (stampIdentity ns name cfg) = bbConfigHash cfg := by
  obtain ⟨hc, hv⟩ := stampIdentity_sizes ns name cfg
  rw [bbConfigHash, bbConfigHash, hc, hv]

theorem identity_stampIdentity (hid : cfg.identity = 0) :
    (stampIdentity ns name cfg).identity = derivedIdentity ns name := by
  rw [stampIdentity, if_pos hid]

/-- The handle of the creator. -/
def createdHandle (shm owner ns name : List UInt8) (cfg : BoardConfig) (c : Caller) : BoardHandle :=
  ⟨shm, owner, (initAsCreator (stampIdentity ns name cfg) c).size, makeGeometry cfg.capacity cfg.maxValueSize,
    (initAsCreator (stampIdentity ns name cfg) c).header⟩

variable (owner) in
/-- The name is free. -/
theorem openOrCreate_free (hv : cfg.Valid) (hname : shmName ns name = .ok shm) (hfree : s shm = none) :
    openOrCreate s ns name cfg owner c =
      .ok (Function.update s shm (some (initAsCreator (stampIdentity ns name cfg) c)),
        createdHandle shm owner ns name cfg c) := by
  obtain ⟨hc, hval⟩ := hv.ranges
  rw [openOrCreate, if_neg hc, if_neg hval]
  simp only [hname, Except.mapError, bind, Except.bind, hfree, createdHandle]

/-- Two fingerprints that are given and differ. -/
theorem mismatch_iff (ns' ns name : List UInt8) :
    (derivedIdentity ns name != 0 && derivedIdentity ns' name != 0 &&
      derivedIdentity ns' name != derivedIdentity ns name) = true ↔
      derivedIdentity ns' name ≠ derivedIdentity ns name := by
  rw [Bool.and_eq_true, Bool.and_eq_true, bne_iff_ne, bne_iff_ne, bne_iff_ne]
  exact ⟨fun h => h.2, fun h => ⟨⟨derivedIdentity_ne_zero ns name, derivedIdentity_ne_zero ns' name⟩, h⟩⟩

/-- The name is taken. -/
theorem openOrCreate_spin {r : BoardRegion} (hv : cfg.Valid) (hname : shmName ns name = .ok shm)
    (hs : s shm = some r) {opened : Except OpenError (Option BoardHandle)}
    (hspin : spinOpen shm (stampIdentity ns name cfg) true (List.replicate spinAttempts (some r)) = opened) :
    (∀ e, opened = .error e → openOrCreate s ns name cfg owner c = .error e) ∧
    ∀ b, opened = .ok (some b) →
      openOrCreate s ns name cfg owner c = .ok (s, { b with ownerName := owner }) := by
  obtain ⟨hc, hval⟩ := hv.ranges
  subst hspin
  refine ⟨fun e he => ?_, fun b hb => ?_⟩
  · rw [openOrCreate, if_neg hc, if_neg hval]
    simp only [hname, Except.mapError, bind, Except.bind, hs, he]
  · rw [openOrCreate, if_neg hc, if_neg hval]
    simp only [hname, Except.mapError, bind, Except.bind, hs, hb]

theorem tryOpen_spin {r : BoardRegion} (hname : shmName ns name = .ok shm) (hs : s shm = some r)
    {opened : Except OpenError (Option BoardHandle)}
    (hspin : spinOpen shm ⟨256, 1008, derivedIdentity ns name⟩ false
      (List.replicate spinAttempts (some r)) = opened) :
    (∀ e, opened = .error e → tryOpen s ns name = .error e) ∧
    ∀ b, opened = .ok (some b) → tryOpen s ns name = .ok (some b) := by
  subst hspin
  refine ⟨fun e he => ?_, fun b hb => ?_⟩
  · rw [tryOpen]
    simp only [hname, Except.mapError, bind, Except.bind, hs, he]
  · rw [tryOpen]
    simp only [hname, Except.mapError, bind, Except.bind, hs, hb]

variable (ns' owner) in
/-- A second open, by the same configuration, of a board that was stamped with the namespace `ns'`. -/
theorem openOrCreate_taken (hv : cfg.Valid) (hid : cfg.identity = 0) (hname : shmName ns name = .ok shm)
    (hs : s shm = some (initAsCreator (stampIdentity ns' name cfg) d)) :
    (derivedIdentity ns' name = derivedIdentity ns name →
      ∃ b : BoardHandle, b.name = shm ∧ openOrCreate s ns name cfg owner c = .ok (s, b)) ∧
    (derivedIdentity ns' name ≠ derivedIdentity ns name →
      openOrCreate s ns name cfg owner c =
        .error (.runtimeError "Blackboard identity mismatch on " shm)) := by
  have hspin := spinOpen_created shm (stampIdentity ns name cfg) true (c := d)
    (hv.stampIdentity ns' name)
    (fun _ => by rw [bbConfigHash_stampIdentity, bbConfigHash_stampIdentity]) 199
  rw [identity_stampIdentity hid, identity_stampIdentity hid] at hspin
  refine ⟨fun he => ?_, fun hne => ?_⟩
  · rw [if_neg ((mismatch_iff ns' ns name).not.mpr (not_not_intro he))] at hspin
    exact ⟨_, rfl, (openOrCreate_spin hv hname hs hspin).2 _ rfl⟩
  · rw [if_pos ((mismatch_iff ns' ns name).mpr hne)] at hspin
    exact (openOrCreate_spin hv hname hs hspin).1 _ rfl

theorem tryOpen_taken (hv : cfg.Valid) (hid : cfg.identity = 0) (hname : shmName ns name = .ok shm)
    (hs : s shm = some (initAsCreator (stampIdentity ns' name cfg) d)) :
    (derivedIdentity ns' name = derivedIdentity ns name →
      ∃ b : BoardHandle, b.name = shm ∧ tryOpen s ns name = .ok (some b)) ∧
    (derivedIdentity ns' name ≠ derivedIdentity ns name →
      tryOpen s ns name = .error (.runtimeError "Blackboard identity mismatch on " shm)) := by
  have hspin := spinOpen_created shm ⟨256, 1008, derivedIdentity ns name⟩ false (c := d)
    (hv.stampIdentity ns' name)
    (fun h => by cases h) 199
  rw [identity_stampIdentity hid] at hspin
  refine ⟨fun he => ?_, fun hne => ?_⟩
  · rw [if_neg ((mismatch_iff ns' ns name).not.mpr (not_not_intro he))] at hspin
    exact ⟨_, rfl, (tryOpen_spin hname hs hspin).2 _ rfl⟩
  · rw [if_pos ((mismatch_iff ns' ns name).mpr hne)] at hspin
    exact (tryOpen_spin hname hs hspin).1 _ rfl

/-! ## Through a node -/

/-- Sanitizing the namespace once more does not change the name of the region. -/
theorem shmName_sanitized (h : sanitizeShmComponent ns "namespace" = .ok ns') :
    shmName ns' name = shmName ns name := by
  simp only [shmName, h, sanitize_idem h]

theorem Node.make_ok {n : Node} (h : Node.make node ns = .ok n) :
    sanitizeShmComponent ns "namespace" = .ok n.ns ∧ n.blackboards = [] := by
  unfold Node.make at h
  cases hnode : sanitizeShmComponent node "node" with
  | error e => simp [hnode, bind, Except.bind] at h
  | ok out =>
    cases hns : sanitizeShmComponent ns "namespace" with
    | error e => simp [hnode, hns, bind, Except.bind] at h
    | ok out' =>
      simp only [hnode, hns, bind, Except.bind, pure, Except.pure, Except.ok.injEq] at h
      rw [← h]
      exact ⟨rfl, rfl⟩

/-- The first board of a node. -/
theorem Node.blackboard_first {n : Node} {name : CString} (hn : n.blackboards = []) :
    (∀ s' b, openOrCreate s n.ns name.bytes cfg n.name c = .ok (s', b) →
      n.blackboard s name cfg c = .ok ({ n with blackboards := [(name.bytes, b)] }, s', b)) ∧
    ∀ e, openOrCreate s n.ns name.bytes cfg n.name c = .error e → n.blackboard s name cfg c = .error e := by
  refine ⟨fun s' b h => ?_, fun e h => ?_⟩
  · simp only [Node.blackboard, hn, List.lookup_nil, h, bind, Except.bind]
  · simp only [Node.blackboard, hn, List.lookup_nil, h, bind, Except.bind]

/-! ## Agreement -/

/-- The claim on the two ways, for the node `n` of the namespace `ns`: whoever of them comes first, the others
accept the board, in a region of the same name. -/
structure PathsAgree (n : Node) (ns : List UInt8) (name : CString) (cfg : BoardConfig) (shm : List UInt8) :
    Prop where
  node_first : ∀ s : Shm, s shm = none → ∀ owner c d, ∃ n' s' b,
    n.blackboard s name cfg c = .ok (n', s', b) ∧ b.name = shm ∧
      (∃ b', b'.name = shm ∧ tryOpen s' ns name.bytes = .ok (some b')) ∧
      ∃ b', b'.name = shm ∧ openOrCreate s' ns name.bytes cfg owner d = .ok (s', b')
  direct_first : ∀ s : Shm, s shm = none → ∀ owner c d, ∃ s' b,
    openOrCreate s ns name.bytes cfg owner c = .ok (s', b) ∧ b.name = shm ∧
      ∃ n' b', b'.name = shm ∧ n.blackboard s' name cfg d = .ok (n', s', b')

/-- The two ways agree when they hash the same. -/
theorem pathsAgree_iff_identity {n : Node} {name : CString} (hn : Node.make node ns = .ok n)
    (hname : shmName ns name.bytes = .ok shm) (hv : cfg.Valid) (hid : cfg.identity = 0) :
    PathsAgree n ns name cfg shm ↔ derivedIdentity n.ns name.bytes = derivedIdentity ns name.bytes := by
  obtain ⟨hns, hfirst⟩ := Node.make_ok hn
  have hname' : shmName n.ns name.bytes = .ok shm := (shmName_sanitized hns).trans hname
  constructor
  · intro h
    obtain ⟨n', s', b, hb, -, -, b', -, hopen⟩ := h.node_first (fun _ => none) rfl [] ⟨0, 0⟩ ⟨0, 0⟩
    by_contra hne
    have hfree := openOrCreate_free n.name (s := fun _ => none) (c := ⟨0, 0⟩) hv hname' rfl
    have hmade := (Node.blackboard_first hfirst).1 _ _ hfree
    have hs' := congrArg (fun r => (Except.toOption r).map fun p => p.2.1) (hb.symm.trans hmade)
    simp only [Except.toOption, Option.map_some, Option.some.injEq] at hs'
    have hrefused := (openOrCreate_taken n.ns [] (s := s') (d := ⟨0, 0⟩) (c := ⟨0, 0⟩) hv hid hname (by rw [hs', Function.update_self])).2 hne
    rw [hrefused] at hopen
    cases hopen
  · intro he
    refine ⟨fun s hs owner c d => ?_, fun s hs owner c d => ?_⟩
    · have hfree := openOrCreate_free n.name (c := c) hv hname' hs
      have hat : (Function.update s shm (some (initAsCreator (stampIdentity n.ns name.bytes cfg) c))) shm =
          some (initAsCreator (stampIdentity n.ns name.bytes cfg) c) := Function.update_self ..
      exact ⟨_, _, _, (Node.blackboard_first hfirst).1 _ _ hfree, rfl, (tryOpen_taken hv hid hname hat).1 he,
        (openOrCreate_taken _ _ hv hid hname hat).1 he⟩
    · have hfree := openOrCreate_free owner (c := c) hv hname hs
      have hat : (Function.update s shm (some (initAsCreator (stampIdentity ns name.bytes cfg) c))) shm =
          some (initAsCreator (stampIdentity ns name.bytes cfg) c) := Function.update_self ..
      obtain ⟨b', hb', hopen⟩ := (openOrCreate_taken _ n.name (c := d) hv hid hname' hat).1 he.symm
      exact ⟨_, _, hfree, rfl, _, b', hb', (Node.blackboard_first hfirst).1 _ _ hopen⟩

/-- FNV-1a gives `name` in two different namespaces one fingerprint; `derived_identity` takes 0 for 1. -/
def Collide (ns ns' name : List UInt8) : Prop :=
  let h := Hash.fnv1a64 (encode (Channel.blackboard ns name).components) Hash.fnv1aOffsetBasis
  let h' := Hash.fnv1a64 (encode (Channel.blackboard ns' name).components) Hash.fnv1aOffsetBasis
  ns ≠ ns' ∧ (h = h' ∨ h = 0 ∧ h' = 1 ∨ h = 1 ∧ h' = 0)

theorem derivedIdentity_eq_iff (hne : ns ≠ ns') :
    derivedIdentity ns' name = derivedIdentity ns name ↔ Collide ns ns' name := by
  have hns : derivedHash ns name = _ := Channel.Identifies.eq (c := .blackboard ns name) rfl
  have hns' : derivedHash ns' name = _ := Channel.Identifies.eq (c := .blackboard ns' name) rfl
  unfold derivedIdentity Collide
  rw [← hns, ← hns']
  generalize derivedHash ns name = h
  generalize derivedHash ns' name = h'
  by_cases h0 : h = 0
  · by_cases h0' : h' = 0
    · simp [h0, h0', hne]
    · simp [h0, h0', hne, eq_comm]
  · by_cases h0' : h' = 0
    · simp [h0, h0', hne, eq_comm]
    · simp [h0, h0', hne, eq_comm]

/-- A node and a direct open agree on a board just when the namespace holds only bytes that sanitizing keeps,
or else the raw and the sanitized namespace collide under FNV-1a. -/
theorem paths_agree_iff {n : Node} {name : CString} (hn : Node.make node ns = .ok n)
    (hname : shmName ns name.bytes = .ok shm) (hv : cfg.Valid) (hid : cfg.identity = 0) :
    PathsAgree n ns name cfg shm ↔ ns.all keeps = true ∨ Collide ns n.ns name.bytes := by
  rw [pathsAgree_iff_identity hn hname hv hid, ← sanitize_eq_self_iff (Node.make_ok hn).1]
  by_cases he : n.ns = ns
  · rw [he]
    exact ⟨fun _ => .inl rfl, fun _ => rfl⟩
  · rw [derivedIdentity_eq_iff (Ne.symm he)]
    exact ⟨.inr, fun h => h.resolve_left he⟩

/-- The board "state" of a node. -/
def stateName : CString := ⟨ascii "state", by decide⟩

/-- In the namespace "test" the two ways agree. -/
theorem paths_agree_iff_test :
    PathsAgree ⟨ascii "n", ascii "test", []⟩ (ascii "test") stateName ⟨4, 64, 0⟩ (ascii "/test_bb_state") :=
  (@paths_agree_iff (ascii "test") _ (ascii "n") _ _ _ (by decide) (by decide)
    ⟨by decide, by decide, by decide, by decide⟩ rfl).mpr (.inl (by decide))

/-- In the namespace "/test", which sanitizing changes to "test", they do not: the board of the node is refused
to a direct open. -/
theorem paths_disagree :
    Node.make (ascii "n") (ascii "/test") = .ok ⟨ascii "n", ascii "test", []⟩ ∧
    shmName (ascii "/test") stateName.bytes = .ok (ascii "/test_bb_state") ∧
    ¬ PathsAgree ⟨ascii "n", ascii "test", []⟩ (ascii "/test") stateName ⟨4, 64, 0⟩ (ascii "/test_bb_state") := by
  have hmake : Node.make (ascii "n") (ascii "/test") = .ok ⟨ascii "n", ascii "test", []⟩ := by decide
  have hname : shmName (ascii "/test") stateName.bytes = .ok (ascii "/test_bb_state") := by decide
  refine ⟨hmake, hname, fun h => ?_⟩
  have hid := (pathsAgree_iff_identity hmake hname ⟨by decide, by decide, by decide, by decide⟩ rfl).mp h
  exact absurd hid (by decide +kernel)

end Kickmsg.Blackboard
