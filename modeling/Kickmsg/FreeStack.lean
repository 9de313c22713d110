import Kickmsg.Region
import Kickmsg.Lib.Transition

/-!
# The free stack on its own

Any number of clients push slots they hold and pop slots, interleaved access by access. The model keeps
two counters that the program does not have: `changes`, the successful changes of `free_top` so far, and
for each client `seen`, what `changes` was when it last observed `free_top`.
-/

namespace Kickmsg

open Finset Lib

/-- What a client of the free stack is doing. -/
inductive ClientPc
  | idle
  | push (slotIdx : Nat) (p : PushPc)
  | pop (p : PopPc)
  deriving DecidableEq, Repr

/-- A client: the slots it popped and still holds, and where it is. A slot being pushed has left
`held`. -/
structure Client where
  held : List Nat
  pc : ClientPc
  deriving DecidableEq, Repr

namespace Client

def request (u : Client) : Option Op :=
  match u.pc with
  | .idle => none
  | .push s p => some (p.request s)
  | .pop p => some p.request

def resume (poolSize : Nat) (u : Client) (r : Resp) : Client :=
  match u.pc with
  | .idle => u
  | .push s p =>
    match p.resume r with
    | some p' => { u with pc := .push s p' }
    | none => { u with pc := .idle }
  | .pop p =>
    match p.resume poolSize r with
    | .busy p' => { u with pc := .pop p' }
    | .ret (some s) => ⟨s :: u.held, .idle⟩
    | .ret none => { u with pc := .idle }

/-- How often the client holds slot `s`, as a popper or as a pusher that is not done. -/
def owns (u : Client) (s : Nat) : Nat :=
  u.held.count s +
    match u.pc with
    | .push s' _ => if s = s' then 1 else 0
    | _ => 0

/-- The client's account in the ledger. -/
def acct (u : Client) : Acct where
  excl := u.owns
  holds := fun _ => 0
  stack :=
    match u.pc with
    | .idle => .away
    | .push s p => p.stack s
    | .pop p => p.stack

/-- The client's own bounds: what it owns and the top it looks at are slots. -/
structure Ok (poolSize : Nat) (u : Client) : Prop where
  owns_lt : ∀ s, 0 < u.owns s → s < poolSize
  pop_ok : ∀ p, u.pc = .pop p → p.Ok poolSize

theorem Ok.resume {poolSize : Nat} {u : Client} (h : u.Ok poolSize) (r : Resp) :
    (u.resume poolSize r).Ok poolSize := by
  obtain ⟨held, pc⟩ := u
  have hheld : ∀ s, 0 < held.count s → s < poolSize := fun s hs =>
    h.owns_lt s (by simp only [owns]; omega)
  cases pc with
  | idle => exact h
  | push s p =>
    simp only [Client.resume]
    split
    · exact ⟨h.owns_lt, by simp⟩
    · exact ⟨by simpa [owns] using hheld, by simp⟩
  | pop p =>
    have hp := (h.pop_ok p rfl).resume r
    simp only [Client.resume]
    rcases e : p.resume poolSize r with p' | (_ | s) <;> rw [e] at hp
    · exact ⟨h.owns_lt, by simpa using hp⟩
    · exact ⟨h.owns_lt, by simp⟩
    · refine ⟨fun x hx => ?_, by simp⟩
      by_cases hxs : x = s
      · rw [hxs]
        exact hp
      · refine hheld x ?_
        simpa [owns, List.count_cons, Ne.symm hxs] using hx

/-- One access of a client is a move of the ledger. -/
theorem move {g : Geometry} {u : Client} (h : u.Ok g.poolSize) {op : Op}
    (hop : u.request = some op) (r : Resp) :
    Move g u.acct r (u.resume g.poolSize r).acct op := by
  obtain ⟨held, pc⟩ := u
  cases pc with
  | idle => simp [request] at hop
  | push s p =>
    simp only [request, Option.some.injEq] at hop
    subst hop
    have hpos : 0 < owns ⟨held, .push s p⟩ s := by simp [owns]
    refine PushPc.move (h.owns_lt s hpos) rfl hpos rfl (fun p' hp' => ?_) (fun hp' => ?_)
    · simp only [Client.resume, hp']
      exact ⟨rfl, rfl⟩
    · simp only [Client.resume, hp']
      refine ⟨rfl, funext fun x => ?_⟩
      simp [acct, owns, Pi.single_apply]
  | pop p =>
    simp only [request, Option.some.injEq] at hop
    subst hop
    refine PopPc.move rfl rfl (fun p' hp' => ?_) (fun hp' => ?_) (fun s hp' => ?_)
    · simp only [Client.resume, hp']
      exact ⟨rfl, rfl⟩
    · simp only [Client.resume, hp']
      exact ⟨rfl, rfl⟩
    · simp only [Client.resume, hp']
      refine ⟨rfl, funext fun x => ?_⟩
      simp only [acct, owns, Pi.add_apply, Pi.single_apply, List.count_cons]
      by_cases hx : x = s
      · simp [hx]
      · simp [hx, Ne.symm hx]

theorem target_ne {u : Client} {op : Op} (hop : u.request = some op) (x : Nat) :
    op.target ≠ some (.refcount x) := by
  obtain ⟨held, pc⟩ := u
  cases pc with
  | idle => simp [request] at hop
  | push s p =>
    simp only [request, Option.some.injEq] at hop
    subst hop
    cases p <;> simp [PushPc.request, Op.target]
  | pop p =>
    simp only [request, Option.some.injEq] at hop
    subst hop
    cases p <;> simp [PopPc.request, Op.target]

theorem popCas_of_stack {u : Client} {old nxt : Nat} (h : u.acct.stack = .popCas old nxt) :
    u.pc = .pop (.cas old nxt) := by
  obtain ⟨held, pc⟩ := u
  cases pc with
  | idle => simp [acct] at h
  | push s p => cases p <;> simp [acct, PushPc.stack] at h
  | pop p =>
    cases p with
    | load => simp [acct, PopPc.stack] at h
    | next _ => simp [acct, PopPc.stack] at h
    | cas _ _ => simpa [acct, PopPc.stack] using h

end Client

/-- The free stack and its clients. -/
structure FreeStack (ι : Type) where
  mem : Mem
  changes : Nat
  seen : ι → Nat
  th : ι → Client

/-- A client starts a push of a slot it holds, starts a pop, or performs its next access. -/
inductive StackLabel (ι : Type)
  | push (t : ι) (slotIdx : Nat)
  | pop (t : ι)
  | run (t : ι) (choice : Bool)

namespace FreeStack

variable {ι : Type} [DecidableEq ι]

def next (g : Geometry) (s : FreeStack ι) : StackLabel ι → Option (FreeStack ι)
  | .push t slotIdx =>
    if (s.th t).pc = .idle ∧ slotIdx ∈ (s.th t).held then
      some { s with th := Function.update s.th t ⟨(s.th t).held.erase slotIdx, .push slotIdx .load⟩ }
    else none
  | .pop t =>
    if (s.th t).pc = .idle then
      some { s with th := Function.update s.th t { s.th t with pc := .pop .load } }
    else none
  | .run t choice =>
    match (s.th t).request with
    | none => none
    | some op =>
      let out := op.exec (fun _ => none) s.mem choice
      some { mem := out.1, changes := op.changesAfter out.2 s.changes,
             seen := op.seenAfter t s.changes s.seen,
             th := Function.update s.th t ((s.th t).resume g.poolSize out.2) }

/-- A new region, and clients that hold nothing. -/
def init (g : Geometry) (s : FreeStack ι) : Prop :=
  s.mem = stampNewRegion g ∧ s.changes = g.poolSize ∧ ∀ t, s.th t = ⟨[], .idle⟩

def machine (g : Geometry) : LTS (FreeStack ι) (StackLabel ι) := .ofNext (init g) (next g)

/-- Fewer than `2 ^ 32` successful changes of `free_top` between a pop's load and its CAS. -/
def noWrap (s : FreeStack ι) (l : StackLabel ι) : Bool :=
  match l with
  | .run t _ =>
    match (s.th t).pc with
    | .pop (.cas _ _) => decide (s.changes - s.seen t < 2 ^ 32)
    | _ => true
  | _ => true

/-- The accounts of all clients. -/
def accts (s : FreeStack ι) : ι → Acct := fun t => (s.th t).acct

omit [DecidableEq ι] in
theorem accts_update [DecidableEq ι] (th : ι → Client) (t : ι) (u : Client) :
    (fun v => (Function.update th t u v).acct) =
      Function.update (fun v => (th v).acct) t u.acct := by
  funext v
  by_cases hv : v = t
  · subst hv
    simp
  · simp [hv]

variable [Fintype ι]

/-- The ledger of the free stack. -/
structure Inv (g : Geometry) (s : FreeStack ι) (chain : List Nat) : Prop where
  safe : PoolSafe g s.mem s.changes s.seen s.accts chain
  exact : PoolExact g s.mem s.accts chain
  ok : ∀ t, (s.th t).Ok g.poolSize
  unref : ∀ x, s.mem (.refcount x) = 0

section Steps

variable {g : Geometry} {s s' : FreeStack ι} {chain : List Nat} {t : ι}

omit [DecidableEq ι] in
theorem inv_init (hg : g.Valid) (h : s.init g) : Inv g s (List.range g.poolSize).reverse := by
  obtain ⟨hm, hc, ht⟩ := h
  have key := poolSafe_stampNewRegion hg s.seen s.accts
    (fun t x => by simp [accts, ht, Client.acct, Client.owns]) (fun _ _ => rfl)
    (fun t => by simp [accts, ht, Client.acct])
  rw [← hm] at key
  refine ⟨by rw [hc]; exact key.1, key.2, fun t => ?_, fun x => ?_⟩
  · rw [ht]
    exact ⟨by simp [Client.owns], by simp⟩
  · rw [hm]
    exact stampNewRegion_zero hg (by simp) (by simp)

/-- A call changes no word and keeps the caller's slots. -/
theorem Inv.call (h : Inv g s chain) {u : Client} (he : u.owns = (s.th t).owns)
    (hs : u.acct.stack = .away) (hp : ∀ p, u.pc = .pop p → p = .load) :
    Inv g { s with th := Function.update s.th t u } chain := by
  have key := h.safe.stay (t := t) (n := s.seen t) (fun _ _ => rfl)
    (show u.acct.excl = (s.accts t).excl from he) rfl (Acct.good_of_away hs)
  rw [Function.update_eq_self] at key
  refine ⟨?_, ?_, forall_update h.ok
    ⟨fun x hx => (h.ok t).owns_lt x (by rw [← he]; exact hx), fun p hpc => ?_⟩, h.unref⟩
  · unfold accts
    rw [accts_update]
    exact key.1
  · unfold accts
    rw [accts_update]
    exact h.exact.balanced key.2
  · rw [hp p hpc]
    trivial

omit [Fintype ι] in
theorem run_cases {c : Bool} (h : s.next g (.run t c) = some s') :
    ∃ op, (s.th t).request = some op ∧
      s' = { mem := (op.exec (fun _ => none) s.mem c).1,
             changes := op.changesAfter (op.exec (fun _ => none) s.mem c).2 s.changes,
             seen := op.seenAfter t s.changes s.seen,
             th := Function.update s.th t
               ((s.th t).resume g.poolSize (op.exec (fun _ => none) s.mem c).2) } := by
  simp only [next] at h
  split at h
  · simp at h
  · rename_i op hop
    simp only [Option.some.injEq] at h
    exact ⟨op, hop, h.symm⟩

/-- One access of one client. -/
theorem Inv.run (hg : g.Valid) (h : Inv g s chain) {c : Bool}
    (hs : s.next g (.run t c) = some s') (haba : noWrap s (.run t c) = true) :
    ∃ chain', Inv g s' chain' := by
  obtain ⟨op, hop, rfl⟩ := run_cases hs
  obtain ⟨chain', hsafe, hbal⟩ := h.safe.move hg
    (Client.move (h.ok t) hop (op.exec (fun _ => none) s.mem c).2) fun old nxt hp => by
      have hpc := Client.popCas_of_stack hp
      simpa [noWrap, hpc, -Nat.reducePow] using haba
  refine ⟨chain', ?_, ?_, forall_update h.ok ((h.ok t).resume _), fun x => ?_⟩
  · unfold accts
    rw [accts_update]
    exact hsafe
  · unfold accts
    rw [accts_update]
    exact h.exact.balanced hbal
  · exact (Op.exec_frame _ _ _ _ (Client.target_ne hop x)).trans (h.unref x)

theorem Inv.next (hg : g.Valid) (h : Inv g s chain) {l : StackLabel ι} (hs : s.next g l = some s')
    (haba : noWrap s l = true) : ∃ chain', Inv g s' chain' := by
  cases l with
  | push t slotIdx =>
    simp only [FreeStack.next] at hs
    split at hs
    · rename_i hpre
      simp only [Option.some.injEq] at hs
      subst hs
      refine ⟨chain, h.call (funext fun x => ?_) rfl (by simp)⟩
      simp only [Client.owns, hpre.1]
      by_cases hx : x = slotIdx
      · subst hx
        have := List.count_pos_iff.mpr hpre.2
        rw [List.count_erase_self, if_pos rfl]
        omega
      · simp [hx, List.count_erase_of_ne hx]
    · simp at hs
  | pop t =>
    simp only [FreeStack.next] at hs
    split at hs
    · rename_i hpre
      simp only [Option.some.injEq] at hs
      subst hs
      refine ⟨chain, h.call (funext fun x => ?_) rfl (by simp)⟩
      simp [Client.owns, hpre]
    · simp at hs
  | run t c => exact h.run hg hs haba

theorem inv_reach (hg : g.Valid) (h : (machine g).Reach (fun s l _ => noWrap s l = true) s) : ∃ chain, Inv g s chain :=
  h.invariant (I := fun s => ∃ chain, Inv g s chain) (fun _ h0 => ⟨_, inv_init hg h0⟩)
    fun _ _ _ ⟨_, hI⟩ hs ho => hI.next hg hs ho

end Steps

/-- At this step the pop of client `t` returns `INVALID_SLOT`. -/
def popFails (s s' : FreeStack ι) (t : ι) : Prop :=
  (∃ p, (s.th t).pc = .pop p) ∧ s'.th t = ⟨(s.th t).held, .idle⟩

/-- What the free stack is for: its words form a chain without repetition that ends in the invalid
index; every slot is on it or has exactly one holder; a pop that fails does so on an empty chain. -/
def Linear (g : Geometry) (s : FreeStack ι) : Prop :=
  ∃ chain, Linked (fun x => s.mem (.nextFree x)) invalidSlot (taggedIdx (s.mem .freeTop)) chain ∧
    chain.Nodup ∧ (∀ x ∈ chain, x < g.poolSize) ∧
    (∀ x < g.poolSize, (x ∈ chain ∧ ∀ t, (s.th t).owns x = 0) ∨
      (x ∉ chain ∧ ∃ t, (s.th t).owns x = 1 ∧ ∀ u, u ≠ t → (s.th u).owns x = 0)) ∧
    ∀ t c s', s.next g (.run t c) = some s' → popFails s s' t → chain = []

section Linear

variable {g : Geometry} {s s' : FreeStack ι} {chain : List Nat} {t : ι}

omit [DecidableEq ι] in
/-- On the chain or with one holder. -/
theorem Inv.place (h : Inv g s chain) {x : Nat} (hx : x < g.poolSize) :
    (x ∈ chain ∧ ∀ t, (s.th t).owns x = 0) ∨
      (x ∉ chain ∧ ∃ t, (s.th t).owns x = 1 ∧ ∀ u, u ≠ t → (s.th u).owns x = 0) := by
  have hsum : chain.count x + ∑ t, (s.th t).owns x = 1 := by
    have := h.exact.once x hx
    simpa [inUse, h.unref, accts, Client.acct] using this
  by_cases hmem : x ∈ chain
  · have := List.count_pos_iff.mpr hmem
    refine .inl ⟨hmem, fun t => ?_⟩
    have := le_sum (fun t => (s.th t).owns x) t
    omega
  · have h0 := List.count_eq_zero.mpr hmem
    obtain ⟨t, -, ht⟩ := exists_ne_zero_of_sum_ne_zero (show ∑ t, (s.th t).owns x ≠ 0 by omega)
    have hle := le_sum (fun t => (s.th t).owns x) t
    refine .inr ⟨hmem, t, by omega, fun u hu => ?_⟩
    have := add_le_sum (fun t => (s.th t).owns x) hu
    omega

theorem look_ret {poolSize top : Nat} (h : PopPc.look poolSize top = .ret none) :
    taggedIdx top = invalidSlot ∨ poolSize ≤ taggedIdx top := by
  unfold PopPc.look at h
  split_ifs at h with h1 h2
  · exact .inl h1
  · exact .inr h2

omit [DecidableEq ι] in
/-- A top that `treiber_pop` gives up on is that of an empty chain. -/
theorem Inv.empty_of_look (h : Inv g s chain)
    (hl : PopPc.look g.poolSize (s.mem .freeTop) = .ret none) : chain = [] := by
  by_contra hne
  have htop : taggedIdx (s.mem .freeTop) ≠ invalidSlot := fun e =>
    hne (h.safe.linked.eq_nil_iff.mpr e)
  obtain ⟨ys, hys, -⟩ := h.safe.top_mem htop
  have := h.safe.lt (taggedIdx (s.mem .freeTop)) (by rw [hys]; simp)
  rcases look_ret hl with e | e
  · exact htop e
  · omega

theorem Inv.popFails (h : Inv g s chain) {c : Bool} (hs : s.next g (.run t c) = some s')
    (hf : popFails s s' t) : chain = [] := by
  obtain ⟨⟨p, hp⟩, hret⟩ := hf
  obtain ⟨op, hop, rfl⟩ := run_cases hs
  simp only [Client.request, hp, Option.some.injEq] at hop
  subst hop
  simp only [Function.update_self, Client.resume, hp] at hret
  cases p with
  | load =>
    refine h.empty_of_look ?_
    rcases PopPc.look_cases g.poolSize (s.mem .freeTop) with e | ⟨-, e⟩
    · exact e
    · simp [PopPc.resume, PopPc.request, Op.exec, e] at hret
  | next old => simp [PopPc.resume] at hret
  | cas old nxt =>
    rcases Op.exec_cas (fun _ => none) s.mem c true .freeTop old
      (taggedPack (u32 (taggedGen old + 1)) nxt) with ⟨-, e⟩ | e
    · simp [PopPc.request, PopPc.resume, e] at hret
    · refine h.empty_of_look ?_
      rcases PopPc.look_cases g.poolSize (s.mem .freeTop) with e' | ⟨-, e'⟩
      · exact e'
      · simp [PopPc.request, PopPc.resume, e, e'] at hret

/-- Free-stack linearity, in every interleaving in which no pop spans `2 ^ 32` changes. -/
theorem linear_of_reach (hg : g.Valid)
    (h : (machine g).Reach (fun s l _ => noWrap s l = true) s) : s.Linear g := by
  obtain ⟨chain, hI⟩ := inv_reach hg h
  exact ⟨chain, hI.safe.linked, hI.safe.linked.nodup, hI.safe.lt, fun x hx => hI.place hx,
    fun t c s' hs hf => hI.popFails hs hf⟩

end Linear

/-- Two slots, and two clients that hold nothing. -/
def two : FreeStack (Fin 2) where
  mem := stampNewRegion ((Config.mk 1 1 2 8 0 0).geometry 0)
  changes := 2
  seen := fun _ => 0
  th := fun _ => ⟨[], .idle⟩

theorem accepted_two : (Config.mk 1 1 2 8 0 0).Accepted :=
  ⟨⟨0, by decide, rfl⟩, by decide, by decide, by decide⟩

/-- A run in which client 0 pops slot 1 while client 1 has loaded the same top. -/
theorem linear_of_reach_two : ∃ s : FreeStack (Fin 2),
    (machine ((Config.mk 1 1 2 8 0 0).geometry 0)).Reach (fun s l _ => noWrap s l = true) s ∧
      (s.th 0).owns 1 = 1 ∧ s.Linear ((Config.mk 1 1 2 8 0 0).geometry 0) := by
  have h0 : (machine ((Config.mk 1 1 2 8 0 0).geometry 0)).Reach (fun s l _ => noWrap s l = true)
      two := .init ⟨rfl, rfl, fun _ => rfl⟩
  obtain ⟨s, hs, hP⟩ := h0.play_any
    [.pop 0, .pop 1, .run 0 false, .run 1 false, .run 0 false, .run 0 false]
    (fun s => decide ((s.th 0).owns 1 = 1)) (by decide +kernel)
  exact ⟨s, hs, by simpa using hP, linear_of_reach (accepted_two.valid 0) hs⟩

end FreeStack

end Kickmsg
