import Kickmsg.Treiber
import Kickmsg.Lib.Chain
import Kickmsg.Lib.Count
import Mathlib.Algebra.Group.Pi.Basic
import Mathlib.Data.Finset.Prod
import Mathlib.Algebra.BigOperators.Group.Finset.Piecewise

/-!
# The slot ledger

What an actor owns of the slots, whatever its role: the slots it holds exclusively, the references it
holds, and where it stands in the free stack. `Move` lists everything one shared access can do to such
an account; the roles of the program are instances of it (`Accounts`). `PoolSafe` is the invariant the
moves keep: the free stack is a chain, a slot is on it or held or referenced, never two of these, and
every name and every held reference is counted. `PoolExact` adds that nothing leaks.
-/

namespace Kickmsg

open Finset Lib

/-- Where an actor stands in `treiber_push` or `treiber_pop` once it has observed `free_top`. -/
inductive StackPc
  | away
  | link (slotIdx oldTop : Nat)
  | pushCas (slotIdx oldTop : Nat)
  | next (oldTop : Nat)
  | popCas (oldTop nxt : Nat)
  deriving DecidableEq, Repr

/-- What an actor owns: slots held exclusively, references held, its place in the free stack. -/
structure Acct where
  excl : Nat → Nat
  holds : Nat → Nat
  stack : StackPc

/-- Whether a meta word names slot `s`, as a count. -/
def named (g : Geometry) (word s : Nat) : Nat :=
  if metaSlotBiased word = s + 1 ∧ s < g.poolSize then 1 else 0

/-- The ring entries. -/
def entries (g : Geometry) : Finset (Nat × Nat) := range g.maxSubs ×ˢ range g.subRingCapacity

/-- The number of ring entries whose meta word names slot `s`. -/
def names (g : Geometry) (m : Mem) (s : Nat) : Nat :=
  ((entries g).filter fun e => metaSlotBiased (m (.metaWord e.1 e.2)) = s + 1).card

/-- The words the ledger is about. -/
def Loc.ledger : Loc → Bool
  | .freeTop | .nextFree _ | .refcount _ | .metaWord _ _ => true
  | _ => false

/-- An access that changes no word of the ledger. -/
def Op.quiet (op : Op) : Bool :=
  match op.target with
  | some l => !l.ledger
  | none => true

/-- An access that observes `free_top`. -/
def Op.seesTop : Op → Bool
  | .load .freeTop | .cas _ .freeTop _ _ => true
  | _ => false

/-- An access that changed `free_top`. -/
def Op.movesTop (r : Resp) : Op → Bool
  | .cas _ .freeTop _ _ => r.ok
  | _ => false

/-- What one access does to the account of its actor. -/
inductive Move (g : Geometry) (a : Acct) (r : Resp) (a' : Acct) : Op → Prop
  | quiet {op : Op} (hop : op.quiet = true) (he : a'.excl = a.excl) (hh : a'.holds = a.holds)
      (hs : a'.stack = .away) : Move g a r a' op
  | load (he : a'.excl = a.excl) (hh : a'.holds = a.holds)
      (hs : a'.stack = .away ∨ (∃ s < g.poolSize, 0 < a.excl s ∧ a'.stack = .link s r.val) ∨
        (taggedIdx r.val < g.poolSize ∧ a'.stack = .next r.val)) : Move g a r a' (.load .freeTop)
  | link {s old : Nat} (hp : a.stack = .link s old) (he : a'.excl = a.excl)
      (hh : a'.holds = a.holds) (hs : a'.stack = .pushCas s old) :
      Move g a r a' (.store (.nextFree s) (taggedIdx old))
  | pushCas {s old : Nat} (hp : a.stack = .pushCas s old) (hh : a'.holds = a.holds)
      (hok : r.ok = true → a'.stack = .away ∧ a'.excl + Pi.single s 1 = a.excl)
      (hno : r.ok = false → a'.stack = .link s r.val ∧ a'.excl = a.excl) :
      Move g a r a' (.cas true .freeTop old (taggedPack (u32 (taggedGen old + 1)) s))
  | next {old : Nat} (hp : a.stack = .next old) (he : a'.excl = a.excl) (hh : a'.holds = a.holds)
      (hs : a'.stack = .popCas old r.val) : Move g a r a' (.load (.nextFree (taggedIdx old)))
  | popCas {old nxt : Nat} (hp : a.stack = .popCas old nxt) (hh : a'.holds = a.holds)
      (hok : r.ok = true → a'.stack = .away ∧ a'.excl = a.excl + Pi.single (taggedIdx old) 1)
      (hno : r.ok = false → a'.excl = a.excl ∧
        (a'.stack = .away ∨ (taggedIdx r.val < g.poolSize ∧ a'.stack = .next r.val))) :
      Move g a r a' (.cas true .freeTop old (taggedPack (u32 (taggedGen old + 1)) nxt))
  | preset {s : Nat} (hlt : s < g.poolSize) (he : a'.excl + Pi.single s 1 = a.excl)
      (hh : a'.holds = a.holds + Pi.single s g.maxSubs) (hs : a'.stack = .away) :
      Move g a r a' (.store (.refcount s) (u32 g.maxSubs))
  | drop {s k : Nat} (hlt : s < g.poolSize) (hk : 0 < k) (hh : a'.holds + Pi.single s k = a.holds)
      (he : a'.excl = a.excl + Pi.single s (if r.val = k then 1 else 0)) (hs : a'.stack = .away) :
      Move g a r a' (.fetchSub (.refcount s) k)
  | pin {s rc : Nat} (hlt : s < g.poolSize) (h0 : 0 < rc) (hmax : rc ≠ 2 ^ 32 - 1)
      (he : a'.excl = a.excl) (hh : a'.holds = a.holds + Pi.single s (if r.ok then 1 else 0))
      (hs : a'.stack = .away) : Move g a r a' (.cas true (.refcount s) rc (u32 (rc + 1)))
  | take {i idx old pos s : Nat} (hi : i < g.maxSubs) (hidx : idx < g.subRingCapacity)
      (hlt : s < g.poolSize) (he : a'.excl = a.excl) (hs : a'.stack = .away)
      (hok : r.ok = true → a'.holds + Pi.single s 1 = a.holds + named g old)
      (hno : r.ok = false → a'.holds = a.holds) :
      Move g a r a' (.cas true (.metaWord i idx) old (metaPack pos s))
  | clear {i idx old : Nat} (hi : i < g.maxSubs) (hidx : idx < g.subRingCapacity)
      (he : a'.excl = a.excl) (hs : a'.stack = .away)
      (hok : r.ok = true → a'.holds = a.holds + named g old)
      (hno : r.ok = false → a'.holds = a.holds) :
      Move g a r a' (.cas false (.metaWord i idx) old (metaClear old))

/-- A place in the free stack is backed by the words: a pusher owns its slot, and a popper that has
seen every change of `free_top` so far still holds its top and its successor. -/
def Acct.Good (g : Geometry) (m : Mem) (changes seen : Nat) (a : Acct) : Prop :=
  match a.stack with
  | .away => True
  | .link s _ => s < g.poolSize ∧ 0 < a.excl s
  | .pushCas s old => s < g.poolSize ∧ 0 < a.excl s ∧ m (.nextFree s) = taggedIdx old
  | .next old => seen ≤ changes ∧ taggedGen old = seen % 2 ^ 32 ∧ taggedIdx old < g.poolSize ∧
      (seen = changes → old = m .freeTop)
  | .popCas old nxt => seen ≤ changes ∧ taggedGen old = seen % 2 ^ 32 ∧
      taggedIdx old < g.poolSize ∧
      (seen = changes → old = m .freeTop ∧ nxt = m (.nextFree (taggedIdx old)))

/-- Whether a slot is referenced, as a count. -/
def inUse (m : Mem) (s : Nat) : Nat := if m (.refcount s) = 0 then 0 else 1

section Invariant

variable {ι : Type} [Fintype ι]

/-- The safety half of the ledger: no slot is at two places and every reference is counted. -/
structure PoolSafe (g : Geometry) (m : Mem) (changes : Nat) (seen : ι → Nat) (acct : ι → Acct)
    (chain : List Nat) : Prop where
  linked : Linked (fun s => m (.nextFree s)) invalidSlot (taggedIdx (m .freeTop)) chain
  gen : taggedGen (m .freeTop) = changes % 2 ^ 32
  word : m .freeTop < 2 ^ 64
  lt : ∀ s ∈ chain, s < g.poolSize
  good : ∀ t, (acct t).Good g m changes (seen t)
  once : ∀ s < g.poolSize, chain.count s + ∑ t, (acct t).excl s + inUse m s ≤ 1
  refs : ∀ s < g.poolSize, names g m s + ∑ t, (acct t).holds s ≤ m (.refcount s)
  rc_lt : ∀ s < g.poolSize, m (.refcount s) < 2 ^ 32

/-- The exact half: every slot is somewhere and every reference has a holder. -/
structure PoolExact (g : Geometry) (m : Mem) (acct : ι → Acct) (chain : List Nat) : Prop where
  once : ∀ s < g.poolSize, chain.count s + ∑ t, (acct t).excl s + inUse m s = 1
  refs : ∀ s < g.poolSize, m (.refcount s) = names g m s + ∑ t, (acct t).holds s

/-- A step moves slots and references about without making or losing any. -/
structure Balanced (g : Geometry) (m : Mem) (acct : ι → Acct) (chain : List Nat) (m' : Mem)
    (acct' : ι → Acct) (chain' : List Nat) : Prop where
  places : ∀ s < g.poolSize, chain'.count s + ∑ t, (acct' t).excl s + inUse m' s =
    chain.count s + ∑ t, (acct t).excl s + inUse m s
  refs : ∀ s < g.poolSize, m' (.refcount s) + (names g m s + ∑ t, (acct t).holds s) =
    m (.refcount s) + (names g m' s + ∑ t, (acct' t).holds s)

theorem PoolExact.balanced {g : Geometry} {m m' : Mem} {acct acct' : ι → Acct}
    {chain chain' : List Nat} (h : PoolExact g m acct chain)
    (hb : Balanced g m acct chain m' acct' chain') : PoolExact g m' acct' chain' where
  once s hs := by rw [hb.places s hs, h.once s hs]
  refs s hs := by
    have := hb.refs s hs
    have := h.refs s hs
    omega

end Invariant

/-! ## Counting -/

theorem named_eq {g : Geometry} {s : Nat} (hs : s < g.poolSize) (word : Nat) :
    named g word s = if metaSlotBiased word = s + 1 then 1 else 0 := by
  simp [named, hs]

theorem named_metaPack {g : Geometry} (hg : g.Valid) {s : Nat} (hs : s < g.poolSize) (pos x : Nat) :
    named g (metaPack pos s) x = (Pi.single s 1 : Nat → Nat) x := by
  have := hg.slot_lt hs
  have e : metaSlotBiased (metaPack pos s) = s + 1 := by
    rw [metaPack_eq this, metaSlotBiased_eq]
    omega
  rw [Pi.single_apply, named, e]
  by_cases hx : x = s
  · simp [hx, hs]
  · simp [hx, Ne.symm hx]

theorem named_metaClear (g : Geometry) (word x : Nat) : named g (metaClear word) x = 0 := by
  have e : metaSlotBiased (metaClear word) = 0 := by
    rw [metaSlotBiased_eq]
    unfold metaClear metaSlotMask metaSlotBits
    have h : (2 ^ 64 - 1 - ((1 <<< 24) - 1)) = 2 ^ 24 * (2 ^ 40 - 1) := by decide
    rw [h, ← Nat.and_two_pow_sub_one_eq_mod, Nat.and_assoc]
    have : (2 ^ 24 * (2 ^ 40 - 1) &&& 2 ^ 24 - 1 : Nat) = 0 := by decide
    rw [this, Nat.and_zero]
  simp [named, e]

theorem names_congr {g : Geometry} {m m' : Mem} (h : ∀ r i, m' (.metaWord r i) = m (.metaWord r i))
    (s : Nat) : names g m' s = names g m s := by
  simp only [names, h]

/-- Replacing one meta word trades the name it held for the new one. -/
theorem names_update {g : Geometry} (m : Mem) {i idx : Nat} (hi : i < g.maxSubs)
    (hidx : idx < g.subRingCapacity) (word : Nat) {s : Nat} (hs : s < g.poolSize) :
    names g (Function.update m (.metaWord i idx) word) s + named g (m (.metaWord i idx)) s =
      names g m s + named g word s := by
  have hmem : (i, idx) ∈ entries g := by simp [entries, hi, hidx]
  have key := sum_update_mem (fun _ w => if metaSlotBiased w = s + 1 then 1 else 0)
    (fun e : Nat × Nat => m (.metaWord e.1 e.2)) word hmem
  have upd : (fun e : Nat × Nat => Function.update m (.metaWord i idx) word (.metaWord e.1 e.2)) =
      Function.update (fun e : Nat × Nat => m (.metaWord e.1 e.2)) (i, idx) word := by
    funext e
    by_cases he : e = (i, idx)
    · simp [he]
    · rw [Function.update_of_ne he, Function.update_of_ne]
      intro h
      simp only [Loc.metaWord.injEq] at h
      exact he (Prod.ext h.1 h.2)
  rw [← upd] at key
  simpa only [names, card_filter, named_eq hs] using key

/-! ## The moves keep the invariant -/

section Step

variable {ι : Type} [Fintype ι] [DecidableEq ι] {g : Geometry} {m m' : Mem} {changes n : Nat}
  {seen : ι → Nat} {acct : ι → Acct} {chain : List Nat} {t : ι} {a' : Acct}

theorem Acct.Good.congr {a : Acct} (h : a.Good g m changes n) (htop : m' .freeTop = m .freeTop)
    (hnext : ∀ s, m' (.nextFree s) = m (.nextFree s)) : a.Good g m' changes n := by
  unfold Acct.Good at h ⊢
  split <;> simp_all

theorem Acct.good_of_away {a : Acct} (h : a.stack = .away) : a.Good g m changes n := by
  simp [Acct.Good, h]

theorem sum_acct (w : Acct → Nat) (acct : ι → Acct) (t : ι) (a' : Acct) :
    ∑ u, w (Function.update acct t a' u) + w (acct t) = ∑ u, w (acct u) + w a' :=
  sum_update (fun _ => w) acct a' t

/-- The counts of one slot, for an account that changes. -/
theorem sum_excl (acct : ι → Acct) (t : ι) (a' : Acct) (s : Nat) :
    ∑ u, (Function.update acct t a' u).excl s + (acct t).excl s =
      ∑ u, (acct u).excl s + a'.excl s :=
  sum_acct (fun a => a.excl s) acct t a'

theorem sum_holds (acct : ι → Acct) (t : ι) (a' : Acct) (s : Nat) :
    ∑ u, (Function.update acct t a' u).holds s + (acct t).holds s =
      ∑ u, (acct u).holds s + a'.holds s :=
  sum_acct (fun a => a.holds s) acct t a'

namespace PoolSafe

omit [DecidableEq ι] in
/-- A slot that an actor holds exclusively is neither free nor referenced. -/
theorem of_excl (h : PoolSafe g m changes seen acct chain) {s : Nat} (hs : s < g.poolSize)
    (hx : 0 < (acct t).excl s) : s ∉ chain ∧ m (.refcount s) = 0 ∧
      ∀ u, u ≠ t → (acct u).excl s = 0 := by
  have hle := le_sum (fun u => (acct u).excl s) t
  have honce := h.once s hs
  refine ⟨fun hmem => ?_, ?_, fun u hu => ?_⟩
  · have := List.count_pos_iff.mpr hmem
    omega
  · by_contra hrc
    simp only [inUse, hrc, if_false] at honce
    omega
  · have := add_le_sum (fun u => (acct u).excl s) hu
    omega

omit [DecidableEq ι] in
/-- The top of a stack that is not empty is its first slot. -/
theorem top_mem (h : PoolSafe g m changes seen acct chain)
    (ht : taggedIdx (m .freeTop) ≠ invalidSlot) : ∃ ys, chain = taggedIdx (m .freeTop) :: ys ∧
      Linked (fun s => m (.nextFree s)) invalidSlot (m (.nextFree (taggedIdx (m .freeTop)))) ys :=
  h.linked.tail ht

/-- A step that leaves the free stack alone only has to keep the counts. -/
theorem recount (h : PoolSafe g m changes seen acct chain) (htop : m' .freeTop = m .freeTop)
    (hnext : ∀ s, m' (.nextFree s) = m (.nextFree s)) (hgood : a'.Good g m changes n)
    (hb : Balanced g m acct chain m' (Function.update acct t a') chain)
    (rc_lt : ∀ s < g.poolSize, m' (.refcount s) < 2 ^ 32) :
    PoolSafe g m' changes (Function.update seen t n) (Function.update acct t a') chain where
  linked := by
    simp only [htop, hnext]
    exact h.linked
  gen := by rw [htop, h.gen]
  word := by rw [htop]; exact h.word
  lt := h.lt
  good u := by
    by_cases hu : u = t
    · subst hu
      simpa using hgood.congr htop hnext
    · simpa [hu] using (h.good u).congr htop hnext
  once s hs := by rw [hb.places s hs]; exact h.once s hs
  refs s hs := by
    have := hb.refs s hs
    have := h.refs s hs
    omega
  rc_lt := rc_lt

/-- A step that changes neither the ledger's words nor the counts. -/
theorem stay (h : PoolSafe g m changes seen acct chain)
    (hm : ∀ l, l.ledger = true → m' l = m l) (he : a'.excl = (acct t).excl)
    (hh : a'.holds = (acct t).holds) (hgood : a'.Good g m changes n) :
    PoolSafe g m' changes (Function.update seen t n) (Function.update acct t a') chain ∧
      Balanced g m acct chain m' (Function.update acct t a') chain := by
  have hrc : ∀ s, m' (.refcount s) = m (.refcount s) := fun s => hm _ rfl
  have hb : Balanced g m acct chain m' (Function.update acct t a') chain := by
    refine ⟨fun s _ => ?_, fun s _ => ?_⟩
    · have e := sum_excl acct t a' s
      rw [he] at e
      simp only [inUse, hrc]
      omega
    · have e := sum_holds acct t a' s
      rw [hh] at e
      rw [names_congr (fun r i => hm _ rfl), hrc]
      omega
  refine ⟨h.recount (hm _ rfl) (fun s => hm _ rfl) hgood hb (fun s hs => ?_), hb⟩
  rw [hrc]
  exact h.rc_lt s hs

/-- One actor hands slots or references to another. -/
theorem handOver (h : PoolSafe g m changes seen acct chain) {v : ι} (hv : v ≠ t) (a' b' : Acct)
    (he : a'.excl + b'.excl = (acct t).excl + (acct v).excl)
    (hh : a'.holds + b'.holds = (acct t).holds + (acct v).holds)
    (hat : a'.Good g m changes (seen t)) (hbv : b'.Good g m changes (seen v)) :
    let acct' := Function.update (Function.update acct t a') v b'
    PoolSafe g m changes seen acct' chain ∧ Balanced g m acct chain m acct' chain := by
  intro acct'
  have hexcl : ∀ s, ∑ u, (acct' u).excl s = ∑ u, (acct u).excl s := fun s => by
    have e1 := sum_excl acct t a' s
    have e2 : ∑ u, (acct' u).excl s + _ = _ := sum_excl (Function.update acct t a') v b' s
    rw [Function.update_of_ne hv] at e2
    have e3 := congrFun he s
    simp only [Pi.add_apply] at e3
    omega
  have hholds : ∀ s, ∑ u, (acct' u).holds s = ∑ u, (acct u).holds s := fun s => by
    have e1 := sum_holds acct t a' s
    have e2 : ∑ u, (acct' u).holds s + _ = _ := sum_holds (Function.update acct t a') v b' s
    rw [Function.update_of_ne hv] at e2
    have e3 := congrFun hh s
    simp only [Pi.add_apply] at e3
    omega
  have hgood : ∀ u, (acct' u).Good g m changes (seen u) :=
    (Function.forall_update_iff _ fun u (a : Acct) => a.Good g m changes (seen u)).mpr ⟨hbv, fun u _ =>
      (Function.forall_update_iff acct fun u (a : Acct) => a.Good g m changes (seen u)).mpr
        ⟨hat, fun u _ => h.good u⟩ u⟩
  exact ⟨⟨h.linked, h.gen, h.word, h.lt, hgood, fun s hs => by rw [hexcl]; exact h.once s hs,
    fun s hs => by rw [hholds]; exact h.refs s hs, h.rc_lt⟩,
    fun s _ => by rw [hexcl], fun s _ => by rw [hholds]⟩

/-- `next_free` of a slot the pusher owns is nobody else's business. -/
theorem relink (hv : g.Valid) (h : PoolSafe g m changes seen acct chain) {s old : Nat}
    (hp : (acct t).stack = .link s old) (he : a'.excl = (acct t).excl)
    (hh : a'.holds = (acct t).holds) (hs : a'.stack = .pushCas s old) :
    PoolSafe g (Function.update m (.nextFree s) (taggedIdx old)) changes
        (Function.update seen t n) (Function.update acct t a') chain ∧
      Balanced g m acct chain (Function.update m (.nextFree s) (taggedIdx old))
        (Function.update acct t a') chain := by
  have hg := h.good t
  simp only [Acct.Good, hp] at hg
  obtain ⟨hnot, -, hothers⟩ := h.of_excl hg.1 hg.2
  have hnames : ∀ x, names g (Function.update m (.nextFree s) (taggedIdx old)) x = names g m x :=
    fun x => names_congr (fun r i => by simp) x
  have hb : Balanced g m acct chain (Function.update m (.nextFree s) (taggedIdx old))
      (Function.update acct t a') chain := by
    refine ⟨fun x _ => ?_, fun x _ => ?_⟩
    · have e := sum_excl acct t a' x
      rw [he] at e
      simp only [inUse, ne_eq, reduceCtorEq, not_false_eq_true, Function.update_of_ne]
      omega
    · have e := sum_holds acct t a' x
      rw [hh] at e
      rw [hnames, Function.update_of_ne (by simp)]
      omega
  refine ⟨⟨?_, ?_, ?_, h.lt, fun u => ?_, fun x hx => ?_, fun x hx => ?_, fun x hx => ?_⟩, hb⟩
  · have e : (fun x => Function.update m (.nextFree s) (taggedIdx old) (.nextFree x)) =
        Function.update (fun x => m (.nextFree x)) s (taggedIdx old) := by
      funext x
      by_cases hx : x = s
      · simp [hx]
      · simp [hx]
    rw [Function.update_of_ne (by simp), e]
    exact h.linked.update_of_notMem hnot _
  · rw [Function.update_of_ne (by simp)]
    exact h.gen
  · rw [Function.update_of_ne (by simp)]
    exact h.word
  · by_cases hu : u = t
    · subst hu
      simp [Acct.Good, hs, he, hg.1, hg.2]
    · have hgu := h.good u
      have hzero := hothers u hu
      rw [Function.update_of_ne hu, Function.update_of_ne hu]
      unfold Acct.Good at hgu ⊢
      split at hgu
      · trivial
      · exact hgu
      · -- another pusher owns another slot
        obtain ⟨hlt, hpos, hnext⟩ := hgu
        refine ⟨hlt, hpos, ?_⟩
        rw [Function.update_of_ne, hnext]
        rintro ⟨rfl⟩
        omega
      · simpa using hgu
      · -- the top that a popper looks at is on the chain, so it is not the slot being linked
        rename_i old' nxt _
        obtain ⟨hle, hgen, hlt, hcur⟩ := hgu
        refine ⟨hle, hgen, hlt, fun heq => ?_⟩
        obtain ⟨rfl, hnxt⟩ := hcur heq
        refine ⟨by simp, ?_⟩
        rw [Function.update_of_ne, hnxt]
        rintro ⟨rfl⟩
        obtain ⟨ys, hys, -⟩ := h.top_mem (hv.ne_invalidSlot hlt)
        exact hnot (by rw [hys]; simp)
  · rw [hb.places x hx]
    exact h.once x hx
  · have := hb.refs x hx
    have := h.refs x hx
    omega
  · rw [Function.update_of_ne (by simp)]
    exact h.rc_lt x hx

/-- A successful change of `free_top`: the new top starts a chain, and what leaves or joins the chain
joins or leaves the actor's account. -/
theorem retop (h : PoolSafe g m changes seen acct chain) {idx : Nat} {chain' : List Nat}
    (hidx : idx < 2 ^ 32)
    (hlink : Linked (fun s => m (.nextFree s)) invalidSlot idx chain')
    (hlt : ∀ s ∈ chain', s < g.poolSize) (hs : a'.stack = .away)
    (hh : a'.holds = (acct t).holds)
    (he : ∀ s < g.poolSize, chain'.count s + a'.excl s = chain.count s + (acct t).excl s) :
    let m' := Function.update m .freeTop (taggedPack (u32 (taggedGen (m .freeTop) + 1)) idx)
    PoolSafe g m' (changes + 1) (Function.update seen t n) (Function.update acct t a') chain' ∧
      Balanced g m acct chain m' (Function.update acct t a') chain' := by
  intro m'
  have hm' : ∀ l, l ≠ .freeTop → m' l = m l := fun l hl => Function.update_of_ne hl ..
  have htop : m' .freeTop = taggedPack (u32 (taggedGen (m .freeTop) + 1)) idx :=
    Function.update_self ..
  have hb : Balanced g m acct chain m' (Function.update acct t a') chain' := by
    refine ⟨fun s hs => ?_, fun s _ => ?_⟩
    · have e := sum_excl acct t a' s
      have := he s hs
      simp only [inUse, hm' (.refcount s) (by simp)]
      omega
    · have e := sum_holds acct t a' s
      rw [hh] at e
      rw [names_congr (fun r i => hm' _ (by simp)), hm' _ (by simp)]
      omega
  refine ⟨⟨?_, ?_, ?_, hlt, fun u => ?_, fun s hs => ?_, fun s hs => ?_, fun s hs => ?_⟩, hb⟩
  · simp only [htop, taggedIdx_pack hidx, hm' (.nextFree _) (by simp)]
    exact hlink
  · rw [htop, taggedGen_pack hidx, h.gen]
    unfold u32
    omega
  · rw [htop, taggedPack_eq hidx]
    unfold u32
    omega
  · by_cases hu : u = t
    · subst hu
      rw [Function.update_self, Function.update_self]
      exact Acct.good_of_away hs
    · -- whoever was up to date with the old top no longer is
      have hgu := h.good u
      rw [Function.update_of_ne hu, Function.update_of_ne hu]
      unfold Acct.Good at hgu ⊢
      split at hgu
      · trivial
      · exact hgu
      · simpa [hm'] using hgu
      · exact ⟨by omega, hgu.2.1, hgu.2.2.1, fun heq => by omega⟩
      · exact ⟨by omega, hgu.2.1, hgu.2.2.1, fun heq => by omega⟩
  · rw [hb.places s hs]
    exact h.once s hs
  · have := hb.refs s hs
    have := h.refs s hs
    omega
  · rw [hm' _ (by simp)]
    exact h.rc_lt s hs

/-- The compare-exchange of `treiber_push` succeeds: the slot heads the chain. -/
theorem push (hv : g.Valid) (h : PoolSafe g m changes seen acct chain) {s old : Nat}
    (hp : (acct t).stack = .pushCas s old) (hold : m .freeTop = old)
    (hs : a'.stack = .away) (hh : a'.holds = (acct t).holds)
    (he : a'.excl + Pi.single s 1 = (acct t).excl) :
    let m' := Function.update m .freeTop (taggedPack (u32 (taggedGen old + 1)) s)
    PoolSafe g m' (changes + 1) (Function.update seen t n) (Function.update acct t a') (s :: chain) ∧
      Balanced g m acct chain m' (Function.update acct t a') (s :: chain) := by
  subst hold
  have hg := h.good t
  simp only [Acct.Good, hp] at hg
  obtain ⟨hlt, -, hnext⟩ := hg
  refine h.retop (by have := hv.slot_lt hlt; omega) ?_ ?_ hs hh ?_
  · exact .cons (hv.ne_invalidSlot hlt) (by rw [hnext]; exact h.linked)
  · intro x hx
    rcases List.mem_cons.mp hx with rfl | hx
    · exact hlt
    · exact h.lt x hx
  · intro x _
    have e := congrFun he x
    simp only [Pi.add_apply, Pi.single_apply] at e
    rw [List.count_cons]
    by_cases hx : x = s
    · simp only [hx, if_true, beq_self_eq_true] at e ⊢
      omega
    · simp only [hx, if_false, beq_iff_eq, Ne.symm hx] at e ⊢
      omega

/-- The compare-exchange of `treiber_pop` succeeds, with fewer than `2 ^ 32` changes of `free_top`
since it was observed: the popped slot was the head of the chain. -/
theorem pop (hv : g.Valid) (h : PoolSafe g m changes seen acct chain) {old nxt : Nat}
    (hp : (acct t).stack = .popCas old nxt) (hold : m .freeTop = old)
    (haba : changes - seen t < 2 ^ 32) (hs : a'.stack = .away) (hh : a'.holds = (acct t).holds)
    (he : a'.excl = (acct t).excl + Pi.single (taggedIdx old) 1) :
    let m' := Function.update m .freeTop (taggedPack (u32 (taggedGen old + 1)) nxt)
    ∃ ys, chain = taggedIdx old :: ys ∧
    PoolSafe g m' (changes + 1) (Function.update seen t n) (Function.update acct t a') ys ∧
      Balanced g m acct chain m' (Function.update acct t a') ys := by
  subst hold
  have hg := h.good t
  simp only [Acct.Good, hp] at hg
  obtain ⟨hle, hgen, hlt, hcur⟩ := hg
  -- the generations agree modulo `2 ^ 32`, so the popper has missed nothing
  have hseen : seen t = changes := by
    have := h.gen
    omega
  obtain ⟨-, hnxt⟩ := hcur hseen
  obtain ⟨ys, hys, hlink⟩ := h.top_mem (hv.ne_invalidSlot hlt)
  have hylt : ∀ x ∈ ys, x < g.poolSize := fun x hx => h.lt x (by rw [hys]; simp [hx])
  refine ⟨ys, hys, h.retop ?_ (by rw [hnxt]; exact hlink) hylt hs hh ?_⟩
  · rw [hnxt]
    by_cases hinv : m (.nextFree (taggedIdx (m .freeTop))) = invalidSlot
    · rw [hinv]
      decide
    · obtain ⟨zs, hzs, -⟩ := hlink.tail hinv
      have := hv.slot_lt (hylt (m (.nextFree (taggedIdx (m .freeTop)))) (by rw [hzs]; simp))
      omega
  · intro x _
    rw [he, hys, List.count_cons, Pi.add_apply, Pi.single_apply]
    by_cases hx : x = taggedIdx (m .freeTop)
    · simp only [hx, if_true, beq_self_eq_true]
      omega
    · simp only [hx, if_false, beq_iff_eq, Ne.symm hx]
      omega

/-- A step that changes one reference count, with the account to match. -/
theorem refWord (h : PoolSafe g m changes seen acct chain) {s v : Nat} (hv : v < 2 ^ 32)
    (hs : a'.stack = .away)
    (he : ∀ x, a'.excl x + (if x = s then if v = 0 then 0 else 1 else 0) =
      (acct t).excl x + (if x = s then inUse m s else 0))
    (hh : ∀ x, a'.holds x + (if x = s then m (.refcount s) else 0) =
      (acct t).holds x + (if x = s then v else 0)) :
    let m' := Function.update m (.refcount s) v
    PoolSafe g m' changes (Function.update seen t n) (Function.update acct t a') chain ∧
      Balanced g m acct chain m' (Function.update acct t a') chain := by
  intro m'
  have hm' : ∀ l, l ≠ .refcount s → m' l = m l := fun l hl => Function.update_of_ne hl ..
  have hself : m' (.refcount s) = v := Function.update_self ..
  have hb : Balanced g m acct chain m' (Function.update acct t a') chain := by
    refine ⟨fun x _ => ?_, fun x _ => ?_⟩
    · have e := sum_excl acct t a' x
      have := he x
      by_cases hx : x = s
      · subst hx
        simp only [if_true, inUse, hself] at this ⊢
        omega
      · simp only [hx, if_false, inUse, hm' (.refcount x) (by simpa using hx)] at this ⊢
        omega
    · have e := sum_holds acct t a' x
      have := hh x
      rw [names_congr (fun r i => hm' _ (by simp))]
      by_cases hx : x = s
      · subst hx
        simp only [if_true] at this
        rw [hself]
        omega
      · simp only [hx, if_false] at this
        rw [hm' _ (by simpa using hx)]
        omega
  refine ⟨h.recount (hm' _ (by simp)) (fun x => hm' _ (by simp)) (Acct.good_of_away hs) hb ?_, hb⟩
  intro x hx
  by_cases hxs : x = s
  · subst hxs
    rw [hself]
    exact hv
  · rw [hm' _ (by simpa using hxs)]
    exact h.rc_lt x hx

/-- A step that replaces one claim, with the account to match. -/
theorem claimWord (h : PoolSafe g m changes seen acct chain) {i idx word : Nat}
    (hi : i < g.maxSubs) (hidx : idx < g.subRingCapacity) (hs : a'.stack = .away)
    (he : a'.excl = (acct t).excl)
    (hh : ∀ x < g.poolSize, a'.holds x + named g word x =
      (acct t).holds x + named g (m (.metaWord i idx)) x) :
    let m' := Function.update m (.metaWord i idx) word
    PoolSafe g m' changes (Function.update seen t n) (Function.update acct t a') chain ∧
      Balanced g m acct chain m' (Function.update acct t a') chain := by
  intro m'
  have hm' : ∀ l, l ≠ .metaWord i idx → m' l = m l := fun l hl => Function.update_of_ne hl ..
  have hb : Balanced g m acct chain m' (Function.update acct t a') chain := by
    refine ⟨fun x _ => ?_, fun x hx => ?_⟩
    · have e := sum_excl acct t a' x
      rw [he] at e
      simp only [inUse, hm' (.refcount x) (by simp)]
      omega
    · have e := sum_holds acct t a' x
      have := hh x hx
      have hn := names_update m hi hidx word hx
      change names g m' x + _ = _ at hn
      rw [hm' _ (by simp)]
      omega
  refine ⟨h.recount (hm' _ (by simp)) (fun x => hm' _ (by simp)) (Acct.good_of_away hs) hb ?_, hb⟩
  intro x hx
  rw [hm' _ (by simp)]
  exact h.rc_lt x hx

omit [DecidableEq ι] in
/-- An actor's references are part of the count. -/
theorem holds_le (h : PoolSafe g m changes seen acct chain) {s : Nat} (hs : s < g.poolSize) (t : ι) :
    (acct t).holds s ≤ m (.refcount s) := by
  have := le_sum (fun u => (acct u).holds s) t
  have := h.refs s hs
  omega

/-- `publish()` presets the count of a slot it holds exclusively. -/
theorem presetRefs (hv : g.Valid) (h : PoolSafe g m changes seen acct chain) {s : Nat}
    (hlt : s < g.poolSize) (he : a'.excl + Pi.single s 1 = (acct t).excl)
    (hh : a'.holds = (acct t).holds + Pi.single s g.maxSubs) (hs : a'.stack = .away) :
    let m' := Function.update m (.refcount s) (u32 g.maxSubs)
    PoolSafe g m' changes (Function.update seen t n) (Function.update acct t a') chain ∧
      Balanced g m acct chain m' (Function.update acct t a') chain := by
  have he' : ∀ x, a'.excl x + (if x = s then 1 else 0) = (acct t).excl x := fun x => by
    simpa only [Pi.add_apply, Pi.single_apply] using congrFun he x
  have hpos : 0 < (acct t).excl s := by
    have := he' s
    simp only [if_true] at this
    omega
  obtain ⟨-, hrc, -⟩ := h.of_excl hlt hpos
  have hpos := hv.maxSubs_pos
  have hsmall := hv.maxSubs_lt
  have hu : u32 g.maxSubs = g.maxSubs := Nat.mod_eq_of_lt (by omega)
  rw [hu]
  refine h.refWord (by omega) hs (fun x => ?_) (fun x => ?_)
  · have hne : g.maxSubs ≠ 0 := by omega
    simp only [inUse, hrc, hne, if_false, if_true, ite_self, Nat.add_zero]
    exact he' x
  · rw [hh, Pi.add_apply, Pi.single_apply, hrc, ite_self, Nat.add_zero]

/-- `fetch_sub` of references the actor holds: no underflow, and the last one out owns the slot. -/
theorem dropRefs (h : PoolSafe g m changes seen acct chain) {s k : Nat} (hlt : s < g.poolSize)
    (hk : 0 < k)
    (hh : a'.holds + Pi.single s k = (acct t).holds)
    (he : a'.excl = (acct t).excl + Pi.single s (if m (.refcount s) = k then 1 else 0))
    (hs : a'.stack = .away) :
    let m' := Function.update m (.refcount s) ((m (.refcount s) + 2 ^ 32 - k) % 2 ^ 32)
    PoolSafe g m' changes (Function.update seen t n) (Function.update acct t a') chain ∧
      Balanced g m acct chain m' (Function.update acct t a') chain := by
  have hh' : ∀ x, a'.holds x + (if x = s then k else 0) = (acct t).holds x := fun x => by
    simpa only [Pi.add_apply, Pi.single_apply] using congrFun hh x
  have hle : k ≤ m (.refcount s) := by
    have := hh' s
    simp only [if_true] at this
    have := h.holds_le hlt t
    omega
  have hrc := h.rc_lt s hlt
  have hval : (m (.refcount s) + 2 ^ 32 - k) % 2 ^ 32 = m (.refcount s) - k := by omega
  rw [hval]
  refine h.refWord (by omega) hs (fun x => ?_) (fun x => ?_)
  · rw [he, Pi.add_apply, Pi.single_apply]
    by_cases hx : x = s
    · simp only [hx, if_true, inUse]
      split_ifs <;> omega
    · simp [hx]
  · have := hh' x
    by_cases hx : x = s
    · simp only [hx, if_true] at this ⊢
      omega
    · simp only [hx, if_false] at this ⊢
      omega

/-- The pin of a reader: only a slot that is referenced already. -/
theorem pinRef (h : PoolSafe g m changes seen acct chain) {s rc : Nat} (hlt : s < g.poolSize)
    (hold : m (.refcount s) = rc) (h0 : 0 < rc) (hmax : rc ≠ 2 ^ 32 - 1)
    (he : a'.excl = (acct t).excl) (hh : a'.holds = (acct t).holds + Pi.single s 1)
    (hs : a'.stack = .away) :
    let m' := Function.update m (.refcount s) (u32 (rc + 1))
    PoolSafe g m' changes (Function.update seen t n) (Function.update acct t a') chain ∧
      Balanced g m acct chain m' (Function.update acct t a') chain := by
  have hrc := h.rc_lt s hlt
  have hu : u32 (rc + 1) = rc + 1 := Nat.mod_eq_of_lt (by omega)
  rw [hu]
  refine h.refWord (by omega) hs (fun x => ?_) (fun x => ?_)
  · have hne : rc ≠ 0 := by omega
    simp only [he, inUse, hold, hne, Nat.succ_ne_zero, if_false]
  · rw [hh, Pi.add_apply, Pi.single_apply, hold]
    by_cases hx : x = s
    · simp only [hx, if_true]
      omega
    · simp [hx]

end PoolSafe

/-- `changes` after an access. -/
def Op.changesAfter (op : Op) (r : Resp) (changes : Nat) : Nat :=
  if op.movesTop r then changes + 1 else changes

/-- `seen` after an access of actor `t`. -/
def Op.seenAfter (op : Op) (t : ι) (changes : Nat) (seen : ι → Nat) : ι → Nat :=
  if op.seesTop then Function.update seen t changes else seen

omit [Fintype ι] in
theorem Op.seenAfter_eq (op : Op) (t : ι) (changes : Nat) (seen : ι → Nat) :
    op.seenAfter t changes seen =
      Function.update seen t (if op.seesTop then changes else seen t) := by
  unfold Op.seenAfter
  split
  · rfl
  · exact (Function.update_eq_self t seen).symm

/-- Every move keeps the ledger safe and balanced, as long as no pop spans `2 ^ 32` changes. -/
theorem PoolSafe.move (hv : g.Valid) (h : PoolSafe g m changes seen acct chain) {procs : Procs}
    {c : Bool} {op : Op} (hm : Move g (acct t) (op.exec procs m c).2 a' op)
    (haba : ∀ old nxt, (acct t).stack = .popCas old nxt → changes - seen t < 2 ^ 32) :
    ∃ chain', PoolSafe g (op.exec procs m c).1 (op.changesAfter (op.exec procs m c).2 changes)
        (op.seenAfter t changes seen) (Function.update acct t a') chain' ∧
      Balanced g m acct chain (op.exec procs m c).1 (Function.update acct t a') chain' := by
  rw [Op.seenAfter_eq]
  generalize hr : (op.exec procs m c).2 = r at hm
  cases hm with
  | quiet hop he hh hs =>
    have hmem : ∀ l, l.ledger = true → (op.exec procs m c).1 l = m l := by
      intro l hl
      refine Op.exec_frame procs m c op fun ht => ?_
      simp [Op.quiet, ht, hl] at hop
    have hmove : op.movesTop r = false := by
      cases op with
      | cas w l e d => cases l <;> simp_all [Op.movesTop, Op.quiet, Op.target, Loc.ledger]
      | _ => rfl
    refine ⟨chain, ?_⟩
    rw [Op.changesAfter, hmove]
    exact h.stay hmem he hh (Acct.good_of_away hs)
  | load he hh hs =>
    refine ⟨chain, h.stay (fun _ _ => rfl) he hh ?_⟩
    subst hr
    rcases hs with hs | ⟨s, hlt, hpos, hs⟩ | ⟨hlt, hs⟩
    · exact Acct.good_of_away hs
    · simp [Acct.Good, hs, hlt, he, hpos]
    · have hgen := h.gen
      simp only [Op.exec] at hlt
      simp [Acct.Good, hs, Op.seesTop, Op.exec, hgen, hlt, -Nat.reducePow]
  | link hp he hh hs => exact ⟨chain, h.relink hv hp he hh hs⟩
  | @pushCas s old hp hh hok hno =>
    rcases Op.exec_cas procs m c true .freeTop old (taggedPack (u32 (taggedGen old + 1)) s) with
      ⟨hold, e⟩ | e
    · rw [e] at hr ⊢
      subst hr
      obtain ⟨hs, he⟩ := hok rfl
      exact ⟨s :: chain, h.push hv hp hold hs hh he⟩
    · rw [e] at hr ⊢
      subst hr
      obtain ⟨hs, he⟩ := hno rfl
      refine ⟨chain, h.stay (fun _ _ => rfl) he hh ?_⟩
      have hg := h.good t
      simp only [Acct.Good, hp] at hg
      simp [Acct.Good, hs, he, hg]
  | @next old hp he hh hs =>
    refine ⟨chain, h.stay (fun _ _ => rfl) he hh ?_⟩
    have hg := h.good t
    subst hr
    simp only [Acct.Good, hp] at hg
    simp only [Acct.Good, hs, Op.exec, Op.seesTop]
    exact ⟨hg.1, hg.2.1, hg.2.2.1, fun heq => ⟨hg.2.2.2 heq, trivial⟩⟩
  | @popCas old nxt hp hh hok hno =>
    rcases Op.exec_cas procs m c true .freeTop old (taggedPack (u32 (taggedGen old + 1)) nxt) with
      ⟨hold, e⟩ | e
    · rw [e] at hr ⊢
      subst hr
      obtain ⟨hs, he⟩ := hok rfl
      obtain ⟨ys, -, hpop⟩ := h.pop hv hp hold (haba _ _ hp) hs hh he
      exact ⟨ys, hpop⟩
    · rw [e] at hr ⊢
      subst hr
      obtain ⟨he, hs⟩ := hno rfl
      refine ⟨chain, h.stay (fun _ _ => rfl) he hh ?_⟩
      rcases hs with hs | ⟨hlt, hs⟩
      · exact Acct.good_of_away hs
      · have hgen := h.gen
        simp only [] at hlt
        simp [Acct.Good, hs, Op.seesTop, hgen, hlt, -Nat.reducePow]
  | preset hlt he hh hs => exact ⟨chain, h.presetRefs hv hlt he hh hs⟩
  | drop hlt hk hh he hs =>
    subst hr
    exact ⟨chain, h.dropRefs hlt hk hh he hs⟩
  | @pin s rc hlt h0 hmax he hh hs =>
    rcases Op.exec_cas procs m c true (.refcount s) rc (u32 (rc + 1)) with ⟨hold, e⟩ | e
    · rw [e] at hr ⊢
      subst hr
      exact ⟨chain, h.pinRef hlt hold h0 hmax he hh hs⟩
    · rw [e] at hr ⊢
      subst hr
      refine ⟨chain, h.stay (fun _ _ => rfl) he ?_ (Acct.good_of_away hs)⟩
      simpa using hh
  | @take i idx old pos s hi hidx hlt he hs hok hno =>
    rcases Op.exec_cas procs m c true (.metaWord i idx) old (metaPack pos s) with ⟨hold, e⟩ | e
    · rw [e] at hr ⊢
      subst hr
      refine ⟨chain, h.claimWord hi hidx hs he fun x hx => ?_⟩
      have := congrFun (hok rfl) x
      simp only [Pi.add_apply] at this
      rw [named_metaPack hv hlt, hold]
      omega
    · rw [e] at hr ⊢
      subst hr
      exact ⟨chain, h.stay (fun _ _ => rfl) he (hno rfl) (Acct.good_of_away hs)⟩
  | @clear i idx old hi hidx he hs hok hno =>
    rcases Op.exec_cas procs m c false (.metaWord i idx) old (metaClear old) with ⟨hold, e⟩ | e
    · rw [e] at hr ⊢
      subst hr
      refine ⟨chain, h.claimWord hi hidx hs he fun x hx => ?_⟩
      rw [named_metaClear, hold, hok rfl, Pi.add_apply, Nat.add_zero]
    · rw [e] at hr ⊢
      subst hr
      exact ⟨chain, h.stay (fun _ _ => rfl) he (hno rfl) (Acct.good_of_away hs)⟩

end Step

/-! ## The two loops on `free_top` as moves -/

/-- The place of a running `treiber_push` of slot `slotIdx`. -/
def PushPc.stack (slotIdx : Nat) : PushPc → StackPc
  | .load => .away
  | .link oldTop => .link slotIdx oldTop
  | .cas oldTop => .pushCas slotIdx oldTop

/-- The place of a running `treiber_pop`. -/
def PopPc.stack : PopPc → StackPc
  | .load => .away
  | .next oldTop => .next oldTop
  | .cas oldTop nxt => .popCas oldTop nxt

section Loops

variable {g : Geometry} {a a' : Acct} {r : Resp}

/-- One access of `treiber_push` by the owner of the slot. -/
theorem PushPc.move {slotIdx : Nat} {p : PushPc} (hlt : slotIdx < g.poolSize)
    (hs : a.stack = p.stack slotIdx) (hpos : 0 < a.excl slotIdx) (hh : a'.holds = a.holds)
    (hsome : ∀ p', p.resume r = some p' → a'.stack = p'.stack slotIdx ∧ a'.excl = a.excl)
    (hnone : p.resume r = none → a'.stack = .away ∧ a'.excl + Pi.single slotIdx 1 = a.excl) :
    Move g a r a' (p.request slotIdx) := by
  cases p with
  | load =>
    obtain ⟨hs', he⟩ := hsome _ rfl
    exact .load he hh (.inr (.inl ⟨slotIdx, hlt, hpos, hs'⟩))
  | link oldTop =>
    obtain ⟨hs', he⟩ := hsome _ rfl
    exact .link hs he hh hs'
  | cas oldTop =>
    refine .pushCas hs hh (fun hok => hnone ?_) (fun hno => ?_)
    · simp [PushPc.resume, hok]
    · exact hsome (.link r.val) (by simp [PushPc.resume, hno])

/-- A running `treiber_pop` has bounds-checked the top it holds. -/
def PopPc.Ok (poolSize : Nat) : PopPc → Prop
  | .load => True
  | .next oldTop | .cas oldTop _ => taggedIdx oldTop < poolSize

theorem PopPc.look_cases (poolSize oldTop : Nat) : PopPc.look poolSize oldTop = .ret none ∨
    (taggedIdx oldTop < poolSize ∧ PopPc.look poolSize oldTop = .busy (.next oldTop)) := by
  unfold PopPc.look
  split_ifs with h1 h2
  · exact .inl rfl
  · exact .inl rfl
  · exact .inr ⟨by omega, rfl⟩

/-- Whatever the words answer, `treiber_pop` goes on with a checked top or returns a checked slot. -/
theorem PopPc.Ok.resume {poolSize : Nat} {p : PopPc} (h : p.Ok poolSize) (r : Resp) :
    match p.resume poolSize r with
    | .busy p' => p'.Ok poolSize
    | .ret (some s) => s < poolSize
    | .ret none => True := by
  have look : ∀ top, match PopPc.look poolSize top with
      | .busy p' => p'.Ok poolSize
      | .ret (some s) => s < poolSize
      | .ret none => True := fun top => by
    rcases PopPc.look_cases poolSize top with e | ⟨hlt, e⟩
    · rw [e]
      trivial
    · rw [e]
      exact hlt
  cases p with
  | load => exact look r.val
  | next oldTop => exact h
  | cas oldTop nxt =>
    simp only [PopPc.resume]
    split_ifs
    · exact h
    · exact look r.val

/-- One access of `treiber_pop`; its result becomes the caller's. -/
theorem PopPc.move {p : PopPc} (hs : a.stack = p.stack) (hh : a'.holds = a.holds)
    (hbusy : ∀ p', p.resume g.poolSize r = .busy p' → a'.stack = p'.stack ∧ a'.excl = a.excl)
    (hfail : p.resume g.poolSize r = .ret none → a'.stack = .away ∧ a'.excl = a.excl)
    (hret : ∀ s, p.resume g.poolSize r = .ret (some s) →
      a'.stack = .away ∧ a'.excl = a.excl + Pi.single s 1) :
    Move g a r a' p.request := by
  cases p with
  | load =>
    rcases PopPc.look_cases g.poolSize r.val with h | ⟨hlt, h⟩
    · obtain ⟨hs', he⟩ := hfail h
      exact .load he hh (.inl hs')
    · obtain ⟨hs', he⟩ := hbusy _ h
      exact .load he hh (.inr (.inr ⟨hlt, hs'⟩))
  | next oldTop =>
    obtain ⟨hs', he⟩ := hbusy _ rfl
    exact .next hs he hh hs'
  | cas oldTop nxt =>
    refine .popCas hs hh (fun hok => hret _ (by simp [PopPc.resume, hok])) (fun hno => ?_)
    rcases PopPc.look_cases g.poolSize r.val with h | ⟨hlt, h⟩
    · obtain ⟨hs', he⟩ := hfail (by simp [PopPc.resume, hno, h])
      exact ⟨he, .inl hs'⟩
    · obtain ⟨hs', he⟩ := hbusy (.next r.val) (by simp [PopPc.resume, hno, h])
      exact ⟨he, .inr ⟨hlt, hs'⟩⟩

end Loops

end Kickmsg
