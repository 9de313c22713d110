import Kickmsg.Conservation

/-!
# Reclaiming orphaned slots

`reclaim_orphaned_slots` rebuilds the free stack and the reference counts from what the entries name. It is
called when nobody works on the region, but whoever did may have crashed at any access: a slot may have been
popped and never referenced, referenced and never claimed, displaced and never released, released and never
pushed; and an earlier pass may itself have been cut short. Whatever it finds, it leaves every slot either free
and named by no entry, or named and counted once for each entry that names it.
-/

namespace Kickmsg

open Finset Lib

/-! ## Counting the claims -/

section Claims

variable {g : Geometry} {m : Mem} {i idx x : Nat}

/-- The number of entries before entry `idx` of ring `i` whose meta word names slot `x`. -/
def namesBelow (g : Geometry) (m : Mem) (i idx x : Nat) : Nat :=
  ((entries g).filter fun e => (e.1 < i ∨ e.1 = i ∧ e.2 < idx) ∧
    metaSlotBiased (m (.metaWord e.1 e.2)) = x + 1).card

@[simp] theorem namesBelow_zero : namesBelow g m 0 0 x = 0 := by
  simp [namesBelow]

theorem namesBelow_le : namesBelow g m i idx x ≤ names g m x :=
  card_le_card fun e he => by
    rw [mem_filter] at he ⊢
    exact ⟨he.1, he.2.2⟩

theorem namesBelow_succ (hi : i < g.maxSubs) (hidx : idx < g.subRingCapacity) :
    namesBelow g m i (idx + 1) x =
      namesBelow g m i idx x + if metaSlotBiased (m (.metaWord i idx)) = x + 1 then 1 else 0 := by
  unfold namesBelow
  split_ifs with h
  · rw [← card_insert_of_notMem (a := (i, idx)) (by simp)]
    congr 1
    ext e
    obtain ⟨a, b⟩ := e
    simp only [mem_filter, mem_insert, Prod.mk.injEq, entries, mem_product, mem_range]
    constructor
    · rintro ⟨he, hlt, hn⟩
      by_cases hab : a = i ∧ b = idx
      · exact .inl hab
      · exact .inr ⟨he, by omega, hn⟩
    · rintro (⟨rfl, rfl⟩ | ⟨he, hlt, hn⟩)
      · exact ⟨⟨hi, hidx⟩, .inr ⟨rfl, Nat.lt_succ_self _⟩, h⟩
      · exact ⟨he, by omega, hn⟩
  · rw [Nat.add_zero]
    congr 1
    refine filter_congr fun e _ => and_congr_left fun hn => ?_
    have hne : ¬(e.1 = i ∧ e.2 = idx) := fun he => h (by rw [← he.1, ← he.2]; exact hn)
    omega

theorem namesBelow_ring : namesBelow g m i g.subRingCapacity x = namesBelow g m (i + 1) 0 x := by
  unfold namesBelow
  congr 1
  refine filter_congr fun e he => and_congr_left fun _ => ?_
  have := (mem_product.mp he).2
  rw [mem_range] at this
  omega

theorem namesBelow_maxSubs : namesBelow g m g.maxSubs 0 x = names g m x := by
  unfold namesBelow names
  congr 1
  refine filter_congr fun e he => and_iff_right (.inl ?_)
  exact mem_range.mp (mem_product.mp he).1

end Claims

/-! ## Where a pass stands -/

/-- Every slot is free and named by no entry, or named and counted once for each entry that names it. -/
def Restored (g : Geometry) (m : Mem) (chain : List Nat) : Prop :=
  ∀ x < g.poolSize, (x ∈ chain ↔ names g m x = 0) ∧ m (.refcount x) = names g m x

/-- The free stack, from the top. -/
def FreeChain (g : Geometry) (m : Mem) (chain : List Nat) : Prop :=
  Linked (fun x => m (.nextFree x)) invalidSlot (taggedIdx (m .freeTop)) chain ∧ ∀ x ∈ chain, x < g.poolSize

theorem FreeChain.unique {g : Geometry} {m : Mem} {chain chain' : List Nat} (h : FreeChain g m chain)
    (h' : FreeChain g m chain') : chain = chain' := h.1.unique h'.1

/-- The slots below `idx` have been visited by a pass that found the memory `m₀` with the free stack `chain₀`,
and has pushed `reclaimed` of them. -/
structure Visited (g : Geometry) (m₀ : Mem) (chain₀ : List Nat) (m : Mem) (chain : List Nat)
    (idx reclaimed : Nat) : Prop where
  entries : ∀ i j, m (.sequence i j) = m₀ (.sequence i j) ∧ m (.metaWord i j) = m₀ (.metaWord i j)
  pushed : ∃ pushed, chain = pushed ++ chain₀ ∧ pushed.length = reclaimed ∧
    ∀ x ∈ pushed, x < idx ∧ x ∉ chain₀ ∧ names g m₀ x = 0
  settled : ∀ x < idx, x ∉ chain₀ → m (.refcount x) = names g m₀ x ∧ (names g m₀ x = 0 → x ∈ chain)
  same : Restored g m₀ chain₀ → m = m₀

/-- What the pass has gathered about the slots. -/
structure Gathered (g : Geometry) (m₀ : Mem) (chain₀ : List Nat) (claims : Nat → Nat) (onStack : Nat → Bool) :
    Prop where
  claims : ∀ x < g.poolSize, claims x = names g m₀ x
  onStack : ∀ x, onStack x = true ↔ x ∈ chain₀

/-- The top that a push has seen is still the top. -/
def PushPc.Current (m : Mem) : PushPc → Prop
  | .load => True
  | .link oldTop | .cas oldTop => m .freeTop = oldTop

namespace Orphan

/-- The slot that the pass has taken off its hands, until the push has succeeded. -/
def acct (u : Orphan) : Acct :=
  match u.pc with
  | .push _ _ idx p => ⟨Pi.single idx 1, 0, p.stack idx⟩
  | _ => ⟨0, 0, .away⟩

/-- Where the pass stands, having found the memory `m₀` with the free stack `chain₀`. -/
def Stands (g : Geometry) (m₀ : Mem) (chain₀ : List Nat) (m : Mem) (chain : List Nat) (u : Orphan) : Prop :=
  match u.pc with
  | .idle => Visited g m₀ chain₀ m chain g.poolSize u.reclaimed
  | .count i idx claims => u.reclaimed = 0 ∧ m = m₀ ∧ chain = chain₀ ∧ i < g.maxSubs ∧
      idx < g.subRingCapacity ∧ ∀ x < g.poolSize, claims x = namesBelow g m₀ i idx x
  | .top claims => u.reclaimed = 0 ∧ m = m₀ ∧ chain = chain₀ ∧ ∀ x < g.poolSize, claims x = names g m₀ x
  | .walk claims onStack idx walked => u.reclaimed = 0 ∧ m = m₀ ∧ chain = chain₀ ∧
      (∀ x < g.poolSize, claims x = names g m₀ x) ∧
      walked < g.poolSize ∧ ∃ seen rest, chain₀ = seen ++ idx :: rest ∧ seen.length = walked ∧
        ∀ x, onStack x = true ↔ x ∈ seen ++ [idx]
  | .reset claims onStack idx => Visited g m₀ chain₀ m chain idx u.reclaimed ∧
      Gathered g m₀ chain₀ claims onStack ∧ idx < g.poolSize ∧ idx ∉ chain₀
  | .push claims onStack idx p => Visited g m₀ chain₀ m chain idx u.reclaimed ∧
      Gathered g m₀ chain₀ claims onStack ∧ idx < g.poolSize ∧ idx ∉ chain₀ ∧
      names g m₀ idx = 0 ∧ m (.refcount idx) = 0 ∧ p.Current m

section Turns

variable {g : Geometry} {u : Orphan} {m₀ m : Mem} {chain₀ chain : List Nat} {claims : Nat → Nat}
  {onStack : Nat → Bool} {i idx walked : Nat}

@[simp] theorem acct_visit : (u.visit g claims onStack idx).acct = ⟨0, 0, .away⟩ := by
  fun_induction visit g u claims onStack idx with
  | case1 idx _ _ ih => exact ih
  | case2 idx _ _ => rfl
  | case3 idx _ => rfl

@[simp] theorem acct_walkFrom : (u.walkFrom g claims onStack idx walked).acct = ⟨0, 0, .away⟩ := by
  unfold walkFrom
  split_ifs
  · rfl
  · exact acct_visit

@[simp] theorem acct_countFrom : (u.countFrom g i idx claims).acct = ⟨0, 0, .away⟩ := by
  unfold countFrom
  split_ifs <;> rfl

@[simp] theorem acct_start : (u.start g).acct = ⟨0, 0, .away⟩ := acct_countFrom

/-- A slot on the stack is passed over. -/
theorem visited_skip {n : Nat} (h : Visited g m₀ chain₀ m chain idx n) (hx : idx ∈ chain₀) :
    Visited g m₀ chain₀ m chain (idx + 1) n where
  entries := h.entries
  pushed := by
    obtain ⟨pushed, hp, hlen, hall⟩ := h.pushed
    exact ⟨pushed, hp, hlen, fun x hxp => ⟨Nat.lt_succ_of_lt (hall x hxp).1, (hall x hxp).2⟩⟩
  settled x hlt hnot := by
    rcases Nat.lt_succ_iff_lt_or_eq.mp hlt with hlt | rfl
    · exact h.settled x hlt hnot
    · exact absurd hx hnot
  same := h.same

theorem stands_visit (hG : Gathered g m₀ chain₀ claims onStack) (hle : idx ≤ g.poolSize)
    (h : Visited g m₀ chain₀ m chain idx u.reclaimed) :
    (u.visit g claims onStack idx).Stands g m₀ chain₀ m chain := by
  fun_induction visit g u claims onStack idx with
  | case1 idx hlt hon ih => exact ih (Nat.succ_le_of_lt hlt) (visited_skip h ((hG.onStack idx).mp hon))
  | case2 idx hlt hon => exact ⟨h, hG, hlt, fun hmem => hon ((hG.onStack idx).mpr hmem)⟩
  | case3 idx hge =>
    obtain rfl : idx = g.poolSize := by omega
    exact h

/-- Before its first visit the pass has changed nothing. -/
theorem visited_zero (hclean : m = m₀ ∧ chain = chain₀) : Visited g m₀ chain₀ m chain 0 0 := by
  obtain ⟨rfl, rfl⟩ := hclean
  exact ⟨fun _ _ => ⟨rfl, rfl⟩, ⟨[], rfl, rfl, nofun⟩, nofun, fun _ => rfl⟩

/-- The walk has seen the first part of the stack and is at the head of the rest. -/
theorem stands_walkFrom {seen rest : List Nat} (hr : u.reclaimed = 0)
    (hcl : ∀ x < g.poolSize, claims x = names g m x) (hlt : ∀ x ∈ seen ++ rest, x < g.poolSize)
    (hd : (seen ++ rest).Nodup) (hlink : Linked (fun x => m (.nextFree x)) invalidSlot idx rest)
    (hlen : seen.length = walked) (hon : ∀ x, onStack x = true ↔ x ∈ seen) :
    (u.walkFrom g claims onStack idx walked).Stands g m (seen ++ rest) m (seen ++ rest) := by
  unfold walkFrom
  split_ifs with hgo
  · obtain ⟨ys, rfl, -⟩ := hlink.tail hgo.1
    refine ⟨hr, rfl, rfl, hcl, hgo.2.2, seen, ys, rfl, hlen, fun x => ?_⟩
    by_cases hx : x = idx
    · simp [hx]
    · simp [hx, hon x]
  · -- the stack is at its end: an index on it is in bounds, and it has no more slots than the pool
    have hrest : rest = [] := by
      by_contra hne
      obtain ⟨ys, rfl, -⟩ := hlink.tail fun e => hne (hlink.eq_nil_iff.mpr e)
      refine hgo ⟨fun e => hne (hlink.eq_nil_iff.mpr e), hlt idx (by simp), ?_⟩
      have hsub : seen ++ idx :: ys ⊆ List.range g.poolSize := fun x hx => List.mem_range.mpr (hlt x hx)
      have := (List.subperm_of_subset hd hsub).length_le
      rw [List.length_append, List.length_range, List.length_cons] at this
      omega
    subst hrest
    rw [List.append_nil]
    exact stands_visit ⟨hcl, hon⟩ (Nat.zero_le _) (by rw [hr]; exact visited_zero ⟨rfl, rfl⟩)

/-- The count goes on at the next entry, if there is one. -/
theorem stands_countFrom (hv : g.Valid) (hr : u.reclaimed = 0) (hi : i < g.maxSubs)
    (hidx : idx ≤ g.subRingCapacity) (hcl : ∀ x < g.poolSize, claims x = namesBelow g m i idx x) :
    (u.countFrom g i idx claims).Stands g m chain m chain := by
  unfold countFrom
  split_ifs with h h'
  · exact ⟨hr, rfl, rfl, hi, h, hcl⟩
  · obtain rfl : idx = g.subRingCapacity := by omega
    exact ⟨hr, rfl, rfl, h', hv.capacity_pos, fun x hx => by rw [hcl x hx, namesBelow_ring]⟩
  · obtain rfl : idx = g.subRingCapacity := by omega
    have hlast : i + 1 = g.maxSubs := by omega
    exact ⟨hr, rfl, rfl, fun x hx => by rw [hcl x hx, namesBelow_ring, hlast, namesBelow_maxSubs]⟩

theorem stands_start (hv : g.Valid) : (u.start g).Stands g m chain m chain :=
  stands_countFrom hv rfl hv.maxSubs_pos (Nat.zero_le _) fun _ _ => namesBelow_zero.symm

/-- What is left of the pass: at most so many accesses, if no compare-exchange fails. -/
def remaining (g : Geometry) (u : Orphan) : Nat :=
  match u.pc with
  | .idle => 0
  | .count i idx _ => 5 * g.poolSize + 1 + ((g.maxSubs - i) * g.subRingCapacity - idx)
  | .top _ => 5 * g.poolSize + 1
  | .walk _ _ _ walked => 5 * g.poolSize - walked
  | .reset _ _ idx => 4 * (g.poolSize - idx)
  | .push _ _ idx .load => 4 * (g.poolSize - idx) - 1
  | .push _ _ idx (.link _) => 4 * (g.poolSize - idx) - 2
  | .push _ _ idx (.cas _) => 4 * (g.poolSize - idx) - 3

theorem remaining_le :
    u.remaining g ≤ 5 * g.poolSize + 1 + g.maxSubs * g.subRingCapacity := by
  cases e : u.pc with
  | count i idx claims =>
    have : (g.maxSubs - i) * g.subRingCapacity ≤ g.maxSubs * g.subRingCapacity :=
      Nat.mul_le_mul_right _ (Nat.sub_le _ _)
    simp only [remaining, e]
    omega
  | push claims onStack idx p =>
    cases p <;> simp only [remaining, e] <;> omega
  | _ =>
    simp only [remaining, e]
    omega

theorem remaining_visit : (u.visit g claims onStack idx).remaining g ≤ 4 * (g.poolSize - idx) := by
  fun_induction visit g u claims onStack idx with
  | case1 idx _ _ ih => omega
  | case2 idx _ _ => exact Nat.le_refl _
  | case3 idx _ => exact Nat.zero_le _

theorem remaining_walkFrom (h : walked ≤ g.poolSize) :
    (u.walkFrom g claims onStack idx walked).remaining g ≤ 5 * g.poolSize - walked := by
  unfold walkFrom
  split_ifs
  · exact Nat.le_refl _
  · have hv : (u.visit g claims onStack 0).remaining g ≤ 4 * (g.poolSize - 0) := remaining_visit
    omega

theorem remaining_countFrom (hidx : idx ≤ g.subRingCapacity) :
    (u.countFrom g i idx claims).remaining g ≤
      5 * g.poolSize + 1 + ((g.maxSubs - i) * g.subRingCapacity - idx) := by
  unfold countFrom
  split_ifs with h h'
  · exact Nat.le_refl _
  · obtain rfl : idx = g.subRingCapacity := by omega
    have hrow : (g.maxSubs - i) * g.subRingCapacity =
        (g.maxSubs - (i + 1)) * g.subRingCapacity + g.subRingCapacity := by
      rw [← Nat.succ_mul]
      congr 1
      omega
    simp only [remaining]
    omega
  · exact Nat.le_add_right _ _

end Turns

end Orphan

/-! ## One access of a pass -/

section Access

variable {ι : Type} [Fintype ι] [DecidableEq ι] {g : Geometry} {m₀ m : Mem} {changes n : Nat} {seen : ι → Nat}
  {acct : ι → Acct} {chain₀ chain : List Nat} {t : ι} {a' : Acct} {x : Nat}

/-- With nothing in anyone's hands, the count of a slot off the stack may be set to the number of its names;
an unnamed slot is then the actor's. -/
theorem PoolSafe.reset (h : PoolSafe g m changes seen acct chain) (hz : ∀ v, acct v = ⟨0, 0, .away⟩)
    (hx : x < g.poolSize) (hnot : x ∉ chain) (hs : a'.stack = .away) (hh : a'.holds = 0)
    (he : a'.excl = if names g m x = 0 then Pi.single x 1 else 0) :
    PoolSafe g (Function.update m (.refcount x) (names g m x)) changes (Function.update seen t n)
      (Function.update acct t a') chain := by
  have hne : ∀ l, l ≠ .refcount x → Function.update m (.refcount x) (names g m x) l = m l :=
    fun l hl => Function.update_of_ne hl ..
  have hexcl : ∀ y, ∑ v, (Function.update acct t a' v).excl y = a'.excl y := fun y => by
    have := sum_excl acct t a' y
    simpa [hz] using this
  have hholds : ∀ y, ∑ v, (Function.update acct t a' v).holds y = 0 := fun y => by
    have := sum_holds acct t a' y
    simpa [hz, hh] using this
  have hnames : ∀ y, names g (Function.update m (.refcount x) (names g m x)) y = names g m y :=
    names_congr fun r i => hne _ (by simp)
  refine ⟨?_, ?_, ?_, h.lt, fun v => ?_, fun y hy => ?_, fun y hy => ?_, fun y hy => ?_⟩
  · simp only [hne (.nextFree _) (by simp), hne .freeTop (by simp)]
    exact h.linked
  · rw [hne _ (by simp)]
    exact h.gen
  · rw [hne _ (by simp)]
    exact h.word
  · refine Acct.good_of_away ?_
    by_cases hv : v = t
    · rw [hv, Function.update_self, hs]
    · rw [Function.update_of_ne hv, hz]
  · rw [hexcl, he]
    by_cases hyx : y = x
    · subst hyx
      rw [List.count_eq_zero_of_not_mem hnot, inUse, Function.update_self]
      split_ifs with h0 <;> simp
    · have := h.once y hy
      rw [inUse, hne _ (by simpa using hyx)]
      unfold inUse at this
      split_ifs <;> simp_all
  · rw [hnames, hholds, Nat.add_zero]
    by_cases hyx : y = x
    · rw [hyx, Function.update_self]
    · rw [hne _ (by simpa using hyx)]
      have := h.refs y hy
      omega
  · by_cases hyx : y = x
    · rw [hyx, Function.update_self]
      have := h.refs x hx
      have := h.rc_lt x hx
      omega
    · rw [hne _ (by simpa using hyx)]
      exact h.rc_lt y hy

omit [DecidableEq ι] in
/-- What an actor had may be written off. -/
theorem PoolSafe.forget {acct' : ι → Acct} (h : PoolSafe g m changes seen acct chain)
    (hle : ∀ v, acct' v = acct v ∨ acct' v = ⟨0, 0, .away⟩) : PoolSafe g m changes seen acct' chain where
  linked := h.linked
  gen := h.gen
  word := h.word
  lt := h.lt
  good v := by
    rcases hle v with e | e
    · rw [e]
      exact h.good v
    · exact Acct.good_of_away (by rw [e])
  once x hx := by
    have hsum : ∑ v, (acct' v).excl x ≤ ∑ v, (acct v).excl x := sum_le_sum fun v _ => by
      rcases hle v with e | e <;> simp [e]
    have := h.once x hx
    omega
  refs x hx := by
    have hsum : ∑ v, (acct' v).holds x ≤ ∑ v, (acct v).holds x := sum_le_sum fun v _ => by
      rcases hle v with e | e <;> simp [e]
    have := h.refs x hx
    omega
  rc_lt := h.rc_lt

/-- A load changes nothing of the ledger. -/
theorem PoolSafe.look (h : PoolSafe g m changes seen acct chain) (ht : acct t = ⟨0, 0, .away⟩) (l : Loc) (r : Resp) :
    PoolSafe g m ((Op.load l).changesAfter r changes) ((Op.load l).seenAfter t changes seen)
      (Function.update acct t ⟨0, 0, .away⟩) chain := by
  rw [Op.seenAfter_eq]
  exact (h.stay (fun _ _ => rfl) (by rw [ht]) (by rw [ht]) (Acct.good_of_away rfl)).1

namespace Orphan

variable {u : Orphan} {procs : Procs} {c : Bool} {op : Op} {claims : Nat → Nat} {onStack : Nat → Bool}
  {i idx walked : Nat}

omit [DecidableEq ι] in
/-- One more entry is counted, without overflow: a slot has no more names than references. -/
theorem counted_succ (hS : PoolSafe g m changes seen acct chain) (hi : i < g.maxSubs)
    (hidx : idx < g.subRingCapacity) (hcl : ∀ x < g.poolSize, claims x = namesBelow g m i idx x) :
    ∀ x < g.poolSize,
      (if metaSlotBiased (m (.metaWord i idx)) ≠ 0 ∧ metaSlotBiased (m (.metaWord i idx)) - 1 < g.poolSize then
        Function.update claims (metaSlotBiased (m (.metaWord i idx)) - 1)
          (u32 (claims (metaSlotBiased (m (.metaWord i idx)) - 1) + 1))
      else claims) x = namesBelow g m i (idx + 1) x := by
  intro x hx
  have hsucc := namesBelow_succ (m := m) (x := x) hi hidx
  have hle : namesBelow g m i (idx + 1) x ≤ names g m x := namesBelow_le
  have hrefs := hS.refs x hx
  have hrc := hS.rc_lt x hx
  generalize metaSlotBiased (m (.metaWord i idx)) = biased at hsucc ⊢
  by_cases hb : biased = x + 1
  · subst hb
    rw [if_pos rfl] at hsucc
    rw [if_pos ⟨Nat.succ_ne_zero x, hx⟩, Nat.add_sub_cancel, Function.update_self, hcl x hx, hsucc]
    exact Nat.mod_eq_of_lt (by omega)
  · rw [if_neg hb, Nat.add_zero] at hsucc
    rw [hsucc, ← hcl x hx]
    split_ifs with h
    · exact Function.update_of_ne (by omega) ..
    · rfl

/-- The accesses before the first visit are loads. -/
theorem Stands.gather (hv : g.Valid) (h : u.Stands g m₀ chain₀ m chain) (hS : PoolSafe g m changes seen acct chain)
    (ht : acct t = ⟨0, 0, .away⟩) {l : Loc} (hop : u.request = some (.load l))
    (hpc : ∀ claims onStack idx p, u.pc ≠ .push claims onStack idx p) :
    PoolSafe g m ((Op.load l).changesAfter ⟨m l, c⟩ changes) ((Op.load l).seenAfter t changes seen)
        (Function.update acct t (u.resume g ⟨m l, c⟩).acct) chain ∧
      (u.resume g ⟨m l, c⟩).Stands g m₀ chain₀ m chain := by
  obtain ⟨n, pc⟩ := u
  cases pc with
  | idle => cases hop
  | reset claims onStack idx => cases hop
  | push claims onStack idx p => exact absurd rfl (hpc _ _ _ _)
  | count i idx claims =>
    obtain rfl := Op.load.inj (Option.some.inj hop)
    obtain ⟨hr, rfl, rfl, hi, hidx, hcl⟩ := h
    simp only [resume, acct_countFrom]
    exact ⟨hS.look ht _ _, stands_countFrom hv hr hi hidx (counted_succ hS hi hidx hcl)⟩
  | top claims =>
    obtain rfl := Op.load.inj (Option.some.inj hop)
    obtain ⟨hr, rfl, rfl, hcl⟩ := h
    simp only [resume, acct_walkFrom]
    refine ⟨hS.look ht _ _, ?_⟩
    show Stands g m ([] ++ chain) m ([] ++ chain) _
    exact stands_walkFrom hr hcl hS.lt hS.linked.nodup hS.linked rfl (by simp)
  | walk claims onStack idx walked =>
    obtain rfl := Op.load.inj (Option.some.inj hop)
    obtain ⟨hr, rfl, rfl, hcl, -, seen, rest, rfl, hlen, hon⟩ := h
    simp only [resume, acct_walkFrom]
    refine ⟨hS.look ht _ _, ?_⟩
    have hlink := hS.linked
    have hd := hlink.nodup
    have hlt := hS.lt
    obtain ⟨ys, hys, hrest⟩ := hlink.from_append.tail fun e => hlink.nil_notMem (e ▸ by simp)
    obtain rfl := (List.cons.inj hys).2
    rw [List.append_cons] at hd hlt ⊢
    exact stands_walkFrom hr hcl hlt hd hrest (by simp [hlen]) hon

omit [Fintype ι] [DecidableEq ι] in
theorem visited_notMem {n : Nat} (h : Visited g m₀ chain₀ m chain idx n) (hnot : idx ∉ chain₀) : idx ∉ chain := by
  obtain ⟨pushed, rfl, -, hall⟩ := h.pushed
  rw [List.mem_append]
  rintro (hp | hp)
  · exact absurd (hall idx hp).1 (Nat.lt_irrefl _)
  · exact hnot hp

/-- The counts of the slots below survive a change of words that are not theirs. -/
theorem visited_of_frame {n : Nat} {m' : Mem} (h : Visited g m₀ chain₀ m chain idx n)
    (hw : ∀ i j, m' (.sequence i j) = m (.sequence i j) ∧ m' (.metaWord i j) = m (.metaWord i j))
    (hrc : ∀ x < idx, m' (.refcount x) = m (.refcount x))
    (hsame : Restored g m₀ chain₀ → m' = m) : Visited g m₀ chain₀ m' chain idx n where
  entries i j := ⟨(hw i j).1.trans (h.entries i j).1, (hw i j).2.trans (h.entries i j).2⟩
  pushed := h.pushed
  settled x hx hnot := by
    rw [hrc x hx]
    exact h.settled x hx hnot
  same hR := (hsame hR).trans (h.same hR)

/-- A slot off the stack that is named has been given its count. -/
theorem visited_succ {n : Nat} (h : Visited g m₀ chain₀ m chain idx n) (hrc : m (.refcount idx) = names g m₀ idx)
    (hne : names g m₀ idx ≠ 0) : Visited g m₀ chain₀ m chain (idx + 1) n where
  entries := h.entries
  pushed := by
    obtain ⟨pushed, hp, hlen, hall⟩ := h.pushed
    exact ⟨pushed, hp, hlen, fun x hxp => ⟨Nat.lt_succ_of_lt (hall x hxp).1, (hall x hxp).2⟩⟩
  settled x hlt hnot := by
    rcases Nat.lt_succ_iff_lt_or_eq.mp hlt with hlt | rfl
    · exact h.settled x hlt hnot
    · exact ⟨hrc, fun h0 => absurd h0 hne⟩
  same := h.same

/-- A slot off the stack that is not named has been pushed. -/
theorem visited_push {n : Nat} (h : Visited g m₀ chain₀ m chain idx n) (hnot : idx ∉ chain₀)
    (hrc : m (.refcount idx) = 0) (h0 : names g m₀ idx = 0) {m' : Mem} (hm : ∀ l, l ≠ .freeTop → m' l = m l)
    (hR : ¬ Restored g m₀ chain₀) : Visited g m₀ chain₀ m' (idx :: chain) (idx + 1) (n + 1) where
  entries i j := ⟨(hm _ (by simp)).trans (h.entries i j).1, (hm _ (by simp)).trans (h.entries i j).2⟩
  pushed := by
    obtain ⟨pushed, hp, hlen, hall⟩ := h.pushed
    refine ⟨idx :: pushed, by rw [hp, List.cons_append], by rw [List.length_cons, hlen], fun x hx => ?_⟩
    rcases List.mem_cons.mp hx with rfl | hx
    · exact ⟨Nat.lt_succ_self _, hnot, h0⟩
    · exact ⟨Nat.lt_succ_of_lt (hall x hx).1, (hall x hx).2⟩
  settled x hlt hxnot := by
    rw [hm _ (by simp)]
    rcases Nat.lt_succ_iff_lt_or_eq.mp hlt with hlt | rfl
    · obtain ⟨hx, hin⟩ := h.settled x hlt hxnot
      exact ⟨hx, fun hx0 => List.mem_cons_of_mem _ (hin hx0)⟩
    · exact ⟨hrc.trans h0.symm, fun _ => List.mem_cons_self⟩
  same hR' := absurd hR' hR

/-- The visit of a slot off the stack: its count becomes the number of its names, and an unnamed slot is up for
a push. -/
theorem Stands.visited (hpc : u.pc = .reset claims onStack idx) (h : u.Stands g m₀ chain₀ m chain)
    (hS : PoolSafe g m changes seen acct chain) (hz : ∀ v, acct v = ⟨0, 0, .away⟩) (r : Resp) :
    PoolSafe g (Function.update m (.refcount idx) (claims idx)) changes seen
        (Function.update acct t (u.resume g r).acct) chain ∧
      (u.resume g r).Stands g m₀ chain₀ (Function.update m (.refcount idx) (claims idx)) chain := by
  simp only [Stands, hpc] at h
  obtain ⟨hV, hG, hidx, hnot⟩ := h
  have hnames : names g m idx = names g m₀ idx := names_congr (fun i j => (hV.entries i j).2) idx
  have hcl : claims idx = names g m idx := (hG.claims idx hidx).trans hnames.symm
  have hreset : ∀ a' : Acct, a'.stack = .away → a'.holds = 0 →
      (a'.excl = if names g m idx = 0 then Pi.single idx 1 else 0) →
      PoolSafe g (Function.update m (.refcount idx) (claims idx)) changes seen (Function.update acct t a') chain := by
    intro a' hs hh he
    have := hS.reset (t := t) (n := seen t) hz hidx (visited_notMem hV hnot) hs hh he
    rwa [Function.update_eq_self, ← hcl] at this
  -- a region that was in order has this count already
  have hV' : Visited g m₀ chain₀ (Function.update m (.refcount idx) (claims idx)) chain idx u.reclaimed := by
    refine visited_of_frame hV
      (fun i j => ⟨Function.update_of_ne (by simp) .., Function.update_of_ne (by simp) ..⟩)
      (fun x hx => Function.update_of_ne (by simp only [ne_eq, Loc.refcount.injEq]; omega) ..) fun hR => ?_
    rw [hcl, hnames, ← (hR idx hidx).2, hV.same hR, Function.update_eq_self]
  simp only [resume, hpc]
  split_ifs with h0
  · rw [acct_visit]
    refine ⟨hreset _ rfl rfl (by rw [if_neg (hcl ▸ h0)]), stands_visit hG hidx (visited_succ hV' ?_ ?_)⟩
    · rw [Function.update_self, hcl, hnames]
    · rwa [← hnames, ← hcl]
  · rw [not_not] at h0
    refine ⟨hreset _ rfl rfl (by rw [if_pos (hcl ▸ h0)]; rfl), hV', hG, hidx, hnot, ?_, ?_, trivial⟩
    · rw [← hnames, ← hcl, h0]
    · rw [Function.update_self, h0]

/-- The push of an unnamed slot. -/
theorem Stands.push (hv : g.Valid) {p : PushPc} (hpc : u.pc = .push claims onStack idx p)
    (h : u.Stands g m₀ chain₀ m chain) (hS : PoolSafe g m changes seen acct chain) (ht : acct t = u.acct)
    (hop : u.request = some op) :
    ∃ chain', PoolSafe g (op.exec procs m c).1 (op.changesAfter (op.exec procs m c).2 changes)
        (op.seenAfter t changes seen) (Function.update acct t (u.resume g (op.exec procs m c).2).acct) chain' ∧
      (u.resume g (op.exec procs m c).2).Stands g m₀ chain₀ (op.exec procs m c).1 chain' := by
  simp only [Stands, hpc] at h
  obtain ⟨hV, hG, hidx, hnot, h0, hrc, hcur⟩ := h
  have hR : ¬ Restored g m₀ chain₀ := fun hR => hnot ((hR idx hidx).1.mpr h0)
  have hacct : acct t = ⟨Pi.single idx 1, 0, p.stack idx⟩ := by
    rw [ht, Orphan.acct, hpc]
  rw [Orphan.request, hpc] at hop
  obtain rfl := Option.some.inj hop
  rw [Op.seenAfter_eq]
  have hpos : 0 < (Pi.single idx 1 : Nat → Nat) idx := by simp
  cases p with
  | load =>
    refine ⟨chain, ?_, ?_⟩
    · simp only [resume, hpc, PushPc.resume]
      refine (hS.stay (fun _ _ => rfl) ?_ ?_ ?_).1
      · rw [hacct]
        rfl
      · rw [hacct]
        rfl
      · exact ⟨hidx, hpos⟩
    · simp only [resume, hpc, PushPc.resume]
      exact ⟨hV, hG, hidx, hnot, h0, hrc, rfl⟩
  | link old =>
    have hne : ∀ l, l ≠ .nextFree idx → Function.update m (.nextFree idx) (taggedIdx old) l = m l :=
      fun l hl => Function.update_of_ne hl ..
    refine ⟨chain, ?_, ?_⟩
    · simp only [resume, hpc, PushPc.resume]
      refine (hS.relink hv (by rw [hacct]; rfl) ?_ ?_ rfl).1
      · rw [hacct]
        rfl
      · rw [hacct]
        rfl
    · simp only [resume, hpc, PushPc.resume, PushPc.request, Op.exec]
      exact ⟨visited_of_frame hV (fun i j => ⟨hne _ (by simp), hne _ (by simp)⟩) (fun x _ => hne _ (by simp))
          fun h => absurd h hR,
        hG, hidx, hnot, h0, (hne _ (by simp)).trans hrc, (hne _ (by simp)).trans hcur⟩
  | cas old =>
    rw [PushPc.request]
    rcases Op.exec_cas procs m c true .freeTop old (taggedPack (u32 (taggedGen old + 1)) idx) with ⟨hold, e⟩ | e
    · rw [e]
      refine ⟨idx :: chain, ?_, ?_⟩
      · simp only [resume, hpc, PushPc.resume, if_true, acct_visit]
        refine (hS.push hv (by rw [hacct]; rfl) hold rfl ?_ ?_).1
        · rw [hacct]
        · rw [hacct, zero_add]
      · simp only [resume, hpc, PushPc.resume, if_true]
        exact stands_visit hG hidx
          (visited_push hV hnot hrc h0 (fun l hl => Function.update_of_ne hl ..) hR)
    · rw [e]
      refine ⟨chain, ?_, ?_⟩
      · simp only [resume, hpc, PushPc.resume, Bool.false_eq_true, if_false]
        refine (hS.stay (fun _ _ => rfl) ?_ ?_ ?_).1
        · rw [hacct]
          rfl
        · rw [hacct]
          rfl
        · exact ⟨hidx, hpos⟩
      · simp only [resume, hpc, PushPc.resume, Bool.false_eq_true, if_false]
        exact ⟨hV, hG, hidx, hnot, h0, hrc, rfl⟩

/-- Every access of a pass that works alone keeps the ledger safe. -/
theorem Stands.step (hv : g.Valid) (h : u.Stands g m₀ chain₀ m chain)
    (hS : PoolSafe g m changes seen acct chain) (ht : acct t = u.acct) (hz : ∀ v, v ≠ t → acct v = ⟨0, 0, .away⟩)
    (hop : u.request = some op) :
    ∃ chain', PoolSafe g (op.exec procs m c).1 (op.changesAfter (op.exec procs m c).2 changes)
        (op.seenAfter t changes seen) (Function.update acct t (u.resume g (op.exec procs m c).2).acct) chain' ∧
      (u.resume g (op.exec procs m c).2).Stands g m₀ chain₀ (op.exec procs m c).1 chain' := by
  cases e : u.pc with
  | idle =>
    rw [Orphan.request, e] at hop
    cases hop
  | push claims onStack idx p => exact h.push hv e hS ht hop
  | reset claims onStack idx =>
    rw [Orphan.request, e] at hop
    obtain rfl := Option.some.inj hop
    refine ⟨chain, h.visited e hS (fun v => ?_) _⟩
    by_cases hvt : v = t
    · rw [hvt, ht, Orphan.acct, e]
    · exact hz v hvt
  | _ =>
    obtain ⟨l, rfl⟩ : ∃ l, op = .load l := by
      rw [Orphan.request, e] at hop
      exact ⟨_, (Option.some.inj hop).symm⟩
    refine ⟨chain, h.gather hv hS ?_ hop ?_⟩
    · rw [ht, Orphan.acct, e]
    · rw [e]
      exact fun _ _ _ _ e' => by cases e'

/-- Every access brings the pass nearer to its end, unless a compare-exchange fails for no reason. -/
theorem Stands.lowers (h : u.Stands g m₀ chain₀ m chain) (hop : u.request = some op) :
    (u.resume g (op.exec procs m false).2).remaining g < u.remaining g := by
  obtain ⟨n, pc⟩ := u
  cases pc with
  | idle => cases hop
  | count i idx claims =>
    obtain rfl := Option.some.inj hop
    obtain ⟨-, -, -, hi, hidx, -⟩ := h
    refine Nat.lt_of_le_of_lt (remaining_countFrom hidx) ?_
    have hrow : g.subRingCapacity ≤ (g.maxSubs - i) * g.subRingCapacity :=
      Nat.le_mul_of_pos_left _ (Nat.sub_pos_of_lt hi)
    simp only [remaining]
    omega
  | top claims =>
    obtain rfl := Option.some.inj hop
    refine Nat.lt_of_le_of_lt (remaining_walkFrom (Nat.zero_le _)) ?_
    simp only [remaining]
    omega
  | walk claims onStack idx walked =>
    obtain rfl := Option.some.inj hop
    obtain ⟨-, -, -, -, hw, -⟩ := h
    refine Nat.lt_of_le_of_lt (remaining_walkFrom hw) ?_
    simp only [remaining]
    omega
  | reset claims onStack idx =>
    obtain ⟨-, -, hidx, -⟩ := h
    simp only [resume]
    split_ifs
    · refine Nat.lt_of_le_of_lt remaining_visit ?_
      simp only [remaining]
      omega
    · simp only [remaining]
      omega
  | push claims onStack idx p =>
    obtain ⟨-, -, hidx, -, -, -, hcur⟩ := h
    obtain rfl := Option.some.inj hop
    cases p with
    | load =>
      simp only [resume, PushPc.resume, remaining]
      omega
    | link old =>
      simp only [resume, PushPc.resume, remaining]
      omega
    | cas old =>
      have hok : ((PushPc.cas old).request idx).exec procs m false =
          (Function.update m .freeTop (taggedPack (u32 (taggedGen old + 1)) idx), ⟨old, true⟩) := by
        simp only [PushPc.Current] at hcur
        simp [PushPc.request, Op.exec, hcur]
      rw [hok]
      simp only [resume, PushPc.resume, if_true]
      refine Nat.lt_of_le_of_lt remaining_visit ?_
      simp only [remaining]
      omega

omit [Fintype ι] [DecidableEq ι] in
/-- At every moment of the pass some slots have been visited. -/
theorem Stands.progress (h : u.Stands g m₀ chain₀ m chain) : ∃ idx, Visited g m₀ chain₀ m chain idx u.reclaimed := by
  cases e : u.pc <;> simp only [Stands, e] at h
  case idle => exact ⟨_, h⟩
  case reset => exact ⟨_, h.1⟩
  case push => exact ⟨_, h.1⟩
  all_goals exact ⟨0, by rw [h.1]; exact visited_zero ⟨h.2.1, h.2.2.1⟩⟩

omit [DecidableEq ι] in
/-- Once every slot has been visited the region is in order. -/
theorem restored_of_visited {n : Nat} (hV : Visited g m₀ chain₀ m chain g.poolSize n)
    (hS : PoolSafe g m changes seen acct chain) : Restored g m chain := by
  intro x hx
  have hnames : names g m x = names g m₀ x := names_congr (fun i j => (hV.entries i j).2) x
  -- a slot on the stack is neither referenced nor named
  have hfree : x ∈ chain → m (.refcount x) = 0 ∧ names g m x = 0 := fun hmem => by
    have honce := hS.once x hx
    have hcount := List.count_pos_iff.mpr hmem
    have hrc : m (.refcount x) = 0 := by
      by_contra hne
      rw [inUse, if_neg hne] at honce
      omega
    have := hS.refs x hx
    omega
  obtain ⟨pushed, hp, -, -⟩ := hV.pushed
  by_cases hold : x ∈ chain₀
  · have hmem : x ∈ chain := hp ▸ List.mem_append_right _ hold
    obtain ⟨hrc, h0⟩ := hfree hmem
    exact ⟨iff_of_true hmem h0, hrc.trans h0.symm⟩
  · obtain ⟨hrc, hin⟩ := hV.settled x hx hold
    exact ⟨⟨fun hmem => (hfree hmem).2, fun h0 => hin (hnames ▸ h0)⟩, hrc.trans hnames.symm⟩

end Orphan

end Access

end Kickmsg
