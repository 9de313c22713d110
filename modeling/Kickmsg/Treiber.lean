import Kickmsg.Memory

/-!
# `treiber_push` and `treiber_pop`

The two loops on `free_top` as automata: a program counter names the next access (`request`) and
`resume` consumes its answer. Their callers embed them.
-/

namespace Kickmsg

/-- `treiber_push(top, slot, slot_idx)`. -/
inductive PushPc
  | load
  | link (oldTop : Nat)
  | cas (oldTop : Nat)
  deriving DecidableEq, Repr

def PushPc.request (slotIdx : Nat) : PushPc → Op
  | .load => .load .freeTop
  | .link oldTop => .store (.nextFree slotIdx) (taggedIdx oldTop)
  | .cas oldTop => .cas true .freeTop oldTop (taggedPack (u32 (taggedGen oldTop + 1)) slotIdx)

/-- `none` is the return of `treiber_push`. -/
def PushPc.resume (r : Resp) : PushPc → Option PushPc
  | .load => some (.link r.val)
  | .link oldTop => some (.cas oldTop)
  | .cas _ => if r.ok then none else some (.link r.val)

/-- `treiber_pop(top, pool_base, slot_stride, pool_size)`. -/
inductive PopPc
  | load
  | next (oldTop : Nat)
  | cas (oldTop nxt : Nat)
  deriving DecidableEq, Repr

/-- A running `treiber_pop`, or its result; `none` is `INVALID_SLOT`. -/
inductive PopStatus
  | busy (pc : PopPc)
  | ret (slotIdx : Option Nat)
  deriving DecidableEq, Repr

/-- The head of the loop: the two tests on the index, before `next_free` is read. -/
def PopPc.look (poolSize oldTop : Nat) : PopStatus :=
  if taggedIdx oldTop = invalidSlot then .ret none
  else if taggedIdx oldTop ≥ poolSize then .ret none
  else .busy (.next oldTop)

def PopPc.request : PopPc → Op
  | .load => .load .freeTop
  | .next oldTop => .load (.nextFree (taggedIdx oldTop))
  | .cas oldTop nxt => .cas true .freeTop oldTop (taggedPack (u32 (taggedGen oldTop + 1)) nxt)

def PopPc.resume (poolSize : Nat) (r : Resp) : PopPc → PopStatus
  | .load => look poolSize r.val
  | .next oldTop => .busy (.cas oldTop r.val)
  | .cas oldTop _ => if r.ok then .ret (some (taggedIdx oldTop)) else look poolSize r.val

end Kickmsg
