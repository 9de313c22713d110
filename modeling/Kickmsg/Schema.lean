import Kickmsg.Lib.Actors
import Kickmsg.Lib.Bytes
import Mathlib.Tactic.FinCases

/-!
# The schema descriptor

`schema`, `schema_blob`, `try_claim_schema` and `reset_schema_claim` of `Region.cc`. The descriptor and
the blob are copied byte by byte, each byte a step of its own; only `schema_state` is atomic. A claim is
Unset -> Claiming -> Set, and a claimant may die anywhere in it.

The result: at most one call of `try_claim_schema` returns true, and what it claimed for (or the creator's
configuration) is what every later reader gets.
-/

namespace Kickmsg

open Lib

/-- `struct SchemaInfo`. -/
@[ext]
structure SchemaInfo where
  identity : Fin 64 → UInt8
  layout : Fin 64 → UInt8
  name : Fin 128 → UInt8
  version : UInt32
  identityAlgo : UInt32
  layoutAlgo : UInt32
  flags : UInt32
  blobHash : Fin 64 → UInt8
  blobSize : UInt32
  blobAlgo : UInt32
  reserved : Fin 168 → UInt8

namespace SchemaInfo

def size : Nat := 512

def blobSizeOffset : Nat := 336

/-- Byte `k` of a byte array. -/
def cell {n : Nat} (f : Fin n → UInt8) (k : Nat) : Nat := if h : k < n then (f ⟨k, h⟩).toNat else 0

/-- Byte `k` of the object, as `memcpy` moves it. -/
def byte (x : SchemaInfo) (k : Nat) : Nat :=
  if k < 64 then cell x.identity k
  else if k < 128 then cell x.layout (k - 64)
  else if k < 256 then cell x.name (k - 128)
  else if k < 260 then byteAt x.version.toNat (k - 256)
  else if k < 264 then byteAt x.identityAlgo.toNat (k - 260)
  else if k < 268 then byteAt x.layoutAlgo.toNat (k - 264)
  else if k < 272 then byteAt x.flags.toNat (k - 268)
  else if k < 336 then cell x.blobHash (k - 272)
  else if k < 340 then byteAt x.blobSize.toNat (k - 336)
  else if k < 344 then byteAt x.blobAlgo.toNat (k - 340)
  else cell x.reserved (k - 344)

/-- The object with these bytes. -/
def ofByte (b : Nat → Nat) : SchemaInfo where
  identity i := UInt8.ofNat (b i)
  layout i := UInt8.ofNat (b (64 + i))
  name i := UInt8.ofNat (b (128 + i))
  version := UInt32.ofNat (ofBytes 4 fun k => b (256 + k))
  identityAlgo := UInt32.ofNat (ofBytes 4 fun k => b (260 + k))
  layoutAlgo := UInt32.ofNat (ofBytes 4 fun k => b (264 + k))
  flags := UInt32.ofNat (ofBytes 4 fun k => b (268 + k))
  blobHash i := UInt8.ofNat (b (272 + i))
  blobSize := UInt32.ofNat (ofBytes 4 fun k => b (336 + k))
  blobAlgo := UInt32.ofNat (ofBytes 4 fun k => b (340 + k))
  reserved i := UInt8.ofNat (b (344 + i))

/-- The first four bytes of a sequence, when they are those of `v`. -/
theorem ofBytes_four {b : Nat → Nat} {v : UInt32} (h : ∀ k < 4, b k = byteAt v.toNat k) :
    ofBytes 4 b = v.toNat := by
  have hb : ofBytes 4 b = ofBytes 4 (byteAt v.toNat) := by
    simp only [ofBytes, h 0 (by decide), h 1 (by decide), h 2 (by decide), h 3 (by decide)]
  rw [hb, ofBytes_byteAt]
  exact Nat.mod_eq_of_lt v.toNat_lt

/-- The bytes of a descriptor give the descriptor back. -/
theorem ofByte_eq {b : Nat → Nat} {x : SchemaInfo} (h : ∀ k < size, b k = x.byte k) :
    ofByte b = x := by
  have array : ∀ {n : Nat} (off : Nat) (f : Fin n → UInt8),
      (∀ k < n, b (off + k) = cell f k) → (fun i : Fin n => UInt8.ofNat (b (off + i))) = f := by
    intro n off f hf
    funext i
    simp only [hf i i.isLt, cell, i.isLt, ↓reduceDIte, UInt8.ofNat_toNat]
  have word : ∀ (off : Nat) (v : UInt32), (∀ k < 4, b (off + k) = byteAt v.toNat k) →
      UInt32.ofNat (ofBytes 4 fun k => b (off + k)) = v := by
    intro off v hv
    rw [ofBytes_four hv, UInt32.ofNat_toNat]
  unfold size at h
  apply SchemaInfo.ext
  · have hid := array 0 x.identity fun k hk => by
      simp (disch := omega) only [h, byte, if_pos, Nat.zero_add]
    simp only [Nat.zero_add] at hid
    exact hid
  all_goals first
    | exact array _ _ fun k hk => by
        simp (disch := omega) only [h, byte, if_pos, if_neg, Nat.add_sub_cancel_left]
    | exact word _ _ fun k hk => by
        simp (disch := omega) only [h, byte, if_pos, if_neg, Nat.add_sub_cancel_left]

/-- The descriptor as the library stamps it next to a blob of `len` bytes. -/
def stamp (x : SchemaInfo) (len : Nat) : SchemaInfo :=
  { x with blobSize := UInt32.ofNat len, reserved := fun _ => 0 }

/-- `out.name[sizeof(out.name) - 1] = '\0'`. -/
def terminate (x : SchemaInfo) : SchemaInfo :=
  { x with name := Function.update x.name 127 0 }

/-- The `blob_size` field among the bytes. -/
theorem byte_blobSize (x : SchemaInfo) {k : Nat} (hk : k < 4) :
    x.byte (blobSizeOffset + k) = byteAt x.blobSize.toNat k := by
  unfold blobSizeOffset
  simp (disch := omega) only [byte, if_pos, if_neg, Nat.add_sub_cancel_left]

@[simp]
theorem stamp_blobSize (x : SchemaInfo) {len : Nat} (h : len < 2 ^ 32) :
    (x.stamp len).blobSize.toNat = len := by
  simp only [stamp, UInt32.toNat_ofNat']
  exact Nat.mod_eq_of_lt h

end SchemaInfo

namespace Schema

/-- `schema::State`. -/
def unset : Nat := 0
def claiming : Nat := 1
def set : Nat := 2

/-- `schema_state`, a byte of `schema_data`, and a byte of the blob area. -/
inductive Loc
  | state
  | info (k : Nat)
  | blob (k : Nat)
  deriving DecidableEq

/-- What a call returned; `lengthError` and `runtimeError` are thrown. -/
inductive Result
  | pending
  | claimed (ok : Bool)
  | lengthError
  | reset (ok : Bool)
  | info (x : Option SchemaInfo)
  | blob (bytes : List UInt8)
  | runtimeError

/-- The next access of a thread. -/
inductive Pc
  | idle
  | claim (x : SchemaInfo) (blob : List UInt8)
  | copyBlob (x : SchemaInfo) (blob : List UInt8) (k : Nat)
  | copyInfo (x : SchemaInfo) (blob : List UInt8) (k : Nat)
  | publish (x : SchemaInfo) (blob : List UInt8)
  | spin (i : Nat)
  | reset
  | infoState
  | infoCopy (k : Nat) (out : Nat → Nat)
  | blobState
  | blobSize (k : Nat) (out : Nat → Nat)
  | blobCopy (size k : Nat) (out : List UInt8)

/-- A thread: where it is, and what its last call returned. -/
structure Client where
  pc : Pc
  result : Result

inductive Call
  | schema
  | schemaBlob
  | tryClaimSchema (x : SchemaInfo) (blob : List UInt8)
  | resetSchemaClaim

namespace Client

def ret (r : Result) : Client := ⟨.idle, r⟩

def goto (pc : Pc) : Client := ⟨pc, .pending⟩

def request (c : Client) : Option (Access Loc Empty) :=
  match c.pc with
  | .idle => none
  | .claim _ _ => some (.cas .state unset claiming)
  | .copyBlob _ blob k => some (.store (.blob k) (byteOf blob k))
  | .copyInfo x blob k => some (.store (.info k) ((x.stamp blob.length).byte k))
  | .publish _ _ => some (.store .state set)
  | .spin _ => some (.load .state)
  | .reset => some (.cas .state claiming unset)
  | .infoState => some (.load .state)
  | .infoCopy k _ => some (.load (.info k))
  | .blobState => some (.load .state)
  | .blobSize k _ => some (.load (.info (SchemaInfo.blobSizeOffset + k)))
  | .blobCopy _ k _ => some (.load (.blob k))

/-- `schema_blob` once it has read `blob_size`. -/
def copyOut (capacity size : Nat) : Client :=
  if size > capacity then ret .runtimeError
  else if size = 0 then ret (.blob [])
  else goto (.blobCopy size 0 [])

def resume (capacity : Nat) (c : Client) (r : Answer) : Client :=
  match c.pc with
  | .idle => c
  | .claim x blob =>
    if r.ok then
      if blob = [] then goto (.copyInfo x blob 0) else goto (.copyBlob x blob 0)
    else if r.val = claiming then goto (.spin 0)
    else ret (.claimed false)
  | .copyBlob x blob k =>
    if k + 1 < blob.length then goto (.copyBlob x blob (k + 1)) else goto (.copyInfo x blob 0)
  | .copyInfo x blob k =>
    if k + 1 < SchemaInfo.size then goto (.copyInfo x blob (k + 1)) else goto (.publish x blob)
  | .publish _ _ => ret (.claimed true)
  | .spin i =>
    if i + 1 < 1024 ∧ r.val = claiming then goto (.spin (i + 1)) else ret (.claimed false)
  | .reset => ret (.reset r.ok)
  | .infoState => if r.val = set then goto (.infoCopy 0 fun _ => 0) else ret (.info none)
  | .infoCopy k out =>
    if k + 1 < SchemaInfo.size then goto (.infoCopy (k + 1) (Function.update out k r.val))
    else ret (.info (some (SchemaInfo.ofByte (Function.update out k r.val)).terminate))
  | .blobState => if r.val = set then goto (.blobSize 0 fun _ => 0) else ret (.blob [])
  | .blobSize k out =>
    if k + 1 < 4 then goto (.blobSize (k + 1) (Function.update out k r.val))
    else copyOut capacity (ofBytes 4 (Function.update out k r.val))
  | .blobCopy size k out =>
    if k + 1 < size then goto (.blobCopy size (k + 1) (out ++ [UInt8.ofNat r.val]))
    else ret (.blob (out ++ [UInt8.ofNat r.val]))

/-- A call up to its first access; `try_claim_schema` checks the blob before it claims. -/
def call (capacity : Nat) (c : Client) (k : Call) : Option Client :=
  match c.pc with
  | .idle =>
    match k with
    | .schema => some (goto .infoState)
    | .schemaBlob => some (goto .blobState)
    | .tryClaimSchema x blob =>
      if blob.length > capacity then some (ret .lengthError) else some (goto (.claim x blob))
    | .resetSchemaClaim => some (goto .reset)
  | _ => none

end Client

/-- A call that has returned: who made it, what was published when it was made, and what it returned. -/
structure Return (ι : Type) where
  thread : ι
  call : Call
  asked : Option (SchemaInfo × List UInt8)
  result : Result

/-- `try_claim_schema` has returned true. -/
def Result.won : Result → Bool
  | .claimed ok => ok
  | _ => false

/-- Bookkeeping of a run: who moved the state to Claiming last, what is published, the last call of each
thread (`schema` before the first), what was published when it was made, and the calls that have
returned. -/
structure Trace (ι : Type) where
  claimant : Option ι
  published : Option (SchemaInfo × List UInt8)
  running : ι → Call
  asked : ι → Option (SchemaInfo × List UInt8)
  returns : List (Return ι)

namespace Trace

variable {ι : Type} [DecidableEq ι]

def track (g : Trace ι) (t : ι) (c : Client) (r : Answer) : Trace ι :=
  match c.pc with
  | .claim _ _ => if r.ok then { g with claimant := some t } else g
  | .publish x blob => { g with claimant := none, published := some (x, blob) }
  | .reset => if r.ok then { g with claimant := none } else g
  | _ => g

def trackCall (g : Trace ι) (t : ι) (k : Call) : Trace ι :=
  { g with running := Function.update g.running t k, asked := Function.update g.asked t g.published }

omit [DecidableEq ι]

/-- A thread is in state `c` now: its call has returned if there is nothing left to access. -/
def ret (g : Trace ι) (t : ι) (c : Client) : Trace ι :=
  match c.pc with
  | .idle => { g with returns := ⟨t, g.running t, g.asked t, c.result⟩ :: g.returns }
  | _ => g

/-- The calls of `try_claim_schema` that returned true. -/
def wins (g : Trace ι) : List (Return ι) := g.returns.filter fun e => e.result.won

@[simp]
theorem ret_claimant (g : Trace ι) (t : ι) (c : Client) : (g.ret t c).claimant = g.claimant := by
  unfold ret
  split <;> rfl

@[simp]
theorem ret_published (g : Trace ι) (t : ι) (c : Client) : (g.ret t c).published = g.published := by
  unfold ret
  split <;> rfl

@[simp]
theorem ret_running (g : Trace ι) (t : ι) (c : Client) : (g.ret t c).running = g.running := by
  unfold ret
  split <;> rfl

@[simp]
theorem ret_asked (g : Trace ι) (t : ι) (c : Client) : (g.ret t c).asked = g.asked := by
  unfold ret
  split <;> rfl

theorem mem_ret {g : Trace ι} {t : ι} {c : Client} {e : Return ι} (h : e ∈ (g.ret t c).returns) :
    e ∈ g.returns ∨ (c.pc = .idle ∧ e = ⟨t, g.running t, g.asked t, c.result⟩) := by
  unfold ret at h
  split at h
  · rename_i hpc
    rcases List.mem_cons.mp h with rfl | h
    · exact .inr ⟨hpc, rfl⟩
    · exact .inl h
  · exact .inl h

/-- A call that does not return true. -/
theorem wins_ret {g : Trace ι} {t : ι} {c : Client} (h : c.pc = .idle → c.result.won = false) :
    (g.ret t c).wins = g.wins := by
  unfold ret
  split
  · rename_i hpc
    rw [wins, List.filter_cons_of_neg (by simp [h hpc])]
    rfl
  · rfl

/-- The call that does. -/
theorem wins_won (g : Trace ι) (t : ι) {r : Result} (h : r.won = true) :
    (g.ret t (.ret r)).wins = ⟨t, g.running t, g.asked t, r⟩ :: g.wins :=
  List.filter_cons_of_pos h

end Trace

section System

variable {ι : Type} [DecidableEq ι]

/-- The calls on one region, whose blob area has `capacity` bytes. -/
def program (ι : Type) [DecidableEq ι] (capacity : Nat) :
    Program ι Loc Empty Client Call (Trace ι) where
  request := Client.request
  resume := Client.resume capacity
  call := Client.call capacity
  verdict _ q := q.elim
  track g _ t c _ r := (g.track t c r).ret t (Client.resume capacity c r)
  trackCall g _ t c k := (g.trackCall t k).ret t ((Client.call capacity c k).getD c)

/-- The schema part of `stamp_new_region`: zeroed, or baked from the creator's configuration. -/
def stampSchema : Option (SchemaInfo × List UInt8) → Loc → Nat
  | none, _ => 0
  | some _, .state => set
  | some (x, blob), .info k => (x.stamp blob.length).byte k
  | some (_, blob), .blob k => byteOf blob k

/-- A new region and threads that have not called anything. -/
structure Init (capacity : Nat) (cfg : Option (SchemaInfo × List UInt8))
    (s : Shared ι Loc Client (Trace ι)) : Prop where
  mem : s.mem = stampSchema cfg
  fits : ∀ p, cfg = some p → p.2.length ≤ capacity
  world : s.world.Sound
  th : ∀ t, s.th t = ⟨.idle, .pending⟩
  ghost : s.ghost = ⟨none, cfg, fun _ => .schema, fun _ => cfg, []⟩

/-- `reset_schema_claim` runs only while the current claimant is dead. -/
def resetSafe (proc : ι → Nat × Nat) (s : Shared ι Loc Client (Trace ι)) : Action ι Call → Bool
  | .run t _ =>
    match (s.th t).pc, s.ghost.claimant with
    | .reset, some c => !s.world.alive (proc c)
    | _, _ => true
  | _ => true

/-- The runs in which no live claimant is reset. -/
def Reached (capacity : Nat) (proc : ι → Nat × Nat) (cfg : Option (SchemaInfo × List UInt8))
    (s : Shared ι Loc Client (Trace ι)) : Prop :=
  ((program ι capacity).machine proc (Init capacity cfg)).Reach
    (fun s l _ => resetSafe proc s l = true) s

/-! ## The invariant -/

/-- The region holds the descriptor and the blob of `(x, blob)`. -/
def Holds (m : Loc → Nat) (x : SchemaInfo) (blob : List UInt8) : Prop :=
  (∀ j < blob.length, m (.blob j) = byteOf blob j) ∧
    ∀ j < SchemaInfo.size, m (.info j) = (x.stamp blob.length).byte j

/-- What a thread that holds the claim is publishing. -/
def Pc.writing : Pc → Option (SchemaInfo × List UInt8)
  | .copyBlob x blob _ | .copyInfo x blob _ | .publish x blob => some (x, blob)
  | _ => none

/-- How far a claimant has copied. -/
def Pc.Written (m : Loc → Nat) : Pc → Prop
  | .copyBlob _ blob k => k < blob.length ∧ ∀ j < k, m (.blob j) = byteOf blob j
  | .copyInfo x blob k => k < SchemaInfo.size ∧ (∀ j < blob.length, m (.blob j) = byteOf blob j) ∧
      ∀ j < k, m (.info j) = (x.stamp blob.length).byte j
  | .publish x blob => Holds m x blob
  | _ => True

/-- A blob that is claimed for fits. -/
def Pc.Fits (capacity : Nat) : Pc → Prop
  | .claim _ blob | .copyBlob _ blob _ | .copyInfo _ blob _ | .publish _ blob =>
    blob.length ≤ capacity
  | _ => True

/-- How far a reader has copied what is published. -/
def Pc.Read (p : Option (SchemaInfo × List UInt8)) : Pc → Prop
  | .infoCopy k out => k < SchemaInfo.size ∧ ∃ x blob, p = some (x, blob) ∧
      ∀ j < k, out j = (x.stamp blob.length).byte j
  | .blobSize k out => k < 4 ∧ ∃ x blob, p = some (x, blob) ∧
      ∀ j < k, out j = byteAt (x.stamp blob.length).blobSize.toNat j
  | .blobCopy size k out => ∃ x blob, p = some (x, blob) ∧ size = blob.length ∧ k < size ∧
      out = blob.take k
  | _ => True

/-- What a call may return, given what is published and what was when it was made. -/
def Result.Right (capacity : Nat) (p asked : Option (SchemaInfo × List UInt8)) :
    Call → Result → Prop
  | .schema, .info none => asked = none
  | .schema, .info (some y) => ∃ x blob, p = some (x, blob) ∧ y = (x.stamp blob.length).terminate
  | .schemaBlob, .blob out => (asked = none ∧ out = []) ∨ ∃ x blob, p = some (x, blob) ∧ out = blob
  | .tryClaimSchema x bytes, .claimed ok => ok = true → p = some (x, bytes)
  | .tryClaimSchema _ bytes, .lengthError => capacity < bytes.length
  | .resetSchemaClaim, .reset _ => True
  | _, _ => False

/-- The call that a thread is in. -/
def Pc.Of (k : Call) : Pc → Prop
  | .idle => True
  | .claim x blob | .copyBlob x blob _ | .copyInfo x blob _ | .publish x blob =>
    k = .tryClaimSchema x blob
  | .spin _ => ∃ x blob, k = .tryClaimSchema x blob
  | .reset => k = .resetSchemaClaim
  | .infoState | .infoCopy _ _ => k = .schema
  | .blobState | .blobSize _ _ | .blobCopy _ _ _ => k = .schemaBlob

/-- A thread in call `k` that does not write, and has read the right thing. -/
structure Client.Reader (capacity : Nat) (p asked : Option (SchemaInfo × List UInt8)) (k : Call)
    (c : Client) : Prop where
  writing : c.pc.writing = none
  fits : c.pc.Fits capacity
  read : c.pc.Read p
  call : c.pc.Of k
  result : c.pc = .idle → c.result.won = false ∧ Result.Right capacity p asked k c.result

/-- Still in the call. -/
theorem Client.Reader.goto {capacity : Nat} {p asked : Option (SchemaInfo × List UInt8)} {k : Call}
    {pc : Pc} (hw : pc.writing = none) (hf : pc.Fits capacity) (hr : pc.Read p) (hc : pc.Of k)
    (hi : pc ≠ .idle) : (Client.goto pc).Reader capacity p asked k :=
  ⟨hw, hf, hr, hc, fun h => absurd h hi⟩

theorem Client.Reader.ret {capacity : Nat} {p asked : Option (SchemaInfo × List UInt8)} {k : Call}
    {r : Result} (hl : r.won = false) (hr : Result.Right capacity p asked k r) :
    (Client.ret r).Reader capacity p asked k :=
  ⟨rfl, trivial, trivial, trivial, fun _ => ⟨hl, hr⟩⟩

/-- A claim that was not won returns false. -/
theorem Client.Reader.lost {capacity : Nat} {p asked : Option (SchemaInfo × List UInt8)} {k : Call}
    {x : SchemaInfo} {blob : List UInt8} (hk : k = .tryClaimSchema x blob) :
    (Client.ret (.claimed false)).Reader capacity p asked k := by
  subst hk
  exact .ret rfl fun h => by simp at h

/-- The three phases of the descriptor. -/
inductive Phase (capacity : Nat) (proc : ι → Nat × Nat) (s : Shared ι Loc Client (Trace ι)) : Prop
  | unset (hm : s.mem .state = unset) (hp : s.ghost.published = none)
      (hc : s.ghost.claimant = none)
  | claiming (hm : s.mem .state = claiming) (hp : s.ghost.published = none) (c : ι)
      (hc : s.ghost.claimant = some c) (hk : s.world.Known (proc c))
  | set (hm : s.mem .state = set) (hc : s.ghost.claimant = none) (x : SchemaInfo)
      (blob : List UInt8) (hp : s.ghost.published = some (x, blob)) (hb : blob.length ≤ capacity)
      (hh : Holds s.mem x blob)

structure Inv (capacity : Nat) (proc : ι → Nat × Nat) (cfg : Option (SchemaInfo × List UInt8))
    (s : Shared ι Loc Client (Trace ι)) : Prop where
  phase : Phase capacity proc s
  /-- whoever writes and lives is the claimant -/
  writes : ∀ t, (s.th t).pc.writing ≠ none →
    proc t ∈ s.world.gone ∨ (s.ghost.claimant = some t ∧ (s.th t).pc.Written s.mem)
  fits : ∀ t, (s.th t).pc.Fits capacity
  reads : ∀ t, (s.th t).pc.Read s.ghost.published
  calls : ∀ t, (s.th t).pc.Of (s.ghost.running t)
  returns : ∀ e ∈ s.ghost.returns, Result.Right capacity s.ghost.published e.asked e.call e.result
  asked : ∀ t, s.ghost.asked t = none ∨ s.ghost.asked t = s.ghost.published
  wins : s.ghost.wins.length ≤ 1 ∧ (s.ghost.published = none → s.ghost.wins = [] ∧ cfg = none) ∧
    (cfg ≠ none → s.ghost.wins = [] ∧ s.ghost.published = cfg)

variable {capacity : Nat} {proc : ι → Nat × Nat} {cfg : Option (SchemaInfo × List UInt8)}
  {s : Shared ι Loc Client (Trace ι)}

omit [DecidableEq ι] in
theorem inv_init (h : Init capacity cfg s) : Inv capacity proc cfg s := by
  refine ⟨?_, fun t ht => ?_, fun t => ?_, fun t => ?_, fun t => ?_, fun e he => ?_, fun t => ?_, ?_⟩
  · cases cfg with
    | none => exact .unset (by rw [h.mem]; rfl) (by rw [h.ghost]) (by rw [h.ghost])
    | some p =>
      obtain ⟨x, blob⟩ := p
      refine .set (by rw [h.mem]; rfl) (by rw [h.ghost]) x blob (by rw [h.ghost])
        (h.fits _ rfl) ⟨fun j _ => ?_, fun j _ => ?_⟩ <;> rw [h.mem] <;> rfl
  · rw [h.th t] at ht
    exact absurd rfl ht
  · rw [h.th t]
    trivial
  · rw [h.th t]
    trivial
  · rw [h.th t]
    trivial
  · simp [h.ghost] at he
  · rw [h.ghost]
    exact .inr rfl
  · rw [h.ghost]
    exact ⟨by simp [Trace.wins], fun hn => ⟨rfl, hn⟩, fun _ => ⟨rfl, rfl⟩⟩

theorem Inv.fits_update (h : Inv capacity proc cfg s) (t : ι) {c : Client}
    (hc : c.pc.Fits capacity) (u : ι) : (Function.update s.th t c u).pc.Fits capacity :=
  forall_update (P := fun c : Client => c.pc.Fits capacity) h.fits hc u

theorem Inv.reads_update (h : Inv capacity proc cfg s) (t : ι) {c : Client}
    (hc : c.pc.Read s.ghost.published) (u : ι) :
    (Function.update s.th t c u).pc.Read s.ghost.published :=
  forall_update (P := fun c : Client => c.pc.Read s.ghost.published) h.reads hc u

theorem Inv.calls_update (h : Inv capacity proc cfg s) (t : ι) {c : Client}
    (hc : c.pc.Of (s.ghost.running t)) (u : ι) :
    (Function.update s.th t c u).pc.Of (s.ghost.running u) := by
  by_cases he : u = t
  · subst he
    simpa using hc
  · simpa [Function.update_of_ne he] using h.calls u

/-- A thread that only reads keeps the invariant if it has read the right thing. -/
theorem Inv.still (h : Inv capacity proc cfg s) (t : ι) {c : Client}
    (hc : c.Reader capacity s.ghost.published (s.ghost.asked t) (s.ghost.running t)) :
    Inv capacity proc cfg
      { s with th := Function.update s.th t c, ghost := s.ghost.ret t c } where
  phase := by
    cases h.phase with
    | unset hm hp hc => exact .unset hm (by simpa using hp) (by simpa using hc)
    | claiming hm hp c hc hk => exact .claiming hm (by simpa using hp) c (by simpa using hc) hk
    | set hm hc x blob hp hb hh =>
      exact .set hm (by simpa using hc) x blob (by simpa using hp) hb hh
  writes u := by
    intro hu
    simp only [Trace.ret_claimant]
    by_cases he : u = t
    · subst he
      simp [hc.writing] at hu
    · simp only [Function.update_of_ne he] at hu ⊢
      exact h.writes u hu
  fits := h.fits_update t hc.fits
  reads := by simpa using h.reads_update t hc.read
  calls := by simpa using h.calls_update t hc.call
  returns e he := by
    simp only [Trace.ret_published]
    rcases Trace.mem_ret he with he | ⟨hi, rfl⟩
    · exact h.returns e he
    · exact (hc.result hi).2
  asked := by simpa using h.asked
  wins := by
    rw [Trace.wins_ret fun hi => (hc.result hi).1, Trace.ret_published]
    exact h.wins

/-- One more byte copied out. -/
theorem update_prefix {k v : Nat} {out b : Nat → Nat} (h : ∀ j < k, out j = b j) (hv : v = b k) :
    ∀ j < k + 1, Function.update out k v j = b j := by
  intro j hj
  by_cases he : j = k
  · simp [he, hv]
  · rw [Function.update_of_ne he]
    exact h j (by omega)

/-- One more byte copied in. -/
theorem store_prefix {k : Nat} {m : Loc → Nat} {word : Nat → Loc} {b : Nat → Nat}
    (hinj : ∀ i j, word i = word j → i = j) (h : ∀ j < k, m (word j) = b j) :
    ∀ j < k + 1, Function.update m (word k) (b k) (word j) = b j := by
  intro j hj
  by_cases he : j = k
  · simp [he]
  · rw [Function.update_of_ne fun hat => he (hinj j k hat)]
    exact h j (by omega)

omit [DecidableEq ι] in
/-- Threads other than the live claimant are at most dead writers. -/
theorem Inv.writer_eq (h : Inv capacity proc cfg s) (hs : s.world.Sound) {t u : ι}
    (ha : s.world.alive (proc t) = true) (ht : (s.th t).pc.writing ≠ none)
    (hu : (s.th u).pc.writing ≠ none) (hne : u ≠ t) : proc u ∈ s.world.gone := by
  have hc : s.ghost.claimant = some t := by
    rcases h.writes t ht with hg | hc
    · exact absurd hg (hs.not_gone ha)
    · exact hc.1
  rcases h.writes u hu with hg | hu
  · exact hg
  · rw [hc] at hu
    exact absurd (Option.some.inj hu.1).symm hne

/-- The live claimant stores a byte: nothing is published, and nobody else is writing. -/
theorem Inv.copy (h : Inv capacity proc cfg s) (hs : s.world.Sound) {t : ι}
    (ha : s.world.alive (proc t) = true) (ht : (s.th t).pc.writing ≠ none) {l : Loc} {v : Nat}
    (hl : l ≠ .state) {pc : Pc} (hf : pc.Fits capacity)
    (hwr : pc.Written (Function.update s.mem l v)) (hr : ∀ p, pc.Read p)
    (hk : pc.Of (s.ghost.running t)) :
    Inv capacity proc cfg
      { s with mem := Function.update s.mem l v
               th := Function.update s.th t (Client.goto pc) } := by
  obtain ⟨hc, -⟩ : s.ghost.claimant = some t ∧ (s.th t).pc.Written s.mem :=
    (h.writes t ht).resolve_left (hs.not_gone ha)
  refine ⟨?_, fun u hu => ?_, h.fits_update t hf, h.reads_update t (hr _), h.calls_update t hk,
    h.returns, h.asked, h.wins⟩
  · cases h.phase with
    | unset hm hp hn => simp [hn] at hc
    | claiming hm hp c hc hk =>
      exact .claiming (by simpa [Function.update_of_ne (Ne.symm hl)] using hm) hp c hc hk
    | set hm hn => simp [hn] at hc
  · by_cases he : u = t
    · subst he
      right
      simp only [Function.update_self]
      exact ⟨hc, hwr⟩
    · simp only [Function.update_of_ne he] at hu
      exact .inl (h.writer_eq hs ha ht hu he)

omit [DecidableEq ι] in
/-- What is loaded while something is published is a byte of it. -/
theorem Inv.published (h : Inv capacity proc cfg s) {x : SchemaInfo} {blob : List UInt8}
    (hp : s.ghost.published = some (x, blob)) :
    s.mem .state = set ∧ blob.length ≤ capacity ∧ Holds s.mem x blob := by
  cases h.phase with
  | unset _ hn => simp [hn] at hp
  | claiming _ hn => simp [hn] at hp
  | set hm _ y blob' hp' hb hh =>
    rw [hp'] at hp
    cases hp
    exact ⟨hm, hb, hh⟩

omit [DecidableEq ι] in
theorem Inv.of_set (h : Inv capacity proc cfg s) (hm : s.mem .state = set) :
    ∃ x blob, s.ghost.published = some (x, blob) := by
  cases h.phase with
  | unset hn => rw [hn] at hm; simp [set, unset] at hm
  | claiming hn => rw [hn] at hm; simp [set, claiming] at hm
  | set _ _ x blob hp => exact ⟨x, blob, hp⟩

omit [DecidableEq ι] in
theorem Inv.asked_none (h : Inv capacity proc cfg s) (hm : s.mem .state ≠ set) (t : ι) :
    s.ghost.asked t = none := by
  rcases h.asked t with ha | ha
  · exact ha
  · cases hp : s.ghost.published with
    | none => rw [ha, hp]
    | some p => exact absurd (h.published (show _ = some (p.1, p.2) from hp)).1 hm

/-- `schema_blob` once it has read the published size. -/
theorem copyOut_reader (hcap : capacity < 2 ^ 32) {x : SchemaInfo} {blob : List UInt8}
    {p asked : Option (SchemaInfo × List UInt8)} (hp : p = some (x, blob))
    (hb : blob.length ≤ capacity) :
    (Client.copyOut capacity (x.stamp blob.length).blobSize.toNat).Reader capacity p asked
      .schemaBlob := by
  rw [SchemaInfo.stamp_blobSize x (by omega), Client.copyOut, if_neg (by omega)]
  split_ifs with h0
  · exact .ret rfl (.inr ⟨x, blob, hp, (List.length_eq_zero_iff.mp h0).symm⟩)
  · exact .goto rfl trivial ⟨x, blob, hp, rfl, by omega, rfl⟩ rfl (by simp)

/-- A claim is won: the state was Unset, so nobody alive is writing. -/
theorem Inv.claim (h : Inv capacity proc cfg s) {t : ι} (ha : s.world.alive (proc t) = true)
    (hm : s.mem .state = unset) {pc : Pc} (hf : pc.Fits capacity)
    (hw : pc.Written (Function.update s.mem .state claiming)) (hr : ∀ p, pc.Read p)
    (hk : pc.Of (s.ghost.running t)) :
    Inv capacity proc cfg
      { s with mem := Function.update s.mem .state claiming
               th := Function.update s.th t (Client.goto pc)
               ghost := { s.ghost with claimant := some t } } := by
  obtain ⟨hp, hc⟩ : s.ghost.published = none ∧ s.ghost.claimant = none := by
    cases h.phase with
    | unset _ hp hc => exact ⟨hp, hc⟩
    | claiming hn => rw [hn] at hm; simp [unset, claiming] at hm
    | set hn => rw [hn] at hm; simp [set, unset] at hm
  refine ⟨.claiming (by simp) hp t rfl (.inl ha), fun u hu => ?_, h.fits_update t hf,
    h.reads_update t (hr _), h.calls_update t hk, h.returns, h.asked, h.wins⟩
  · by_cases he : u = t
    · subst he
      right
      simp only [Function.update_self]
      exact ⟨trivial, hw⟩
    · simp only [Function.update_of_ne he] at hu
      rcases h.writes u hu with hg | hcu
      · exact .inl hg
      · simp [hc] at hcu

/-- What was returned while nothing was published stays right. -/
theorem Result.Right.publish {capacity : Nat} {p : Option (SchemaInfo × List UInt8)} {k : Call}
    {asked : Option (SchemaInfo × List UInt8)} {r : Result}
    (h : Result.Right capacity none asked k r) : Result.Right capacity p asked k r := by
  unfold Result.Right at h ⊢
  split at h <;> simp_all

/-- The claimant stores Set, and returns true. -/
theorem Inv.publish (h : Inv capacity proc cfg s) (hs : s.world.Sound) {t : ι}
    (ha : s.world.alive (proc t) = true) {x : SchemaInfo} {blob : List UInt8}
    (ht : (s.th t).pc = .publish x blob) :
    Inv capacity proc cfg
      { s with mem := Function.update s.mem .state set
               th := Function.update s.th t (Client.ret (.claimed true))
               ghost := (s.ghost.track t (s.th t) ⟨0, true⟩).ret t (Client.ret (.claimed true)) } := by
  have hwt : (s.th t).pc.writing ≠ none := by
    rw [ht]
    simp [Pc.writing]
  obtain ⟨hc, hw⟩ : s.ghost.claimant = some t ∧ (s.th t).pc.Written s.mem :=
    (h.writes t hwt).resolve_left (hs.not_gone ha)
  have hf := h.fits t
  have hk := h.calls t
  rw [ht] at hw hf hk
  obtain ⟨hm, hp⟩ : s.mem .state = claiming ∧ s.ghost.published = none := by
    cases h.phase with
    | unset _ _ hn => simp [hn] at hc
    | claiming hm hp => exact ⟨hm, hp⟩
    | set _ hn => simp [hn] at hc
  -- Nothing was published before, so no reader has copied anything and no call has returned true.
  have hreads : ∀ u, (s.th u).pc.Read (some (x, blob)) := by
    intro u
    have hru := h.reads u
    rw [hp] at hru
    cases hpc : (s.th u).pc <;> rw [hpc] at hru <;> simp_all [Pc.Read]
  have hnone : ∀ u, s.ghost.asked u = none := fun u =>
    h.asked_none (by rw [hm]; simp [set, claiming]) u
  obtain ⟨hw0, hcfg⟩ := h.wins.2.1 hp
  simp only [Trace.track, ht]
  refine ⟨.set (by simp) rfl x blob rfl hf ⟨fun j hj => ?_, fun j hj => ?_⟩, fun u hu => ?_,
    h.fits_update t trivial, ?_, h.calls_update t trivial, fun e he => ?_, fun u => .inl (hnone u), ?_⟩
  · simpa using hw.1 j hj
  · simpa using hw.2 j hj
  · by_cases he : u = t
    · subst he
      simp [Client.ret, Pc.writing] at hu
    · simp only [Function.update_of_ne he] at hu
      exact .inl (h.writer_eq hs ha hwt hu he)
  · exact forall_update (P := fun c : Client => c.pc.Read (some (x, blob))) hreads
      (a := Client.ret _) trivial
  · rcases Trace.mem_ret he with he | ⟨-, rfl⟩
    · have hre := h.returns e he
      rw [hp] at hre
      exact hre.publish
    · rw [show s.ghost.running t = .tryClaimSchema x blob from hk]
      exact fun _ => rfl
  · refine ⟨?_, by simp, fun hn => absurd hcfg hn⟩
    rw [Trace.wins_won _ _ rfl]
    exact (congrArg (fun l => l.length + 1) hw0).le

/-- A dead claimant's claim is reset. -/
theorem Inv.reset (h : Inv capacity proc cfg s) {t : ι} (ht : (s.th t).pc = .reset)
    (hm : s.mem .state = claiming)
    (hd : ∀ c, s.ghost.claimant = some c → s.world.alive (proc c) = false) :
    Inv capacity proc cfg
      { s with mem := Function.update s.mem .state unset
               th := Function.update s.th t (Client.ret (.reset true))
               ghost := { s.ghost with claimant := none }.ret t (Client.ret (.reset true)) } := by
  cases h.phase with
  | unset hn => rw [hn] at hm; simp [unset, claiming] at hm
  | set hn => rw [hn] at hm; simp [set, claiming] at hm
  | claiming _ hp c hc hk =>
    refine ⟨.unset (by simp) hp rfl, fun u hu => .inl ?_, h.fits_update t trivial,
      h.reads_update t trivial, h.calls_update t trivial, fun e he => ?_, h.asked, ?_⟩
    · by_cases he : u = t
      · subst he
        simp [Client.ret, Pc.writing] at hu
      · simp only [Function.update_of_ne he] at hu
        rcases h.writes u hu with hg | hcu
        · exact hg
        · rw [hc] at hcu
          obtain rfl := Option.some.inj hcu.1
          exact hk.gone (hd c hc)
    · rcases Trace.mem_ret he with he | ⟨-, rfl⟩
      · exact h.returns e he
      · have hkt := h.calls t
        rw [ht] at hkt
        rw [show s.ghost.running t = .resetSchemaClaim from hkt]
        trivial
    · rw [Trace.wins_ret fun _ => rfl]
      exact h.wins

theorem Inv.run (hcap : capacity < 2 ^ 32) (h : Inv capacity proc cfg s) (hs : s.world.Sound) {t : ι}
    {now : Nat} {a : Access Loc Empty} (ha : s.world.alive (proc t) = true)
    (hreq : (s.th t).request = some a) (hok : resetSafe proc s (.run t now) = true) :
    Inv capacity proc cfg ((program ι capacity).ran s t a now) := by
  simp only [Program.ran, program]
  have hfits := h.fits t
  have hread := h.reads t
  have hcall := h.calls t
  rw [Client.request] at hreq
  cases hpc : (s.th t).pc with
  | idle => simp [hpc] at hreq
  | claim x blob =>
    rw [hpc] at hfits hcall
    simp only [hpc, Option.some.injEq] at hreq
    subst hreq
    simp only [Access.exec]
    split_ifs with hm
    · simp only [Client.resume, Trace.track, hpc, ↓reduceIte]
      split_ifs with hb
      · exact h.claim ha hm hfits ⟨by decide, by simp [hb], by simp⟩ (fun _ => trivial) hcall
      · have hlen : 0 < blob.length := List.length_pos_iff.mpr hb
        exact h.claim ha hm hfits ⟨hlen, by simp⟩ (fun _ => trivial) hcall
    · simp only [Client.resume, Trace.track, hpc, Bool.false_eq_true, ↓reduceIte]
      apply h.still
      split
      · exact .goto rfl trivial trivial ⟨x, blob, hcall⟩ (by simp)
      · exact .lost hcall
  | copyBlob x blob k =>
    have hwt : (s.th t).pc.writing ≠ none := by simp [hpc, Pc.writing]
    obtain ⟨-, hw⟩ := (h.writes t hwt).resolve_left (hs.not_gone ha)
    rw [hpc] at hfits hw hcall
    simp only [hpc, Option.some.injEq] at hreq
    subst hreq
    dsimp only [Access.exec]
    simp only [Client.resume, Trace.track, hpc]
    have hdone : ∀ j < k + 1, Function.update s.mem (.blob k) (byteOf blob k) (.blob j) =
        byteOf blob j := store_prefix (fun _ _ hij => by simpa using hij) hw.2
    split_ifs with hk
    · exact h.copy hs ha hwt (by simp) hfits ⟨hk, hdone⟩ (fun _ => trivial) hcall
    · exact h.copy hs ha hwt (by simp) hfits
        ⟨by decide, fun j hj => hdone j (by omega), by simp⟩ (fun _ => trivial) hcall
  | copyInfo x blob k =>
    have hwt : (s.th t).pc.writing ≠ none := by simp [hpc, Pc.writing]
    obtain ⟨-, hw⟩ := (h.writes t hwt).resolve_left (hs.not_gone ha)
    rw [hpc] at hfits hw hcall
    simp only [hpc, Option.some.injEq] at hreq
    subst hreq
    dsimp only [Access.exec]
    simp only [Client.resume, Trace.track, hpc]
    have hblob : ∀ j < blob.length, Function.update s.mem (.info k) ((x.stamp blob.length).byte k)
        (.blob j) = byteOf blob j := fun j hj => by
      rw [Function.update_of_ne (by simp)]
      exact hw.2.1 j hj
    have hdone : ∀ j < k + 1, Function.update s.mem (.info k) ((x.stamp blob.length).byte k)
        (.info j) = (x.stamp blob.length).byte j :=
      store_prefix (fun _ _ hij => by simpa using hij) hw.2.2
    split_ifs with hk
    · exact h.copy hs ha hwt (by simp) hfits ⟨hk, hblob, hdone⟩ (fun _ => trivial) hcall
    · exact h.copy hs ha hwt (by simp) hfits
        ⟨hblob, fun j hj => hdone j (by omega)⟩ (fun _ => trivial) hcall
  | publish x blob =>
    simp only [hpc, Option.some.injEq] at hreq
    subst hreq
    have hp := h.publish hs ha hpc
    dsimp only [Access.exec]
    simp only [Client.resume, hpc]
    exact hp
  | spin i =>
    rw [hpc] at hcall
    obtain ⟨x, blob, hk⟩ := hcall
    simp only [hpc, Option.some.injEq] at hreq
    subst hreq
    dsimp only [Access.exec]
    simp only [Client.resume, Trace.track, hpc]
    apply h.still
    split
    · exact .goto rfl trivial trivial ⟨x, blob, hk⟩ (by simp)
    · exact .lost hk
  | reset =>
    simp only [hpc, Option.some.injEq] at hreq
    subst hreq
    simp only [Access.exec]
    split_ifs with hm
    · simp only [Client.resume, Trace.track, hpc, ↓reduceIte]
      refine h.reset hpc hm fun c hc => ?_
      simpa [resetSafe, hpc, hc] using hok
    · simp only [Client.resume, Trace.track, hpc, Bool.false_eq_true, ↓reduceIte]
      rw [hpc] at hcall
      refine h.still t (.ret rfl ?_)
      rw [show s.ghost.running t = .resetSchemaClaim from hcall]
      trivial
  | infoState =>
    rw [hpc] at hcall
    simp only [hpc, Option.some.injEq] at hreq
    subst hreq
    dsimp only [Access.exec]
    simp only [Client.resume, Trace.track, hpc]
    apply h.still
    split
    · rename_i hm
      obtain ⟨x, blob, hp⟩ := h.of_set hm
      exact .goto rfl trivial ⟨by decide, x, blob, hp, by simp⟩ hcall (by simp)
    · rename_i hm
      refine .ret rfl ?_
      rw [show s.ghost.running t = .schema from hcall]
      exact h.asked_none hm t
  | infoCopy k out =>
    rw [hpc] at hread hcall
    obtain ⟨hk, x, blob, hp, hout⟩ := hread
    have hdone := update_prefix (v := s.mem (.info k)) hout ((h.published hp).2.2.2 k hk)
    simp only [hpc, Option.some.injEq] at hreq
    subst hreq
    dsimp only [Access.exec]
    simp only [Client.resume, Trace.track, hpc]
    apply h.still
    split
    · rename_i hk1
      exact .goto rfl trivial ⟨hk1, x, blob, hp, hdone⟩ hcall (by simp)
    · refine .ret rfl ?_
      rw [show s.ghost.running t = .schema from hcall]
      refine ⟨x, blob, hp, ?_⟩
      rw [SchemaInfo.ofByte_eq fun j hj => hdone j (by omega)]
  | blobState =>
    rw [hpc] at hcall
    simp only [hpc, Option.some.injEq] at hreq
    subst hreq
    dsimp only [Access.exec]
    simp only [Client.resume, Trace.track, hpc]
    apply h.still
    split
    · rename_i hm
      obtain ⟨x, blob, hp⟩ := h.of_set hm
      exact .goto rfl trivial ⟨by decide, x, blob, hp, by simp⟩ hcall (by simp)
    · rename_i hm
      refine .ret rfl ?_
      rw [show s.ghost.running t = .schemaBlob from hcall]
      exact .inl ⟨h.asked_none hm t, rfl⟩
  | blobSize k out =>
    rw [hpc] at hread hcall
    obtain ⟨hk, x, blob, hp, hout⟩ := hread
    obtain ⟨-, hb, hh⟩ := h.published hp
    have hbyte := hh.2 (SchemaInfo.blobSizeOffset + k) (by
      unfold SchemaInfo.blobSizeOffset SchemaInfo.size
      omega)
    rw [SchemaInfo.byte_blobSize _ hk] at hbyte
    have hdone := update_prefix hout hbyte
    simp only [hpc, Option.some.injEq] at hreq
    subst hreq
    dsimp only [Access.exec]
    simp only [Client.resume, Trace.track, hpc]
    apply h.still
    split
    · rename_i hk1
      exact .goto rfl trivial ⟨hk1, x, blob, hp, hdone⟩ hcall (by simp)
    · rw [SchemaInfo.ofBytes_four fun j hj => hdone j (by omega),
        show s.ghost.running t = .schemaBlob from hcall]
      exact copyOut_reader hcap hp hb
  | blobCopy size k out =>
    rw [hpc] at hread hcall
    obtain ⟨x, blob, hp, hsize, hk, hout⟩ := hread
    have hbyte := (h.published hp).2.2.1 k (by omega)
    have hnext : out ++ [UInt8.ofNat (s.mem (.blob k))] = blob.take (k + 1) := by
      rw [hbyte, hout, byteOf, UInt8.ofNat_toNat, List.getD_eq_getElem _ _ (by omega),
        List.take_append_getElem (by omega)]
    simp only [hpc, Option.some.injEq] at hreq
    subst hreq
    dsimp only [Access.exec]
    simp only [Client.resume, Trace.track, hpc, hnext]
    apply h.still
    split
    · rename_i hk1
      exact .goto rfl trivial ⟨x, blob, hp, hsize, hk1, rfl⟩ hcall (by simp)
    · refine .ret rfl ?_
      rw [show s.ghost.running t = .schemaBlob from hcall]
      refine .inr ⟨x, blob, hp, ?_⟩
      exact List.take_of_length_le (by omega)

/-- A call is made: no word changes, and the thread was in no other. -/
theorem Inv.begin (h : Inv capacity proc cfg s) {t : ι} (ht : (s.th t).pc = .idle) (k : Call) :
    Inv capacity proc cfg { s with ghost := s.ghost.trackCall t k } := by
  refine ⟨?_, h.writes, h.fits, h.reads, fun u => ?_, h.returns, fun u => ?_, h.wins⟩
  · cases h.phase with
    | unset hm hp hc => exact .unset hm hp hc
    | claiming hm hp c hc hk => exact .claiming hm hp c hc hk
    | set hm hc x blob hp hb hh => exact .set hm hc x blob hp hb hh
  · by_cases he : u = t
    · subst he
      simp [ht, Pc.Of]
    · simpa [Trace.trackCall, Function.update_of_ne he] using h.calls u
  · by_cases he : u = t
    · subst he
      exact .inr (by simp [Trace.trackCall])
    · simpa [Trace.trackCall, Function.update_of_ne he] using h.asked u

theorem Inv.call (h : Inv capacity proc cfg s) {t : ι} {k : Call} {c : Client}
    (hc : (s.th t).call capacity k = some c) :
    Inv capacity proc cfg
      { s with th := Function.update s.th t c, ghost := (s.ghost.trackCall t k).ret t c } := by
  have hnew : (s.th t).pc = .idle ∧ c.Reader capacity s.ghost.published s.ghost.published k := by
    unfold Client.call at hc
    split at hc
    · rename_i hpc
      refine ⟨hpc, ?_⟩
      split at hc
      · cases hc
        exact .goto rfl trivial trivial rfl (by simp)
      · cases hc
        exact .goto rfl trivial trivial rfl (by simp)
      · split_ifs at hc with hlen
        · cases hc
          exact .ret rfl hlen
        · cases hc
          exact .goto rfl (Nat.le_of_not_gt hlen) trivial rfl (by simp)
      · cases hc
        exact .goto rfl trivial trivial rfl (by simp)
    · simp at hc
  refine (h.begin hnew.1 k).still t ?_
  simpa [Trace.trackCall] using hnew.2

omit [DecidableEq ι] in
theorem Inv.move (h : Inv capacity proc cfg s) {w : World} (hle : s.world.Le w) :
    Inv capacity proc cfg { s with world := w } where
  phase := by
    cases h.phase with
    | unset hm hp hc => exact .unset hm hp hc
    | claiming hm hp c hc hk => exact .claiming hm hp c hc (hk.le hle)
    | set hm hc x blob hp hb hh => exact .set hm hc x blob hp hb hh
  writes t ht := (h.writes t ht).imp_left (hle.gone _)
  fits := h.fits
  reads := h.reads
  calls := h.calls
  returns := h.returns
  asked := h.asked
  wins := h.wins

/-- The invariant holds on every run that starts with it. -/
theorem inv_reach (hcap : capacity < 2 ^ 32) {init : Shared ι Loc Client (Trace ι) → Prop}
    (h0 : ∀ s, init s → Inv capacity proc cfg s ∧ s.world.Sound)
    (h : ((program ι capacity).machine proc init).Reach
      (fun s l _ => resetSafe proc s l = true) s) :
    Inv capacity proc cfg s ∧ s.world.Sound :=
  Program.invariant h0 (fun _ _ _ _ hI hs ha hreq hok => hI.run hcap hs ha hreq hok)
    (fun s t k c hI _ _ hc => by
      have hget : (s.th t).call capacity k = some c := hc
      simpa only [program, hget, Option.getD_some] using hI.call hget) (fun _ _ hI _ hle _ => hI.move hle) h

/-- One step after Set: the state and what is published stay. -/
theorem Inv.set_next (h : Inv capacity proc cfg s) (hs : s.world.Sound) (hm : s.mem .state = set)
    {l : Action ι Call} {s' : Shared ι Loc Client (Trace ι)}
    (hn : (program ι capacity).next proc s l = some s') :
    s'.mem .state = set ∧ s'.ghost.published = s.ghost.published := by
  have hc : s.ghost.claimant = none := by
    cases h.phase with
    | unset hn => rw [hn] at hm; simp [set, unset] at hm
    | claiming hn => rw [hn] at hm; simp [set, claiming] at hm
    | set _ hc => exact hc
  cases l with
  | run t now =>
    obtain ⟨ha, a, hreq, rfl⟩ := Program.run_cases hn
    have hidle : (s.th t).pc.writing = none := by
      by_contra hw
      rcases h.writes t hw with hg | hw
      · exact hs.not_gone ha hg
      · simp [hc] at hw
    simp only [program] at hreq
    simp only [Program.ran, program]
    cases hpc : (s.th t).pc <;> simp only [Client.request, hpc, Option.some.injEq, reduceCtorEq] at hreq
    case copyBlob => simp [hpc, Pc.writing] at hidle
    case copyInfo => simp [hpc, Pc.writing] at hidle
    case publish => simp [hpc, Pc.writing] at hidle
    case claim =>
      subst hreq
      simp [Access.exec, hm, set, unset, Trace.track, hpc]
    case reset =>
      subst hreq
      simp [Access.exec, hm, set, claiming, Trace.track, hpc]
    all_goals
      subst hreq
      exact ⟨hm, by simp only [Trace.track, hpc, Trace.ret_published]⟩
  | call t c =>
    obtain ⟨-, a, -, rfl⟩ := Program.call_cases hn
    exact ⟨hm, by simp [program, Trace.trackCall]⟩
  | exit pid =>
    obtain ⟨w, -, rfl⟩ := Program.exit_cases hn
    exact ⟨hm, rfl⟩
  | spawn pid st =>
    obtain ⟨w, -, rfl⟩ := Program.spawn_cases hn
    exact ⟨hm, rfl⟩

/-- The schema is written once and never torn. -/
theorem schema_write_once (hcap : capacity < 2 ^ 32) (h : Reached capacity proc cfg s) :
    (s.ghost.wins.length ≤ 1 ∧ (cfg ≠ none → s.ghost.wins = [] ∧ s.ghost.published = cfg)) ∧
      (s.mem .state = set ↔ s.ghost.published ≠ none) ∧
      (s.mem .state = set → ∃ x blob, s.ghost.published = some (x, blob) ∧ Holds s.mem x blob ∧
        ∀ s', ((program ι capacity).machine proc (· = s)).Reach
          (fun s l _ => resetSafe proc s l = true) s' →
            s'.mem .state = set ∧ s'.ghost.published = some (x, blob)) ∧
      (∀ e ∈ s.ghost.returns, Result.Right capacity s.ghost.published e.asked e.call e.result) ∧
      (∀ x blob, s.ghost.published = some (x, blob) →
        (x.stamp blob.length).terminate.blobSize.toNat = blob.length ∧
          (∀ i, (x.stamp blob.length).terminate.reserved i = 0) ∧
          (x.stamp blob.length).terminate.name 127 = 0) ∧
      (∀ t x blob s', (program ι capacity).next proc s (.call t (.tryClaimSchema x blob)) = some s' →
        blob.length > capacity → s'.mem = s.mem ∧ s'.th t = Client.ret .lengthError) := by
  obtain ⟨hI, hs⟩ := inv_reach hcap (fun _ h0 => ⟨inv_init h0, h0.world⟩) h
  refine ⟨⟨hI.wins.1, hI.wins.2.2⟩, ⟨fun hm hn => ?_, fun hn => ?_⟩, fun hm => ?_, hI.returns,
    fun x blob hp => ?_, ?_⟩
  · obtain ⟨x, blob, hp⟩ := hI.of_set hm
    rw [hn] at hp
    cases hp
  · obtain ⟨p, hp⟩ := Option.ne_none_iff_exists'.mp hn
    exact (hI.published (show _ = some (p.1, p.2) from hp)).1
  · obtain ⟨x, blob, hp⟩ := hI.of_set hm
    refine ⟨x, blob, hp, (hI.published hp).2.2, fun s' hs' => ?_⟩
    have h0 : ∀ s₀, s₀ = s → Inv capacity proc cfg s₀ ∧ s₀.world.Sound :=
      fun _ he => he ▸ ⟨hI, hs⟩
    refine LTS.Reach.invariant_of
      (I := fun s' => s'.mem .state = set ∧ s'.ghost.published = some (x, blob))
      (fun hr => inv_reach hcap h0 hr) (fun s₀ he => ?_) (fun s₁ l s₂ hJ hset hst _ => ?_) hs'
    · obtain rfl : s₀ = s := he
      exact ⟨hm, hp⟩
    obtain ⟨hm₂, hp₂⟩ := hJ.1.set_next hJ.2 hset.1 hst
    exact ⟨hm₂, hp₂.trans hset.2⟩
  · have hb := (hI.published hp).2.1
    refine ⟨?_, fun i => rfl, by simp [SchemaInfo.terminate]⟩
    exact SchemaInfo.stamp_blobSize x (by omega)
  · intro t x blob s' hn hlen
    obtain ⟨-, c, hc, rfl⟩ := Program.call_cases hn
    refine ⟨rfl, ?_⟩
    simp only [Function.update_self]
    simp only [program, Client.call] at hc
    split at hc
    · rw [if_pos hlen] at hc
      exact (Option.some.inj hc).symm
    · simp at hc

/-! ### A claimant that dies -/

section Relay

/-- Three threads, each in a process of its own. -/
def relayProc (t : Fin 3) : Nat × Nat := (t.val + 1, 1)

def blankInfo : SchemaInfo :=
  ⟨fun _ => 0, fun _ => 0, fun _ => 1, 0, 0, 0, 0, fun _ => 0, 0, 0, fun _ => 1⟩

def relay : Shared (Fin 3) Loc Client (Trace (Fin 3)) where
  mem := stampSchema none
  world := ⟨fun pid => if 0 < pid ∧ pid ≤ 3 then some 1 else none, []⟩
  th _ := ⟨.idle, .pending⟩
  ghost := ⟨none, none, fun _ => .schema, fun _ => none, []⟩

theorem init_relay : Init 4 none relay where
  mem := rfl
  fits := by simp
  world := by
    refine ⟨by simp [relay], fun p hp => ?_⟩
    simp only [World.alive, relay, decide_eq_true_eq, Option.ite_none_right_eq_some,
      Option.some.injEq] at hp
    omega
  th _ := rfl
  ghost := rfl

/-- Thread 0 dies after the first byte of a two-byte blob; its claim is reset, thread 1 publishes a blob
of its own, and thread 2 is too late. -/
def relays : List (Action (Fin 3) Call) :=
  [.call 0 (.tryClaimSchema blankInfo [7, 8]), .run 0 0, .run 0 0, .exit 1,
    .call 2 .resetSchemaClaim, .run 2 0, .call 1 (.tryClaimSchema blankInfo [9])] ++
  List.replicate 515 (.run 1 0) ++ [.call 2 (.tryClaimSchema blankInfo [7]), .run 2 0]

/-- Set, with the threads of the calls that returned, the last one first. -/
def relayed (s : Shared (Fin 3) Loc Client (Trace (Fin 3))) : Bool :=
  decide (s.mem .state = set ∧ s.mem (.blob 0) = 9 ∧
    s.ghost.returns.map (fun e => (e.thread, e.result.won)) = [(2, false), (1, true), (2, false)])

theorem schema_write_once_relay : ∃ s : Shared (Fin 3) Loc Client (Trace (Fin 3)),
    relayed s = true ∧ s.ghost.wins.length ≤ 1 ∧
      ∀ e ∈ s.ghost.returns, Result.Right 4 s.ghost.published e.asked e.call e.result := by
  have h0 : Reached 4 relayProc none relay := .init init_relay
  obtain ⟨s, hs, hP⟩ := LTS.Reach.play_any h0 relays relayed (by decide +kernel)
  have hall := schema_write_once (by decide) hs
  exact ⟨s, hP, hall.1.1, hall.2.2.2.1⟩

end Relay

end System

end Schema

end Kickmsg
