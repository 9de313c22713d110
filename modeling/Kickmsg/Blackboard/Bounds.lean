import Kickmsg.Blackboard.Opening

/-!
# The bounds of a board

Where the words of a board lie, and that no call leaves them: the sizes that a creator computes are exact and an
opener derives the same; and of a header that an opener has accepted, however it came about, only the capacity
and the value size are used, so that every byte that a call touches lies in the mapping and in the entry or the
cell it is meant for, whatever the shared words hold at each load.
-/

namespace Kickmsg.Blackboard

open Lib

/-! ## Areas -/

/-- The areas of a board; an entry has two cells. -/
inductive BoardArea
  | header
  | entry (i : Nat)
  | cell (i c : Nat)
  deriving DecidableEq

/-- `bb_entry_at`, as an offset from the base. -/
def bbEntryAt (idx : UInt64) : UInt64 := sizeofBoardHeader + idx * sizeofBoardEntry

/-- `bb_cell_at`, as an offset from the base; the parity is masked. -/
def bbCellAt (g : Geometry64) (idx parity : UInt64) : UInt64 :=
  g.valuesOffset + (idx * cellsPerKey + parity) * g.valueStride

namespace BoardArea

/-- Where pointer arithmetic finds an area. -/
def offset (g : Geometry64) : BoardArea → UInt64
  | header => 0
  | entry i => bbEntryAt (UInt64.ofNat i)
  | cell i c => bbCellAt g (UInt64.ofNat i) (UInt64.ofNat c)

def size (g : Geometry64) : BoardArea → Nat
  | header => 192
  | entry _ => 384
  | cell _ _ => g.valueStride.toNat

/-- The areas that exist. -/
def Exists (g : Geometry64) : BoardArea → Prop
  | header => True
  | entry i => i < g.capacity.toNat
  | cell i c => i < g.capacity.toNat ∧ c < 2

/-- The bytes of an area. -/
def bytes (g : Geometry64) (a : BoardArea) : Set Nat :=
  Set.Ico (a.offset g).toNat ((a.offset g).toNat + a.size g)

end BoardArea

/-- The geometry of a board of `total` bytes, over unbounded integers. -/
structure Geometry64.Fits (g : Geometry64) (total : Nat) : Prop where
  capacity_pos : 0 < g.capacity.toNat
  capacity_le : g.capacity.toNat ≤ 65536
  value_pos : 0 < g.maxValueSize.toNat
  value_le : g.maxValueSize.toNat ≤ 1048576
  stride : g.valueStride.toNat = strideNat g.maxValueSize.toNat
  values : g.valuesOffset.toNat = valuesOffsetNat g.capacity.toNat
  total : regionSizeNat g.capacity.toNat g.maxValueSize.toNat ≤ total

namespace Geometry64.Fits

variable {g : Geometry64} {total : Nat}

theorem mono (h : g.Fits total) {total' : Nat} (hle : total ≤ total') : g.Fits total' :=
  { h with total := h.total.trans hle }

/-- Address arithmetic on an entry does not wrap. -/
theorem entry_toNat (h : g.Fits total) {i : Nat} (hi : i < g.capacity.toNat) :
    (bbEntryAt (UInt64.ofNat i)).toNat = 192 + i * 384 := by
  have hle := h.capacity_le
  have hi' : (UInt64.ofNat i).toNat = i := UInt64.toNat_ofNat_of_lt' (by show i < 2 ^ 64; omega)
  have he : sizeofBoardEntry.toNat = 384 := rfl
  have hh : sizeofBoardHeader.toNat = 192 := rfl
  have hm : (UInt64.ofNat i * sizeofBoardEntry).toNat = i * 384 := by
    rw [toNat_mul_of_lt (by rw [hi', he]; omega), hi', he]
  rw [bbEntryAt, toNat_add_of_lt (by omega), hm, hh]

/-- Address arithmetic on a cell does not wrap. -/
theorem cell_toNat (h : g.Fits total) {i c : Nat} (hi : i < g.capacity.toNat) (hc : c < 2) :
    (bbCellAt g (UInt64.ofNat i) (UInt64.ofNat c)).toNat =
      192 + g.capacity.toNat * 384 + (i * 2 + c) * strideNat g.maxValueSize.toNat := by
  have hle := h.capacity_le
  have hcells := cells_le hle h.value_le
  have hi' : (UInt64.ofNat i).toNat = i := UInt64.toNat_ofNat_of_lt' (by show i < 2 ^ 64; omega)
  have hc' : (UInt64.ofNat c).toNat = c := UInt64.toNat_ofNat_of_lt' (by show c < 2 ^ 64; omega)
  have h2 : cellsPerKey.toNat = 2 := rfl
  have hidx : (UInt64.ofNat i * cellsPerKey + UInt64.ofNat c).toNat = i * 2 + c := by
    rw [toNat_add_of_lt, toNat_mul_of_lt, hi', h2, hc']
    · rw [hi', h2]
      omega
    · rw [toNat_mul_of_lt (by rw [hi', h2]; omega), hi', h2, hc']
      omega
  have hmul : (i * 2 + c) * strideNat g.maxValueSize.toNat ≤
      g.capacity.toNat * 2 * strideNat g.maxValueSize.toNat := Nat.mul_le_mul_right _ (by omega)
  have hm : ((UInt64.ofNat i * cellsPerKey + UInt64.ofNat c) * g.valueStride).toNat =
      (i * 2 + c) * strideNat g.maxValueSize.toNat := by
    rw [toNat_mul_of_lt, hidx, h.stride]
    rw [hidx, h.stride]
    omega
  have hv := h.values
  unfold valuesOffsetNat at hv
  rw [bbCellAt, toNat_add_of_lt (by omega), hm, hv]

/-- A cell ends before the next one begins. -/
theorem cell_step (h : g.Fits total) {i c j d : Nat} (hlt : i * 2 + c < j * 2 + d) :
    (i * 2 + c) * strideNat g.maxValueSize.toNat + g.valueStride.toNat ≤
      (j * 2 + d) * strideNat g.maxValueSize.toNat := by
  rw [h.stride, ← Nat.succ_mul]
  exact Nat.mul_le_mul_right _ hlt

/-- Every area lies in the region. -/
theorem offset_le (h : g.Fits total) {a : BoardArea} (ha : a.Exists g) :
    (a.offset g).toNat + a.size g ≤ total := by
  have ht := h.total
  unfold regionSizeNat valuesOffsetNat at ht
  cases a with
  | header =>
    show 0 + 192 ≤ total
    omega
  | entry i =>
    have hi : i < g.capacity.toNat := ha
    rw [BoardArea.offset, h.entry_toNat hi]
    have hle : 192 + g.capacity.toNat * 384 ≤ total := (Nat.le_add_right _ _).trans ht
    clear ht
    show 192 + i * 384 + 384 ≤ total
    omega
  | cell i c =>
    obtain ⟨hi, hc⟩ : i < g.capacity.toNat ∧ c < 2 := ha
    have hstep := h.cell_step (i := i) (c := c) (j := g.capacity.toNat) (d := 0) (by omega)
    rw [BoardArea.offset, h.cell_toNat hi hc, BoardArea.size]
    rw [Nat.add_zero] at hstep
    omega

theorem bytes_disjoint_of_le {a b : BoardArea} (hle : (a.offset g).toNat + a.size g ≤ (b.offset g).toNat) :
    Disjoint (a.bytes g) (b.bytes g) :=
  Set.disjoint_left.mpr fun x hx hx' => by
    have h1 := hx.2
    have h2 := hx'.1
    omega

/-- Different areas share no byte. -/
theorem bytes_disjoint (h : g.Fits total) {a b : BoardArea} (ha : a.Exists g) (hb : b.Exists g) (hne : a ≠ b) :
    Disjoint (a.bytes g) (b.bytes g) := by
  have hentry : ∀ {i}, i < g.capacity.toNat → ((BoardArea.entry i).offset g).toNat = 192 + i * 384 := fun hi =>
    h.entry_toNat hi
  have hcell : ∀ {i c}, i < g.capacity.toNat → c < 2 → ((BoardArea.cell i c).offset g).toNat = _ := fun hi hc =>
    h.cell_toNat hi hc
  have hzero : (BoardArea.header.offset g).toNat = 0 := rfl
  cases a with
  | header =>
    cases b with
    | header => exact absurd rfl hne
    | entry j => exact bytes_disjoint_of_le (by rw [hzero, hentry hb, BoardArea.size]; omega)
    | cell j d => exact bytes_disjoint_of_le (by rw [hzero, hcell hb.1 hb.2, BoardArea.size]; omega)
  | entry i =>
    have hi : i < g.capacity.toNat := ha
    cases b with
    | header => exact (bytes_disjoint_of_le (by rw [hzero, hentry ha, BoardArea.size]; omega)).symm
    | entry j =>
      have hij : i ≠ j := fun e => hne (by rw [e])
      rcases Nat.lt_or_gt_of_ne hij with hlt | hlt
      · exact bytes_disjoint_of_le (by rw [hentry ha, hentry hb, BoardArea.size]; omega)
      · exact (bytes_disjoint_of_le (by rw [hentry ha, hentry hb, BoardArea.size]; omega)).symm
    | cell j d => exact bytes_disjoint_of_le (by rw [hentry ha, hcell hb.1 hb.2, BoardArea.size]; omega)
  | cell i c =>
    obtain ⟨hi, hc⟩ := ha
    cases b with
    | header => exact (bytes_disjoint_of_le (by rw [hzero, hcell hi hc, BoardArea.size]; omega)).symm
    | entry j =>
      have hj : j < g.capacity.toNat := hb
      exact (bytes_disjoint_of_le (by rw [hentry hb, hcell hi hc, BoardArea.size]; omega)).symm
    | cell j d =>
      obtain ⟨hj, hd⟩ := hb
      have hij : i * 2 + c ≠ j * 2 + d := fun e => hne (by
        rw [BoardArea.cell.injEq]
        omega)
      rcases Nat.lt_or_gt_of_ne hij with hlt | hlt
      · exact bytes_disjoint_of_le (by
          rw [hcell hi hc, hcell hj hd, BoardArea.size]
          have := h.cell_step hlt
          omega)
      · exact (bytes_disjoint_of_le (by
          rw [hcell hi hc, hcell hj hd, BoardArea.size]
          have := h.cell_step hlt
          omega)).symm

end Geometry64.Fits

/-! ## The two derivations of the geometry -/

section Derivations

variable {cfg cfg' : BoardConfig} {caller : Caller} {size : UInt64} {check : Bool} {h : BoardHeader}

/-- What a creator computes is exact. -/
theorem fits_makeGeometry (hv : cfg.Valid) : (makeGeometry cfg.capacity cfg.maxValueSize).Fits
    (regionSizeNat cfg.capacity.toNat cfg.maxValueSize.toNat) where
  capacity_pos := hv.capacity_pos
  capacity_le := hv.capacity_le
  value_pos := hv.value_pos
  value_le := hv.value_le
  stride := strideFor_toNat hv.value_le
  values := valuesOffset_toNat _ _
  total := le_rfl

/-- What an opener accepts fits in the mapping, by divisions that cannot overflow. -/
theorem fits_of_checkHeader {g : Geometry64} (hok : checkHeader h size cfg check = .ok g) : g.Fits size.toNat := by
  unfold checkHeader at hok
  split at hok
  · cases hok
  · obtain ⟨hchecks, hg⟩ := throwFirst_bind_ok.mp hok
    obtain rfl := Except.ok.inj hg
    simp only [throwFirst_cons_ok, Bool.or_eq_false_iff, decide_eq_false_iff_not, beq_eq_false_iff_ne,
      UInt64.not_lt] at hchecks
    obtain ⟨⟨htotal, hsize⟩, ⟨⟨hc0, hcmax⟩, hentries⟩, ⟨hv0, hvmax⟩, hcells, -⟩ := hchecks
    have hcle : h.capacity.toNat ≤ 65536 := by
      rw [UInt32.not_lt, UInt32.le_iff_toNat_le] at hcmax
      exact hcmax
    have hvle : h.maxValueSize.toNat ≤ 1048576 := UInt64.le_iff_toNat_le.mp hvmax
    have hstride : (makeGeometry h.capacity h.maxValueSize).valueStride.toNat = strideNat h.maxValueSize.toNat :=
      strideFor_toNat hvle
    have hvalues := valuesOffset_toNat h.capacity h.maxValueSize
    have hsub : (h.totalSize - sizeofBoardHeader).toNat = h.totalSize.toNat - 192 :=
      UInt64.toNat_sub_of_le _ _ htotal
    rw [UInt64.le_iff_toNat_le, UInt64.toNat_div, hsub, UInt32.toNat_toUInt64] at hentries
    have htotal : 192 ≤ h.totalSize.toNat := UInt64.le_iff_toNat_le.mp htotal
    have hentries : h.capacity.toNat * 384 ≤ h.totalSize.toNat - 192 :=
      (Nat.le_div_iff_mul_le (by decide)).mp hentries
    have hafter : (makeGeometry h.capacity h.maxValueSize).valuesOffset ≤ h.totalSize := by
      rw [UInt64.le_iff_toNat_le, hvalues, valuesOffsetNat]
      omega
    have hbounds := strideNat_bounds h.maxValueSize.toNat
    have htwo : (cellsPerKey * (makeGeometry h.capacity h.maxValueSize).valueStride).toNat =
        2 * strideNat h.maxValueSize.toNat := by
      have h2 : cellsPerKey.toNat = 2 := rfl
      rw [toNat_mul_of_lt (by rw [h2, hstride]; omega), h2, hstride]
    rw [UInt64.le_iff_toNat_le, UInt64.toNat_div, UInt64.toNat_sub_of_le _ _ hafter, htwo, hvalues,
      UInt32.toNat_toUInt64] at hcells
    have hcells := (Nat.le_div_iff_mul_le (by omega)).mp hcells
    refine ⟨?_, hcle, ?_, hvle, hstride, hvalues, ?_⟩
    · exact Nat.pos_of_ne_zero fun e => hc0 (UInt32.toNat_inj.mp e)
    · exact Nat.pos_of_ne_zero fun e => hv0 (UInt64.toNat_inj.mp e)
    · have hsize := UInt64.le_iff_toNat_le.mp hsize
      rw [UInt64.le_iff_toNat_le, hvalues] at hafter
      rw [← Nat.mul_assoc] at hcells
      unfold regionSizeNat
      show valuesOffsetNat h.capacity.toNat + h.capacity.toNat * 2 * strideNat h.maxValueSize.toNat ≤ _
      omega

end Derivations

/-! ## What a call touches -/

/-- Where a field of a `BlackboardEntry` lies, and how wide it is. -/
def Field.offset : Field → Nat
  | state => 0
  | publish => 8
  | tenancy => 16
  | ownerPid => 24
  | ownerStarttime => 32
  | keyHash => 40
  | declaredAtNs => 48
  | key w => 64 + 8 * w

def Field.width : Field → Nat
  | state => 4
  | _ => 8

/-- Where a field of a `BlackboardCell` lies; the payload follows the struct. -/
def CellField.offset : CellField → Nat
  | updatedAtNs => 0
  | valueLen => 8
  | payload w => 16 + 8 * w

def CellField.width : CellField → Nat
  | valueLen => 4
  | _ => 8

/-- Some bytes of an area. -/
structure Span where
  area : BoardArea
  offset : Nat
  len : Nat

/-- The bytes lie in their area, and the area exists. -/
def Span.Inside (g : Geometry64) (s : Span) : Prop := s.area.Exists g ∧ s.offset + s.len ≤ s.area.size g

/-- A shared word. -/
def Loc.span : Loc → Span
  | changeSeq => ⟨.header, 64, 8⟩
  | waiters => ⟨.header, 72, 8⟩
  | lockToken => ⟨.header, 128, 8⟩
  | entry i f => ⟨.entry i, f.offset, f.width⟩
  | cell i c f => ⟨.cell i c, f.offset, f.width⟩

/-- The word that an access loads or stores. -/
def accessed : Access Loc Query → Option Loc
  | .load l | .store l _ | .cas l _ _ | .fetchAdd l _ _ => some l
  | _ => none

/-- The entry whose `owner_node` is copied, in or out, just before the next access. -/
def Pc.ownerNode : Pc → Option Nat
  | .takeStart _ i | .claimClock _ i => some i
  | .rowPid q => some q.i
  | _ => none

/-- The shared bytes that the next access touches, and the copy before it. -/
def Actor.spans (a : Actor) : List Span :=
  ((a.request.bind accessed).map Loc.span).toList ++ (a.pc.ownerNode.map fun i => ⟨.entry i, 192, 64⟩).toList

/-- `load_words` copies word `k` of a value to its buffer: where, and how many bytes. -/
def ReadCall.copied (q : ReadCall) (k : Nat) : Nat × Nat := (8 * k, min 8 (q.c.len - 8 * k))

/-- The size of the buffer that a `read` is given. -/
def Call.buffer (n : Nat) : Call → Nat
  | .read size => size
  | _ => n

/-- An actor on a board where a load may answer anything, and the size of the buffer of its last `read`. -/
def hostile (g : Geometry) : LTS (Actor × Nat) (Call ⊕ Answer) where
  init x := x.1.pc = .idle
  step x l y := match l with
    | .inl c => x.1.call g c = some y.1 ∧ y.2 = c.buffer x.2
    | .inr r => x.1.request ≠ none ∧ y = (x.1.resume g r, x.2)

/-! ## The bounds of a call -/

/-- The entry of a `Writer` that a job works for. -/
def Job.Bounded (g : Geometry) : Job → Prop
  | .release w => w.entryIdx < g.capacity
  | _ => True

def Visit.Bounded (g : Geometry) : Visit → Prop
  | .repair j => j.Bounded g
  | .sweep _ _ => True

/-- A `write` past its checks. -/
def Writer.Bounded (g : Geometry) (w : Writer) (d : List UInt8) : Prop :=
  w.entryIdx < g.capacity ∧ d.length ≤ g.maxValueSize

/-- Where an actor is, its indices are in range; `n` is the size of the buffer of a `read`. -/
def Pc.Bounded (g : Geometry) (n : Nat) : Pc → Prop
  | .idle | .notifySeq _ _ | .notifyWaiters _ _ | .notifyWake _ _ | .unlock _ | .rowProbe _ _ _ => True
  | .lockClock j | .lockLoad j _ _ | .lockTake j _ _ | .lockProbe j _ _ _ | .lockSteal j _ _ _
  | .lockYield j _ _ | .lockTime j _ _ => j.Bounded g
  | .normState v i | .normHash v i _ | .normPid v i | .wipeHash v i _ | .wipePid v i _ | .wipeStart v i _
  | .wipeState v i => v.Bounded g ∧ i < g.capacity
  | .sweepPid _ _ i | .sweepStart _ _ i _ | .sweepProbe _ _ i _ _ | .sweepBump _ _ i => i < g.capacity
  | .scanState _ i | .scanHash _ i | .scanPid _ i | .scanStart _ i _ | .scanProbe _ i _ _ => i < g.capacity
  | .scanKey _ i _ w => i < g.capacity ∧ w < keyWords
  | .takeStart _ i | .takePid _ i | .takeBump _ i | .takePublish _ i _ => i < g.capacity
  | .claimState _ _ i | .claimMark _ i | .claimClear _ i | .claimClock _ i | .claimStamp _ i _ | .claimStart _ i
  | .claimPid _ i | .claimHash _ i | .claimBump _ i | .claimActivate _ i | .claimTenancy _ i => i < g.capacity
  | .claimKey _ i w => i < g.capacity ∧ w < keyWords
  | .writeState w d | .writeTenancy w d | .writeOpen w d | .writeLen w d | .writeClock w d | .writeStamp w d _
  | .writeClose w d _ => w.Bounded g d
  | .writeWord w d k => w.Bounded g d ∧ k < wordsFor d.length
  | .relState w | .relTenancy w | .relPid w | .relStart w | .relBump w => w.entryIdx < g.capacity
  | .resState q | .resTenancy q | .seekState q | .seekHash q | .seekTenancy q | .readTenancy q | .readPublish q
  | .readLen q | .readStamp q | .readPublishAfter q | .readTenancyAfter q => q.i < g.capacity ∧ q.size = n
  | .seekKey q w => (q.i < g.capacity ∧ q.size = n) ∧ w < keyWords
  | .readWord q k => (q.i < g.capacity ∧ q.size = n) ∧ q.c.len ≤ g.maxValueSize ∧ q.c.len ≤ q.size ∧
      k < wordsFor q.c.len
  | .entState q | .entTenancy q | .entPublish q | .entLen q | .entPublishAfter q | .entTenancyAfter q
  | .entStateAfter q | .rowPid q | .rowStart q _ => q.i < g.capacity
  | .entKey q w => q.i < g.capacity ∧ w < keyWords
  | .entStamp q => q.i < g.capacity ∧ q.c.len ≤ g.maxValueSize
  | .entWord q k => q.i < g.capacity ∧ q.c.len ≤ g.maxValueSize ∧ k < wordsFor q.c.len

namespace Actor

variable {g : Geometry} {n i : Nat} {a : Actor} {key : List UInt8}

section Heads

theorem bounded_reclaimAt : (a.reclaimAt g key i).pc.Bounded g n := by
  unfold reclaimAt
  split_ifs with hi
  · exact hi
  · trivial

theorem bounded_sweepAt {k : SweepFor} {m : Nat} : (a.sweepAt g k m i).pc.Bounded g n := by
  unfold sweepAt
  split_ifs with hi hm
  · exact ⟨trivial, hi⟩
  · cases k with
    | ret => trivial
    | claim key => exact bounded_reclaimAt
  · cases k <;> trivial

theorem bounded_claimAt {swept : Bool} : (a.claimAt g key swept i).pc.Bounded g n := by
  unfold claimAt
  split_ifs with hs hi
  · exact bounded_reclaimAt
  · exact hi
  · exact bounded_sweepAt

theorem bounded_scanAt : (a.scanAt g key i).pc.Bounded g n := by
  unfold scanAt
  split_ifs with hi
  · exact hi
  · exact bounded_claimAt

theorem bounded_listAt {l : Listing} {rows : List Row} : (a.listAt g l rows i).pc.Bounded g n := by
  unfold listAt
  split_ifs with hi
  · exact hi
  · cases l <;> trivial

theorem bounded_enter {j : Job} (hj : j.Bounded g) : (a.enter g j).pc.Bounded g n := by
  cases j with
  | declare key => exact bounded_scanAt
  | release w => exact hj
  | sweep => exact bounded_sweepAt
  | snapshot => exact bounded_listAt

theorem bounded_repairAt {j : Job} (hj : j.Bounded g) : (a.repairAt g j i).pc.Bounded g n := by
  unfold repairAt
  split_ifs with hi
  · exact ⟨hj, hi⟩
  · exact bounded_enter hj

theorem bounded_cleaned {v : Visit} (hv : v.Bounded g) : (a.cleaned g v i).pc.Bounded g n := by
  cases v with
  | repair j => exact bounded_repairAt hv
  | sweep k m => exact bounded_sweepAt

theorem bounded_inOrder {v : Visit} (hv : v.Bounded g) (hi : i < g.capacity) :
    (a.inOrder g v i).pc.Bounded g n := by
  cases v with
  | repair j => exact bounded_repairAt hv
  | sweep k m => exact hi

theorem bounded_lockFailed {j : Job} : (a.lockFailed j).pc.Bounded g n := by
  cases j <;> trivial

theorem bounded_lockRetry {j : Job} {start m : Nat} (hj : j.Bounded g) : (a.lockRetry j start m).pc.Bounded g n := by
  unfold lockRetry
  split_ifs
  · exact hj
  · exact bounded_lockFailed

theorem bounded_probeFrom {todo done : List Row} : (a.probeFrom done todo).pc.Bounded g n := by
  induction todo generalizing done with
  | nil => trivial
  | cons r todo ih =>
    unfold probeFrom
    split_ifs
    · exact ih
    · trivial

theorem bounded_finish {o : Outcome} : (a.finish o).pc.Bounded g n := by
  cases o with
  | probe rows => exact bounded_probeFrom
  | _ => trivial

theorem bounded_notified {locked : Bool} {o : Outcome} : (a.notified locked o).pc.Bounded g n := by
  unfold notified
  split_ifs
  · trivial
  · exact bounded_finish

theorem bounded_seekAt {q : ReadCall} (hq : q.size = n) : (a.seekAt g q i).pc.Bounded g n := by
  unfold seekAt
  split_ifs with hi
  · exact ⟨hi, hq⟩
  · trivial

theorem bounded_resolve {q : ReadCall} (hq : q.size = n) : (a.resolve g q).pc.Bounded g n := by
  unfold resolve
  split
  · split_ifs with hi
    · exact ⟨hi, hq⟩
    · exact bounded_seekAt hq
  · exact bounded_seekAt hq

theorem bounded_readRetry {q : ReadCall} (hq : q.size = n) : (a.readRetry g q).pc.Bounded g n := by
  unfold readRetry
  split_ifs
  · exact bounded_resolve hq
  · trivial

theorem bounded_listRetry {q : ListCall} (hi : q.i < g.capacity) : (a.listRetry g q).pc.Bounded g n := by
  unfold listRetry
  split_ifs
  · exact hi
  · exact bounded_listAt

theorem bounded_listed {q : ListCall} (hi : q.i < g.capacity) : (a.listed g q).pc.Bounded g n := by
  unfold listed
  split
  · exact hi
  · exact bounded_listAt

theorem bounded_readWords {q : ReadCall} {k : Nat} (hi : q.i < g.capacity) (hq : q.size = n)
    (hlen : q.c.len ≤ g.maxValueSize) : (a.readWords q k).pc.Bounded g n := by
  unfold readWords
  split_ifs with hk
  · exact ⟨⟨hi, hq⟩, hlen, hk.1, hk.2⟩
  · exact ⟨hi, hq⟩

theorem bounded_listWords {q : ListCall} {k : Nat} (hi : q.i < g.capacity) (hlen : q.c.len ≤ g.maxValueSize) :
    (a.listWords q k).pc.Bounded g n := by
  unfold listWords
  split
  · split_ifs with hk
    · exact ⟨hi, hlen, hk⟩
    · exact hi
  · exact hi

theorem bounded_writeWords {w : Writer} {d : List UInt8} {k : Nat} (hw : w.Bounded g d) :
    (a.writeWords w d k).pc.Bounded g n := by
  unfold writeWords
  split_ifs with hk
  · exact ⟨hw, hk⟩
  · exact hw

end Heads

/-- Whatever an access answers, the indices stay in range. -/
theorem bounded_resume {r : Answer} (h : a.pc.Bounded g n) : (a.resume g r).pc.Bounded g n := by
  cases hpc : a.pc <;> simp only [hpc, Pc.Bounded] at h <;> simp only [resume, hpc]
  case lockLoad => split_ifs <;> exact h
  case lockTake =>
    split_ifs
    · exact bounded_enter h
    · exact bounded_lockRetry h
  case lockProbe =>
    split_ifs
    · exact h
    · exact bounded_lockRetry h
  case lockSteal =>
    split_ifs
    · exact bounded_repairAt h
    · exact bounded_lockRetry h
  case lockYield => split_ifs <;> exact h
  case lockTime =>
    split_ifs
    · exact bounded_lockFailed
    · exact h
  case normState | normHash | normPid =>
    split_ifs <;>
      first
        | exact h
        | exact bounded_inOrder h.1 h.2
  case wipeStart =>
    split_ifs
    · exact h
    · exact bounded_cleaned h.1
  case wipeState => exact bounded_cleaned h.1
  case sweepPid | sweepProbe =>
    split_ifs <;>
      first
        | exact h
        | exact bounded_sweepAt
  case sweepBump => exact ⟨trivial, h⟩
  case scanState | scanHash =>
    split_ifs <;>
      first
        | exact h
        | exact ⟨h, by decide⟩
        | exact bounded_scanAt
  case scanKey key i v w =>
    split_ifs with hw
    · exact ⟨h.1, hw⟩
    · exact h.1
    · exact bounded_scanAt
  case scanStart => split_ifs <;> exact h
  case scanProbe =>
    split_ifs
    · exact h
    · trivial
  case claimState =>
    split_ifs
    · exact h
    · exact bounded_claimAt
  case claimClear => exact ⟨h, by decide⟩
  case claimKey key i w =>
    split_ifs with hw
    · exact ⟨h.1, hw⟩
    · exact h.1
  case notifyWaiters =>
    split_ifs
    · exact bounded_notified
    · trivial
  case notifyWake => exact bounded_notified
  case unlock => exact bounded_finish
  case writeState | writeTenancy =>
    split_ifs
    · exact h
    · trivial
  case writeOpen => exact bounded_writeWords h
  case writeWord => exact bounded_writeWords h.1
  case relState | relTenancy =>
    split_ifs
    · exact h
    · trivial
  case resState | resTenancy | seekState | seekHash =>
    split_ifs
    · exact h
    · exact bounded_seekAt h.2
  case seekTenancy => exact ⟨h, by decide⟩
  case seekKey q w =>
    split_ifs with hw
    · exact ⟨h.1, hw⟩
    · exact h.1
    · exact bounded_seekAt h.1.2
  case readTenancy =>
    split_ifs
    · exact h
    · exact bounded_readRetry h.2
  case readPublish =>
    split_ifs
    · trivial
    · exact h
  case readLen => exact bounded_readWords h.1 h.2 (Nat.min_le_right _ _)
  case readWord => exact bounded_readWords h.1.1 h.1.2 h.2.1
  case readTenancyAfter =>
    split_ifs
    · trivial
    · exact bounded_readRetry h.2
  case entState =>
    split_ifs
    · exact h
    · exact bounded_listAt
  case entTenancy => exact ⟨h, by decide⟩
  case entKey q w =>
    split_ifs with hw
    · exact ⟨h.1, hw⟩
    · exact h.1
  case entPublish => split_ifs <;> exact h
  case entLen => exact ⟨h, Nat.min_le_right _ _⟩
  case entStamp => exact bounded_listWords h.1 h.2
  case entWord => exact bounded_listWords h.1 h.2.1
  case entStateAfter =>
    split_ifs
    · exact bounded_listed h
    · exact bounded_listRetry h
  case rowStart => exact bounded_listAt
  case rowProbe => exact bounded_probeFrom
  all_goals
    first
      | exact h
      | trivial

/-- A call begins in range, whatever handles the actor has. -/
theorem bounded_call {b : Actor} {c : Call} (h : a.call g c = some b) : b.pc.Bounded g (c.buffer n) := by
  rcases (call_cases h).2 with hb | ⟨j, hb, hj⟩ | ⟨w, d, hb, hw⟩ | ⟨u, r, size, rfl, rfl⟩ | ⟨u, l, rfl⟩
  · rw [hb]
    trivial
  · rw [hb]
    cases j with
    | release w => exact hj w rfl
    | _ => trivial
  · rw [hb]
    exact hw
  · exact bounded_resolve rfl
  · exact bounded_listAt

end Actor

/-- The indices of a word are in range. -/
def Loc.Within (g : Geometry) : Loc → Prop
  | entry i f => i < g.capacity ∧ ∀ w, f = .key w → w < keyWords
  | cell i c f => i < g.capacity ∧ c < 2 ∧ ∀ k, f = .payload k → k < wordsFor g.maxValueSize
  | _ => True

theorem wordsFor_mono {n m k : Nat} (h : n ≤ m) (hk : k < wordsFor n) : k < wordsFor m := by
  unfold wordsFor at *
  omega

theorem cellOf_lt (writes : Nat) : cellOf writes < 2 := Nat.mod_lt _ (by decide)

namespace Actor

variable {g : Geometry} {n : Nat} {a : Actor}

theorem within_request (h : a.pc.Bounded g n) {x : Access Loc Query} (hx : a.request = some x) {l : Loc}
    (hl : accessed x = some l) : l.Within g := by
  unfold request at hx
  cases hpc : a.pc <;> rw [hpc] at h hx <;> simp only [Option.some.injEq, reduceCtorEq] at hx <;> subst hx <;>
    simp only [accessed, Option.some.injEq, reduceCtorEq] at hl <;> subst hl <;> simp only [Pc.Bounded] at h
  case lockLoad | lockTake | lockSteal | notifySeq | notifyWaiters | unlock => trivial
  case normState | normHash | normPid | wipeHash | wipePid | wipeStart | wipeState => exact ⟨h.2, nofun⟩
  case scanKey | claimKey | entKey =>
    refine ⟨h.1, fun w hw => ?_⟩
    obtain rfl := Field.key.inj hw
    exact h.2
  case seekKey =>
    refine ⟨h.1.1, fun w hw => ?_⟩
    obtain rfl := Field.key.inj hw
    exact h.2
  case writeState | writeTenancy | writeOpen | writeClose => exact ⟨h.1, nofun⟩
  case writeLen | writeStamp => exact ⟨h.1, cellOf_lt _, nofun⟩
  case writeWord =>
    refine ⟨h.1.1, cellOf_lt _, fun k hk => ?_⟩
    obtain rfl := CellField.payload.inj hk
    exact wordsFor_mono h.1.2 h.2
  case resState | resTenancy | seekState | seekHash | seekTenancy | readTenancy | readPublish | readPublishAfter
    | readTenancyAfter => exact ⟨h.1, nofun⟩
  case readLen | readStamp => exact ⟨h.1, cellOf_lt _, nofun⟩
  case readWord =>
    refine ⟨h.1.1, cellOf_lt _, fun k hk => ?_⟩
    obtain rfl := CellField.payload.inj hk
    exact wordsFor_mono h.2.1 h.2.2.2
  case entLen => exact ⟨h, cellOf_lt _, nofun⟩
  case entStamp => exact ⟨h.1, cellOf_lt _, nofun⟩
  case entWord =>
    refine ⟨h.1, cellOf_lt _, fun k hk => ?_⟩
    obtain rfl := CellField.payload.inj hk
    exact wordsFor_mono h.2.1 h.2.2
  all_goals exact ⟨h, nofun⟩

theorem within_ownerNode (h : a.pc.Bounded g n) {i : Nat} (hi : a.pc.ownerNode = some i) : i < g.capacity := by
  cases hpc : a.pc <;> rw [hpc] at h hi <;> simp only [Pc.ownerNode, Option.some.injEq, reduceCtorEq] at hi <;>
    subst hi <;> exact h

end Actor

/-- The geometry that the calls work with. -/
def Geometry64.board (g : Geometry64) (h : g.maxValueSize.toNat ≤ Blackboard.maxValueSize) : Geometry :=
  ⟨g.capacity.toNat, g.maxValueSize.toNat, h⟩

section Spans

variable {g : Geometry64} {total : Nat}

/-- The last word of a value, padded, is still in its cell. -/
theorem Geometry64.Fits.payload_le (h : g.Fits total) {k : Nat} (hk : k < wordsFor g.maxValueSize.toNat) :
    16 + 8 * k + 8 ≤ g.valueStride.toNat := by
  have hmod := alignUp_mod (16 + g.maxValueSize.toNat)
  have hle := le_alignUp (16 + g.maxValueSize.toNat)
  rw [h.stride, strideNat]
  unfold wordsFor at hk
  unfold cacheLine at *
  omega

theorem Loc.Within.inside (h : g.Fits total) {hv : g.maxValueSize.toNat ≤ maxValueSize} {l : Loc}
    (hl : l.Within (g.board hv)) : l.span.Inside g := by
  have hstride := (strideNat_bounds g.maxValueSize.toNat).1
  have hpos := h.value_pos
  rw [← h.stride] at hstride
  cases l with
  | changeSeq => exact ⟨trivial, show 64 + 8 ≤ 192 by decide⟩
  | waiters => exact ⟨trivial, show 72 + 8 ≤ 192 by decide⟩
  | lockToken => exact ⟨trivial, show 128 + 8 ≤ 192 by decide⟩
  | entry i f =>
    obtain ⟨hi, hkey⟩ := hl
    refine ⟨hi, ?_⟩
    show f.offset + f.width ≤ 384
    cases f with
    | key w =>
      have hw := hkey w rfl
      unfold keyWords at hw
      show 64 + 8 * w + 8 ≤ 384
      omega
    | _ => decide
  | cell i c f =>
    obtain ⟨hi, hc, hpay⟩ := hl
    refine ⟨⟨hi, hc⟩, ?_⟩
    show f.offset + f.width ≤ g.valueStride.toNat
    cases f with
    | updatedAtNs =>
      show 0 + 8 ≤ _
      omega
    | valueLen =>
      show 8 + 4 ≤ _
      omega
    | payload k => exact h.payload_le (hpay k rfl)

/-- What an actor touches is inside. -/
theorem inside_of_bounded (h : g.Fits total) {hv : g.maxValueSize.toNat ≤ maxValueSize} {a : Actor} {n : Nat}
    (ha : a.pc.Bounded (g.board hv) n) {s : Span} (hs : s ∈ a.spans) : s.Inside g := by
  rcases List.mem_append.mp hs with hs | hs
  · rw [Option.mem_toList, Option.map_eq_some_iff] at hs
    obtain ⟨l, hl, rfl⟩ := hs
    obtain ⟨x, hx, hxl⟩ := Option.bind_eq_some_iff.mp hl
    exact (Actor.within_request ha hx hxl).inside h
  · rw [Option.mem_toList, Option.map_eq_some_iff] at hs
    obtain ⟨i, hi, rfl⟩ := hs
    exact ⟨Actor.within_ownerNode ha hi, show 192 + 64 ≤ 384 by decide⟩

/-- The buffer of a `read` holds what is copied to it. -/
theorem copied_le {g : Geometry} {q : ReadCall} {k n : Nat} (h : (Pc.readWord q k).Bounded g n) :
    (q.copied k).1 + (q.copied k).2 ≤ n := by
  obtain ⟨⟨-, hn⟩, -, hlen, hk⟩ := h
  unfold wordsFor at hk
  show 8 * k + min 8 (q.c.len - 8 * k) ≤ n
  omega

theorem bounded_reach {g : Geometry} {ok : Actor × Nat → Call ⊕ Answer → Actor × Nat → Prop} {x : Actor × Nat}
    (h : (hostile g).Reach ok x) : x.1.pc.Bounded g x.2 := by
  refine LTS.Reach.invariant (I := fun x => x.1.pc.Bounded g x.2) (fun y (hy : y.1.pc = .idle) => ?_)
    (fun y l y' hI hs _ => ?_) h
  · rw [hy]
    trivial
  · cases l with
    | inl c =>
      obtain ⟨hc, hn⟩ := hs
      rw [hn]
      exact Actor.bounded_call hc
    | inr r =>
      obtain ⟨-, rfl⟩ := hs
      exact Actor.bounded_resume hI

end Spans

/-! ## The bounds of a board -/

section Board

variable {cfg cfg' : BoardConfig} {caller : Caller} {size : UInt64} {check : Bool} {shm : List UInt8}

/-- The areas of a board of `total` bytes are inside it and apart. -/
structure Geometry64.Laid (g : Geometry64) (total : Nat) : Prop where
  inside : ∀ a : BoardArea, a.Exists g → (a.offset g).toNat + a.size g ≤ total
  apart : ∀ a b : BoardArea, a.Exists g → b.Exists g → a ≠ b → Disjoint (a.bytes g) (b.bytes g)

theorem Geometry64.Fits.laid {g : Geometry64} {total : Nat} (h : g.Fits total) : g.Laid total :=
  ⟨fun _ ha => h.offset_le ha, fun _ _ ha hb hne => h.bytes_disjoint ha hb hne⟩

/-- A header that a creator has stamped is accepted in every mapping that is large enough. -/
theorem spinOpen_stamped (hv : cfg.Valid) (hsize : regionSize cfg.capacity cfg.maxValueSize ≤ size)
    (hconfig : check = true → bbConfigHash cfg = bbConfigHash cfg')
    (hid : cfg'.identity = 0 ∨ cfg.identity = 0 ∨ cfg.identity = cfg'.identity) (words : Loc → Nat)
    (rest : List (Option BoardRegion)) :
    spinOpen shm cfg' check (some ⟨size, stampHeader cfg caller, words⟩ :: rest) =
      .ok (some ⟨shm, [], size, makeGeometry cfg.capacity cfg.maxValueSize, stampHeader cfg caller⟩) := by
  have hsized : (stampHeader cfg caller).Sized size := sized_stampHeader hv hsize
  have hlarge : ¬ size < sizeofBoardHeader := by
    have htotal := hsized.total
    rw [Bool.or_eq_false_iff, decide_eq_false_iff_not, decide_eq_false_iff_not, UInt64.not_lt,
      UInt64.not_lt] at htotal
    exact UInt64.not_lt.mpr (UInt64.le_trans htotal.1 htotal.2)
  have hmatch : (cfg'.identity != 0 && (stampHeader cfg caller).identityHash != 0 &&
      (stampHeader cfg caller).identityHash != cfg'.identity) = false := by
    show (cfg'.identity != 0 && cfg.identity != 0 && cfg.identity != cfg'.identity) = false
    rcases hid with h | h | h <;> simp [h]
  have hcheck : checkHeader (stampHeader cfg caller) size cfg' check =
      .ok (makeGeometry cfg.capacity cfg.maxValueSize) := by
    rw [checkHeader_sized rfl hsized hconfig, hmatch]
    rfl
  have hmagic : (stampHeader cfg caller).magic = boardMagic := rfl
  rw [spinOpen, if_neg hlarge, if_neg (not_not_intro hmagic)]
  simp only [hcheck]

/-- Whatever an opener finds, the geometry it goes on with fits in its mapping. -/
theorem fits_of_spinOpen {probes : List (Option BoardRegion)} {b : BoardHandle}
    (h : spinOpen shm cfg check probes = .ok (some b)) : b.geometry.Fits b.size.toNat := by
  induction probes with
  | nil => cases h
  | cons p rest ih =>
    cases p with
    | none => exact ih h
    | some r =>
      rw [spinOpen] at h
      split_ifs at h with hsmall hmagic
      · exact ih h
      · split at h
        · cases h
        · rename_i g hg
          obtain rfl := Option.some.inj (Except.ok.inj h)
          exact fits_of_checkHeader hg

/-- The sizes of a creator are exact, its areas are apart and inside, and every opener of what it has stamped
derives its geometry. With whatever board has been opened, no call touches a byte outside the mapping or outside the
entry or the cell it is meant for, and no `read` fills more than its buffer, whatever the shared words hold. -/
theorem board_bounds :
    (∀ cfg : BoardConfig, cfg.Valid →
      (regionSize cfg.capacity cfg.maxValueSize).toNat =
        regionSizeNat cfg.capacity.toNat cfg.maxValueSize.toNat ∧
      (makeGeometry cfg.capacity cfg.maxValueSize).valueStride.toNat = strideNat cfg.maxValueSize.toNat ∧
      (makeGeometry cfg.capacity cfg.maxValueSize).valuesOffset.toNat = valuesOffsetNat cfg.capacity.toNat ∧
      (makeGeometry cfg.capacity cfg.maxValueSize).Laid
        (regionSizeNat cfg.capacity.toNat cfg.maxValueSize.toNat) ∧
      ∀ shm caller size words rest cfg' check, regionSize cfg.capacity cfg.maxValueSize ≤ size →
        (check = true → bbConfigHash cfg = bbConfigHash cfg') →
        (cfg'.identity = 0 ∨ cfg.identity = 0 ∨ cfg.identity = cfg'.identity) →
        spinOpen shm cfg' check (some ⟨size, stampHeader cfg caller, words⟩ :: rest) =
          .ok (some ⟨shm, [], size, makeGeometry cfg.capacity cfg.maxValueSize, stampHeader cfg caller⟩)) ∧
    ∀ shm cfg check probes b, spinOpen shm cfg check probes = .ok (some b) →
      b.geometry.Laid b.size.toNat ∧ ∃ hv : b.geometry.maxValueSize.toNat ≤ maxValueSize,
        ∀ x, (hostile (b.geometry.board hv)).Reach LTS.any x →
          (∀ s ∈ x.1.spans, s.Inside b.geometry ∧
            (s.area.offset b.geometry).toNat + s.offset + s.len ≤ b.size.toNat) ∧
          ∀ q k, x.1.pc = .readWord q k → (q.copied k).1 + (q.copied k).2 ≤ x.2 := by
  refine ⟨fun cfg hv => ?_, fun shm cfg check probes b hopen => ?_⟩
  · have hfits := fits_makeGeometry hv
    exact ⟨regionSize_toNat hv, hfits.stride, hfits.values, hfits.laid,
      fun shm caller size words rest cfg' check hsize hconfig hid =>
        spinOpen_stamped hv hsize hconfig hid words rest⟩
  · have hfits := fits_of_spinOpen hopen
    refine ⟨hfits.laid, hfits.value_le, fun x hx => ?_⟩
    have hbounded := bounded_reach hx
    refine ⟨fun s hs => ?_, fun q k hq => ?_⟩
    · have hin := inside_of_bounded hfits hbounded hs
      refine ⟨hin, ?_⟩
      have hle := hfits.offset_le hin.1
      have hlen := hin.2
      omega
    · rw [hq] at hbounded
      exact copied_le hbounded

/-- A board of four keys of up to 64 bytes, opened in the mapping of its creator. -/
theorem board_bounds_opened : ∃ b : BoardHandle,
    spinOpen [] ⟨4, 64, 0⟩ true [some ⟨regionSize 4 64, stampHeader ⟨4, 64, 0⟩ ⟨0, 0⟩, fun _ => 0⟩] =
        .ok (some b) ∧ b.geometry.Laid b.size.toNat := by
  have hv : BoardConfig.Valid ⟨4, 64, 0⟩ := ⟨by decide, by decide, by decide, by decide⟩
  have hopen := (board_bounds.1 ⟨4, 64, 0⟩ hv).2.2.2.2 [] ⟨0, 0⟩ (regionSize 4 64) (fun _ => 0) [] ⟨4, 64, 0⟩ true
    (UInt64.le_refl _) (fun _ => rfl) (.inl rfl)
  exact ⟨_, hopen, (board_bounds.2 _ _ _ _ _ hopen).1⟩

end Board

end Kickmsg.Blackboard
