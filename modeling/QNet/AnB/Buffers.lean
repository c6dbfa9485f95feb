import QNet.AnB.Dma
import Mathlib.Algebra.Group.Nat.Defs
import Mathlib.Data.List.Basic

/-!
# The DMA buffers of the AnB driver

`set_buffer` allocates one region of kernel memory for all buffers of the ring and an array with a
bus address for each of them. Only the active buffer is mapped for the board, so at most one entry
of the array is not zero. The functions return the calls they make to the kernel and to the board.

The lengths are computed in 32 bits, so the region is too small from 65536 buffers on.
`set_buffer` frees the old buffers without unmapping the active one, and the new ring is mapped only
after the old one is gone. It leaves `active_read` as it is, also when the new ring is smaller.
-/

namespace QNet.AnB

/-- Memory from `kzalloc`. -/
structure Block where
  id : ℕ
  length : ℕ
  deriving DecidableEq

/-- The buffers of a ring and their bus addresses. `address_kernel`, `size`, `address_dma` and
`buffers` of `struct dma_struct` are set together and cleared together. -/
structure Region where
  addressKernel : Block
  size : UInt32
  addressDma : Block
  buffers : UInt32
  entries : List UInt64
  length_entries : entries.length = buffers.toNat
  deriving DecidableEq

/-- `struct dma_struct`. The indices are the bits of an `int`. -/
structure DmaStruct where
  region : Option Region
  irq : Int8
  activeWrite : UInt32
  activeRead : UInt32
  dmaSuspended : Bool
  dmaStarted : Bool
  handled : UInt32
  suspended : UInt32
  deriving DecidableEq

inductive KernelCall
  | kzalloc (block : Block)
  | kfree (block : Block)
  /-- `pci_map_single` for the part of the kernel buffer from `offset` on; the array gets the bus
  address. -/
  | mapSingle (kernel array : Block) (offset size : UInt32) (bus : UInt64)
  | unmapSingle (bus : UInt64) (size : UInt32)
  | requestIrq (irq : Int8)
  | freeIrq (irq : Int8)
  | board (effect : Effect)
  deriving DecidableEq

def eNoMem : ℤ := 12
def eBusy : ℤ := 16
def eInval : ℤ := 22

/-- `AnBBufferMinSize`. -/
def bufferMinSize : UInt32 := 16384 * 4

/-- `AnBBuffers`. -/
def anbBuffers : UInt32 := 16

/-- What the kernel answers: whether there is memory for the buffers and for the array, the bus
address of the first buffer, zero for none, and the result of `request_irq`. -/
structure Answers where
  kernel : Bool
  array : Bool
  bus : UInt64
  request : ℤ
  deriving DecidableEq

/-- The next place in the ring, as the handler and `DMARollBuffer` compute it. -/
def nextIndex (buffers i : UInt32) : UInt32 := if i = buffers - 1 then 0 else i + 1

namespace Region

/-- A region for `buffers` buffers whose array is zeroed. -/
def fresh (addressKernel : Block) (size : UInt32) (addressDma : Block) (buffers : UInt32) :
    Region :=
  ⟨addressKernel, size, addressDma, buffers, List.replicate buffers.toNat 0,
    List.length_replicate⟩

/-- The calls of `unmap_all`. -/
def unmaps (r : Region) : List KernelCall :=
  (r.entries.filter (· ≠ 0)).map fun bus ↦ .unmapSingle bus r.size

/-- The region after `unmap_all`, which zeroes the entries it has unmapped. -/
def cleared (r : Region) : Region := fresh r.addressKernel r.size r.addressDma r.buffers

def setEntry (r : Region) (active : UInt32) (bus : UInt64) : Region :=
  { r with
    entries := r.entries.set active.toNat bus
    length_entries := by rw [List.length_set, r.length_entries] }

end Region

namespace DmaStruct

/-- The structure from `kzalloc`. -/
def zeroed : DmaStruct := ⟨none, 0, 0, 0, false, false, 0, 0⟩

def buffers (s : DmaStruct) : UInt32 := s.region.elim 0 Region.buffers

/-- `unset_buffer`. -/
def unsetBuffer (s : DmaStruct) : DmaStruct × List KernelCall :=
  match s.region with
  | none => (s, [])
  | some r => ({ s with region := none }, [.kfree r.addressKernel, .kfree r.addressDma])

/-- `unmap_all`. -/
def unmapAll (s : DmaStruct) : DmaStruct × List KernelCall :=
  match s.region with
  | none => (s, [])
  | some r => ({ s with region := some r.cleared }, r.unmaps)

/-- `map_active`; `bus` is the answer of `pci_map_single`. -/
def mapActive (s : DmaStruct) (active : UInt32) (bus : UInt64) : DmaStruct × List KernelCall × ℤ :=
  match s.region with
  | none => (s, [], -eInval)
  | some r =>
      if active.toNat < 2 ^ 31 ∧ active < r.buffers then
        let mapped := { s with
          region := some (r.cleared.setEntry active bus)
          activeWrite := active }
        if bus = 0 then (mapped, r.unmaps, -eNoMem)
        else
          (mapped,
            r.unmaps ++ [.mapSingle r.addressKernel r.addressDma (r.size * active) r.size bus,
              .board (.address active.toNat)], 0)
      else (s, [], -eInval)

/-- `DeviceHandler`; `found` says that the device is in the pool, and `dma` is the bit of
`RegIRQ`. -/
def deviceHandler (s : DmaStruct) (found dma : Bool) (bus : UInt64) : DmaStruct × List KernelCall :=
  if found && dma && s.dmaStarted then
    let s := { s with handled := s.handled + 1 }
    if !s.dmaSuspended then
      let s := { s with activeWrite := nextIndex s.buffers s.activeWrite }
      if s.activeWrite = s.activeRead then ({ s with dmaSuspended := true }, [])
      else
        let mapped := s.mapActive s.activeWrite bus
        (mapped.1, mapped.2.1 ++
          [.board .irq, .board (.enabled false), .board (.enabled true), .board .wakeUp])
    else ({ s with suspended := s.suspended + 1 }, [])
  else (s, [])

/-- `enable_dma`. -/
def enableDma (s : DmaStruct) (bus : UInt64) : DmaStruct × List KernelCall × ℤ :=
  if s.dmaStarted then (s, [], -eInval)
  else
    let mapped := { s with activeRead := 0 }.mapActive 0 bus
    ({ mapped.1 with dmaStarted := true },
      [.board .irq, .board (.enabled false)] ++ mapped.2.1 ++ [.board (.enabled true)], 0)

/-- `disable_dma`. -/
def disableDma (s : DmaStruct) : DmaStruct × List KernelCall × ℤ :=
  if !s.dmaStarted then (s, [], -eInval)
  else ({ s with dmaStarted := false }, [.board (.enabled false)], 0)

/-- `unregister_dma`. -/
def unregisterDma (s : DmaStruct) : DmaStruct × List KernelCall :=
  let disabled := s.disableDma
  let s := disabled.1
  let freed : DmaStruct × List KernelCall :=
    if 0 ≤ s.irq then ({ s with irq := -1 }, [.freeIrq s.irq]) else (s, [])
  let unmapped := freed.1.unmapAll
  let unset := unmapped.1.unsetBuffer
  ({ unset.1 with handled := 0 }, disabled.2.1 ++ freed.2 ++ unmapped.2 ++ unset.2)

/-- The condition of the loop in `DMARollBuffer`. -/
def rollWaits (s : DmaStruct) : Bool := s.activeRead == s.activeWrite

/-- `DMARollBuffer` behind its loop. -/
def rollBuffer (s : DmaStruct) : DmaStruct :=
  { s with activeRead := nextIndex s.buffers s.activeRead, suspended := 0 }

end DmaStruct

/-- The structure of a device and the number of blocks `kzalloc` has returned for it. -/
structure Card where
  dma : DmaStruct
  allocated : ℕ
  deriving DecidableEq

namespace Card

/-- `set_buffer`. -/
def setBuffer (c : Card) (bufferSize bufferNum : UInt32) (answers : Answers) :
    Card × List KernelCall × ℤ :=
  if c.dma.dmaStarted then (c, [], -eBusy)
  else if bufferSize = 0 ∨ bufferNum < 2 then (c, [], -eInval)
  else if !answers.kernel then (c, [], -eNoMem)
  else
    -- the product is an `unsigned int`, the length of the array a `size_t`
    let kernelTemp : Block := ⟨c.allocated, (bufferSize * bufferNum).toNat⟩
    let dmaTemp : Block := ⟨c.allocated + 1, 8 * bufferNum.toNat⟩
    if !answers.array then
      ({ c with allocated := c.allocated + 1 }, [.kzalloc kernelTemp, .kfree kernelTemp], -eNoMem)
    else
      let unset := c.dma.unsetBuffer
      let filled : DmaStruct :=
        { unset.1 with region := some (.fresh kernelTemp bufferSize dmaTemp bufferNum) }
      let mapped := filled.mapActive 0 answers.bus
      let calls := [.kzalloc kernelTemp, .kzalloc dmaTemp] ++ unset.2 ++ mapped.2.1
      if mapped.2.2 ≠ 0 then
        let failed := mapped.1.unsetBuffer
        (⟨failed.1, c.allocated + 2⟩, calls ++ failed.2, mapped.2.2)
      else (⟨mapped.1, c.allocated + 2⟩, calls, 0)

/-- `change_buffer`. -/
def changeBuffer (c : Card) (size : UInt32) (answers : Answers) : Card × List KernelCall × ℤ :=
  c.setBuffer bufferMinSize size answers

/-- The answer of `request_irq`: there is no interrupt line with a negative number. -/
def requestIrq (irq : Int8) (answer : ℤ) : ℤ := if irq < 0 then -eInval else answer

/-- `register_dma`; `line` is the interrupt line of the device, which a `char` has to hold. -/
def registerDma (c : Card) (line : UInt32) (answers : Answers) : Card × List KernelCall × ℤ :=
  let c := { c with dma := { c.dma with irq := -1 } }
  let set := c.setBuffer bufferMinSize anbBuffers answers
  if set.2.2 ≠ 0 then set
  else
    let irq := line.toUInt8.toInt8
    let requested := requestIrq irq answers.request
    if requested ≠ 0 then
      let unmapped := set.1.dma.unmapAll
      let unset := unmapped.1.unsetBuffer
      ({ set.1 with dma := unset.1 }, set.2.1 ++ unmapped.2 ++ unset.2, requested)
    else
      ({ set.1 with dma := { set.1.dma with irq := irq } },
        set.2.1 ++ [.requestIrq irq, .board (.enabled false)], 0)

end Card

/-! ## What the functions do -/

/-- In a ring the 32 bits do not matter. -/
theorem toNat_nextIndex {buffers i : UInt32} (hi : i < buffers) :
    (nextIndex buffers i).toNat = RingIndex.nextPlace buffers.toNat i.toNat := by
  have hlt := UInt32.lt_iff_toNat_lt.mp hi
  have hbuffers := buffers.toNat_lt
  have hone : (1 : UInt32) ≤ buffers :=
    UInt32.le_iff_toNat_le.mpr (Nat.succ_le_of_lt (Nat.zero_lt_of_lt hlt))
  have hlast : i = buffers - 1 ↔ i.toNat = buffers.toNat - 1 := by
    rw [← UInt32.toNat_inj, UInt32.toNat_sub_of_le _ _ hone]
    rfl
  unfold nextIndex RingIndex.nextPlace
  by_cases h : i = buffers - 1
  · rw [if_pos h, if_pos (hlast.mp h)]
    rfl
  · have hne := h ∘ hlast.mpr
    rw [if_neg h, if_neg hne, UInt32.toNat_add]
    exact Nat.mod_eq_of_lt (by change i.toNat + 1 < _; omega)

theorem nextIndex_lt {buffers i : UInt32} (hi : i < buffers) : nextIndex buffers i < buffers := by
  rw [UInt32.lt_iff_toNat_lt, toNat_nextIndex hi]
  exact RingIndex.nextPlace_lt (UInt32.lt_iff_toNat_lt.mp hi)

namespace Region

variable {r : Region} {active : UInt32} {bus : UInt64}

theorem filter_replicate_zero (n : ℕ) : (List.replicate n (0 : UInt64)).filter (· ≠ 0) = [] := by
  rw [List.filter_replicate]
  rfl

theorem unmaps_fresh (addressKernel : Block) (size : UInt32) (addressDma : Block)
    (buffers : UInt32) : (fresh addressKernel size addressDma buffers).unmaps = [] := by
  rw [unmaps, fresh, filter_replicate_zero]
  rfl

/-- After `unmap_all` the entry of the active buffer is the only one that may be mapped. -/
theorem filter_setEntry (hactive : active < r.buffers) :
    (r.cleared.setEntry active bus).entries.filter (· ≠ 0) = if bus = 0 then [] else [bus] := by
  have hlt : active.toNat < (List.replicate r.buffers.toNat (0 : UInt64)).length := by
    rw [List.length_replicate]
    exact UInt32.lt_iff_toNat_lt.mp hactive
  change ((List.replicate r.buffers.toNat 0).set active.toNat bus).filter (· ≠ 0) = _
  rw [List.set_eq_take_append_cons_drop, if_pos hlt, List.take_replicate, List.drop_replicate,
    List.filter_append, List.filter_cons, filter_replicate_zero, filter_replicate_zero]
  by_cases hbus : bus = 0 <;> simp [hbus]

end Region

namespace DmaStruct

variable {s : DmaStruct} {active : UInt32} {bus : UInt64}

/-- The calls of `unset_buffer`. -/
def frees (s : DmaStruct) : List KernelCall :=
  s.region.elim [] fun r ↦ [.kfree r.addressKernel, .kfree r.addressDma]

/-- The calls of `unmap_all`. -/
def unmaps (s : DmaStruct) : List KernelCall := s.region.elim [] Region.unmaps

theorem unsetBuffer_eq (s : DmaStruct) : s.unsetBuffer = ({ s with region := none }, s.frees) := by
  obtain ⟨region, irq, activeWrite, activeRead, dmaSuspended, dmaStarted, handled, suspended⟩ := s
  cases region <;> rfl

theorem unmapAll_eq (s : DmaStruct) :
    s.unmapAll = ({ s with region := s.region.map Region.cleared }, s.unmaps) := by
  obtain ⟨region, irq, activeWrite, activeRead, dmaSuspended, dmaStarted, handled, suspended⟩ := s
  cases region <;> rfl

/-- `unregister_dma` stops DMA and gives back the interrupt, the mapping and the blocks. -/
theorem unregisterDma_calls (s : DmaStruct) :
    s.unregisterDma.2 =
      s.disableDma.2.1 ++ (if 0 ≤ s.irq then [.freeIrq s.irq] else []) ++ s.unmaps ++ s.frees := by
  have hdisabled : s.disableDma.1 = { s with dmaStarted := false } := by
    obtain ⟨region, irq, activeWrite, activeRead, dmaSuspended, dmaStarted, handled, suspended⟩ := s
    cases dmaStarted with
    | false => rfl
    | true => rfl
  have hcleared : (s.region.map Region.cleared).elim []
      (fun r ↦ [.kfree r.addressKernel, .kfree r.addressDma]) = s.frees := by
    unfold frees
    cases s.region <;> rfl
  unfold unregisterDma
  simp only [hdisabled, unmapAll_eq, unsetBuffer_eq]
  rw [← hcleared]
  by_cases hirq : 0 ≤ s.irq
  · simp only [if_pos hirq]
    rfl
  · simp only [if_neg hirq]
    rfl

theorem mapActive_of_lt (s : DmaStruct) (bus : UInt64) {r : Region} (hregion : s.region = some r)
    (hactive : active.toNat < 2 ^ 31 ∧ active < r.buffers) :
    s.mapActive active bus =
      ({ s with region := some (r.cleared.setEntry active bus), activeWrite := active },
        r.unmaps ++ if bus = 0 then [] else
          [.mapSingle r.addressKernel r.addressDma (r.size * active) r.size bus,
            .board (.address active.toNat)],
        if bus = 0 then -eNoMem else 0) := by
  unfold mapActive
  rw [hregion]
  dsimp only
  rw [if_pos hactive]
  split
  · rw [List.append_nil]
  · rfl

theorem mapActive_of_ge (hactive : ¬ (active.toNat < 2 ^ 31 ∧ active < s.buffers)) :
    s.mapActive active bus = (s, [], -eInval) := by
  unfold mapActive
  cases hregion : s.region with
  | none => rfl
  | some r =>
    rw [buffers, hregion] at hactive
    exact if_neg hactive

end DmaStruct

namespace Card

variable {c : Card} {size count : UInt32} {answers : Answers}

/-- `set_buffer` gets both of its blocks. -/
def Allocates (c : Card) (count : UInt32) (answers : Answers) : Prop :=
  c.dma.dmaStarted = false ∧ 2 ≤ count ∧ answers.kernel = true ∧ answers.array = true

instance decidableAllocates (c : Card) (count : UInt32) (answers : Answers) :
    Decidable (c.Allocates count answers) := inferInstanceAs (Decidable (_ ∧ _))

/-- The blocks which `set_buffer` allocates. -/
def newKernel (c : Card) (size count : UInt32) : Block := ⟨c.allocated, (size * count).toNat⟩

def newArray (c : Card) (count : UInt32) : Block := ⟨c.allocated + 1, 8 * count.toNat⟩

/-- The ring which `set_buffer` sets up. -/
def newRegion (c : Card) (size count : UInt32) : Region :=
  .fresh (c.newKernel size count) size (c.newArray count) count

/-- The first calls of `set_buffer` when it gets both blocks. -/
def replaceCalls (c : Card) (size count : UInt32) : List KernelCall :=
  [.kzalloc (c.newKernel size count), .kzalloc (c.newArray count)] ++ c.dma.frees

/-- Without both blocks `set_buffer` leaves the structure as it is and returns an error. -/
theorem setBuffer_of_not_allocates (size : UInt32) (h : ¬ c.Allocates count answers) :
    ∃ allocated calls retval, c.setBuffer size count answers = (⟨c.dma, allocated⟩, calls, retval) ∧
      retval ≠ 0 ∧ (retval = -eBusy ↔ c.dma.dmaStarted = true) ∧ c.allocated ≤ allocated ∧
      (calls = [] ∨
        calls = [.kzalloc (c.newKernel size count), .kfree (c.newKernel size count)]) := by
  have hinval : -eInval ≠ -eBusy := by decide
  have hnoMem : -eNoMem ≠ -eBusy := by decide
  unfold setBuffer
  by_cases hstarted : c.dma.dmaStarted = true
  · rw [if_pos hstarted]
    exact ⟨_, _, _, rfl, by decide, iff_of_true rfl hstarted, le_rfl, .inl rfl⟩
  · rw [if_neg hstarted]
    by_cases hinvalid : size = 0 ∨ count < 2
    · rw [if_pos hinvalid]
      exact ⟨_, _, _, rfl, by decide, iff_of_false hinval hstarted, le_rfl, .inl rfl⟩
    · rw [if_neg hinvalid]
      cases hkernel : answers.kernel with
      | false => exact ⟨_, _, _, rfl, by decide, iff_of_false hnoMem hstarted, le_rfl, .inl rfl⟩
      | true =>
        cases harray : answers.array with
        | false =>
          exact ⟨_, _, _, rfl, by decide, iff_of_false hnoMem hstarted, Nat.le_succ _, .inr rfl⟩
        | true =>
          have hcount : 2 ≤ count := UInt32.not_lt.mp fun hlt ↦ hinvalid (.inr hlt)
          exact absurd ⟨Bool.eq_false_iff.mpr hstarted, hcount, hkernel, harray⟩ h

/-- With both blocks `set_buffer` frees the old ring, whatever the mapping of the new one gives. -/
theorem setBuffer_of_allocates (hsize : size ≠ 0) (h : c.Allocates count answers) :
    c.setBuffer size count answers =
      if answers.bus = 0 then
        (⟨{ c.dma with region := none, activeWrite := 0 }, c.allocated + 2⟩,
          c.replaceCalls size count ++
            [.kfree (c.newKernel size count), .kfree (c.newArray count)], -eNoMem)
      else
        (⟨{ c.dma with
              region := some ((c.newRegion size count).setEntry 0 answers.bus)
              activeWrite := 0 }, c.allocated + 2⟩,
          c.replaceCalls size count ++
            [.mapSingle (c.newKernel size count) (c.newArray count) 0 size answers.bus,
              .board (.address 0)], 0) := by
  obtain ⟨hstarted, hcount, hkernel, harray⟩ := h
  have hvalid : ¬ (size = 0 ∨ count < 2) := by
    rintro (hzero | hlt)
    · exact hsize hzero
    · exact UInt32.not_lt.mpr hcount hlt
  have hactive : (0 : UInt32).toNat < 2 ^ 31 ∧ 0 < (c.newRegion size count).buffers :=
    ⟨by decide, UInt32.lt_of_lt_of_le (by decide) hcount⟩
  have hmapped := DmaStruct.mapActive_of_lt { c.dma with region := some (c.newRegion size count) }
    answers.bus rfl hactive
  have hunmaps : (c.newRegion size count).unmaps = [] := Region.unmaps_fresh ..
  unfold setBuffer
  rw [hstarted, hkernel, harray, if_neg hvalid]
  simp only [Bool.false_eq_true, if_false, Bool.not_true, DmaStruct.unsetBuffer_eq]
  unfold newRegion newKernel newArray at hmapped hunmaps
  rw [hmapped, hunmaps]
  by_cases hbus : answers.bus = 0
  · have hfails : -eNoMem ≠ 0 := by decide
    simp only [if_pos hbus, if_pos hfails, List.append_nil]
    rfl
  · have hdone : ¬ ((0 : ℤ) ≠ 0) := not_not.mpr rfl
    simp only [if_neg hbus, if_neg hdone, List.nil_append]
    rfl

theorem setBuffer_done_iff (hsize : size ≠ 0) :
    (c.setBuffer size count answers).2.2 = 0 ↔ c.Allocates count answers ∧ answers.bus ≠ 0 := by
  by_cases hallocates : c.Allocates count answers
  · rw [setBuffer_of_allocates hsize hallocates]
    by_cases hbus : answers.bus = 0
    · have hfails : -eNoMem ≠ 0 := by decide
      rw [if_pos hbus]
      exact iff_of_false hfails fun h ↦ h.2 hbus
    · rw [if_neg hbus]
      exact iff_of_true rfl ⟨hallocates, hbus⟩
  · obtain ⟨_, _, _, heq, hretval, _⟩ := setBuffer_of_not_allocates size hallocates
    rw [heq]
    exact iff_of_false hretval fun h ↦ hallocates h.1

theorem setBuffer_busy_iff (hsize : size ≠ 0) :
    (c.setBuffer size count answers).2.2 = -eBusy ↔ c.dma.dmaStarted = true := by
  by_cases hallocates : c.Allocates count answers
  · have hnoMem : -eNoMem ≠ -eBusy := by decide
    have hzero : 0 ≠ -eBusy := by decide
    rw [setBuffer_of_allocates hsize hallocates, hallocates.1]
    split
    · exact iff_of_false hnoMem Bool.false_ne_true
    · exact iff_of_false hzero Bool.false_ne_true
  · obtain ⟨_, _, _, heq, _, hbusy, _⟩ := setBuffer_of_not_allocates size hallocates
    rw [heq]
    exact hbusy

/-- The part of `register_dma` that gets the ring. -/
def registerSet (c : Card) (answers : Answers) : Card × List KernelCall × ℤ :=
  { c with dma.irq := -1 }.setBuffer bufferMinSize anbBuffers answers

theorem registerSet_done_iff :
    (c.registerSet answers).2.2 = 0 ↔ c.Allocates anbBuffers answers ∧ answers.bus ≠ 0 :=
  setBuffer_done_iff (by decide)

/-- `register_dma` gives up where `set_buffer` does. -/
theorem registerDma_of_refused {line : UInt32} (h : (c.registerSet answers).2.2 ≠ 0) :
    c.registerDma line answers = c.registerSet answers := if_pos h

/-- The ring of a device whose interrupt line is refused is unmapped and freed. -/
theorem registerDma_of_set {line : UInt32} (h : (c.registerSet answers).2.2 = 0) :
    c.registerDma line answers =
      let set := c.registerSet answers
      let irq := line.toUInt8.toInt8
      let requested := requestIrq irq answers.request
      if requested ≠ 0 then
        ({ set.1 with dma := set.1.dma.unmapAll.1.unsetBuffer.1 },
          set.2.1 ++ set.1.dma.unmapAll.2 ++ set.1.dma.unmapAll.1.unsetBuffer.2, requested)
      else
        ({ set.1 with dma.irq := irq },
          set.2.1 ++ [.requestIrq irq, .board (.enabled false)], 0) := if_neg (not_not.mpr h)

/-- What a successful `register_dma` leaves behind. -/
theorem registerDma_of_done {line : UInt32} (h : (c.registerDma line answers).2.2 = 0) :
    (c.registerDma line answers).1 =
      ⟨{ c.dma with
          region := some ((c.newRegion bufferMinSize anbBuffers).setEntry 0 answers.bus)
          irq := line.toUInt8.toInt8
          activeWrite := 0 }, c.allocated + 2⟩ := by
  by_cases hset : (c.registerSet answers).2.2 = 0
  · have hset' := registerSet_done_iff.mp hset
    have hset'' : c.registerSet answers = _ :=
      setBuffer_of_allocates (c := { c with dma.irq := -1 }) (by decide) hset'.1
    rw [registerDma_of_set hset] at h ⊢
    dsimp only at h ⊢
    split at h
    · rename_i hrequested
      exact absurd h hrequested
    · rename_i hrequested
      rw [if_neg hrequested, hset'', if_neg hset'.2]
      rfl
  · rw [registerDma_of_refused hset] at h
    exact absurd h hset

end Card

/-! ## The length of the region -/

/-- The region has all bytes of its buffers, and what `map_active` maps for an index lies in it. -/
structure Region.InBounds (r : Region) : Prop where
  length_le : r.size.toNat * r.buffers.toNat ≤ r.addressKernel.length
  offset_eq : ∀ active, active < r.buffers →
    (r.size * active).toNat = r.size.toNat * active.toNat
  window_le : ∀ active, active < r.buffers →
    r.size.toNat * (active.toNat + 1) ≤ r.addressKernel.length

/-- The product is computed in 32 bits, so the region is long enough if it does not wrap. -/
theorem Region.inBounds_iff {r : Region}
    (hlength : r.addressKernel.length = (r.size * r.buffers).toNat) :
    r.InBounds ↔ r.size.toNat * r.buffers.toNat < 2 ^ 32 := by
  have hproduct : (r.size * r.buffers).toNat = r.size.toNat * r.buffers.toNat % 2 ^ 32 :=
    UInt32.toNat_mul ..
  constructor
  · intro h
    have hle := h.length_le
    rw [hlength, hproduct] at hle
    exact lt_of_le_of_lt hle (Nat.mod_lt _ (by decide))
  · intro hfits
    rw [Nat.mod_eq_of_lt hfits] at hproduct
    have hwindow {active : UInt32} (hactive : active < r.buffers) :
        r.size.toNat * (active.toNat + 1) ≤ r.size.toNat * r.buffers.toNat :=
      Nat.mul_le_mul_left _ (UInt32.lt_iff_toNat_lt.mp hactive)
    refine ⟨(hlength.trans hproduct).ge, fun active hactive ↦ ?_, fun active hactive ↦ ?_⟩
    · have hle := hwindow hactive
      rw [UInt32.toNat_mul]
      exact Nat.mod_eq_of_lt (by rw [Nat.mul_succ] at hle; omega)
    · exact (hwindow hactive).trans (hlength.trans hproduct).ge

theorem Card.newRegion_inBounds_iff (c : Card) (count : UInt32) (bus : UInt64) :
    ((c.newRegion bufferMinSize count).setEntry 0 bus).InBounds ↔ count < 65536 := by
  have hfits : bufferMinSize.toNat * count.toNat < 2 ^ 32 ↔ count < 65536 := by
    rw [UInt32.lt_iff_toNat_lt, show bufferMinSize.toNat = 65536 from rfl]
    change _ ↔ count.toNat < 65536
    omega
  exact (Region.inBounds_iff rfl).trans hfits

/-- A ring that `DMASetBufferSize` sets up lies in its allocation, if and only if the count does not
make the product of the lengths wrap. -/
theorem changeBuffer_inBounds_iff (c : Card) (count : UInt32) (answers : Answers) :
    ((c.changeBuffer count answers).2.2 = 0 →
      ∃ r, (c.changeBuffer count answers).1.dma.region = some r ∧ r.InBounds) ↔
      c.dma.dmaStarted = true ∨ answers.kernel = false ∨ answers.array = false ∨ answers.bus = 0 ∨
        count < 65536 := by
  have hsize : bufferMinSize ≠ 0 := by decide
  by_cases hallocates : c.Allocates count answers
  · obtain ⟨hstarted, _, hkernel, harray⟩ := id hallocates
    rw [Card.changeBuffer, Card.setBuffer_of_allocates hsize hallocates, hstarted, hkernel, harray]
    by_cases hbus : answers.bus = 0
    · rw [if_pos hbus]
      have hfails : -eNoMem ≠ 0 := by decide
      exact iff_of_true (fun hdone ↦ absurd hdone hfails) (by simp [hbus])
    · rw [if_neg hbus]
      simp [hbus, c.newRegion_inBounds_iff]
  · obtain ⟨allocated, calls, retval, heq, hretval, _⟩ :=
      Card.setBuffer_of_not_allocates bufferMinSize hallocates
    rw [Card.changeBuffer, heq]
    refine iff_of_true (fun hdone ↦ absurd hdone hretval) ?_
    by_contra hnone
    simp only [not_or, Bool.not_eq_true, Bool.not_eq_false, UInt32.not_lt] at hnone
    obtain ⟨hstarted, hkernel, harray, _, hcount⟩ := hnone
    exact hallocates ⟨hstarted, UInt32.le_trans (by decide) hcount, hkernel, harray⟩

/-- With 65536 buffers the product is zero and the region has no byte. -/
theorem changeBuffer_not_inBounds :
    ¬ ∀ (c : Card) (count : UInt32) (answers : Answers),
      (c.changeBuffer count answers).2.2 = 0 →
        ∃ r, (c.changeBuffer count answers).1.dma.region = some r ∧ r.InBounds := by
  intro hall
  let c : Card := ⟨.zeroed, 0⟩
  have hallocates : c.Allocates 65536 ⟨true, true, 4096, 0⟩ := by decide
  have hbounds := hall c 65536 ⟨true, true, 4096, 0⟩
  rw [Card.changeBuffer, Card.setBuffer_of_allocates (by decide) hallocates,
    if_neg (by decide)] at hbounds
  obtain ⟨r, hregion, hr⟩ := hbounds rfl
  obtain rfl := Option.some.inj hregion
  exact absurd ((c.newRegion_inBounds_iff 65536 4096).mp hr) (by decide)

/-! ## The ring of indices

Where the bus addresses can be had and an `int` holds the indices, the structure without its
addresses is the ring of `Dma`. -/

/-- What the calls do to the board. -/
def boardEffects (calls : List KernelCall) : List Effect :=
  calls.filterMap fun
    | .board effect => some effect
    | _ => none

theorem boardEffects_append (first second : List KernelCall) :
    boardEffects (first ++ second) = boardEffects first ++ boardEffects second :=
  List.filterMap_append

theorem Region.boardEffects_unmaps (r : Region) : boardEffects r.unmaps = [] := by
  rw [boardEffects, unmaps, List.filterMap_map]
  exact List.filterMap_eq_nil_iff.mpr fun _ _ ↦ rfl

namespace DmaStruct

variable {s : DmaStruct} {active : UInt32} {bus : UInt64}

/-- The structure without the addresses. -/
def toDma (s : DmaStruct) : Dma :=
  ⟨s.buffers.toNat, s.activeWrite.toNat, s.activeRead.toNat, s.dmaSuspended, s.dmaStarted,
    s.handled, s.suspended⟩

theorem toDma_mapActive (s : DmaStruct) (hactive : active.toNat < 2 ^ 31) (hbus : bus ≠ 0) :
    (s.mapActive active bus).1.toDma = (AnB.mapActive s.toDma active.toNat).1 ∧
      boardEffects (s.mapActive active bus).2.1 = (AnB.mapActive s.toDma active.toNat).2 := by
  have hbuffers : active < s.buffers ↔ active.toNat < s.toDma.buffers := UInt32.lt_iff_toNat_lt
  unfold AnB.mapActive
  by_cases hin : active < s.buffers
  · rw [if_pos (hbuffers.mp hin)]
    cases hregion : s.region with
    | none =>
      rw [buffers, hregion] at hin
      exact absurd hin UInt32.not_lt_zero
    | some r =>
      have hsame : s.buffers = r.buffers := by
        rw [buffers, hregion]
        rfl
      rw [mapActive_of_lt s bus hregion ⟨hactive, hsame ▸ hin⟩, if_neg hbus, boardEffects_append,
        r.boardEffects_unmaps]
      refine ⟨?_, rfl⟩
      unfold toDma
      rw [hsame]
      rfl
  · rw [if_neg (hin ∘ hbuffers.mpr), mapActive_of_ge fun hboth ↦ hin hboth.2]
    exact ⟨rfl, rfl⟩

/-- A completion of the active buffer. -/
theorem deviceHandler_of_started (hstarted : s.dmaStarted = true) (hactive : s.dmaSuspended = false)
    (bus : UInt64) :
    s.deviceHandler true true bus =
      let s := { s with
        handled := s.handled + 1
        activeWrite := nextIndex s.buffers s.activeWrite }
      if s.activeWrite = s.activeRead then ({ s with dmaSuspended := true }, [])
      else
        let mapped := s.mapActive s.activeWrite bus
        (mapped.1, mapped.2.1 ++
          [.board .irq, .board (.enabled false), .board (.enabled true), .board .wakeUp]) := by
  unfold deviceHandler
  simp only [hstarted, hactive, Bool.and_self, Bool.not_false, if_true]
  rfl

/-- The ring is full: the handler suspends DMA. -/
theorem toDma_deviceHandler_of_last (hwrite : s.activeWrite < s.buffers)
    (hstarted : s.dmaStarted = true) (hactive : s.dmaSuspended = false)
    (hlast : nextIndex s.buffers s.activeWrite = s.activeRead) (bus : UInt64) :
    (s.deviceHandler true true bus).1.toDma = (AnB.deviceHandler s.toDma true).1 ∧
      boardEffects (s.deviceHandler true true bus).2 = (AnB.deviceHandler s.toDma true).2 := by
  have hnext := toNat_nextIndex hwrite
  have hlast' : RingIndex.nextPlace s.toDma.buffers s.toDma.activeWrite = s.toDma.activeRead :=
    hnext.symm.trans (congrArg UInt32.toNat hlast)
  rw [deviceHandler_of_started hstarted hactive]
  dsimp only
  rw [if_pos hlast, AnB.deviceHandler_of_last (s := s.toDma) hstarted hactive hlast']
  refine ⟨?_, rfl⟩
  rw [toDma, hnext]
  rfl

/-- There is a free buffer: the handler maps it. -/
theorem toDma_deviceHandler_of_free (hwrite : s.activeWrite < s.buffers)
    (hbuffers : s.buffers.toNat ≤ 2 ^ 31) (hbus : bus ≠ 0) (hstarted : s.dmaStarted = true)
    (hactive : s.dmaSuspended = false)
    (hfree : nextIndex s.buffers s.activeWrite ≠ s.activeRead) :
    (s.deviceHandler true true bus).1.toDma = (AnB.deviceHandler s.toDma true).1 ∧
      boardEffects (s.deviceHandler true true bus).2 = (AnB.deviceHandler s.toDma true).2 := by
  have hnext := toNat_nextIndex hwrite
  have hlt := UInt32.lt_iff_toNat_lt.mp (nextIndex_lt hwrite)
  have hfree' : RingIndex.nextPlace s.toDma.buffers s.toDma.activeWrite ≠ s.toDma.activeRead :=
    fun heq ↦ hfree (UInt32.toNat_inj.mp (hnext.trans heq))
  have hplace : RingIndex.nextPlace s.toDma.buffers s.toDma.activeWrite < s.toDma.buffers :=
    hnext ▸ hlt
  have hmapped := toDma_mapActive
    { s with handled := s.handled + 1, activeWrite := nextIndex s.buffers s.activeWrite }
    (hlt.trans_le hbuffers) hbus
  have hspec : AnB.mapActive
      { s with
        handled := s.handled + 1
        activeWrite := nextIndex s.buffers s.activeWrite }.toDma
      (nextIndex s.buffers s.activeWrite).toNat = _ := if_pos hlt
  rw [hspec] at hmapped
  rw [deviceHandler_of_started hstarted hactive]
  dsimp only
  rw [if_neg hfree, AnB.deviceHandler_of_free (s := s.toDma) hstarted hactive hplace hfree']
  refine ⟨hmapped.1.trans ?_, ?_⟩
  · rw [hnext]
    rfl
  · rw [boardEffects_append, hmapped.2, hnext]
    rfl

theorem toDma_deviceHandler (hwrite : s.activeWrite < s.buffers)
    (hbuffers : s.buffers.toNat ≤ 2 ^ 31) (dma : Bool) (hbus : bus ≠ 0) :
    (s.deviceHandler true dma bus).1.toDma = (AnB.deviceHandler s.toDma dma).1 ∧
      boardEffects (s.deviceHandler true dma bus).2 = (AnB.deviceHandler s.toDma dma).2 := by
  cases hdma : dma && s.dmaStarted with
  | false =>
    have hsame : s.deviceHandler true dma bus = (s, []) := by
      rw [deviceHandler, Bool.true_and, hdma]
      rfl
    rw [hsame, AnB.deviceHandler_of_ignored (s := s.toDma) hdma]
    exact ⟨rfl, rfl⟩
  | true =>
    obtain ⟨rfl, hstarted⟩ := Bool.and_eq_true_iff.mp hdma
    cases hactive : s.dmaSuspended with
    | true =>
      have hactive' : s.toDma.dmaSuspended = true := hactive
      have hstarted' : s.toDma.dmaStarted = true := hstarted
      simp only [deviceHandler, AnB.deviceHandler, hstarted, hstarted', hactive, hactive',
        Bool.and_self, Bool.not_true, if_true, Bool.false_eq_true, if_false]
      exact ⟨rfl, rfl⟩
    | false =>
      by_cases hlast : nextIndex s.buffers s.activeWrite = s.activeRead
      · exact toDma_deviceHandler_of_last hwrite hstarted hactive hlast bus
      · exact toDma_deviceHandler_of_free hwrite hbuffers hbus hstarted hactive hlast

theorem toDma_enableDma (s : DmaStruct) (hbus : bus ≠ 0) :
    AnB.enableDma s.toDma =
      if (s.enableDma bus).2.2 = 0 then
        some ((s.enableDma bus).1.toDma, boardEffects (s.enableDma bus).2.1)
      else none := by
  unfold enableDma AnB.enableDma
  by_cases hstarted : s.dmaStarted = true
  · have hstarted' : s.toDma.dmaStarted = true := hstarted
    have hinval : -eInval ≠ 0 := by decide
    rw [if_pos hstarted', if_pos hstarted, if_neg hinval]
  · have hstarted' : ¬ s.toDma.dmaStarted = true := hstarted
    have hfirst : (0 : UInt32).toNat < 2 ^ 31 := by decide
    obtain ⟨hring, hboard⟩ := toDma_mapActive { s with activeRead := 0 } hfirst hbus
    have hspec : AnB.mapActive { s with activeRead := 0 }.toDma (0 : UInt32).toNat =
        AnB.mapActive { s.toDma with activeRead := 0 } 0 := rfl
    rw [hspec] at hring hboard
    rw [if_neg hstarted', if_neg hstarted, if_pos rfl]
    dsimp only
    rw [boardEffects_append, boardEffects_append, hboard, ← hring]
    rfl

theorem toDma_disableDma (s : DmaStruct) :
    AnB.disableDma s.toDma =
      if s.disableDma.2.2 = 0 then some (s.disableDma.1.toDma, boardEffects s.disableDma.2.1)
      else none := by
  unfold disableDma AnB.disableDma
  cases hstarted : s.dmaStarted with
  | true =>
    have hstarted' : s.toDma.dmaStarted = true := hstarted
    rw [hstarted']
    rfl
  | false =>
    have hstarted' : s.toDma.dmaStarted = false := hstarted
    rw [hstarted']
    rfl

theorem toDma_rollBuffer (hread : s.activeRead < s.buffers) :
    s.rollBuffer.toDma = AnB.rollBuffer s.toDma := by
  unfold rollBuffer AnB.rollBuffer toDma
  rw [toNat_nextIndex hread]
  rfl

end DmaStruct

end QNet.AnB
