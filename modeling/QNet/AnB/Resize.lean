import QNet.AnB.Buffers

/-!
# Another number of DMA buffers

`DMASetBufferSize` replaces the ring of a registered device. It sets `active_write` and leaves
`active_read`, which may lie behind the end of a smaller ring, and after a failed mapping there is
no ring at all: `indices_inRange_iff` says when the indices stay in the ring.

A process may map the buffers into its memory. `map_ref` refers to the last mapping that was made,
and `DMASetBufferSize` forgets the `-EBUSY` it has prepared for this case: `guarded_iff` says that
the mapped buffers are safe if and only if the number of buffers is not set while there is a
mapping, unless DMA is started.
-/

namespace QNet.AnB

inductive RingEvent
  | enable (bus : UInt64)
  | disable
  | setBufferSize (count : UInt32) (answers : Answers)
  | rollCheck
  | rollAdvance
  | interrupt (found dma : Bool) (bus : UInt64)
  deriving DecidableEq

/-- A device, and whether a call of `DMARollBuffer` is behind its loop. -/
structure Ring where
  card : Card
  rolling : Bool
  deriving DecidableEq

namespace Ring

/-- One event, the calls of the driver, and what the `ioctl` returns. A call that waits, for the
semaphore or for a buffer, changes nothing and does not return. -/
def step (s : Ring) : RingEvent → Ring × List KernelCall × Option ℤ
  | .enable bus =>
      if s.rolling then (s, [], none)
      else
        let enabled := s.card.dma.enableDma bus
        ({ s with card.dma := enabled.1 }, enabled.2.1, some enabled.2.2)
  | .disable =>
      if s.rolling then (s, [], none)
      else
        let disabled := s.card.dma.disableDma
        ({ s with card.dma := disabled.1 }, disabled.2.1, some disabled.2.2)
  | .setBufferSize count answers =>
      if s.rolling then (s, [], none)
      else
        -- `-EBUSY` for a mapped buffer is overwritten by the result of `change_buffer`
        let changed := s.card.changeBuffer count answers
        ({ s with card := changed.1 }, changed.2.1, some changed.2.2)
  | .rollCheck =>
      if s.rolling || s.card.dma.rollWaits then (s, [], none)
      else ({ s with rolling := true }, [], none)
  | .rollAdvance =>
      if s.rolling then
        ({ card := { s.card with dma := s.card.dma.rollBuffer }, rolling := false }, [], some 0)
      else (s, [], none)
  | .interrupt found dma bus =>
      let handled := s.card.dma.deviceHandler found dma bus
      ({ s with card.dma := handled.1 }, handled.2, none)

def next (s : Ring) (e : RingEvent) : Ring := (s.step e).1

end Ring

/-! ## The indices -/

structure DmaStruct.InRange (s : DmaStruct) : Prop where
  read_lt : s.activeRead < s.buffers
  write_lt : s.activeWrite < s.buffers

/-- A new ring has a place `active_read`, and its first buffer can be mapped. -/
def Ring.Fits (s : Ring) : RingEvent → Prop
  | .setBufferSize count answers => s.rolling = false → s.card.Allocates count answers →
      answers.bus ≠ 0 ∧ s.card.dma.activeRead < count
  | _ => True

instance (s : Ring) : DecidablePred s.Fits
  | .setBufferSize count answers =>
      inferInstanceAs (Decidable (s.rolling = false → s.card.Allocates count answers →
        answers.bus ≠ 0 ∧ s.card.dma.activeRead < count))
  | .enable _ | .disable | .rollCheck | .rollAdvance | .interrupt _ _ _ =>
      inferInstanceAs (Decidable True)

namespace DmaStruct

variable {s : DmaStruct}

theorem inRange_mapActive (h : s.InRange) {active : UInt32} (hactive : active < s.buffers)
    (bus : UInt64) : (s.mapActive active bus).1.InRange := by
  by_cases hin : active.toNat < 2 ^ 31 ∧ active < s.buffers
  · cases hregion : s.region with
    | none =>
      rw [buffers, hregion] at hactive
      exact absurd hactive UInt32.not_lt_zero
    | some r =>
      have hbuffers : s.buffers = r.buffers := by
        rw [buffers, hregion]
        rfl
      rw [mapActive_of_lt s bus hregion (hbuffers ▸ hin)]
      have hread := h.read_lt
      rw [hbuffers] at hread hactive
      exact ⟨hread, hactive⟩
  · rw [mapActive_of_ge hin]
    exact h

theorem inRange_deviceHandler (h : s.InRange) (found dma : Bool) (bus : UInt64) :
    (s.deviceHandler found dma bus).1.InRange := by
  have hnext : nextIndex s.buffers s.activeWrite < s.buffers := nextIndex_lt h.write_lt
  unfold deviceHandler
  split
  · dsimp only
    split
    · split
      · exact ⟨h.read_lt, hnext⟩
      · refine inRange_mapActive ?_ ?_ bus
        · exact ⟨h.read_lt, hnext⟩
        · exact hnext
    · exact ⟨h.read_lt, h.write_lt⟩
  · exact h

theorem inRange_enableDma (h : s.InRange) (bus : UInt64) : (s.enableDma bus).1.InRange := by
  have hpos : 0 < s.buffers := UInt32.lt_of_le_of_lt UInt32.zero_le h.read_lt
  unfold enableDma
  split
  · exact h
  · have hmapped := inRange_mapActive (s := { s with activeRead := 0 }) ⟨hpos, h.write_lt⟩ hpos bus
    exact ⟨hmapped.read_lt, hmapped.write_lt⟩

theorem inRange_disableDma (h : s.InRange) : s.disableDma.1.InRange := by
  unfold disableDma
  split
  · exact h
  · exact ⟨h.read_lt, h.write_lt⟩

theorem inRange_rollBuffer (h : s.InRange) : s.rollBuffer.InRange :=
  ⟨nextIndex_lt h.read_lt, h.write_lt⟩

end DmaStruct

/-- A new number of buffers leaves the indices in the ring only if `active_read` is in it. -/
theorem Card.inRange_changeBuffer_iff {c : Card} (h : c.dma.InRange) (count : UInt32)
    (answers : Answers) :
    (c.changeBuffer count answers).1.dma.InRange ↔
      (c.Allocates count answers → answers.bus ≠ 0 ∧ c.dma.activeRead < count) := by
  by_cases hallocates : c.Allocates count answers
  · rw [changeBuffer, setBuffer_of_allocates (by decide) hallocates]
    have hpos : 0 < count := UInt32.lt_of_lt_of_le (by decide) hallocates.2.1
    by_cases hbus : answers.bus = 0
    · rw [if_pos hbus]
      exact iff_of_false (fun hin ↦ UInt32.not_lt_zero hin.read_lt) fun hall ↦
        (hall hallocates).1 hbus
    · rw [if_neg hbus]
      exact ⟨fun hin _ ↦ ⟨hbus, hin.read_lt⟩, fun hall ↦ ⟨(hall hallocates).2, hpos⟩⟩
  · obtain ⟨_, _, _, heq, _⟩ := setBuffer_of_not_allocates bufferMinSize hallocates
    rw [changeBuffer, heq]
    exact iff_of_true h fun hnew ↦ absurd hnew hallocates

namespace Ring

variable {s : Ring}

/-- What an event does to the structure and the calls it makes, if it does not set the number of
buffers: those of one function of the driver, or nothing. -/
theorem step_cases {P : DmaStruct → List KernelCall → Prop} (s : Ring) {e : RingEvent}
    (he : ∀ count answers, e ≠ .setBufferSize count answers) (hsame : P s.card.dma [])
    (henable : ∀ bus, P (s.card.dma.enableDma bus).1 (s.card.dma.enableDma bus).2.1)
    (hdisable : P s.card.dma.disableDma.1 s.card.dma.disableDma.2.1)
    (hroll : P s.card.dma.rollBuffer [])
    (hinterrupt : ∀ found dma bus, P (s.card.dma.deviceHandler found dma bus).1
      (s.card.dma.deviceHandler found dma bus).2) :
    P (s.step e).1.card.dma (s.step e).2.1 := by
  cases e with
  | enable bus =>
    by_cases hrolling : s.rolling = true
    · rw [step, if_pos hrolling]
      exact hsame
    · rw [step, if_neg hrolling]
      exact henable bus
  | disable =>
    by_cases hrolling : s.rolling = true
    · rw [step, if_pos hrolling]
      exact hsame
    · rw [step, if_neg hrolling]
      exact hdisable
  | setBufferSize count answers => exact absurd rfl (he count answers)
  | rollCheck =>
    by_cases hwaits : (s.rolling || s.card.dma.rollWaits) = true
    · rw [step, if_pos hwaits]
      exact hsame
    · rw [step, if_neg hwaits]
      exact hsame
  | rollAdvance =>
    by_cases hrolling : s.rolling = true
    · rw [step, if_pos hrolling]
      exact hroll
    · rw [step, if_neg hrolling]
      exact hsame
  | interrupt found dma bus => exact hinterrupt found dma bus

theorem inRange_next_iff (h : s.card.dma.InRange) (e : RingEvent) :
    (s.next e).card.dma.InRange ↔ s.Fits e := by
  have hother (he : ∀ count answers, e ≠ .setBufferSize count answers) :
      (s.next e).card.dma.InRange :=
    s.step_cases (P := fun dma _ ↦ dma.InRange) he h (DmaStruct.inRange_enableDma h)
      (DmaStruct.inRange_disableDma h) (DmaStruct.inRange_rollBuffer h)
      (DmaStruct.inRange_deviceHandler h)
  cases e with
  | enable bus => exact iff_of_true (hother (by simp)) trivial
  | disable => exact iff_of_true (hother (by simp)) trivial
  | setBufferSize count answers =>
    unfold next step
    dsimp only
    split
    · rename_i hrolling
      exact iff_of_true h fun hidle ↦ absurd (hrolling.symm.trans hidle) (by decide)
    · rename_i hrolling
      have hidle := Bool.eq_false_iff.mpr hrolling
      exact (Card.inRange_changeBuffer_iff h count answers).trans
        ⟨fun hall _ ↦ hall, fun hall ↦ hall hidle⟩
  | rollCheck => exact iff_of_true (hother (by simp)) trivial
  | rollAdvance => exact iff_of_true (hother (by simp)) trivial
  | interrupt found dma bus => exact iff_of_true (hother (by simp)) trivial

/-- The device after `register_dma`. -/
def registered (line : UInt32) (answers : Answers) : Ring :=
  ⟨(Card.registerDma ⟨.zeroed, 0⟩ line answers).1, false⟩

theorem inRange_registered {line : UInt32} {answers : Answers}
    (h : (Card.registerDma ⟨.zeroed, 0⟩ line answers).2.2 = 0) :
    (registered line answers).card.dma.InRange := by
  rw [registered, Card.registerDma_of_done h]
  have hpos : 0 < anbBuffers := by decide
  exact ⟨hpos, hpos⟩

/-- The indices stay in the ring if and only if every new ring can be mapped and has the place
`active_read`. -/
theorem indices_inRange_iff (line : UInt32) (answers : Answers)
    (hregister : (Card.registerDma ⟨.zeroed, 0⟩ line answers).2.2 = 0) (events : List RingEvent) :
    (∀ before, before <+: events →
      (before.foldl next (registered line answers)).card.dma.InRange) ↔
      ∀ before e, before ++ [e] <+: events → (before.foldl next (registered line answers)).Fits e :=
  foldl_invariant_iff (P := fun s : Ring ↦ s.card.dma.InRange) (inRange_registered hregister)
    fun _ hs e _ ↦ inRange_next_iff hs e

/-- What the kernel answers when everything succeeds. -/
def granted : Answers := ⟨true, true, 4096, 0⟩

/-- An interrupt, and the buffer is taken. -/
def turn : List RingEvent := [.interrupt true true 4096, .rollCheck, .rollAdvance]

/-- Three buffers have been filled and taken when DMA is stopped. -/
def takesThree : List RingEvent := .enable 4096 :: (turn ++ turn ++ turn) ++ [.disable]

/-- Then a ring of four buffers has the place `active_read`. -/
theorem indices_inRange_iff_registered :
    (takesThree.foldl next (registered 16 granted)).card.dma.activeRead = 3 ∧
      ∀ before, before <+: takesThree ++ [.setBufferSize 4 granted] →
        (before.foldl next (registered 16 granted)).card.dma.InRange :=
  ⟨by decide, (indices_inRange_iff 16 granted (by decide) _).mpr
    (foldl_steps_of_meets (by decide))⟩

/-- A ring of two buffers does not have it. -/
theorem not_inRange_smaller :
    ¬ ∀ events before, before <+: events →
      (before.foldl next (registered 16 granted)).card.dma.InRange := by
  intro hall
  let events : List RingEvent := takesThree ++ [.setBufferSize 2 granted]
  have hin := hall events events (List.prefix_refl _)
  exact absurd hin.read_lt (by decide)

end Ring

/-! ## The buffers in the memory of a process -/

/-- An area of a process that shows the buffers. -/
structure Vma where
  id : ℕ
  block : Block
  deriving DecidableEq

/-- A device with the areas of all processes; `mapRef` is `map_ref` of `struct file_entry`. -/
structure MappedDevice where
  ring : Ring
  mapRef : Option ℕ
  vmas : List Vma
  deriving DecidableEq

inductive MapEvent
  /-- `mmap`: whether a signal arrives at the semaphore, and whether `virt_addr_valid`,
  `virt_to_page` and `remap_pfn_range` succeed. -/
  | mmap (id : ℕ) (signal valid page remap : Bool)
  /-- The area goes away, and `map_close` is called for it. -/
  | mapClose (id : ℕ)
  | ioctl (signal : Bool) (e : RingEvent)
  deriving DecidableEq

def eIo : ℤ := 5
def eAgain : ℤ := 11
def eRestartSys : ℤ := 512

namespace MappedDevice

/-- `mmap`. An address of zero is not valid. -/
def mmap (s : MappedDevice) (id : ℕ) (valid page remap : Bool) : MappedDevice × ℤ :=
  if s.ring.card.dma.dmaStarted then (s, -eBusy)
  else
    match s.ring.card.dma.region with
    | none => (s, -eIo)
    | some r =>
        if !valid then (s, -eIo)
        else if !page then (s, -eIo)
        else if !remap then (s, -eAgain)
        else ({ s with mapRef := some id, vmas := ⟨id, r.addressKernel⟩ :: s.vmas }, 0)

/-- `map_close` finds the device by its `map_ref`. -/
def mapClose (s : MappedDevice) (id : ℕ) : MappedDevice :=
  { s with
    mapRef := if s.mapRef = some id then none else s.mapRef
    vmas := s.vmas.filter (·.id ≠ id) }

/-- The calls which begin with the semaphore. -/
def acquires : RingEvent → Bool
  | .rollAdvance => false
  | .interrupt _ _ _ => false
  | _ => true

/-- One event, the calls of the driver, and what the system call returns. An area is mapped only
once. -/
def step (s : MappedDevice) : MapEvent → MappedDevice × List KernelCall × Option ℤ
  | .mmap id signal valid page remap =>
      if s.ring.rolling || s.vmas.any (·.id = id) then (s, [], none)
      else if signal then (s, [], some (-eRestartSys))
      else
        let mapped := s.mmap id valid page remap
        (mapped.1, [], some mapped.2)
  | .mapClose id => (s.mapClose id, [], none)
  | .ioctl signal e =>
      if acquires e && s.ring.rolling then (s, [], none)
      else if acquires e && signal then (s, [], some (-eRestartSys))
      else
        let stepped := s.ring.step e
        ({ s with ring := stepped.1 }, stepped.2)

def next (s : MappedDevice) (e : MapEvent) : MappedDevice := (s.step e).1

end MappedDevice

/-- What the areas of the processes rely on. -/
structure Guarded (s : MappedDevice) (e : MapEvent) : Prop where
  busy : ∀ signal count answers retval, e = .ioctl signal (.setBufferSize count answers) →
    s.vmas ≠ [] → (s.step e).2.2 = some retval →
      retval = -eBusy ∧ (s.next e).ring.card.dma.region = s.ring.card.dma.region
  unfreed : ∀ v ∈ s.vmas, .kfree v.block ∉ (s.step e).2.1
  /-- The areas show the buffers of the ring. -/
  shown : ∀ v ∈ (s.next e).vmas,
    (s.next e).ring.card.dma.region.map Region.addressKernel = some v.block

/-- The number of buffers is not set while there is a mapping, unless DMA is started and the call is
not interrupted at the semaphore. -/
def Unsized (s : MappedDevice) (e : MapEvent) : Prop :=
  ∀ signal count answers, e = .ioctl signal (.setBufferSize count answers) → s.vmas ≠ [] →
    s.ring.rolling = false → s.ring.card.dma.dmaStarted = true ∧ signal = false

/-! ## Calls that keep the buffers -/

/-- A function of the driver that leaves the buffers where they are. -/
def KeepsBlock (s t : DmaStruct) (calls : List KernelCall) : Prop :=
  t.region.map Region.addressKernel = s.region.map Region.addressKernel ∧
    ∀ block, .kfree block ∉ calls

namespace DmaStruct

theorem keepsBlock_mapActive (s : DmaStruct) (active : UInt32) (bus : UInt64) :
    KeepsBlock s (s.mapActive active bus).1 (s.mapActive active bus).2.1 := by
  by_cases hin : active.toNat < 2 ^ 31 ∧ active < s.buffers
  · cases hregion : s.region with
    | none =>
      rw [buffers, hregion] at hin
      exact absurd hin.2 UInt32.not_lt_zero
    | some r =>
      rw [buffers, hregion] at hin
      rw [mapActive_of_lt s bus hregion hin]
      refine ⟨by rw [hregion]; rfl, fun block hmem ↦ ?_⟩
      rcases List.mem_append.mp hmem with hunmap | hmap
      · simp [Region.unmaps] at hunmap
      · split at hmap <;> simp at hmap
  · rw [mapActive_of_ge hin]
    exact ⟨rfl, fun _ ↦ List.not_mem_nil⟩

theorem keepsBlock_deviceHandler (s : DmaStruct) (found dma : Bool) (bus : UInt64) :
    KeepsBlock s (s.deviceHandler found dma bus).1 (s.deviceHandler found dma bus).2 := by
  unfold deviceHandler
  split
  · dsimp only
    split
    · split
      · exact ⟨rfl, nofun⟩
      · refine ⟨(keepsBlock_mapActive _ _ bus).1, fun block hmem ↦ ?_⟩
        rcases List.mem_append.mp hmem with hmap | hboard
        · exact (keepsBlock_mapActive _ _ bus).2 block hmap
        · simp at hboard
    · exact ⟨rfl, nofun⟩
  · exact ⟨rfl, nofun⟩

theorem keepsBlock_enableDma (s : DmaStruct) (bus : UInt64) :
    KeepsBlock s (s.enableDma bus).1 (s.enableDma bus).2.1 := by
  unfold enableDma
  split
  · exact ⟨rfl, nofun⟩
  · have hmapped := keepsBlock_mapActive { s with activeRead := 0 } 0 bus
    refine ⟨hmapped.1, fun block hmem ↦ hmapped.2 block ?_⟩
    simpa using hmem

theorem keepsBlock_disableDma (s : DmaStruct) : KeepsBlock s s.disableDma.1 s.disableDma.2.1 := by
  unfold disableDma
  split
  · exact ⟨rfl, nofun⟩
  · exact ⟨rfl, fun block ↦ by simp⟩

end DmaStruct

/-- Only `DMASetBufferSize` touches the buffers. -/
theorem Ring.keepsBlock_step (s : Ring) {e : RingEvent}
    (he : ∀ count answers, e ≠ .setBufferSize count answers) :
    KeepsBlock s.card.dma (s.step e).1.card.dma (s.step e).2.1 := by
  have hsame : KeepsBlock s.card.dma s.card.dma [] := ⟨rfl, fun _ ↦ List.not_mem_nil⟩
  exact s.step_cases he hsame (DmaStruct.keepsBlock_enableDma _) (DmaStruct.keepsBlock_disableDma _)
    hsame (DmaStruct.keepsBlock_deviceHandler _)

/-! ## Runs with areas -/

namespace MappedDevice

variable {s : MappedDevice} {e : MapEvent}

/-- The areas of all processes show the buffers of the ring. -/
def Shown (s : MappedDevice) : Prop :=
  ∀ v ∈ s.vmas, s.ring.card.dma.region.map Region.addressKernel = some v.block

theorem step_setBufferSize (hrolling : s.ring.rolling = false) (signal : Bool) (count : UInt32)
    (answers : Answers) :
    s.step (.ioctl signal (.setBufferSize count answers)) =
      if signal then (s, [], some (-eRestartSys))
      else
        let changed := s.ring.card.changeBuffer count answers
        ({ s with ring.card := changed.1 }, changed.2.1, some changed.2.2) := by
  have hfree : (acquires (.setBufferSize count answers) && s.ring.rolling) = false := by
    rw [hrolling, Bool.and_false]
  have hring : s.ring.step (.setBufferSize count answers) = _ :=
    if_neg (Bool.eq_false_iff.mp hrolling)
  unfold step
  dsimp only
  rw [if_neg (Bool.eq_false_iff.mp hfree), hring]
  cases signal <;> rfl

/-- While there is an area, `DMASetBufferSize` is refused only where DMA is started. -/
theorem unsized_of_guarded (h : Guarded s e) : Unsized s e := by
  rintro signal count answers rfl hvmas hrolling
  have hbusy := h.busy signal count answers
  rw [step_setBufferSize hrolling] at hbusy
  cases signal with
  | true =>
    have hrestart := (hbusy _ rfl hvmas rfl).1
    exact absurd hrestart (by decide)
  | false =>
    have hretval := (hbusy _ rfl hvmas rfl).1
    exact ⟨(Card.setBuffer_busy_iff (by decide)).mp hretval, rfl⟩

/-- A new area shows the ring as well. -/
theorem Shown.mmap (hs : s.Shown) (id : ℕ) (valid page remap : Bool) :
    (s.mmap id valid page remap).1.Shown := by
  unfold MappedDevice.mmap
  split
  · exact hs
  · split
    · exact hs
    · rename_i r hregion
      split
      · exact hs
      · split
        · exact hs
        · split
          · exact hs
          · intro v hv
            rcases List.mem_cons.mp hv with rfl | hold
            · exact congrArg (Option.map Region.addressKernel) hregion
            · exact hs v hold

theorem vmas_ioctl (s : MappedDevice) (signal : Bool) (e : RingEvent) :
    (s.next (.ioctl signal e)).vmas = s.vmas := by
  unfold next step
  dsimp only
  split
  · rfl
  · split <;> rfl

/-- An event that does nothing may return anything but a result of `DMASetBufferSize`. -/
theorem guarded_of_unchanged (hs : s.Shown) {result : Option ℤ} (hstep : s.step e = (s, [], result))
    (hbusy : ∀ signal count answers, e = .ioctl signal (.setBufferSize count answers) →
      ∀ retval, result = some retval → retval = -eBusy) : Guarded s e := by
  have hnext : s.next e = s := congrArg Prod.fst hstep
  refine ⟨fun signal count answers retval he _ hretval ↦ ?_, ?_, ?_⟩
  · rw [hstep] at hretval
    rw [hnext]
    exact ⟨hbusy signal count answers he retval hretval, rfl⟩
  · rw [hstep]
    exact fun _ _ ↦ List.not_mem_nil
  · rw [hnext]
    exact hs

theorem guarded_setBufferSize (hs : s.Shown) {signal : Bool} {count : UInt32} {answers : Answers}
    (h : Unsized s (.ioctl signal (.setBufferSize count answers))) :
    Guarded s (.ioctl signal (.setBufferSize count answers)) := by
  cases hrolling : s.ring.rolling with
  | true =>
    have hwaits : (acquires (.setBufferSize count answers) && s.ring.rolling) = true := hrolling
    exact guarded_of_unchanged hs (if_pos hwaits) fun _ _ _ _ _ hnone ↦
      absurd hnone.symm (Option.some_ne_none _)
  | false =>
    by_cases hvmas : s.vmas = []
    · have hnone (v : Vma) : v ∉ s.vmas := by
        rw [hvmas]
        exact List.not_mem_nil
      refine ⟨fun _ _ _ _ _ hne ↦ absurd hvmas hne, fun v hv ↦ absurd hv (hnone v), fun v hv ↦ ?_⟩
      rw [vmas_ioctl] at hv
      exact absurd hv (hnone v)
    · obtain ⟨hstarted, rfl⟩ := h signal count answers rfl hvmas hrolling
      have hrefused : s.ring.card.changeBuffer count answers = (s.ring.card, [], -eBusy) :=
        if_pos hstarted
      have hstep := step_setBufferSize hrolling false count answers
      rw [hrefused] at hstep
      exact guarded_of_unchanged hs hstep fun _ _ _ _ _ hretval ↦ (Option.some.inj hretval).symm

/-- The other calls keep the buffers. -/
theorem guarded_ioctl (hs : s.Shown) {signal : Bool} {e : RingEvent}
    (he : ∀ count answers, e ≠ .setBufferSize count answers) : Guarded s (.ioctl signal e) := by
  have hother : ∀ signal' count answers,
      MapEvent.ioctl signal e ≠ .ioctl signal' (.setBufferSize count answers) := by
    intro signal' count answers heq
    exact he count answers (MapEvent.ioctl.inj heq).2
  by_cases hwaits : (acquires e && s.ring.rolling) = true
  · exact guarded_of_unchanged hs (if_pos hwaits) fun _ _ _ heq ↦ absurd heq (hother _ _ _)
  · by_cases hsignal : (acquires e && signal) = true
    · have hstep : s.step (.ioctl signal e) = (s, [], some (-eRestartSys)) :=
        (if_neg hwaits).trans (if_pos hsignal)
      exact guarded_of_unchanged hs hstep fun _ _ _ heq ↦ absurd heq (hother _ _ _)
    · have hstep : s.step (.ioctl signal e) =
          ({ s with ring := (s.ring.step e).1 }, (s.ring.step e).2) :=
        (if_neg hwaits).trans (if_neg hsignal)
      have hkeeps := s.ring.keepsBlock_step he
      refine ⟨fun _ _ _ _ heq ↦ absurd heq (hother _ _ _), fun v _ ↦ ?_, fun v hv ↦ ?_⟩
      · rw [hstep]
        exact hkeeps.2 v.block
      · rw [vmas_ioctl] at hv
        rw [next, hstep]
        exact hkeeps.1.trans (hs v hv)

theorem guarded_of_unsized (hs : s.Shown) (h : Unsized s e) : Guarded s e := by
  cases e with
  | mmap id signal valid page remap =>
    have hnext : (s.next (.mmap id signal valid page remap)).Shown ∧
        (s.step (.mmap id signal valid page remap)).2.1 = [] := by
      unfold next step
      dsimp only
      split
      · exact ⟨hs, rfl⟩
      · split
        · exact ⟨hs, rfl⟩
        · exact ⟨hs.mmap id valid page remap, rfl⟩
    exact ⟨nofun, fun v _ ↦ hnext.2 ▸ List.not_mem_nil, hnext.1⟩
  | mapClose id => exact ⟨nofun, nofun, fun v hv ↦ hs v (List.mem_of_mem_filter hv)⟩
  | ioctl signal e =>
    by_cases he : ∃ count answers, e = .setBufferSize count answers
    · obtain ⟨count, answers, rfl⟩ := he
      exact guarded_setBufferSize hs h
    · exact guarded_ioctl hs fun count answers heq ↦ he ⟨count, answers, heq⟩

/-- The mapped buffers are safe in a run if and only if the number of buffers is set only where
there is no mapping or DMA is started. -/
theorem guarded_iff (ring : Ring) (events : List MapEvent) :
    (∀ before e, before ++ [e] <+: events → Guarded (before.foldl next ⟨ring, none, []⟩) e) ↔
      ∀ before e, before ++ [e] <+: events → Unsized (before.foldl next ⟨ring, none, []⟩) e :=
  foldl_steps_iff (I := Shown) (by nofun)
    (fun _ _ hs ↦ ⟨unsized_of_guarded, guarded_of_unsized hs⟩)
    (fun _ _ hs h ↦ (guarded_of_unsized hs h).shown) events

/-- `DMASetBufferSize` frees the buffers that a process has in its memory. -/
theorem not_guarded_setBufferSize :
    ¬ ∀ events before e, before ++ [e] <+: events →
      Guarded (before.foldl next ⟨.registered 16 Ring.granted, none, []⟩) e := by
  intro hall
  let events : List MapEvent :=
    [.mmap 1 false true true true, .ioctl false (.setBufferSize 4 Ring.granted)]
  have h := hall events [.mmap 1 false true true true]
    (.ioctl false (.setBufferSize 4 Ring.granted)) (List.prefix_refl _)
  exact absurd (h.unfreed ⟨1, ⟨0, 1048576⟩⟩ (by decide)) (by decide)

end MappedDevice

end QNet.AnB
