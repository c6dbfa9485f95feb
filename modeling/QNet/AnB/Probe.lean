import QNet.AnB.Buffers
import QNet.AnB.Devices
import QNet.Lib.Resources

/-!
# Probing an AnB device

`device_probe` and `AllocateEntry` acquire some fifteen resources, one behind the other, and release
them in reverse order from the place where one of them is refused. `allOrNothing_iff` says when a
probe gets everything or leaves nothing behind.

It does not where the limit of devices is reached, since that return forgets the semaphore; where
`register_dma` fails, since its result is overwritten; where the device has been added to the pool
and `deviceRemove` does not take it out again; and where the blocks of the DMA buffers have to be
released, since `unset_buffer` frees the older one first.
-/

namespace QNet.AnB

/-- The resources of a device, in the order in which they are acquired. -/
inductive Resource
  | privateData
  | enabled
  | regions
  | ioRegisters
  | ioMemory
  | file
  | miscDevice
  | sem
  | dma
  | block (b : Block)
  | mapping (bus : UInt64)
  | irq
  | pool
  | misc
  deriving DecidableEq

/-- What a call to the kernel does to the resources. -/
def KernelCall.op : KernelCall → Option (Op Resource)
  | .kzalloc b => some (.acquire (.block b))
  | .kfree b => some (.release (.block b))
  | .mapSingle _ _ _ _ bus => some (.acquire (.mapping bus))
  | .unmapSingle bus _ => some (.release (.mapping bus))
  | .requestIrq _ => some (.acquire .irq)
  | .freeIrq _ => some (.release .irq)
  | .board _ => none

def resourceOps (calls : List KernelCall) : List (Op Resource) := calls.filterMap KernelCall.op

variable {α : Type*} [DecidableEq α]

/-- `deviceAdd`, with the answer of `kzalloc`. -/
def addDevice (devices : Pool α) (deviceRef : α) (memory : Bool) : ℤ × Pool α :=
  if getDeviceNumber devices deviceRef = none ∧ memory = false then (-eNoMem, devices)
  else deviceAdd devices deviceRef

/-- `deviceRemove`, with the answer of `kzalloc`, which is not called for the last device. -/
def removeDevice (devices : Pool α) (deviceRef : α) (behind : ℕ → Option α) (memory : Bool) :
    Pool α :=
  if devices.length ≠ 1 ∧ memory = false then devices else deviceRemove devices deviceRef behind

/-- What the kernel answers to the steps of a probe: the memory of the new structure, the results of
the calls for the device and the types of its BARs, whether there is memory and a mapping, and the
results of the other calls. `behind` is the memory behind the pool. -/
structure ProbeAnswers (α : Type*) where
  privateData : Option α
  enable : ℤ
  regions : ℤ
  ioBar : Bool
  memBar : Bool
  ioRegisters : Bool
  ioMemory : Bool
  file : Bool
  miscDevice : Bool
  sem : Bool
  dma : Bool
  line : UInt32
  register : Answers
  pool : Bool
  misc : ℤ
  remove : Bool
  behind : ℕ → Option α

/-- Every call succeeds but those of `register_dma`, which has its own answers. -/
def ProbeAnswers.granted {α : Type*} (privateData : α) (register : Answers) : ProbeAnswers α where
  privateData := some privateData
  enable := 0
  regions := 0
  ioBar := true
  memBar := true
  ioRegisters := true
  ioMemory := true
  file := true
  miscDevice := true
  sem := true
  dma := true
  line := 10
  register := register
  pool := true
  misc := 0
  remove := true
  behind := fun _ ↦ none

/-- The error for a missing block. -/
def noMem (memory : Bool) : ℤ := if memory then 0 else -eNoMem

/-- A new device, with the structure from `kzalloc`. -/
def newCard : Card := ⟨.zeroed, 0⟩

/-- `register_dma` on the new device. -/
def ProbeAnswers.registered (a : ProbeAnswers α) : Card × List KernelCall × ℤ :=
  newCard.registerDma a.line a.register

/-- `AllocateEntry` from `register_dma` on. -/
def addEntry (devices : Pool α) (deviceRef : α) (a : ProbeAnswers α) :
    Attempt Resource (Pool α) :=
  let registerOps := resourceOps a.registered.2.1
  let unregisterOps := resourceOps a.registered.1.dma.unregisterDma.2
  -- the result of `register_dma` is overwritten
  let added := addDevice devices deviceRef a.pool
  if added.1 ≠ 0 then ⟨added.1, registerOps ++ unregisterOps, added.2⟩
  else if a.misc ≠ 0 then
    let removed := removeDevice added.2 deviceRef a.behind a.remove
    let removeOps := if removed.length < added.2.length then [.release .pool] else []
    ⟨a.misc, registerOps ++ [.acquire .pool] ++ removeOps ++ unregisterOps, removed⟩
  else ⟨0, registerOps ++ [.acquire .pool, .acquire .misc], added.2⟩

/-- `AllocateEntry`. -/
def allocateEntry (devices : Pool α) (deviceRef : α) (a : ProbeAnswers α) :
    Attempt Resource (Pool α) :=
  hold .file (noMem a.file) devices <|
  hold .miscDevice (noMem a.miscDevice) devices <|
  hold .sem (noMem a.sem) devices <|
  hold .dma (noMem a.dma) devices <|
  addEntry devices deviceRef a

/-- `device_probe` from the check of the BARs on. -/
def mapBars (devices : Pool α) (deviceRef : α) (a : ProbeAnswers α) : Attempt Resource (Pool α) :=
  if !a.ioBar then ⟨-eInval, [], devices⟩
  else if !a.memBar then ⟨-eInval, [], devices⟩
  else
    hold .ioRegisters (noMem a.ioRegisters) devices <|
    hold .ioMemory (noMem a.ioMemory) devices <|
    allocateEntry devices deviceRef a

/-- `devices_count` of the module and the pool. -/
structure Module (α : Type*) where
  devicesCount : UInt32
  pool : Pool α

/-- What a probe returns, its operations, and how often it releases the semaphore of the module. -/
structure ProbeResult (α : Type*) where
  retval : ℤ
  ops : List (Op Resource)
  ups : ℕ
  module : Module α

/-- `ANB_DEVICE_LIMIT`. -/
def deviceLimit : UInt32 := 256

/-- The resources of `device_probe`. -/
def acquireDevice (devices : Pool α) (deviceRef : α) (a : ProbeAnswers α) :
    Attempt Resource (Pool α) :=
  hold .privateData 0 devices <|
  hold .enabled a.enable devices <|
  hold .regions a.regions devices <|
  mapBars devices deviceRef a

/-- `device_probe`. -/
def deviceProbe (m : Module α) (a : ProbeAnswers α) : ProbeResult α :=
  -- this return does not release the semaphore
  if m.devicesCount ≥ deviceLimit then ⟨-eInval, [], 0, m⟩
  else
    match a.privateData with
    | none => ⟨-eNoMem, [], 1, m⟩
    | some deviceRef =>
        let attempt := acquireDevice m.pool deviceRef a
        let devicesCount := if attempt.retval = 0 then m.devicesCount + 1 else m.devicesCount
        ⟨attempt.retval, attempt.ops, 1, ⟨devicesCount, attempt.state⟩⟩

/-! ## All or nothing -/

/-- The steps before `register_dma` succeed. -/
structure Prepared (a : ProbeAnswers α) : Prop where
  enable : a.enable = 0
  regions : a.regions = 0
  ioBar : a.ioBar = true
  memBar : a.memBar = true
  ioRegisters : a.ioRegisters = true
  ioMemory : a.ioMemory = true
  file : a.file = true
  miscDevice : a.miscDevice = true
  sem : a.sem = true
  dma : a.dma = true

structure AllOrNothing (m : Module α) (a : ProbeAnswers α) : Prop where
  /-- What has been acquired is released, in reverse order. -/
  undone : (deviceProbe m a).retval ≠ 0 → held [] (deviceProbe m a).ops = some []
  unpooled : (deviceProbe m a).retval ≠ 0 →
    ∀ deviceRef ∈ a.privateData, some deviceRef ∉ (deviceProbe m a).module.pool
  count : (deviceProbe m a).retval ≠ 0 →
    (deviceProbe m a).module.devicesCount = m.devicesCount
  done : (deviceProbe m a).retval = 0 →
    a.privateData.isSome = true ∧ Prepared a ∧ a.registered.2.2 = 0 ∧ a.pool = true ∧ a.misc = 0
  sem : (deviceProbe m a).ups = 1

/-- `register_dma` gets both blocks. -/
def GetsBlocks (a : ProbeAnswers α) : Prop := a.register.kernel = true ∧ a.register.array = true

/-- `register_dma` succeeds. -/
def Registers (a : ProbeAnswers α) : Prop :=
  GetsBlocks a ∧ a.register.bus ≠ 0 ∧ 0 ≤ a.line.toUInt8.toInt8 ∧ a.register.request = 0

/-- `deviceRemove` can take the device out of the pool to which it has been added last. -/
def Removable (devices : Pool α) (a : ProbeAnswers α) : Prop :=
  devices = [] ∨ devices.length ≤ 2 ∧ a.remove = true

/-- The condition: the limit is not reached; a probe that gets to its end has registered DMA; and
one that fails behind `register_dma` has no blocks and a pool from which the device can be removed.
The pool has no entry with the address of the new structure. -/
structure ProbeSafe (m : Module α) (a : ProbeAnswers α) : Prop where
  limit : m.devicesCount < deviceLimit
  registers : a.privateData.isSome = true → Prepared a → a.pool = true → a.misc = 0 → Registers a
  fresh : ∀ deviceRef ∈ a.privateData, some deviceRef ∉ m.pool
  blocks : a.privateData.isSome = true → Prepared a → ¬ (a.pool = true ∧ a.misc = 0) →
    ¬ GetsBlocks a
  removable : a.privateData.isSome = true → Prepared a → a.pool = true → a.misc ≠ 0 →
    Removable m.pool a

/-! ## What `register_dma` does -/

/-- The operations of `register_dma` and of `unregister_dma` behind it. -/
def ProbeAnswers.registerOps (a : ProbeAnswers α) : List (Op Resource) :=
  resourceOps a.registered.2.1

def ProbeAnswers.unregisterOps (a : ProbeAnswers α) : List (Op Resource) :=
  resourceOps a.registered.1.dma.unregisterDma.2

/-- The two blocks of a new device. -/
def kernelBlock : Resource := .block (newCard.newKernel bufferMinSize anbBuffers)

def arrayBlock : Resource := .block (newCard.newArray anbBuffers)

section Register

omit [DecidableEq α]

variable {a : ProbeAnswers α}

theorem getsBlocks_iff : GetsBlocks a ↔ newCard.Allocates anbBuffers a.register := by
  have hcount : 2 ≤ anbBuffers := by decide
  exact ⟨fun h ↦ ⟨rfl, hcount, h⟩, fun h ↦ h.2.2⟩

/-- Without both blocks `register_dma` fails and leaves nothing. -/
theorem registered_of_not_getsBlocks (h : ¬ GetsBlocks a) :
    a.registered.2.2 ≠ 0 ∧ a.unregisterOps = [] ∧
      (a.registerOps = [] ∨ a.registerOps = [.acquire kernelBlock, .release kernelBlock]) := by
  have hallocates : ¬ { newCard with dma.irq := -1 }.Allocates anbBuffers a.register :=
    fun hall ↦ h (getsBlocks_iff.mpr hall)
  obtain ⟨allocated, calls, retval, heq, hretval, _, _, hcalls⟩ :=
    Card.setBuffer_of_not_allocates bufferMinSize hallocates
  have hset : newCard.registerSet a.register = _ := heq
  have hregistered : a.registered = newCard.registerSet a.register :=
    Card.registerDma_of_refused (by rw [hset]; exact hretval)
  unfold ProbeAnswers.unregisterOps ProbeAnswers.registerOps
  rw [hregistered, hset]
  refine ⟨hretval, rfl, ?_⟩
  rcases hcalls with rfl | rfl
  · exact .inl rfl
  · exact .inr rfl

/-- The ring that `register_dma` sets up when it gets both blocks. -/
theorem registerSet_of_getsBlocks (h : GetsBlocks a) :
    newCard.registerSet a.register =
      if a.register.bus = 0 then
        (⟨{ newCard.dma with region := none, irq := -1, activeWrite := 0 }, 2⟩,
          newCard.replaceCalls bufferMinSize anbBuffers ++
            [.kfree (newCard.newKernel bufferMinSize anbBuffers),
              .kfree (newCard.newArray anbBuffers)], -eNoMem)
      else
        (⟨{ newCard.dma with
              region := some ((newCard.newRegion bufferMinSize anbBuffers).setEntry 0
                a.register.bus)
              irq := -1
              activeWrite := 0 }, 2⟩,
          newCard.replaceCalls bufferMinSize anbBuffers ++
            [.mapSingle (newCard.newKernel bufferMinSize anbBuffers)
                (newCard.newArray anbBuffers) 0 bufferMinSize a.register.bus,
              .board (.address 0)], 0) :=
  Card.setBuffer_of_allocates (c := { newCard with dma.irq := -1 }) (by decide)
    (getsBlocks_iff.mp h)

/-- A ring with one address has only this one to unmap. -/
theorem unmaps_setEntry {bus : UInt64} (hbus : bus ≠ 0) :
    ((newCard.newRegion bufferMinSize anbBuffers).setEntry 0 bus).unmaps =
      [.unmapSingle bus bufferMinSize] := by
  have hactive : 0 < (newCard.newRegion bufferMinSize anbBuffers).buffers := by decide
  have hentries : ((newCard.newRegion bufferMinSize anbBuffers).setEntry 0 bus).entries.filter
      (· ≠ 0) = [bus] := (Region.filter_setEntry hactive).trans (if_neg hbus)
  rw [Region.unmaps, hentries]
  rfl

theorem requestIrq_eq_zero_iff {irq : Int8} {answer : ℤ} :
    Card.requestIrq irq answer = 0 ↔ 0 ≤ irq ∧ answer = 0 := by
  unfold Card.requestIrq
  by_cases hirq : irq < 0
  · have hinval : -eInval ≠ 0 := by decide
    rw [if_pos hirq]
    exact iff_of_false hinval fun h ↦ Int8.not_lt.mpr h.1 hirq
  · rw [if_neg hirq, and_iff_right (Int8.not_lt.mp hirq)]

/-- Where the first buffer cannot be mapped, the older block is released first. -/
theorem registered_of_no_bus (h : GetsBlocks a) (hbus : a.register.bus = 0) :
    a.registered.2.2 ≠ 0 ∧ a.unregisterOps = [] ∧
      a.registerOps = [.acquire kernelBlock, .acquire arrayBlock, .release kernelBlock,
        .release arrayBlock] := by
  have hset := registerSet_of_getsBlocks h
  rw [if_pos hbus] at hset
  have hfails : (newCard.registerSet a.register).2.2 ≠ 0 := by
    rw [hset]
    decide
  unfold ProbeAnswers.registerOps ProbeAnswers.unregisterOps ProbeAnswers.registered
  rw [Card.registerDma_of_refused hfails, hset]
  exact ⟨by decide, rfl, rfl⟩

/-- Where the interrupt is refused, the mapping is released, and then the older block. -/
theorem registered_of_no_irq (h : GetsBlocks a) (hbus : a.register.bus ≠ 0)
    (hirq : Card.requestIrq a.line.toUInt8.toInt8 a.register.request ≠ 0) :
    a.registered.2.2 ≠ 0 ∧ a.unregisterOps = [] ∧
      a.registerOps = [.acquire kernelBlock, .acquire arrayBlock,
        .acquire (.mapping a.register.bus), .release (.mapping a.register.bus),
        .release kernelBlock, .release arrayBlock] := by
  have hset := registerSet_of_getsBlocks h
  rw [if_neg hbus] at hset
  have hdone : (newCard.registerSet a.register).2.2 = 0 := by rw [hset]
  unfold ProbeAnswers.registerOps ProbeAnswers.unregisterOps ProbeAnswers.registered
  rw [Card.registerDma_of_set hdone, hset]
  dsimp only
  rw [if_pos hirq]
  simp only [DmaStruct.unmapAll_eq, DmaStruct.unsetBuffer_eq, DmaStruct.unmaps, Option.elim_some,
    unmaps_setEntry hbus]
  exact ⟨hirq, rfl, rfl⟩

/-- After a success `unregister_dma` releases everything, and the older block first. -/
theorem registered_of_irq (h : GetsBlocks a) (hbus : a.register.bus ≠ 0)
    (hirq : Card.requestIrq a.line.toUInt8.toInt8 a.register.request = 0) :
    a.registered.2.2 = 0 ∧
      a.unregisterOps = [.release .irq, .release (.mapping a.register.bus),
        .release kernelBlock, .release arrayBlock] ∧
      a.registerOps = [.acquire kernelBlock, .acquire arrayBlock,
        .acquire (.mapping a.register.bus), .acquire .irq] := by
  have hset := registerSet_of_getsBlocks h
  rw [if_neg hbus] at hset
  have hdone : (newCard.registerSet a.register).2.2 = 0 := by rw [hset]
  have hline := (requestIrq_eq_zero_iff.mp hirq).1
  unfold ProbeAnswers.registerOps ProbeAnswers.unregisterOps ProbeAnswers.registered
  rw [Card.registerDma_of_set hdone, hset]
  dsimp only
  rw [if_neg (not_not.mpr hirq)]
  simp only [DmaStruct.unregisterDma_calls, DmaStruct.unmaps, Option.elim_some,
    unmaps_setEntry hbus, if_pos hline]
  exact ⟨trivial, rfl, rfl⟩

/-- `register_dma` with both blocks: they are released in the wrong order if it fails, and by
`unregister_dma` if it succeeds. -/
theorem registered_of_getsBlocks (h : GetsBlocks a) :
    (a.registered.2.2 ≠ 0 ∧ ¬ Registers a ∧ a.unregisterOps = [] ∧
        ∃ mapping, (mapping = [] ∨ mapping =
            [.acquire (.mapping a.register.bus), .release (.mapping a.register.bus)]) ∧
          a.registerOps = [.acquire kernelBlock, .acquire arrayBlock] ++ mapping ++
            [.release kernelBlock, .release arrayBlock]) ∨
      a.registered.2.2 = 0 ∧ Registers a ∧
        a.registerOps = [.acquire kernelBlock, .acquire arrayBlock,
          .acquire (.mapping a.register.bus), .acquire .irq] ∧
        a.unregisterOps = [.release .irq, .release (.mapping a.register.bus),
          .release kernelBlock, .release arrayBlock] := by
  by_cases hbus : a.register.bus = 0
  · obtain ⟨hretval, hunregister, hregister⟩ := registered_of_no_bus h hbus
    exact .inl ⟨hretval, fun hregisters ↦ hregisters.2.1 hbus, hunregister, [], .inl rfl, hregister⟩
  · by_cases hirq : Card.requestIrq a.line.toUInt8.toInt8 a.register.request = 0
    · obtain ⟨hretval, hunregister, hregister⟩ := registered_of_irq h hbus hirq
      exact .inr ⟨hretval, ⟨h, hbus, requestIrq_eq_zero_iff.mp hirq⟩, hregister, hunregister⟩
    · obtain ⟨hretval, hunregister, hregister⟩ := registered_of_no_irq h hbus hirq
      have hregisters : ¬ Registers a := fun hregisters ↦
        hirq (requestIrq_eq_zero_iff.mpr hregisters.2.2)
      exact .inl ⟨hretval, hregisters, hunregister, _, .inr rfl, hregister⟩

theorem registered_done_iff : a.registered.2.2 = 0 ↔ Registers a := by
  by_cases h : GetsBlocks a
  · rcases registered_of_getsBlocks h with ⟨hretval, hregisters, _⟩ | ⟨hretval, hregisters, _⟩
    · exact iff_of_false hretval hregisters
    · exact iff_of_true hretval hregisters
  · exact iff_of_false (registered_of_not_getsBlocks h).1 fun hregisters ↦ h hregisters.1

/-- Without blocks nothing of `register_dma` is left for `unregister_dma`. -/
theorem held_of_not_getsBlocks (h : ¬ GetsBlocks a) (middle : List (Op Resource)) :
    held [] (a.registerOps ++ middle ++ a.unregisterOps) = held [] middle := by
  obtain ⟨_, hunregister, hregister⟩ := registered_of_not_getsBlocks h
  have hnothing : held [] a.registerOps = some [] := by
    rcases hregister with hregister | hregister <;> rw [hregister]
    · rfl
    · decide
  rw [hunregister, List.append_nil, held_append, hnothing, Option.bind_some]

/-- With both blocks they are not released in reverse order. -/
theorem held_of_getsBlocks (h : GetsBlocks a) {middle : List (Op Resource)}
    (hmiddle : middle = [] ∨ middle = [.acquire .pool] ∨
      middle = [.acquire .pool, .release .pool]) :
    held [] (a.registerOps ++ middle ++ a.unregisterOps) = none := by
  have hblocks : arrayBlock ≠ kernelBlock := by decide
  rcases registered_of_getsBlocks h with ⟨_, _, _, mapping, hmapping, hregister⟩ |
    ⟨_, _, hregister, hunregister⟩
  · have hreleased : held [] a.registerOps = none := by
      rw [hregister]
      rcases hmapping with rfl | rfl
      · simp [held, hblocks]
      · simp [held, hblocks]
    rw [List.append_assoc, held_append, hreleased, Option.bind_none]
  · rw [hregister, hunregister]
    rcases hmiddle with rfl | rfl | rfl
    · simp [held, hblocks]
    · simp [held]
    · simp [held, hblocks]

end Register

/-! ## What `AllocateEntry` does to the pool -/

section Entry

variable {devices : Pool α} {deviceRef : α} {a : ProbeAnswers α}

theorem getDeviceNumber_of_notMem (h : some deviceRef ∉ devices) :
    getDeviceNumber devices deviceRef = none := List.idxOf?_eq_none_iff.mpr h

theorem getDeviceNumber_last (h : some deviceRef ∉ devices) :
    getDeviceNumber (devices ++ [some deviceRef]) deviceRef = some devices.length := by
  rw [getDeviceNumber, List.idxOf?_eq_some_iff]
  refine ⟨by simp, by simp, fun place hplace hsame ↦ h ?_⟩
  rw [List.getElem_append_left hplace] at hsame
  exact hsame ▸ List.getElem_mem hplace

/-- A device whose address is in the pool is not added. -/
theorem addEntry_of_mem (h : some deviceRef ∈ devices) :
    addEntry devices deviceRef a = ⟨-1, a.registerOps ++ a.unregisterOps, devices⟩ := by
  have hnumber : getDeviceNumber devices deviceRef ≠ none := fun hnone ↦
    List.idxOf?_eq_none_iff.mp hnone h
  obtain ⟨place, hplace⟩ := Option.ne_none_iff_exists'.mp hnumber
  have hadded : addDevice devices deviceRef a.pool = (-1, devices) := by
    rw [addDevice, if_neg fun hboth ↦ hnumber hboth.1, deviceAdd, hplace]
  have hfails : (-1 : ℤ) ≠ 0 := by decide
  unfold addEntry
  rw [hadded]
  exact if_pos hfails

theorem addEntry_of_no_memory (h : some deviceRef ∉ devices) (hpool : a.pool = false) :
    addEntry devices deviceRef a = ⟨-eNoMem, a.registerOps ++ a.unregisterOps, devices⟩ := by
  have hadded : addDevice devices deviceRef a.pool = (-eNoMem, devices) :=
    if_pos ⟨getDeviceNumber_of_notMem h, hpool⟩
  have hfails : -eNoMem ≠ 0 := by decide
  unfold addEntry
  rw [hadded]
  exact if_pos hfails

theorem addDevice_of_notMem (h : some deviceRef ∉ devices) (hpool : a.pool = true) :
    addDevice devices deviceRef a.pool = (0, devices ++ [some deviceRef]) := by
  rw [addDevice, if_neg (by simp [hpool]), deviceAdd_of_none (getDeviceNumber_of_notMem h)]

/-- The pool after `deviceRemove` has been called for the device added last. -/
def fallBackPool (devices : Pool α) (deviceRef : α) (a : ProbeAnswers α) : Pool α :=
  removeDevice (devices ++ [some deviceRef]) deviceRef a.behind a.remove

/-- A device in the third place or before is taken out of the pool. -/
theorem fallBackPool_of_removable (h : some deviceRef ∉ devices)
    (hremovable : Removable devices a) :
    some deviceRef ∉ fallBackPool devices deviceRef a ∧
      (fallBackPool devices deviceRef a).length < devices.length + 1 := by
  have hindex := getDeviceNumber_last h
  have hlength := length_deviceRemove hindex a.behind
  rw [List.length_append, List.length_singleton, Nat.add_sub_cancel] at hlength
  have hremoved : fallBackPool devices deviceRef a =
      deviceRemove (devices ++ [some deviceRef]) deviceRef a.behind := by
    refine if_neg ?_
    rcases hremovable with rfl | ⟨_, hmemory⟩
    · exact fun hboth ↦ hboth.1 rfl
    · simp [hmemory]
  rw [hremoved]
  refine ⟨fun hmem ↦ ?_, by omega⟩
  obtain ⟨i, hi, hslot⟩ := List.getElem_of_mem hmem
  rw [hlength] at hi
  have hat := getElem?_deviceRemove hindex a.behind (i := i) (by simp; omega)
  rw [List.getElem?_eq_getElem (by omega), hslot, if_neg (by omega)] at hat
  have hslot := Option.some.inj hat
  split at hslot
  · rename_i hbefore
    have hsmall : devices.length ≤ 2 := by
      rcases hremovable with rfl | hboth
      · exact Nat.zero_le 2
      · exact hboth.1
    have hplace : devices.length - 1 + i < devices.length := by omega
    rw [slotAt_of_lt _ (by simp; omega), List.getElem_append_left hplace] at hslot
    exact h (hslot ▸ List.getElem_mem hplace)
  · cases hslot

/-- Behind three others it stays, and so it does without memory. -/
theorem mem_fallBackPool (h : some deviceRef ∉ devices) (hremovable : ¬ Removable devices a) :
    some deviceRef ∈ fallBackPool devices deviceRef a := by
  unfold Removable at hremovable
  rw [not_or, not_and_or] at hremovable
  obtain ⟨hne, hrest⟩ := hremovable
  have hlength : devices.length ≠ 0 := hne ∘ List.length_eq_zero_iff.mp
  unfold fallBackPool removeDevice
  by_cases hmemory : a.remove = false
  · rw [if_pos ⟨by simp [hlength], hmemory⟩]
    simp
  · rw [if_neg fun hboth ↦ hmemory hboth.2]
    have hlong : 3 ≤ devices.length := by
      rcases hrest with hlong | hnone
      · omega
      · exact absurd (Bool.eq_false_iff.mpr hnone) hmemory
    apply List.mem_of_getElem? (i := 1)
    rw [getElem?_deviceRemove (getDeviceNumber_last h) a.behind (by simp; omega),
      if_neg (by omega), if_pos (by omega), Nat.sub_add_cancel (by omega),
      slotAt_of_lt _ (by simp), List.getElem_concat_length rfl]

theorem addEntry_of_misc (h : some deviceRef ∉ devices) (hpool : a.pool = true)
    (hmisc : a.misc ≠ 0) :
    addEntry devices deviceRef a =
      ⟨a.misc, a.registerOps ++ [.acquire .pool] ++
        (if (fallBackPool devices deviceRef a).length < devices.length + 1 then [.release .pool]
          else []) ++ a.unregisterOps, fallBackPool devices deviceRef a⟩ := by
  unfold addEntry
  rw [addDevice_of_notMem h hpool]
  dsimp only
  rw [if_neg (not_not.mpr rfl), if_pos hmisc, List.length_append, List.length_singleton]
  rfl

theorem addEntry_of_added (h : some deviceRef ∉ devices) (hpool : a.pool = true)
    (hmisc : a.misc = 0) :
    addEntry devices deviceRef a =
      ⟨0, a.registerOps ++ [.acquire .pool, .acquire .misc], devices ++ [some deviceRef]⟩ := by
  unfold addEntry
  rw [addDevice_of_notMem h hpool]
  dsimp only
  rw [if_neg (not_not.mpr rfl), if_neg (not_not.mpr hmisc)]
  rfl

theorem retval_addEntry_eq_zero_iff :
    (addEntry devices deviceRef a).retval = 0 ↔
      some deviceRef ∉ devices ∧ a.pool = true ∧ a.misc = 0 := by
  by_cases hmem : some deviceRef ∈ devices
  · have hfails : (-1 : ℤ) ≠ 0 := by decide
    rw [addEntry_of_mem hmem]
    exact iff_of_false hfails fun h ↦ h.1 hmem
  · rw [and_iff_right hmem]
    cases hpool : a.pool with
    | false =>
      have hfails : -eNoMem ≠ 0 := by decide
      rw [addEntry_of_no_memory hmem hpool]
      exact iff_of_false hfails fun h ↦ Bool.false_ne_true h.1
    | true =>
      rw [and_iff_right rfl]
      by_cases hmisc : a.misc = 0
      · rw [addEntry_of_added hmem hpool hmisc]
        exact iff_of_true rfl hmisc
      · rw [addEntry_of_misc hmem hpool hmisc]

/-- A new device is in the pool after a failure if `deviceRemove` has not taken it out. -/
theorem mem_addEntry_iff (hfresh : some deviceRef ∉ devices)
    (hfails : (addEntry devices deviceRef a).retval ≠ 0) :
    some deviceRef ∈ (addEntry devices deviceRef a).state ↔
      a.pool = true ∧ a.misc ≠ 0 ∧ ¬ Removable devices a := by
  cases hpool : a.pool with
  | false =>
    rw [addEntry_of_no_memory hfresh hpool]
    exact iff_of_false hfresh fun h ↦ Bool.false_ne_true h.1
  | true =>
    have hmisc : a.misc ≠ 0 := fun hzero ↦
      hfails (retval_addEntry_eq_zero_iff.mpr ⟨hfresh, hpool, hzero⟩)
    rw [addEntry_of_misc hfresh hpool hmisc, and_iff_right rfl, and_iff_right hmisc]
    by_cases hremovable : Removable devices a
    · exact iff_of_false (fallBackPool_of_removable hfresh hremovable).1 (not_not.mpr hremovable)
    · exact iff_of_true (mem_fallBackPool hfresh hremovable) hremovable

/-- A failure gives everything back if there are no blocks. -/
theorem undone_addEntry_iff (hfresh : some deviceRef ∉ devices)
    (hremovable : a.pool = true → a.misc ≠ 0 → Removable devices a) :
    Undone (addEntry devices deviceRef a) ↔ (¬ (a.pool = true ∧ a.misc = 0) → ¬ GetsBlocks a) := by
  unfold Undone
  rw [ne_eq, retval_addEntry_eq_zero_iff, and_iff_right hfresh]
  refine imp_congr_right fun hfails ↦ ?_
  have hiff (middle : List (Op Resource))
      (hops : (addEntry devices deviceRef a).ops = a.registerOps ++ middle ++ a.unregisterOps)
      (hmiddle : middle = [] ∨ middle = [.acquire .pool, .release .pool]) :
      held [] (addEntry devices deviceRef a).ops = some [] ↔ ¬ GetsBlocks a := by
    rw [hops]
    by_cases hblocks : GetsBlocks a
    · rw [held_of_getsBlocks hblocks (hmiddle.imp_right .inr)]
      exact iff_of_false (fun h ↦ by cases h) (not_not.mpr hblocks)
    · rw [held_of_not_getsBlocks hblocks]
      refine iff_of_true ?_ hblocks
      rcases hmiddle with rfl | rfl
      · rfl
      · rfl
  cases hpool : a.pool with
  | false =>
    refine hiff [] ?_ (.inl rfl)
    rw [addEntry_of_no_memory hfresh hpool, List.append_nil]
  | true =>
    have hmisc : a.misc ≠ 0 := fun hzero ↦ hfails ⟨hpool, hzero⟩
    have hshorter := (fallBackPool_of_removable hfresh (hremovable hpool hmisc)).2
    refine hiff [.acquire .pool, .release .pool] ?_ (.inr rfl)
    rw [addEntry_of_misc hfresh hpool hmisc, if_pos hshorter]
    simp

/-! ## What comes before -/

/-- The function that acquires a resource, counted from `device_probe` inwards. -/
def Resource.stage : Resource → ℕ
  | .privateData | .enabled | .regions => 0
  | .ioRegisters | .ioMemory => 1
  | .file | .miscDevice | .sem | .dma => 2
  | .block _ | .mapping _ | .irq | .pool | .misc => 3

theorem release_mem_resourceOps {calls : List KernelCall} {r : Resource}
    (h : .release r ∈ resourceOps calls) : r.stage = 3 := by
  obtain ⟨call, _, hop⟩ := List.mem_filterMap.mp h
  cases call <;> simp only [KernelCall.op, Option.some.injEq, reduceCtorEq] at hop
  all_goals
    obtain rfl := Op.release.inj hop
    rfl

theorem release_mem_addEntry {r : Resource}
    (h : .release r ∈ (addEntry devices deviceRef a).ops) : r.stage = 3 := by
  by_cases hmem : some deviceRef ∈ devices
  · rw [addEntry_of_mem hmem] at h
    exact (List.mem_append.mp h).elim release_mem_resourceOps release_mem_resourceOps
  · cases hpool : a.pool with
    | false =>
      rw [addEntry_of_no_memory hmem hpool] at h
      exact (List.mem_append.mp h).elim release_mem_resourceOps release_mem_resourceOps
    | true =>
      by_cases hmisc : a.misc = 0
      · rw [addEntry_of_added hmem hpool hmisc] at h
        rcases List.mem_append.mp h with hregister | hpool
        · exact release_mem_resourceOps hregister
        · simp at hpool
      · rw [addEntry_of_misc hmem hpool hmisc] at h
        simp only [List.mem_append] at h
        rcases h with ((hregister | hadd) | hremove) | hunregister
        · exact release_mem_resourceOps hregister
        · simp at hadd
        · split at hremove
          · obtain rfl : r = .pool := by simpa using hremove
            rfl
          · cases hremove
        · exact release_mem_resourceOps hunregister

/-- The resources of `device_probe` and of `AllocateEntry`, with the errors. -/
def openSteps (a : ProbeAnswers α) : List (Resource × ℤ) :=
  [(.privateData, 0), (.enabled, a.enable), (.regions, a.regions)]

def barSteps (a : ProbeAnswers α) : List (Resource × ℤ) :=
  [(.ioRegisters, noMem a.ioRegisters), (.ioMemory, noMem a.ioMemory)]

def entrySteps (a : ProbeAnswers α) : List (Resource × ℤ) :=
  [(.file, noMem a.file), (.miscDevice, noMem a.miscDevice), (.sem, noMem a.sem),
    (.dma, noMem a.dma)]

theorem acquireDevice_eq :
    acquireDevice devices deviceRef a =
      holdAll (openSteps a) devices (mapBars devices deviceRef a) := rfl

theorem mapBars_eq :
    mapBars devices deviceRef a =
      if a.ioBar = true ∧ a.memBar = true then
        holdAll (barSteps a) devices (allocateEntry devices deviceRef a)
      else ⟨-eInval, [], devices⟩ := by
  unfold mapBars
  cases a.ioBar <;> cases a.memBar <;> rfl

theorem allocateEntry_eq :
    allocateEntry devices deviceRef a =
      holdAll (entrySteps a) devices (addEntry devices deviceRef a) := rfl

omit [DecidableEq α] in
theorem noMem_eq_zero_iff {memory : Bool} : noMem memory = 0 ↔ memory = true := by
  cases memory <;> decide

omit [DecidableEq α] in
theorem prepared_iff :
    Prepared a ↔
      Granted (openSteps a) ∧ (a.ioBar = true ∧ a.memBar = true) ∧ Granted (barSteps a) ∧
        Granted (entrySteps a) := by
  simp only [openSteps, barSteps, entrySteps, granted_cons_iff, granted_nil, noMem_eq_zero_iff,
    and_true, true_and]
  constructor
  · rintro ⟨henable, hregions, hio, hmem, hioRegisters, hioMemory, hfile, hmisc, hsem, hdma⟩
    exact ⟨⟨henable, hregions⟩, ⟨hio, hmem⟩, ⟨hioRegisters, hioMemory⟩, hfile, hmisc, hsem, hdma⟩
  · rintro ⟨⟨henable, hregions⟩, ⟨hio, hmem⟩, ⟨hioRegisters, hioMemory⟩, hfile, hmisc, hsem, hdma⟩
    exact ⟨henable, hregions, hio, hmem, hioRegisters, hioMemory, hfile, hmisc, hsem, hdma⟩

theorem retval_acquireDevice_eq_zero_iff :
    (acquireDevice devices deviceRef a).retval = 0 ↔
      Prepared a ∧ (addEntry devices deviceRef a).retval = 0 := by
  rw [acquireDevice_eq, retval_holdAll_eq_zero_iff, mapBars_eq, prepared_iff, and_assoc]
  refine and_congr_right fun _ ↦ ?_
  by_cases hbars : a.ioBar = true ∧ a.memBar = true
  · rw [if_pos hbars, retval_holdAll_eq_zero_iff, allocateEntry_eq, retval_holdAll_eq_zero_iff,
      and_iff_right hbars, and_assoc]
  · have hinval : -eInval ≠ 0 := by decide
    rw [if_neg hbars]
    exact iff_of_false hinval fun h ↦ hbars h.1.1

/-- The pool is the one of `addEntry`, if the probe gets there. -/
theorem state_acquireDevice :
    (Prepared a →
        (acquireDevice devices deviceRef a).state = (addEntry devices deviceRef a).state) ∧
      (¬ Prepared a → (acquireDevice devices deviceRef a).state = devices) := by
  rw [prepared_iff, acquireDevice_eq, mapBars_eq, allocateEntry_eq]
  constructor
  · rintro ⟨hopen, hbars, hbar, hentry⟩
    rw [state_holdAll_of_granted hopen, if_pos hbars, state_holdAll_of_granted hbar,
      state_holdAll_of_granted hentry]
  · intro h
    by_cases hopen : Granted (openSteps a)
    · rw [state_holdAll_of_granted hopen]
      by_cases hbars : a.ioBar = true ∧ a.memBar = true
      · rw [if_pos hbars]
        by_cases hbar : Granted (barSteps a)
        · rw [state_holdAll_of_granted hbar]
          exact state_holdAll_of_not_granted fun hentry ↦ h ⟨hopen, hbars, hbar, hentry⟩
        · exact state_holdAll_of_not_granted hbar
      · rw [if_neg hbars]
    · exact state_holdAll_of_not_granted hopen

omit [DecidableEq α] in
theorem stage_openSteps : ∀ r ∈ (openSteps a).map Prod.fst, r.stage = 0 := by
  simp [openSteps, Resource.stage]

omit [DecidableEq α] in
theorem stage_barSteps : ∀ r ∈ (barSteps a).map Prod.fst, r.stage = 1 := by
  simp [barSteps, Resource.stage]

omit [DecidableEq α] in
theorem stage_entrySteps : ∀ r ∈ (entrySteps a).map Prod.fst, r.stage = 2 := by
  simp [entrySteps, Resource.stage]

/-- What is acquired before `addEntry` is given back whenever that gives its own back. -/
theorem undone_acquireDevice_iff :
    Undone (acquireDevice devices deviceRef a) ↔
      (Prepared a → Undone (addEntry devices deviceRef a)) := by
  have hentry : ∀ r, .release r ∈ (allocateEntry devices deviceRef a).ops → 2 ≤ r.stage := by
    intro r h
    rw [allocateEntry_eq] at h
    rcases release_mem_holdAll h with hstep | hadd
    · exact (stage_entrySteps r hstep).ge
    · exact Nat.le_of_succ_le (release_mem_addEntry hadd).ge
  have hbar : ∀ r, .release r ∈ (mapBars devices deviceRef a).ops → 1 ≤ r.stage := by
    intro r h
    rw [mapBars_eq] at h
    split at h
    · rcases release_mem_holdAll h with hstep | hrest
      · exact (stage_barSteps r hstep).ge
      · exact Nat.le_of_succ_le (hentry r hrest)
    · cases h
  rw [acquireDevice_eq, prepared_iff, and_imp, undone_holdAll_iff (by simp [openSteps]) fun r hr h ↦
    absurd (hbar r h) (by rw [stage_openSteps r hr]; decide)]
  refine imp_congr_right fun _ ↦ ?_
  rw [mapBars_eq]
  by_cases hbars : a.ioBar = true ∧ a.memBar = true
  · rw [if_pos hbars, and_iff_right hbars, and_imp,
      undone_holdAll_iff (by simp [barSteps]) fun r hr h ↦
        absurd (hentry r h) (by rw [stage_barSteps r hr]; decide)]
    refine imp_congr_right fun _ ↦ ?_
    rw [allocateEntry_eq]
    exact undone_holdAll_iff (by simp [entrySteps]) fun r hr h ↦
      absurd (release_mem_addEntry h) (by rw [stage_entrySteps r hr]; decide)
  · rw [if_neg hbars]
    exact iff_of_true (fun _ ↦ rfl) fun h ↦ absurd h.1 hbars

end Entry

/-! ## The probe -/

section Probe

variable {m : Module α} {a : ProbeAnswers α} {deviceRef : α}

theorem deviceProbe_of_limit (hlimit : ¬ m.devicesCount < deviceLimit) :
    deviceProbe m a = ⟨-eInval, [], 0, m⟩ := if_pos (UInt32.not_lt.mp hlimit)

theorem deviceProbe_of_none (hlimit : m.devicesCount < deviceLimit)
    (hdata : a.privateData = none) : deviceProbe m a = ⟨-eNoMem, [], 1, m⟩ := by
  rw [deviceProbe, if_neg (UInt32.not_le.mpr hlimit), hdata]

theorem deviceProbe_of_some (hlimit : m.devicesCount < deviceLimit)
    (hdata : a.privateData = some deviceRef) :
    deviceProbe m a =
      let attempt := acquireDevice m.pool deviceRef a
      ⟨attempt.retval, attempt.ops, 1,
        ⟨if attempt.retval = 0 then m.devicesCount + 1 else m.devicesCount, attempt.state⟩⟩ := by
  rw [deviceProbe, if_neg (UInt32.not_le.mpr hlimit), hdata]

theorem retval_acquireDevice_iff :
    (acquireDevice m.pool deviceRef a).retval = 0 ↔
      Prepared a ∧ some deviceRef ∉ m.pool ∧ a.pool = true ∧ a.misc = 0 := by
  rw [retval_acquireDevice_eq_zero_iff, retval_addEntry_eq_zero_iff]

/-- The answers with which a probe succeeds; those of `register_dma` do not matter. -/
theorem retval_deviceProbe_eq_zero_iff :
    (deviceProbe m a).retval = 0 ↔
      m.devicesCount < deviceLimit ∧
        (∃ deviceRef, a.privateData = some deviceRef ∧ some deviceRef ∉ m.pool) ∧
        Prepared a ∧ a.pool = true ∧ a.misc = 0 := by
  by_cases hlimit : m.devicesCount < deviceLimit
  · rw [and_iff_right hlimit]
    cases hdata : a.privateData with
    | none =>
      have hfails : -eNoMem ≠ 0 := by decide
      rw [deviceProbe_of_none hlimit hdata]
      refine iff_of_false hfails ?_
      rintro ⟨⟨_, hsome, _⟩, _⟩
      cases hsome
    | some deviceRef =>
      rw [deviceProbe_of_some hlimit hdata]
      dsimp only
      rw [retval_acquireDevice_iff]
      constructor
      · rintro ⟨hprepared, hnew, hrest⟩
        exact ⟨⟨deviceRef, rfl, hnew⟩, hprepared, hrest⟩
      · rintro ⟨⟨_, hsame, hnew⟩, hprepared, hrest⟩
        obtain rfl := Option.some.inj hsame
        exact ⟨hprepared, hnew, hrest⟩
  · have hfails : -eInval ≠ 0 := by decide
    rw [deviceProbe_of_limit hlimit]
    exact iff_of_false hfails fun h ↦ hlimit h.1

/-- A probe that fails leaves the device in the pool if it was there or has not been removed. -/
theorem mem_acquireDevice_iff (hfails : (acquireDevice m.pool deviceRef a).retval ≠ 0) :
    some deviceRef ∈ (acquireDevice m.pool deviceRef a).state ↔
      some deviceRef ∈ m.pool ∨
        Prepared a ∧ a.pool = true ∧ a.misc ≠ 0 ∧ ¬ Removable m.pool a := by
  by_cases hprepared : Prepared a
  · rw [state_acquireDevice.1 hprepared]
    by_cases hmem : some deviceRef ∈ m.pool
    · rw [addEntry_of_mem hmem]
      exact iff_of_true hmem (.inl hmem)
    · have hentry : (addEntry m.pool deviceRef a).retval ≠ 0 := fun hzero ↦
        hfails (retval_acquireDevice_eq_zero_iff.mpr ⟨hprepared, hzero⟩)
      rw [mem_addEntry_iff hmem hentry, or_iff_right hmem, and_iff_right hprepared]
  · rw [state_acquireDevice.2 hprepared, or_iff_left fun h ↦ hprepared h.1]

theorem probeSafe_of_allOrNothing (hdata : a.privateData = some deviceRef)
    (hlimit : m.devicesCount < deviceLimit) (h : AllOrNothing m a) : ProbeSafe m a := by
  obtain ⟨hundone, hunpooled, _, hdone, _⟩ := h
  rw [deviceProbe_of_some hlimit hdata] at hundone hunpooled hdone
  have hdevice : ∀ d ∈ a.privateData, d = deviceRef := by simp [hdata]
  have hleft (hfails : (acquireDevice m.pool deviceRef a).retval ≠ 0) :
      ¬ (some deviceRef ∈ m.pool ∨
        Prepared a ∧ a.pool = true ∧ a.misc ≠ 0 ∧ ¬ Removable m.pool a) := fun hmem ↦
    hunpooled hfails deviceRef hdata ((mem_acquireDevice_iff hfails).mpr hmem)
  have hfresh : some deviceRef ∉ m.pool := by
    intro hmem
    have hfails : (acquireDevice m.pool deviceRef a).retval ≠ 0 := fun hzero ↦
      (retval_acquireDevice_iff.mp hzero).2.1 hmem
    exact hleft hfails (.inl hmem)
  have hremovable (hprepared : Prepared a) (hpool : a.pool = true) (hmisc : a.misc ≠ 0) :
      Removable m.pool a := by
    have hfails : (acquireDevice m.pool deviceRef a).retval ≠ 0 := fun hzero ↦
      hmisc (retval_acquireDevice_iff.mp hzero).2.2.2
    by_contra hremovable
    exact hleft hfails (.inr ⟨hprepared, hpool, hmisc, hremovable⟩)
  refine ⟨hlimit, fun _ hprepared hpool hmisc ↦ ?_, fun d hd ↦ ?_, fun _ hprepared ↦ ?_,
    fun _ ↦ hremovable⟩
  · have hzero := retval_acquireDevice_iff.mpr ⟨hprepared, hfresh, hpool, hmisc⟩
    exact registered_done_iff.mp (hdone hzero).2.2.1
  · rw [hdevice d hd]
    exact hfresh
  · exact (undone_addEntry_iff hfresh (hremovable hprepared)).mp
      (undone_acquireDevice_iff.mp hundone hprepared)

theorem allOrNothing_of_probeSafe (hdata : a.privateData = some deviceRef) (h : ProbeSafe m a) :
    AllOrNothing m a := by
  obtain ⟨hlimit, hregisters, hfresh, hblocks, hremovable⟩ := h
  have hsome : a.privateData.isSome = true := by simp [hdata]
  have hdevice : ∀ d ∈ a.privateData, d = deviceRef := by simp [hdata]
  have hnew : some deviceRef ∉ m.pool := hfresh deviceRef hdata
  constructor
  · rw [deviceProbe_of_some hlimit hdata]
    exact undone_acquireDevice_iff.mpr fun hprepared ↦
      (undone_addEntry_iff hnew (hremovable hsome hprepared)).mpr (hblocks hsome hprepared)
  · rw [deviceProbe_of_some hlimit hdata]
    intro hfails d hd
    rw [hdevice d hd, mem_acquireDevice_iff hfails, or_iff_right hnew]
    rintro ⟨hprepared, hpool, hmisc, hstays⟩
    exact hstays (hremovable hsome hprepared hpool hmisc)
  · rw [deviceProbe_of_some hlimit hdata]
    exact fun hfails ↦ if_neg hfails
  · rw [deviceProbe_of_some hlimit hdata]
    intro hzero
    obtain ⟨hprepared, _, hpool, hmisc⟩ := retval_acquireDevice_iff.mp hzero
    have hregistered := registered_done_iff.mpr (hregisters hsome hprepared hpool hmisc)
    exact ⟨hsome, hprepared, hregistered, hpool, hmisc⟩
  · rw [deviceProbe_of_some hlimit hdata]

/-- Without memory for the private data nothing has been acquired. -/
theorem allOrNothing_of_none (hlimit : m.devicesCount < deviceLimit)
    (hdata : a.privateData = none) : AllOrNothing m a := by
  have hprobe : deviceProbe m a = ⟨-eNoMem, [], 1, m⟩ := deviceProbe_of_none hlimit hdata
  have hfails : -eNoMem ≠ 0 := by decide
  constructor
  · rw [hprobe]
    exact fun _ ↦ rfl
  · intro _ deviceRef hdevice
    rw [hdata] at hdevice
    cases hdevice
  · rw [hprobe]
    exact fun _ ↦ rfl
  · rw [hprobe]
    exact fun hdone ↦ absurd hdone hfails
  · rw [hprobe]

omit [DecidableEq α] in
theorem probeSafe_of_none (hlimit : m.devicesCount < deviceLimit) (hdata : a.privateData = none) :
    ProbeSafe m a := by
  have hsome : a.privateData.isSome ≠ true := by simp [hdata]
  refine ⟨hlimit, fun h ↦ absurd h hsome, fun deviceRef hdevice ↦ ?_, fun h ↦ absurd h hsome,
    fun h ↦ absurd h hsome⟩
  rw [hdata] at hdevice
  cases hdevice

/-- A probe gets everything or leaves nothing, if and only if the condition holds. -/
theorem allOrNothing_iff (m : Module α) (a : ProbeAnswers α) :
    AllOrNothing m a ↔ ProbeSafe m a := by
  by_cases hlimit : m.devicesCount < deviceLimit
  · cases hdata : a.privateData with
    | none => exact iff_of_true (allOrNothing_of_none hlimit hdata) (probeSafe_of_none hlimit hdata)
    | some deviceRef =>
      exact ⟨probeSafe_of_allOrNothing hdata hlimit, allOrNothing_of_probeSafe hdata⟩
  · refine iff_of_false (fun h ↦ ?_) fun h ↦ hlimit h.limit
    have hups := h.sem
    rw [deviceProbe_of_limit hlimit] at hups
    cases hups

/-- Without memory for the DMA buffers the probe succeeds all the same. -/
theorem not_allOrNothing_registers :
    ¬ ∀ (m : Module ℕ) (a : ProbeAnswers ℕ), AllOrNothing m a := by
  intro hall
  let a : ProbeAnswers ℕ := .granted 0 ⟨false, false, 0, 0⟩
  have hdone : (deviceProbe ⟨0, []⟩ a).retval = 0 := by decide
  have hfails : a.registered.2.2 ≠ 0 := by decide
  exact hfails ((hall ⟨0, []⟩ a).done hdone).2.2.1

end Probe

end QNet.AnB
