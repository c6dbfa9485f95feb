import QNet.AnB.Resize
import QNet.AnB.Words

/-!
# Reading and writing the AnB device

`read` dumps the registers or a table of the board, and `write` fills a table. The field `table` of
the register `RegMode` selects the table in the memory BAR; both functions set it and write the old
value back when they are done. They let go of the semaphore while they allocate the kernel buffer.

When the second `down_interruptible` is interrupted both return at once, and when DMA is started
`write` writes back a copy of the register that it has not made. `restores_iff` says that these are
the only ways to leave the register changed or the buffer allocated.

Registers hold what is written to them, and nobody else uses the device during a call.
-/

namespace QNet.AnB

/-- The bytes of `union AnBReg`. -/
structure AnBReg where
  b0 : UInt8
  b1 : UInt8
  b2 : UInt8
  b3 : UInt8
  deriving DecidableEq

/-- The tables of the board: `enum DestTables`, and the first sources of `enum DumpSources`. -/
inductive Table
  | rng
  | dac
  | cal
  deriving DecidableEq

/-- `enum DumpSources`. -/
inductive DumpSource
  | bar1 (table : Table)
  | bar0
  | illegal
  deriving DecidableEq

namespace AnBReg

def toList (w : AnBReg) : List UInt8 := [w.b0, w.b1, w.b2, w.b3]

/-- The field `mode.table`, bits 24 and 25. -/
def table (w : AnBReg) : UInt8 := w.b3 % 4

def setTable (w : AnBReg) (table : UInt8) : AnBReg := { w with b3 := w.b3 / 4 * 4 + table }

end AnBReg

namespace Table

def code : Table → UInt8
  | rng => 0
  | dac => 1
  | cal => 2

/-- `AnBTableMemorySize`. -/
def memorySize : Table → ℕ
  | rng => 2048
  | dac => 4096 * 4
  | cal => 128 * 4

end Table

/-- What `read` and `write` use of a device. The memory BAR shows the table that `RegMode`
selects. -/
structure FileDevice where
  registers : Mem
  /-- The length of the register BAR. -/
  length : ℕ
  memory : UInt8 → Mem
  dmaStarted : Bool
  dumpSource : DumpSource
  destTable : Table

namespace FileDevice

/-- `RegMode`. -/
def regMode (d : FileDevice) : AnBReg :=
  ⟨d.registers 8, d.registers 9, d.registers 10, d.registers 11⟩

def writeMode (d : FileDevice) (w : AnBReg) : FileDevice :=
  { d with registers := d.registers.store 8 w.toList }

def selectTable (d : FileDevice) (table : Table) : FileDevice :=
  d.writeMode (d.regMode.setTable table.code)

/-- The table in the memory BAR. -/
def shown (d : FileDevice) : Mem := d.memory d.regMode.table

end FileDevice

/-- Calls for the semaphore of the device and for the kernel buffer. -/
inductive FileCall
  | down
  | up
  | kmalloc
  | kfree
  deriving DecidableEq

/-- What happens to a call: whether there are the device and its entry, whether a signal interrupts
the semaphore, whether there is memory for the buffer and what lies in it, the number of bytes that
could not be copied from or to the user, and what lies in the variable `reg_old`. -/
structure FileEnv where
  present : Bool
  signal : Bool
  signalAgain : Bool
  kmalloc : Bool
  heap : Mem
  uncopied : ℕ
  regOld : AnBReg

/-- `heap` is the memory from the first byte of the kernel buffer on. -/
structure FileResult where
  retval : ℤ
  device : FileDevice
  calls : List FileCall
  offset : ℕ
  data : List UInt8
  heap : Mem

def eNoDev : ℤ := 19

/-- What `read` has chosen in its `switch`: the device, the size, the old `RegMode` if it has to be
restored, and the memory behind `source_method`. -/
structure Selection where
  device : FileDevice
  size : ℕ
  restore : Option AnBReg
  source : Mem

/-- The `switch` of `read`; `none` is `-EINVAL`. -/
def FileDevice.select (d : FileDevice) : Option Selection :=
  match d.dumpSource with
  | .bar0 => some ⟨d, d.length, none, d.registers⟩
  | .bar1 table =>
      let selected := d.selectTable table
      some ⟨selected, table.memorySize, some d.regMode, selected.shown⟩
  | .illegal => none

/-- The label `done` of `read`. -/
def Selection.done (s : Selection) : FileDevice := s.restore.elim s.device s.device.writeMode

/-- `size` after it has been compared with the end. -/
def clip (sourceSize size offset : ℕ) : ℕ :=
  if offset + size > sourceSize then sourceSize - offset else size

/-- The buffer that `kmalloc` has returned. -/
def FileEnv.allocated (env : FileEnv) : List FileCall := if env.kmalloc then [.kmalloc] else []

/-- `read` behind its `switch`. -/
def readSelected (s : Selection) (env : FileEnv) (size offset : ℕ) : FileResult :=
  if offset > s.size then ⟨0, s.done, [.down, .up], offset, [], env.heap⟩
  else
    let size := clip s.size size offset
    if size = 0 then ⟨0, s.done, [.down, .up], offset, [], env.heap⟩
    else if env.signalAgain then
      ⟨-eRestartSys, s.device, [.down, .up] ++ env.allocated, offset, [], env.heap⟩
    else if !env.kmalloc then
      ⟨-eNoMem, s.done, [.down, .up, .down, .up], offset, [], env.heap⟩
    else
      let heap := memRead s.source env.heap size offset
      let calls := [.down, .up, .kmalloc, .down, .kfree, .up]
      let data := heap.slice 0 (size - env.uncopied)
      if env.uncopied ≠ 0 then ⟨env.uncopied, s.done, calls, offset, data, heap⟩
      else ⟨size, s.done, calls, size, data, heap⟩

/-- `read`. -/
def read (d : FileDevice) (env : FileEnv) (size offset : ℕ) : FileResult :=
  if !env.present then ⟨-eNoDev, d, [], offset, [], env.heap⟩
  else if env.signal then ⟨-eRestartSys, d, [], offset, [], env.heap⟩
  else if d.dmaStarted then ⟨-eBusy, d, [.down, .up], offset, [], env.heap⟩
  else
    match d.select with
    | none => ⟨-eInval, d, [.down, .up], offset, [], env.heap⟩
    | some s => readSelected s env size offset

/-- `DevMemoryWrite`. -/
def devMemoryWrite (d : FileDevice) (buffer : Mem) (size offset : ℕ) : FileDevice :=
  { d with
    memory := Function.update d.memory d.regMode.table (memWrite d.shown buffer size offset) }

/-- `write`; `buffer` is the memory of the user. -/
def write (d : FileDevice) (env : FileEnv) (buffer : Mem) (size offset : ℕ) : FileResult :=
  if !env.present then ⟨-eNoDev, d, [], offset, [], env.heap⟩
  else if env.signal then ⟨-eRestartSys, d, [], offset, [], env.heap⟩
  else if d.dmaStarted then
    -- the copy of the register has not been made yet
    ⟨-eBusy, d.writeMode env.regOld, [.down, .up], offset, [], env.heap⟩
  else
    let regOld := d.regMode
    let d := d.selectTable d.destTable
    let sourceSize := d.destTable.memorySize
    if offset > sourceSize then ⟨0, d.writeMode regOld, [.down, .up], offset, [], env.heap⟩
    else
      let size := clip sourceSize size offset
      if size = 0 then ⟨0, d.writeMode regOld, [.down, .up], offset, [], env.heap⟩
      else if env.signalAgain then
        ⟨-eRestartSys, d, [.down, .up] ++ env.allocated, offset, [], env.heap⟩
      else if !env.kmalloc then
        ⟨-eNoMem, d.writeMode regOld, [.down, .up, .down, .up], offset, [], env.heap⟩
      else
        let heap := env.heap.store 0 (buffer.slice 0 (size - env.uncopied))
        let calls := [.down, .up, .kmalloc, .down, .kfree, .up]
        if env.uncopied ≠ 0 then ⟨env.uncopied, d.writeMode regOld, calls, offset, [], heap⟩
        else
          let d := devMemoryWrite d heap size offset
          ⟨size, d.writeMode regOld, calls, size, [], heap⟩

/-! ## What a call leaves behind -/

/-- The call has restored `RegMode`, and released what it has acquired. -/
structure Restores (d : FileDevice) (r : FileResult) : Prop where
  regMode_eq : r.device.regMode = d.regMode
  sem : r.calls.count .down = r.calls.count .up
  buffer : r.calls.count .kmalloc = r.calls.count .kfree

/-- The call has the semaphore, and DMA is not started. -/
def Proceeds (d : FileDevice) (env : FileEnv) : Prop :=
  env.present = true ∧ env.signal = false ∧ d.dmaStarted = false

/-- The call gets to the second `down_interruptible`, and is interrupted there. -/
def InterruptedAgain (d : FileDevice) (env : FileEnv) (sourceSize size offset : ℕ) : Prop :=
  Proceeds d env ∧ offset < sourceSize ∧ 0 < size ∧ env.signalAgain = true

/-- There is no memory for the buffer, and the table is selected already. -/
def NothingToRestore (d : FileDevice) (env : FileEnv) (table : Table) : Prop :=
  env.kmalloc = false ∧ d.regMode.table = table.code

/-- An interrupted `read` has nothing to restore. -/
def ReadSafe (d : FileDevice) (env : FileEnv) (size offset : ℕ) : Prop :=
  (∀ table, d.dumpSource = .bar1 table → InterruptedAgain d env table.memorySize size offset →
    NothingToRestore d env table) ∧
  (d.dumpSource = .bar0 → InterruptedAgain d env d.length size offset → env.kmalloc = false)

/-- An interrupted `write` has nothing to restore, and where DMA is started the variable happens to
hold the register. -/
def WriteSafe (d : FileDevice) (env : FileEnv) (size offset : ℕ) : Prop :=
  (InterruptedAgain d env d.destTable.memorySize size offset →
    NothingToRestore d env d.destTable) ∧
  (env.present = true → env.signal = false → d.dmaStarted = true → env.regOld = d.regMode)

section

variable {d : FileDevice} {env : FileEnv} {size offset : ℕ} {s : Selection}

theorem clip_ne_zero_iff (size : ℕ) {sourceSize : ℕ} (hoffset : ¬ offset > sourceSize) :
    clip sourceSize size offset ≠ 0 ↔ offset < sourceSize ∧ 0 < size := by
  unfold clip
  split_ifs <;> omega

namespace FileDevice

@[simp]
theorem regMode_writeMode (d : FileDevice) (w : AnBReg) : (d.writeMode w).regMode = w := by
  simp [writeMode, regMode, Mem.store, AnBReg.toList]

/-- The register changes unless the table is selected already. -/
theorem regMode_selectTable_eq_iff {table : Table} :
    (d.selectTable table).regMode = d.regMode ↔ d.regMode.table = table.code := by
  have hcode : table.code.toNat < 4 := by cases table <;> decide
  have hdiv := Nat.div_add_mod (d.regMode.b3).toNat 4
  have hlt := (d.regMode.b3).toNat_lt
  have hbyte : d.regMode.b3 / 4 * 4 + table.code = d.regMode.b3 ↔
      d.regMode.b3 % 4 = table.code := by
    rw [← UInt8.toNat_inj, ← UInt8.toNat_inj, UInt8.toNat_add, UInt8.toNat_mul, UInt8.toNat_div,
      UInt8.toNat_mod]
    change (_ / 4 * 4 % 2 ^ 8 + _) % 2 ^ 8 = _ ↔ _ % 4 = _
    omega
  rw [selectTable, regMode_writeMode, AnBReg.table, ← hbyte]
  constructor
  · exact congrArg AnBReg.b3
  · intro heq
    rw [AnBReg.setTable, heq]

theorem regMode_done (h : d.select = some s) : s.done.regMode = d.regMode := by
  unfold select at h
  split at h
  · obtain rfl := Option.some.inj h
    rfl
  · obtain rfl := Option.some.inj h
    exact regMode_writeMode _ _
  · exact absurd h.symm (Option.some_ne_none s)

end FileDevice

/-- A call that returns at the second semaphore keeps the buffer. -/
theorem restores_interrupted_iff {d' : FileDevice} {retval : ℤ} {data : List UInt8} {heap : Mem} :
    Restores d ⟨retval, d', [.down, .up] ++ env.allocated, offset, data, heap⟩ ↔
      env.kmalloc = false ∧ d'.regMode = d.regMode := by
  constructor
  · intro h
    refine ⟨?_, h.regMode_eq⟩
    have hbuffer := h.buffer
    cases hkmalloc : env.kmalloc with
    | false => rfl
    | true =>
      rw [FileEnv.allocated, hkmalloc] at hbuffer
      change List.count FileCall.kmalloc [.down, .up, .kmalloc] =
        List.count FileCall.kfree [.down, .up, .kmalloc] at hbuffer
      exact absurd hbuffer (by decide)
  · rintro ⟨hkmalloc, hmode⟩
    refine ⟨hmode, ?_, ?_⟩
    · rw [FileEnv.allocated, hkmalloc]
      rfl
    · rw [FileEnv.allocated, hkmalloc]
      rfl

theorem restores_readSelected_iff (hdone : s.done.regMode = d.regMode) :
    Restores d (readSelected s env size offset) ↔
      (offset < s.size → 0 < size → env.signalAgain = true →
        env.kmalloc = false ∧ s.device.regMode = d.regMode) := by
  unfold readSelected
  by_cases hbehind : offset > s.size
  · rw [if_pos hbehind]
    exact iff_of_true ⟨hdone, rfl, rfl⟩ fun hlt ↦ absurd hlt (by omega)
  · rw [if_neg hbehind]
    dsimp only
    have hempty := clip_ne_zero_iff size hbehind
    by_cases hzero : clip s.size size offset = 0
    · rw [if_pos hzero]
      exact iff_of_true ⟨hdone, rfl, rfl⟩ fun hlt hsize ↦ absurd hzero (hempty.mpr ⟨hlt, hsize⟩)
    · rw [if_neg hzero]
      obtain ⟨hlt, hsize⟩ := hempty.mp hzero
      cases hsignal : env.signalAgain with
      | true =>
        rw [if_pos rfl, restores_interrupted_iff]
        exact ⟨fun h _ _ _ ↦ h, fun h ↦ h hlt hsize rfl⟩
      | false =>
        rw [if_neg Bool.false_ne_true]
        refine iff_of_true ?_ fun _ _ hagain ↦ absurd hagain Bool.false_ne_true
        split
        · exact ⟨hdone, rfl, rfl⟩
        · split <;> exact ⟨hdone, rfl, rfl⟩

theorem read_of_proceeds (h : Proceeds d env) :
    read d env size offset =
      match d.select with
      | none => ⟨-eInval, d, [.down, .up], offset, [], env.heap⟩
      | some s => readSelected s env size offset := by
  obtain ⟨hpresent, hsignal, hstarted⟩ := h
  rw [read, hpresent, hsignal, hstarted]
  rfl

theorem restores_read_of_not_proceeds (h : ¬ Proceeds d env) :
    Restores d (read d env size offset) := by
  unfold read
  cases hpresent : env.present with
  | false => exact ⟨rfl, rfl, rfl⟩
  | true =>
    cases hsignal : env.signal with
    | true => exact ⟨rfl, rfl, rfl⟩
    | false =>
      have hstarted : d.dmaStarted = true :=
        Bool.of_not_eq_false fun hidle ↦ h ⟨hpresent, hsignal, hidle⟩
      rw [hstarted]
      exact ⟨rfl, rfl, rfl⟩

/-- A `read` restores the register and frees the buffer, unless it is interrupted behind the
`switch` with something to restore. -/
theorem restores_read_iff : Restores d (read d env size offset) ↔ ReadSafe d env size offset := by
  by_cases hproceeds : Proceeds d env
  · rw [read_of_proceeds hproceeds]
    unfold ReadSafe InterruptedAgain NothingToRestore
    cases hsource : d.dumpSource with
    | illegal =>
      have hselect : d.select = none := by rw [FileDevice.select, hsource]
      rw [hselect]
      exact iff_of_true ⟨rfl, rfl, rfl⟩ ⟨nofun, nofun⟩
    | bar0 =>
      have hselect : d.select = some ⟨d, d.length, none, d.registers⟩ := by
        rw [FileDevice.select, hsource]
      have hdone : Selection.done ⟨d, d.length, none, d.registers⟩ = d := rfl
      rw [hselect]
      dsimp only
      rw [restores_readSelected_iff (congrArg FileDevice.regMode hdone)]
      refine ⟨fun h ↦ ⟨nofun, ?_⟩, fun h hlt hsize hagain ↦ ?_⟩
      · rintro - ⟨_, hlt, hsize, hagain⟩
        exact (h hlt hsize hagain).1
      · exact ⟨h.2 rfl ⟨hproceeds, hlt, hsize, hagain⟩, rfl⟩
    | bar1 table =>
      have hselect : d.select = some ⟨d.selectTable table, table.memorySize, some d.regMode,
          (d.selectTable table).shown⟩ := by
        rw [FileDevice.select, hsource]
      rw [hselect]
      dsimp only
      rw [restores_readSelected_iff (d.regMode_done hselect)]
      refine ⟨fun h ↦ ⟨?_, nofun⟩, fun h hlt hsize hagain ↦ ?_⟩
      · rintro _ ⟨⟩ ⟨_, hlt, hsize, hagain⟩
        obtain ⟨hkmalloc, hmode⟩ := h hlt hsize hagain
        exact ⟨hkmalloc, FileDevice.regMode_selectTable_eq_iff.mp hmode⟩
      · obtain ⟨hkmalloc, htable⟩ := h.1 table rfl ⟨hproceeds, hlt, hsize, hagain⟩
        exact ⟨hkmalloc, FileDevice.regMode_selectTable_eq_iff.mpr htable⟩
  · exact iff_of_true (restores_read_of_not_proceeds hproceeds)
      ⟨fun _ _ h ↦ absurd h.1 hproceeds, fun _ h ↦ absurd h.1 hproceeds⟩

/-- `write` behind its first checks. -/
theorem restores_write_of_proceeds {buffer : Mem} (h : Proceeds d env) :
    Restores d (write d env buffer size offset) ↔
      (offset < d.destTable.memorySize → 0 < size → env.signalAgain = true →
        NothingToRestore d env d.destTable) := by
  obtain ⟨hpresent, hsignal, hstarted⟩ := h
  have hdone {d' : FileDevice} : (d'.writeMode d.regMode).regMode = d.regMode :=
    d'.regMode_writeMode d.regMode
  have htable : (d.selectTable d.destTable).destTable = d.destTable := rfl
  unfold write
  simp only [hpresent, hsignal, hstarted, Bool.not_true, Bool.false_eq_true, if_false, htable]
  by_cases hbehind : offset > d.destTable.memorySize
  · rw [if_pos hbehind]
    exact iff_of_true ⟨hdone, rfl, rfl⟩ fun hlt ↦ absurd hlt (by omega)
  · rw [if_neg hbehind]
    have hempty := clip_ne_zero_iff size hbehind
    by_cases hzero : clip d.destTable.memorySize size offset = 0
    · rw [if_pos hzero]
      exact iff_of_true ⟨hdone, rfl, rfl⟩ fun hlt hsize ↦ absurd hzero (hempty.mpr ⟨hlt, hsize⟩)
    · rw [if_neg hzero]
      obtain ⟨hlt, hsize⟩ := hempty.mp hzero
      cases hagain : env.signalAgain with
      | true =>
        rw [if_pos rfl, restores_interrupted_iff, FileDevice.regMode_selectTable_eq_iff]
        exact ⟨fun h _ _ _ ↦ h, fun h ↦ h hlt hsize rfl⟩
      | false =>
        rw [if_neg Bool.false_ne_true]
        refine iff_of_true ?_ fun _ _ hagain ↦ absurd hagain Bool.false_ne_true
        split
        · exact ⟨hdone, rfl, rfl⟩
        · split <;> exact ⟨hdone, rfl, rfl⟩

/-- A `write` restores the register and frees the buffer, unless it is interrupted with something to
restore, or DMA is started. -/
theorem restores_write_iff {buffer : Mem} :
    Restores d (write d env buffer size offset) ↔ WriteSafe d env size offset := by
  unfold WriteSafe InterruptedAgain
  by_cases hproceeds : Proceeds d env
  · rw [restores_write_of_proceeds hproceeds]
    constructor
    · rintro h
      refine ⟨fun hagain ↦ h hagain.2.1 hagain.2.2.1 hagain.2.2.2, fun _ _ hstarted ↦ ?_⟩
      exact absurd (hproceeds.2.2.symm.trans hstarted) Bool.false_ne_true
    · rintro ⟨h, _⟩ hlt hsize hagain
      exact h ⟨hproceeds, hlt, hsize, hagain⟩
  · have hnever {sourceSize : ℕ} : ¬ (Proceeds d env ∧ offset < sourceSize ∧ 0 < size ∧
        env.signalAgain = true) := fun h ↦ hproceeds h.1
    rw [iff_true_intro fun h ↦ absurd h hnever, true_and]
    unfold write
    cases hpresent : env.present with
    | false => exact iff_of_true ⟨rfl, rfl, rfl⟩ nofun
    | true =>
      cases hsignal : env.signal with
      | true => exact iff_of_true ⟨rfl, rfl, rfl⟩ nofun
      | false =>
        have hstarted : d.dmaStarted = true :=
          Bool.of_not_eq_false fun hidle ↦ hproceeds ⟨hpresent, hsignal, hidle⟩
        rw [hstarted]
        constructor
        · exact fun h _ _ _ ↦ (d.regMode_writeMode env.regOld).symm.trans h.regMode_eq
        · exact fun h ↦ ⟨(d.regMode_writeMode env.regOld).trans (h rfl rfl rfl), rfl, rfl⟩

/-- The two functions leave the register and the buffer as they should, if and only if none of the
returns is taken that forget them. -/
theorem restores_iff (d : FileDevice) (env : FileEnv) (buffer : Mem) (size offset : ℕ) :
    (Restores d (read d env size offset) ↔ ReadSafe d env size offset) ∧
      (Restores d (write d env buffer size offset) ↔ WriteSafe d env size offset) :=
  ⟨restores_read_iff, restores_write_iff⟩

/-- A `read` of the second table that is interrupted leaves the table selected. -/
theorem not_restores_read :
    ¬ ∀ (d : FileDevice) (env : FileEnv) (buffer : Mem) (size offset : ℕ),
      Restores d (read d env size offset) ∧ Restores d (write d env buffer size offset) := by
  intro hall
  let d : FileDevice := ⟨fun _ ↦ 0, 256, fun _ _ ↦ 0, false, .bar1 .dac, .rng⟩
  let env : FileEnv := ⟨true, false, true, true, fun _ ↦ 0, 0, ⟨0, 0, 0, 0⟩⟩
  have hmode := (hall d env (fun _ ↦ 0) 16 0).1.regMode_eq
  exact absurd hmode (by decide)

end

end QNet.AnB
