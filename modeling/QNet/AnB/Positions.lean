import QNet.AnB.Files

/-!
# The position in the file of an AnB device

A user who reads or writes the file with one call after the other expects that every call goes on
where the last one has stopped. Both functions set the position to the size of the call instead of
adding it, and behind the start of the memory they only handle whole words. `fileInOrder_iff` says
which sequences of sizes are read and written as expected: all within the first call, or two calls
of whole words, and three calls where the mistakes cancel each other.

All calls succeed here; only the sizes, the contents of the memories and what lies in the kernel
buffers are arbitrary.
-/

namespace QNet.AnB

/-- A call to which nothing happens. -/
def FileEnv.granted (heap : Mem) : FileEnv := ⟨true, false, false, true, heap, 0, ⟨0, 0, 0, 0⟩⟩

/-- The size of a source; a device has registers of any length. -/
def DumpSource.size (source : DumpSource) (length : ℕ) : ℕ :=
  match source with
  | .bar1 table => table.memorySize
  | .bar0 => length
  | .illegal => 0

/-- The bytes of the source. -/
def FileDevice.contents (d : FileDevice) : Mem :=
  match d.dumpSource with
  | .bar1 table => d.memory table.code
  | .bar0 => d.registers
  | .illegal => fun _ ↦ 0

/-- The bytes that are left for a call. -/
def segment (sourceSize size pos : ℕ) : ℕ := min size (sourceSize - pos)

/-- A `read` at position `pos` of the file: the next bytes of the source. It has to stay in its
kernel buffer, since nobody knows what lies behind it. -/
structure ReadsSegment (contents : Mem) (n pos : ℕ) (heap : Mem) (r : FileResult) : Prop where
  retval_eq : r.retval = n
  data_eq : r.data = contents.slice pos n
  heap_eq : ∀ i, n ≤ i → r.heap i = heap i

/-- Calls of `read` with a size and what lies in the kernel buffer. The driver keeps `offset`, and
the user has got the bytes before `pos`. -/
def ReadsInOrder (d : FileDevice) (sourceSize : ℕ) : ℕ → ℕ → List (ℕ × Mem) → Prop
  | _, _, [] => True
  | offset, pos, (size, heap) :: rest =>
      let r := read d (.granted heap) size offset
      let n := segment sourceSize size pos
      ReadsSegment d.contents n pos heap r ∧
        ReadsInOrder r.device sourceSize r.offset (pos + n) rest

/-- The device after `n` bytes have been stored at `pos` in the table that is written. -/
def FileDevice.stored (d : FileDevice) (pos : ℕ) (bytes : List UInt8) : FileDevice :=
  { d with
    memory := Function.update d.memory d.destTable.code
      ((d.memory d.destTable.code).store pos bytes) }

/-- A `write` at position `pos` of the file: the bytes of the user in the table, and nothing
else. -/
structure WritesSegment (d : FileDevice) (n pos : ℕ) (buffer : Mem) (r : FileResult) : Prop where
  retval_eq : r.retval = n
  device_eq : r.device = d.stored pos (buffer.slice 0 n)

/-- Calls of `write` with a size, the bytes of the user and what lies in the kernel buffer. -/
def WritesInOrder (d : FileDevice) (sourceSize : ℕ) : ℕ → ℕ → List (ℕ × Mem × Mem) → Prop
  | _, _, [] => True
  | offset, pos, (size, buffer, heap) :: rest =>
      let r := write d (.granted heap) buffer size offset
      let n := segment sourceSize size pos
      WritesSegment d n pos buffer r ∧ WritesInOrder r.device sourceSize r.offset (pos + n) rest

/-- The sizes for which the position does not matter. Empty calls do nothing. -/
def Consecutive (sourceSize : ℕ) (sizes : List ℕ) : Prop :=
  match sizes.filter (· ≠ 0) with
  | [] => True
  | [_] => True
  | [first, second] =>
      sourceSize ≤ first ∨ first % 4 = 0 ∧ min second (sourceSize - first) % 4 = 0
  | [first, second, third] =>
      sourceSize ≤ first ∨
        -- the third call reads the tail at five times its offset
        second % 4 = 0 ∧ first = 4 * second ∧ third < 4 ∧ first + second + third ≤ sourceSize
  | first :: _ => sourceSize ≤ first

/-! ## One call -/

/-- A call at `offset` does what is expected at `pos`. -/
def RightCall (sourceSize size offset pos : ℕ) : Prop :=
  segment sourceSize size offset = segment sourceSize size pos ∧
    (segment sourceSize size pos ≠ 0 → WordRange (segment sourceSize size pos) offset pos)

section

variable {d : FileDevice} {s : Selection} {sourceSize size offset pos : ℕ} {heap buffer : Mem}

theorem segment_eq (hoffset : ¬ offset > sourceSize) :
    clip sourceSize size offset = segment sourceSize size offset := by
  unfold clip segment
  split_ifs <;> omega

namespace FileDevice

theorem writeMode_writeMode (d : FileDevice) (w w' : AnBReg) :
    (d.writeMode w).writeMode w' = d.writeMode w' := by
  have hregisters : (d.registers.store 8 w.toList).store 8 w'.toList =
      d.registers.store 8 w'.toList := Mem.store_store_of_length rfl
  unfold writeMode
  rw [hregisters]

/-- The old value of the register restores the device. -/
theorem writeMode_regMode (d : FileDevice) : d.writeMode d.regMode = d := by
  have hmode : d.regMode.toList = d.registers.slice 8 4 := rfl
  unfold writeMode
  rw [hmode, Mem.store_slice_self]

theorem table_selectTable (d : FileDevice) (table : Table) :
    (d.selectTable table).regMode.table = table.code := by
  have hcode : table.code.toNat < 4 := by cases table <;> decide
  rw [selectTable, regMode_writeMode, AnBReg.setTable, AnBReg.table, ← UInt8.toNat_inj,
    UInt8.toNat_mod, UInt8.toNat_add, UInt8.toNat_mul, UInt8.toNat_div]
  change (_ / 4 * 4 % 2 ^ 8 + _) % 2 ^ 8 % 4 = _
  omega

/-- What `read` chooses, and that it leaves the device as it was. -/
theorem exists_select (hlegal : d.dumpSource ≠ .illegal) :
    ∃ s, d.select = some s ∧ s.size = d.dumpSource.size d.length ∧ s.source = d.contents ∧
      s.done = d := by
  unfold select contents DumpSource.size
  cases hsource : d.dumpSource with
  | illegal => exact absurd hsource hlegal
  | bar0 => exact ⟨_, rfl, rfl, rfl, rfl⟩
  | bar1 table =>
    refine ⟨_, rfl, rfl, ?_, ?_⟩
    · exact congrArg d.memory (d.table_selectTable table)
    · exact (d.writeMode_writeMode _ _).trans d.writeMode_regMode

end FileDevice

/-- A `read` to which nothing happens. -/
theorem read_granted (hselect : d.select = some s) (hstarted : d.dmaStarted = false) :
    read d (.granted heap) size offset =
      if segment s.size size offset = 0 then ⟨0, s.done, [.down, .up], offset, [], heap⟩
      else
        let n := segment s.size size offset
        ⟨n, s.done, [.down, .up, .kmalloc, .down, .kfree, .up], n,
          (memRead s.source heap n offset).slice 0 n, memRead s.source heap n offset⟩ := by
  rw [read_of_proceeds ⟨rfl, rfl, hstarted⟩, hselect]
  dsimp only
  unfold readSelected
  by_cases hbehind : offset > s.size
  · have hzero : segment s.size size offset = 0 := by
      unfold segment
      omega
    rw [if_pos hbehind, if_pos hzero]
    rfl
  · rw [if_neg hbehind, segment_eq hbehind]
    rfl

/-- The offset after a call. -/
def nextOffset (sourceSize size offset : ℕ) : ℕ :=
  if segment sourceSize size offset = 0 then offset else segment sourceSize size offset

/-- A `read` leaves the device as it was, and its own size as the offset. -/
theorem read_granted_next (hlegal : d.dumpSource ≠ .illegal) (hstarted : d.dmaStarted = false) :
    (read d (.granted heap) size offset).device = d ∧
      (read d (.granted heap) size offset).offset =
        nextOffset (d.dumpSource.size d.length) size offset := by
  obtain ⟨s, hselect, hsize, _, hdone⟩ := d.exists_select hlegal
  rw [read_granted hselect hstarted, ← hsize, nextOffset]
  split_ifs
  · exact ⟨hdone, rfl⟩
  · exact ⟨hdone, rfl⟩

theorem readsSegment_iff (hlegal : d.dumpSource ≠ .illegal) (hstarted : d.dmaStarted = false) :
    ReadsSegment d.contents (segment (d.dumpSource.size d.length) size pos) pos heap
      (read d (.granted heap) size offset) ↔
      segment (d.dumpSource.size d.length) size offset =
          segment (d.dumpSource.size d.length) size pos ∧
        (segment (d.dumpSource.size d.length) size pos ≠ 0 →
          memRead d.contents heap (segment (d.dumpSource.size d.length) size pos) offset =
            heap.store 0
              (d.contents.slice pos (segment (d.dumpSource.size d.length) size pos))) := by
  obtain ⟨s, hselect, hsize, hsource, _⟩ := d.exists_select hlegal
  rw [read_granted hselect hstarted, hsize, hsource]
  generalize segment (d.dumpSource.size d.length) size pos = n
  generalize segment (d.dumpSource.size d.length) size offset = n'
  by_cases hzero : n' = 0
  · rw [if_pos hzero, hzero]
    constructor
    · intro h
      have hn : 0 = n := Int.ofNat_inj.mp h.retval_eq
      exact ⟨hn, fun hne ↦ absurd hn.symm hne⟩
    · rintro ⟨rfl, _⟩
      exact ⟨rfl, rfl, fun _ _ ↦ rfl⟩
  · rw [if_neg hzero]
    dsimp only
    constructor
    · intro h
      obtain rfl : n' = n := Int.ofNat_inj.mp h.retval_eq
      refine ⟨rfl, fun _ ↦ Mem.eq_store_iff.mpr ⟨?_, fun i hi ↦ h.heap_eq i ?_⟩⟩
      · rw [Mem.Holds, Mem.length_slice]
        exact h.data_eq
      · rw [Mem.length_slice] at hi
        omega
    · rintro ⟨rfl, hread⟩
      rw [hread hzero]
      refine ⟨rfl, Mem.slice_store_slice .., fun i hi ↦ ?_⟩
      have hbehind : 0 + (d.contents.slice pos n').length ≤ i := by
        rw [Mem.length_slice, Nat.zero_add]
        exact hi
      exact Mem.store_of_ge hbehind

/-- The calls of a run, at the offsets of the driver and the positions of the user. -/
def RightCalls (sourceSize : ℕ) : ℕ → ℕ → List ℕ → Prop
  | _, _, [] => True
  | offset, pos, size :: rest =>
      RightCall sourceSize size offset pos ∧
        RightCalls sourceSize (nextOffset sourceSize size offset)
          (pos + segment sourceSize size pos) rest

/-- A device with these bytes in every place. -/
def FileDevice.holding (source : DumpSource) (length : ℕ) (contents : Mem) : FileDevice :=
  ⟨contents, length, fun _ ↦ contents, false, source, .rng⟩

theorem FileDevice.contents_holding {source : DumpSource} (hlegal : source ≠ .illegal) (length : ℕ)
    (contents : Mem) : (holding source length contents).contents = contents := by
  cases source with
  | illegal => exact absurd rfl hlegal
  | bar0 => rfl
  | bar1 table => rfl

/-- Whatever the memory holds, the reads are right if and only if all their calls are. -/
theorem readsInOrder_iff {source : DumpSource} (hlegal : source ≠ .illegal) (length : ℕ)
    (sizes : List ℕ) (offset pos : ℕ) :
    (∀ d : FileDevice, d.dumpSource = source → d.length = length → d.dmaStarted = false →
      ∀ calls, calls.map Prod.fst = sizes →
        ReadsInOrder d (source.size length) offset pos calls) ↔
      RightCalls (source.size length) offset pos sizes := by
  induction sizes generalizing offset pos with
  | nil =>
    refine iff_of_true ?_ trivial
    intro d _ _ _ calls hcalls
    obtain rfl := List.map_eq_nil_iff.mp hcalls
    trivial
  | cons size rest ih =>
    rw [RightCalls, ← ih]
    constructor
    · intro h
      constructor
      · have hcall (contents heap : Mem) := (readsSegment_iff hlegal rfl).mp
          (h (.holding source length contents) rfl rfl rfl
            ((size, heap) :: rest.map fun size ↦ (size, fun _ ↦ 0))
            (by simp [Function.comp_def])).1
        refine ⟨(hcall (fun _ ↦ 0) fun _ ↦ 0).1, fun hne ↦ ?_⟩
        apply (readsFrom_iff (Nat.pos_of_ne_zero hne)).mp
        intro device buffer
        have hread := (hcall device buffer).2 hne
        rwa [FileDevice.contents_holding hlegal] at hread
      · rintro d rfl rfl hstarted calls hcalls
        have hrest := (h d rfl rfl hstarted ((size, fun _ ↦ 0) :: calls) (by simp [hcalls])).2
        obtain ⟨hdevice, hoffset⟩ := read_granted_next hlegal hstarted
        rwa [hdevice, hoffset] at hrest
    · rintro ⟨hright, hrest⟩ d rfl rfl hstarted calls hcalls
      obtain ⟨⟨_, heap⟩, calls, rfl, rfl, hcalls'⟩ := List.map_eq_cons_iff.mp hcalls
      obtain ⟨hdevice, hoffset⟩ := read_granted_next hlegal hstarted
      refine ⟨(readsSegment_iff hlegal hstarted).mpr ⟨hright.1, fun hne ↦ ?_⟩, ?_⟩
      · exact (readsFrom_iff (Nat.pos_of_ne_zero hne)).mpr (hright.2 hne) _ _
      · rw [hdevice, hoffset]
        exact hrest d rfl rfl hstarted calls hcalls'

/-! ## The sizes -/

/-- An empty call changes nothing. -/
theorem rightCalls_filter (sourceSize : ℕ) (sizes : List ℕ) (offset pos : ℕ) :
    RightCalls sourceSize offset pos (sizes.filter (· ≠ 0)) ↔
      RightCalls sourceSize offset pos sizes := by
  induction sizes generalizing offset pos with
  | nil => rfl
  | cons size rest ih =>
    by_cases hzero : size = 0
    · have hsegment (place : ℕ) : segment sourceSize size place = 0 := by
        rw [segment, hzero, Nat.zero_min]
      have hright : RightCall sourceSize size offset pos :=
        ⟨(hsegment offset).trans (hsegment pos).symm, fun hne ↦ absurd (hsegment pos) hne⟩
      have hoffset : nextOffset sourceSize size offset = offset := if_pos (hsegment offset)
      rw [List.filter_cons_of_neg (by simp [hzero]), ih, RightCalls, hoffset, hsegment,
        Nat.add_zero, and_iff_right hright]
    · rw [List.filter_cons_of_pos (by simp [hzero]), RightCalls, RightCalls, ih]

/-- At the end of the source nothing is left for any call. -/
theorem rightCalls_end (sourceSize : ℕ) (sizes : List ℕ) :
    RightCalls sourceSize sourceSize sourceSize sizes := by
  induction sizes with
  | nil => trivial
  | cons size rest ih =>
    have hsegment : segment sourceSize size sourceSize = 0 := by
      rw [segment, Nat.sub_self, Nat.min_zero]
    have hoffset : nextOffset sourceSize size sourceSize = sourceSize := if_pos hsegment
    refine ⟨⟨rfl, fun hne ↦ absurd hsegment hne⟩, ?_⟩
    rw [hoffset, hsegment]
    exact ih

/-- The first call is right, and leaves offset and position together. -/
theorem rightCalls_first (sourceSize first : ℕ) (rest : List ℕ) :
    RightCalls sourceSize 0 0 (first :: rest) ↔
      RightCalls sourceSize (min first sourceSize) (min first sourceSize) rest := by
  have hright : RightCall sourceSize first 0 0 := by
    refine ⟨rfl, fun _ ↦ ⟨rfl, ?_⟩⟩
    split_ifs
    · rfl
    · exact ⟨rfl, .inr rfl⟩
  have hoffset : nextOffset sourceSize first 0 = min first sourceSize := by
    unfold nextOffset segment
    split_ifs <;> omega
  rw [RightCalls, and_iff_right hright, hoffset, segment, Nat.sub_zero, Nat.zero_add]

theorem rightCall_second_iff {first second : ℕ} (hfirst : 0 < first) (hsecond : 0 < second)
    (hlt : first < sourceSize) :
    RightCall sourceSize second first first ↔
      first % 4 = 0 ∧ min second (sourceSize - first) % 4 = 0 := by
  unfold RightCall WordRange segment
  split_ifs <;> omega

theorem rightCall_third_iff {first n third : ℕ} (hfirst : 0 < first) (hn : n % 4 = 0)
    (hthird : 0 < third) (hle : first + n ≤ sourceSize) :
    RightCall sourceSize third n (first + n) ↔
      first = 4 * n ∧ third < 4 ∧ first + n + third ≤ sourceSize := by
  unfold RightCall WordRange segment
  split_ifs <;> omega

theorem not_rightCall_fourth {third fourth : ℕ} (hthird : 0 < third) (hshort : third < 4)
    (hfourth : 0 < fourth) (hlt : third < pos) (hle : pos ≤ sourceSize) :
    ¬ RightCall sourceSize fourth third pos := by
  unfold RightCall WordRange segment
  split_ifs <;> omega

/-- Behind the first call at most two more are right. -/
theorem rightCalls_second {first second : ℕ} (hfirst : 0 < first) (hsecond : 0 < second)
    (hlt : first < sourceSize) (rest : List ℕ) :
    RightCalls sourceSize first first (second :: rest) ↔
      (first % 4 = 0 ∧ min second (sourceSize - first) % 4 = 0) ∧
        RightCalls sourceSize (min second (sourceSize - first))
          (first + min second (sourceSize - first)) rest := by
  have hoffset : nextOffset sourceSize second first = min second (sourceSize - first) := by
    unfold nextOffset segment
    split_ifs <;> omega
  rw [RightCalls, rightCall_second_iff hfirst hsecond hlt, hoffset]
  rfl

theorem rightCalls_third {first n third : ℕ} (hfirst : 0 < first) (hn : n % 4 = 0)
    (hthird : 0 < third) (hle : first + n ≤ sourceSize) (rest : List ℕ)
    (hrest : ∀ size ∈ rest, 0 < size) :
    RightCalls sourceSize n (first + n) (third :: rest) ↔
      rest = [] ∧ first = 4 * n ∧ third < 4 ∧ first + n + third ≤ sourceSize := by
  rw [RightCalls, rightCall_third_iff hfirst hn hthird hle]
  cases rest with
  | nil => exact ⟨fun h ↦ ⟨rfl, h.1⟩, fun h ↦ ⟨h.2, trivial⟩⟩
  | cons fourth rest =>
    refine iff_of_false ?_ fun h ↦ List.cons_ne_nil _ _ h.1
    rintro ⟨⟨hcancel, hshort, hfits⟩, hfourth, _⟩
    have hsegment : segment sourceSize third (first + n) = third := by
      unfold segment
      omega
    have hoffset : nextOffset sourceSize third n = third := by
      unfold nextOffset segment
      split_ifs <;> omega
    rw [hoffset, hsegment] at hfourth
    exact not_rightCall_fourth hthird hshort (hrest fourth List.mem_cons_self) (by omega) hfits
      hfourth

/-- Three calls are right where the mistakes cancel each other. -/
theorem rightCalls_cancel_iff {first second third : ℕ} (hfirst : 0 < first) (hsecond : 0 < second)
    (hthird : 0 < third) (hlt : first < sourceSize) (rest : List ℕ)
    (hrest : ∀ size ∈ rest, 0 < size) :
    RightCalls sourceSize first first (second :: third :: rest) ↔
      rest = [] ∧ second % 4 = 0 ∧ first = 4 * second ∧ third < 4 ∧
        first + second + third ≤ sourceSize := by
  rw [rightCalls_second hfirst hsecond hlt]
  constructor
  · rintro ⟨⟨_, hn⟩, hcalls⟩
    rw [rightCalls_third hfirst hn hthird (by omega) rest hrest] at hcalls
    obtain ⟨hnil, hcancel, hshort, hfits⟩ := hcalls
    have hwhole : min second (sourceSize - first) = second := by omega
    rw [hwhole] at hn hcancel hfits
    exact ⟨hnil, hn, hcancel, hshort, hfits⟩
  · rintro ⟨hnil, hn, hcancel, hshort, hfits⟩
    have hwhole : min second (sourceSize - first) = second := by omega
    rw [hwhole, rightCalls_third hfirst hn hthird (by omega) rest hrest]
    exact ⟨⟨by omega, hn⟩, hnil, hcancel, hshort, hfits⟩

/-- The calls of a run are right if and only if the position does not matter for their sizes. -/
theorem rightCalls_iff (sourceSize : ℕ) (sizes : List ℕ) :
    RightCalls sourceSize 0 0 sizes ↔ Consecutive sourceSize sizes := by
  rw [← rightCalls_filter]
  unfold Consecutive
  have hpos : ∀ size ∈ sizes.filter (· ≠ 0), 0 < size := by
    intro size hsize
    exact Nat.pos_of_ne_zero (by simpa using (List.mem_filter.mp hsize).2)
  generalize sizes.filter (· ≠ 0) = sizes at hpos ⊢
  cases sizes with
  | nil => exact Iff.rfl
  | cons first rest =>
    rw [rightCalls_first]
    have hfirst : 0 < first := hpos first List.mem_cons_self
    rcases Nat.lt_or_ge first sourceSize with hlt | hge
    · rw [Nat.min_eq_left hlt.le]
      have hnot : ¬ sourceSize ≤ first := Nat.not_le.mpr hlt
      cases rest with
      | nil => exact Iff.rfl
      | cons second rest =>
        have hsecond : 0 < second := hpos second (by simp)
        cases rest with
        | nil =>
          rw [rightCalls_second hfirst hsecond hlt]
          exact (and_iff_left trivial).trans (or_iff_right hnot).symm
        | cons third rest =>
          have hthird : 0 < third := hpos third (by simp)
          rw [rightCalls_cancel_iff hfirst hsecond hthird hlt rest
            fun size hsize ↦ hpos size (by simp [hsize])]
          cases rest with
          | nil => exact (and_iff_right rfl).trans (or_iff_right hnot).symm
          | cons fourth rest => exact iff_of_false (fun h ↦ List.cons_ne_nil _ _ h.1) hnot
    · rw [Nat.min_eq_right hge]
      refine iff_of_true (rightCalls_end sourceSize rest) ?_
      rcases rest with _ | ⟨second, _ | ⟨third, _ | ⟨fourth, rest⟩⟩⟩
      · trivial
      · exact .inl hge
      · exact .inl hge
      · exact hge

/-! ## Writing -/

/-- The register is restored around a write to the selected table. -/
theorem writeMode_devMemoryWrite (d : FileDevice) (table : Table) (kernel : Mem) (size offset : ℕ) :
    (devMemoryWrite (d.selectTable table) kernel size offset).writeMode d.regMode =
      { d with
        memory := Function.update d.memory table.code
          (memWrite (d.memory table.code) kernel size offset) } := by
  have hrestored : (d.selectTable table).writeMode d.regMode = d :=
    (d.writeMode_writeMode _ _).trans d.writeMode_regMode
  have hmemory : (devMemoryWrite (d.selectTable table) kernel size offset).memory =
      Function.update d.memory table.code (memWrite (d.memory table.code) kernel size offset) := by
    rw [devMemoryWrite, FileDevice.shown, d.table_selectTable]
    rfl
  calc (devMemoryWrite (d.selectTable table) kernel size offset).writeMode d.regMode
      = { (d.selectTable table).writeMode d.regMode with
          memory := (devMemoryWrite (d.selectTable table) kernel size offset).memory } := rfl
    _ = _ := by rw [hrestored, hmemory]

/-- A `write` to which nothing happens. -/
theorem write_granted (hstarted : d.dmaStarted = false) :
    write d (.granted heap) buffer size offset =
      if segment d.destTable.memorySize size offset = 0 then
        ⟨0, d, [.down, .up], offset, [], heap⟩
      else
        let n := segment d.destTable.memorySize size offset
        let kernel := heap.store 0 (buffer.slice 0 n)
        ⟨n, { d with
            memory := Function.update d.memory d.destTable.code
              (memWrite (d.memory d.destTable.code) kernel n offset) },
          [.down, .up, .kmalloc, .down, .kfree, .up], n, [], kernel⟩ := by
  have hrestored : (d.selectTable d.destTable).writeMode d.regMode = d :=
    (d.writeMode_writeMode _ _).trans d.writeMode_regMode
  have htable : (d.selectTable d.destTable).destTable = d.destTable := rfl
  unfold write
  simp only [FileEnv.granted, hstarted, htable, hrestored, writeMode_devMemoryWrite, Bool.not_true,
    Bool.false_eq_true, if_false, Nat.sub_zero, ne_eq, not_true_eq_false]
  by_cases hbehind : offset > d.destTable.memorySize
  · have hzero : segment d.destTable.memorySize size offset = 0 := by
      unfold segment
      omega
    rw [if_pos hbehind, if_pos hzero]
  · rw [if_neg hbehind, segment_eq hbehind]

theorem write_granted_next (hstarted : d.dmaStarted = false) :
    (write d (.granted heap) buffer size offset).offset =
      nextOffset d.destTable.memorySize size offset := by
  rw [write_granted hstarted, nextOffset]
  split_ifs <;> rfl

theorem FileDevice.stored_slice (d : FileDevice) (pos n : ℕ) {bytes : List UInt8}
    (h : bytes = (d.memory d.destTable.code).slice pos n) : d.stored pos bytes = d := by
  rw [stored, h, Mem.store_slice_self, Function.update_eq_self]

theorem writesSegment_iff (buffer heap : Mem) (hstarted : d.dmaStarted = false) :
    WritesSegment d (segment d.destTable.memorySize size pos) pos buffer
      (write d (.granted heap) buffer size offset) ↔
      segment d.destTable.memorySize size offset = segment d.destTable.memorySize size pos ∧
        (segment d.destTable.memorySize size pos ≠ 0 →
          memWrite (d.memory d.destTable.code)
              (heap.store 0 (buffer.slice 0 (segment d.destTable.memorySize size pos)))
              (segment d.destTable.memorySize size pos) offset =
            (d.memory d.destTable.code).store pos
              (buffer.slice 0 (segment d.destTable.memorySize size pos))) := by
  rw [write_granted hstarted]
  generalize segment d.destTable.memorySize size pos = n
  generalize segment d.destTable.memorySize size offset = n'
  by_cases hzero : n' = 0
  · rw [if_pos hzero, hzero]
    constructor
    · intro h
      have hn : 0 = n := Int.ofNat_inj.mp h.retval_eq
      exact ⟨hn, fun hne ↦ absurd hn.symm hne⟩
    · rintro ⟨rfl, _⟩
      exact ⟨rfl, (d.stored_slice pos 0 rfl).symm⟩
  · rw [if_neg hzero]
    dsimp only
    constructor
    · intro h
      obtain rfl : n' = n := Int.ofNat_inj.mp h.retval_eq
      refine ⟨rfl, fun _ ↦ ?_⟩
      have hmemory := congrFun (congrArg FileDevice.memory h.device_eq) d.destTable.code
      dsimp only [FileDevice.stored] at hmemory
      rwa [Function.update_self, Function.update_self] at hmemory
    · rintro ⟨rfl, hwrite⟩
      refine ⟨rfl, ?_⟩
      rw [hwrite hzero]
      rfl

/-- Whatever the memory holds, the writes are right if and only if all their calls are. -/
theorem writesInOrder_iff (table : Table) (sizes : List ℕ) (offset pos : ℕ) :
    (∀ d : FileDevice, d.destTable = table → d.dmaStarted = false →
      ∀ calls, calls.map Prod.fst = sizes →
        WritesInOrder d table.memorySize offset pos calls) ↔
      RightCalls table.memorySize offset pos sizes := by
  induction sizes generalizing offset pos with
  | nil =>
    refine iff_of_true ?_ trivial
    intro d _ _ calls hcalls
    obtain rfl := List.map_eq_nil_iff.mp hcalls
    trivial
  | cons size rest ih =>
    rw [RightCalls, ← ih]
    constructor
    · intro h
      constructor
      · have hcall (contents buffer : Mem) := (writesSegment_iff buffer buffer rfl).mp
          (h ⟨contents, 0, fun _ ↦ contents, false, .bar0, table⟩ rfl rfl
            ((size, buffer, buffer) :: rest.map fun size ↦ (size, buffer, buffer))
            (by simp [Function.comp_def])).1
        refine ⟨(hcall (fun _ ↦ 0) fun _ ↦ 0).1, fun hne ↦ ?_⟩
        apply (writesTo_iff (Nat.pos_of_ne_zero hne)).mp
        intro device buffer
        have hwrite := (hcall device buffer).2 hne
        rwa [Mem.store_slice_self] at hwrite
      · rintro d rfl hstarted calls hcalls
        -- the bytes that are there already
        let bytes : Mem := fun i ↦ d.memory d.destTable.code (pos + i)
        have hall := h d rfl hstarted ((size, bytes, bytes) :: calls) (by simp [hcalls])
        have hbytes (n : ℕ) : bytes.slice 0 n = (d.memory d.destTable.code).slice pos n :=
          Mem.slice_congr fun i _ ↦ by rw [Nat.zero_add]
        have hdevice := hall.1.device_eq.trans (d.stored_slice pos _ (hbytes _))
        have hrest := hall.2
        rwa [hdevice, write_granted_next hstarted] at hrest
    · rintro ⟨hright, hrest⟩ d rfl hstarted calls hcalls
      obtain ⟨⟨_, buffer, heap⟩, calls, rfl, rfl, hcalls'⟩ := List.map_eq_cons_iff.mp hcalls
      have hcall := (writesSegment_iff buffer heap hstarted).mpr
        ⟨hright.1, fun hne ↦ by
          rw [(writesTo_iff (Nat.pos_of_ne_zero hne)).mpr (hright.2 hne), Mem.slice_store_slice]⟩
      refine ⟨hcall, ?_⟩
      rw [hcall.device_eq, write_granted_next hstarted]
      exact hrest (d.stored pos (buffer.slice 0 _)) rfl hstarted calls hcalls'

end

/-- The calls of a user go on where the last one has stopped, if and only if their sizes do not
depend on the position. -/
theorem fileInOrder_iff (source : DumpSource) (hlegal : source ≠ .illegal) (length : ℕ)
    (table : Table) (sizes : List ℕ) :
    ((∀ d : FileDevice, d.dumpSource = source → d.length = length → d.dmaStarted = false →
      ∀ calls, calls.map Prod.fst = sizes → ReadsInOrder d (source.size length) 0 0 calls) ↔
        Consecutive (source.size length) sizes) ∧
    ((∀ d : FileDevice, d.destTable = table → d.dmaStarted = false →
      ∀ calls, calls.map Prod.fst = sizes → WritesInOrder d table.memorySize 0 0 calls) ↔
        Consecutive table.memorySize sizes) :=
  ⟨(readsInOrder_iff hlegal length sizes 0 0).trans (rightCalls_iff _ _),
    (writesInOrder_iff table sizes 0 0).trans (rightCalls_iff _ _)⟩

theorem fileInOrder_iff_registers :
    DumpSource.bar0 ≠ .illegal ∧
      ((∀ d : FileDevice, d.dumpSource = .bar0 → d.length = 256 → d.dmaStarted = false →
        ∀ calls, calls.map Prod.fst = [128, 128] →
          ReadsInOrder d (DumpSource.bar0.size 256) 0 0 calls) ↔
            Consecutive (DumpSource.bar0.size 256) [128, 128]) ∧
      ((∀ d : FileDevice, d.destTable = .cal → d.dmaStarted = false →
        ∀ calls, calls.map Prod.fst = [128, 128] → WritesInOrder d Table.cal.memorySize 0 0 calls) ↔
            Consecutive Table.cal.memorySize [128, 128]) :=
  ⟨by decide, fileInOrder_iff .bar0 (by decide) 256 .cal [128, 128]⟩

/-- The third call of a user who reads four bytes at a time gets the second four bytes again. -/
theorem not_readsInOrder_third :
    ¬ ∀ (d : FileDevice) (calls : List (ℕ × Mem)), d.dumpSource = .bar0 → d.dmaStarted = false →
      ReadsInOrder d d.length 0 0 calls := by
  intro hall
  let d : FileDevice := ⟨fun i ↦ UInt8.ofNat i, 256, fun _ _ ↦ 0, false, .bar0, .rng⟩
  have hdata := (hall d [(4, fun _ ↦ 0), (4, fun _ ↦ 0), (4, fun _ ↦ 0)] rfl rfl).2.2.1.data_eq
  exact absurd hdata (by decide)

end QNet.AnB
