import Mathlib.Data.List.Forall2
import QNet.Qcrypt.Heap

/-!
# Keys from a file of bits

`get_key_plug` reads one bit from each line. Eight bits are collected in `byte`; the line that
comes then puts the byte into the key, and its own bit becomes the new `byte`, but is not counted.
So the next bit falls on the same place, and nine lines make a byte (`Filled`). The size of a key
is set to the index of its last byte, and a key is only left with its 1025th byte.

Hence the file is converted as it should be only if it is too short for a byte: `converts_iff`.
-/

namespace QNet.Qcrypt

open CString

/-- A byte was written to `key[index]`. -/
structure Write where
  key : ℕ
  index : ℕ
  byte : UInt8

/-- The variables of `get_key_plug`, with the writes so far. -/
structure Plug where
  heap : Heap
  key : ℕ
  bit : UInt32
  byte : UInt32
  bcnt : ℕ
  cnt : ℕ
  allkeys : ℕ
  writes : List Write

namespace Plug

/-- The key gets its number, and another key takes its place. What was written behind the end of
the array lies in `curpos`, which is set now. -/
def nextKey (s : Plug) : Option Plug :=
  let old := s.heap.obj s.key
  let finished := s.heap.write s.key { old with num := fun i ↦ old.key i, curpos := 0 }
  finished.keyAlloc.map fun heap ↦
    { s with heap := heap, key := finished.allocated, cnt := 0, allkeys := s.allkeys + 1 }

/-- The branch for a line that `sscanf` has not refused. -/
def putBit (s : Plug) : Option Plug :=
  if s.bcnt < 8 then
    some { s with byte := s.byte ||| (s.bit <<< UInt32.ofNat s.bcnt), bcnt := s.bcnt + 1 }
  else
    let old := s.heap.obj s.key
    let stored : Plug :=
      { s with
        heap := s.heap.write s.key
          { old with key := Function.update old.key s.cnt s.byte.toUInt8, size := s.cnt }
        byte := s.bit
        bcnt := 0
        cnt := s.cnt + 1
        writes := s.writes ++ [⟨s.key, s.cnt, s.byte.toUInt8⟩] }
    if s.cnt + 1 > 1024 then stored.nextKey else some stored

/-- A line as `fgets` delivers it. An empty one makes `sscanf` return -1, and the bit is the one
before. -/
def readLine (s : Plug) (line : List UInt8) : Option Plug :=
  match scanInt line with
  | .failure => some s
  | .eof => s.putBit
  | .value n => { s with bit := UInt32.ofBitVec (BitVec.ofInt 32 n) }.putBit

/-- Before the first line; `bit` is not initialised. -/
def start (bit : UInt32) (heap : Heap) (key : ℕ) : Plug where
  heap := heap.write key { heap.obj key with curpos := 0 }
  key := key
  bit := bit
  byte := 0
  bcnt := 0
  cnt := 0
  allkeys := 0
  writes := []

end Plug

/-- `get_key_plug` with what it returns and its writes; no `file` when it cannot be opened. -/
def Heap.getKeyPlug (bit : UInt32) (file : Option (List (List UInt8))) (h : Heap) :
    Option (Heap × ℕ × List Write) :=
  match file with
  | none => some (h.dropKeys, 0, [])
  | some lines => do
      let heap ← h.dropKeys.keyAlloc
      let s ← lines.foldlM Plug.readLine (.start bit heap h.dropKeys.allocated)
      some (s.heap, s.allkeys, s.writes)

/-! ## The ring -/

namespace Plug

variable {s : Plug} {h : Heap} {new : List ℕ}

/-- The keys are a ring of new objects, and the current one is among them. -/
structure Building (h : Heap) (new : List ℕ) (s : Plug) : Prop where
  grown : h.Grown s.heap [] new
  key_mem : s.key ∈ new
  cnt_le : s.cnt ≤ 1024

theorem keyAlloc_spec {h' : Heap} {ring : List ℕ} (hgrown : h.Grown h' [] ring) :
    ∃ heap, h'.keyAlloc = some heap ∧ h.Grown heap [] (ring ++ [h'.allocated]) ∧
      heap.obj h'.allocated = { h'.obj h'.allocated with size := 0 } := by
  obtain ⟨heap, hheap, hmore, hvalue⟩ :=
    hgrown.ringOf.linkNew { h'.obj h'.allocated with size := 0 } (Nat.zero_le _)
  exact ⟨heap, hheap, hgrown.trans hmore, hvalue⟩

theorem nextKey_spec (s : Plug) (hgrown : h.Grown s.heap [] new) (hkey : s.key ∈ new) :
    ∃ s' new', s.nextKey = some s' ∧ Building h new' s' ∧ s'.bcnt = s.bcnt ∧ s'.cnt = 0 ∧
      s'.allkeys = s.allkeys + 1 ∧ s'.writes = s.writes := by
  obtain ⟨heap, hheap, hmore, _⟩ := keyAlloc_spec (hgrown.write hkey
    { s.heap.obj s.key with num := fun i ↦ (s.heap.obj s.key).key i, curpos := 0 }
    (hgrown.size_le s.key hkey))
  have hnext : s.nextKey = some
      { s with heap := heap, key := s.heap.allocated, cnt := 0, allkeys := s.allkeys + 1 } := by
    rw [nextKey, hheap]
    rfl
  exact ⟨_, _, hnext, ⟨hmore, List.mem_append_right _ List.mem_cons_self, Nat.zero_le _⟩,
    rfl, rfl, rfl, rfl⟩

/-- What a line does, with the ring afterwards: a bit is collected, or a byte is stored, and the
key may be left. -/
theorem putBit_cases (hs : Building h new s) :
    ∃ s' new', s.putBit = some s' ∧ Building h new' s' ∧
      (s.bcnt < 8 ∧ s'.heap = s.heap ∧ new' = new ∧ s'.key = s.key ∧ s'.bcnt = s.bcnt + 1 ∧
          s'.cnt = s.cnt ∧ s'.allkeys = s.allkeys ∧ s'.writes = s.writes ∨
        8 ≤ s.bcnt ∧ s'.bcnt = 0 ∧ s'.writes = s.writes ++ [⟨s.key, s.cnt, s.byte.toUInt8⟩] ∧
          (s.cnt < 1024 ∧ new' = new ∧ s'.key = s.key ∧ s'.cnt = s.cnt + 1 ∧
              s'.allkeys = s.allkeys ∧ (s'.heap.obj s.key).size = s.cnt ∧
              (s'.heap.obj s.key).curpos = (s.heap.obj s.key).curpos ∨
            s.cnt = 1024 ∧ s'.cnt = 0 ∧ s'.allkeys = s.allkeys + 1)) := by
  have hle := hs.cnt_le
  have hstored := hs.grown.write hs.key_mem
    { s.heap.obj s.key with
      key := Function.update (s.heap.obj s.key).key s.cnt s.byte.toUInt8, size := s.cnt } hle
  unfold putBit
  split_ifs with hbits hfull
  · exact ⟨_, new, rfl, ⟨hs.grown, hs.key_mem, hle⟩,
      .inl ⟨hbits, rfl, rfl, rfl, rfl, rfl, rfl, rfl⟩⟩
  · obtain ⟨s', new', hnext, hbuilding, hbcnt, hcnt, hallkeys, hwrites⟩ :=
      nextKey_spec ⟨_, s.key, s.bit, s.bit, 0, s.cnt + 1, s.allkeys,
        s.writes ++ [⟨s.key, s.cnt, s.byte.toUInt8⟩]⟩ hstored hs.key_mem
    have hlast : s.cnt + 1 > 1024 := hfull
    exact ⟨s', new', hnext, hbuilding,
      .inr ⟨by omega, hbcnt, hwrites, .inr ⟨by omega, hcnt, hallkeys⟩⟩⟩
  · have hroom : ¬ s.cnt + 1 > 1024 := hfull
    have hcnt : s.cnt + 1 ≤ 1024 := by omega
    refine ⟨_, new, rfl, ⟨hstored, hs.key_mem, hcnt⟩,
      .inr ⟨by omega, rfl, rfl, .inl ⟨by omega, rfl, rfl, rfl, rfl, ?_, ?_⟩⟩⟩
    · dsimp only
      rw [Heap.write_obj_self]
    · dsimp only
      rw [Heap.write_obj_self]

theorem readLine_grown (hs : Building h new s) (line : List UInt8) :
    ∃ s' new', s.readLine line = some s' ∧ Building h new' s' := by
  unfold readLine
  split
  · exact ⟨s, new, rfl, hs⟩
  · obtain ⟨s', new', hput, hbuilding, _⟩ := putBit_cases hs
    exact ⟨s', new', hput, hbuilding⟩
  · rename_i n _
    have hbit : Building h new { s with bit := UInt32.ofBitVec (BitVec.ofInt 32 n) } :=
      ⟨hs.grown, hs.key_mem, hs.cnt_le⟩
    obtain ⟨s', new', hput, hbuilding, _⟩ := putBit_cases hbit
    exact ⟨s', new', hput, hbuilding⟩

/-- Before the first line there is one key, which is empty. -/
theorem start_spec (bit : UInt32) (h : Heap) :
    ∃ heap, h.dropKeys.keyAlloc = some heap ∧
      Building h.dropKeys [h.dropKeys.allocated] (.start bit heap h.dropKeys.allocated) ∧
      ((start bit heap h.dropKeys.allocated).heap.obj h.dropKeys.allocated).size = 0 ∧
      ((start bit heap h.dropKeys.allocated).heap.obj h.dropKeys.allocated).curpos = 0 := by
  obtain ⟨heap, hheap, hgrown, hvalue⟩ := keyAlloc_spec (.refl (Heap.RingOf.dropKeys h))
  have hsize : (heap.obj h.dropKeys.allocated).size = 0 := by rw [hvalue]
  refine ⟨heap, hheap, ⟨hgrown.write List.mem_cons_self _ ?_, List.mem_cons_self, Nat.zero_le _⟩,
    ?_, ?_⟩
  · exact hsize.trans_le (Nat.zero_le _)
  · rw [start, Heap.write_obj_self]
    exact hsize
  · rw [start, Heap.write_obj_self]

end Plug

/-- `get_key_plug` always ends, with a new ring; there is a key if the file can be opened. -/
theorem Heap.getKeyPlug_spec (bit : UInt32) (file : Option (List (List UInt8))) (h : Heap) :
    ∃ built ring completed writes, h.getKeyPlug bit file = some (built, completed, writes) ∧
      h.dropKeys.Grown built [] ring ∧ (ring ≠ [] ↔ file.isSome) := by
  cases file with
  | none => exact ⟨_, [], 0, [], rfl, .refl (Heap.RingOf.dropKeys h), by simp⟩
  | some lines =>
    obtain ⟨heap, hheap, hstart, _⟩ := Plug.start_spec bit h
    have hloop (s : Plug) (new : List ℕ) (hs : Plug.Building h.dropKeys new s) :
        ∃ s' new', lines.foldlM Plug.readLine s = some s' ∧ Plug.Building h.dropKeys new' s' := by
      induction lines generalizing s new with
      | nil => exact ⟨s, new, rfl, hs⟩
      | cons line rest ih =>
        obtain ⟨s', new', hread, hs'⟩ := Plug.readLine_grown hs line
        obtain ⟨s'', new'', hrest, hs''⟩ := ih s' new' hs'
        refine ⟨s'', new'', ?_, hs''⟩
        rw [List.foldlM_cons, hread]
        exact hrest
    obtain ⟨s, new, hread, hs⟩ := hloop _ _ hstart
    refine ⟨s.heap, new, s.allkeys, s.writes, ?_, hs.grown,
      iff_of_true (List.ne_nil_of_mem hs.key_mem) rfl⟩
    rw [Heap.getKeyPlug, hheap, Option.bind_eq_bind, Option.bind_some, hread]
    rfl

/-! ## The bytes -/

/-- Each line holds a bit. -/
def HoldBits (lines : List (List UInt8)) (bits : List Bool) : Prop :=
  List.Forall₂ (fun line bit ↦ scanInt line = .value (if bit then 1 else 0)) lines bits

/-- The whole bytes of a list of bits, least significant bit first. -/
def bytesOf (bits : List Bool) : List UInt8 :=
  (List.range (bits.length / 8)).map fun k ↦
    UInt8.ofNat (Nat.ofBits fun i : Fin 8 ↦ bits.getD (8 * k + i) false)

/-- The bytes that were stored in a key. -/
def stored (writes : List Write) (key : ℕ) : List UInt8 :=
  (writes.filter fun write ↦ write.key = key).map Write.byte

/-- The keys hold the bytes of the bits, within their arrays and with the right sizes and
positions, and the number of keys that were completed is returned. -/
def Converts (bits : List Bool) (result : Option (Heap × ℕ × List Write)) : Prop :=
  ∃ built completed writes ring, result = some (built, completed, writes) ∧ built.RingOf ring ∧
    ring.flatMap (stored writes) = bytesOf bits ∧ (∀ write ∈ writes, write.index < 1024) ∧
    (∀ key ∈ ring, (built.obj key).size = (stored writes key).length ∧
      (built.obj key).curpos = 0) ∧
    completed = ring.countP fun key ↦ 1024 ≤ (stored writes key).length

namespace Plug

/-- What has been stored after `n` lines with a bit: nine lines make a byte, and 1025 bytes a
key. -/
structure Filled (n : ℕ) (new : List ℕ) (s : Plug) : Prop where
  bcnt : s.bcnt = n % 9
  cnt : 1025 * s.allkeys + s.cnt = n / 9
  first : s.allkeys = 0 → new = [s.key] ∧ (s.heap.obj s.key).size = s.cnt - 1 ∧
    (s.heap.obj s.key).curpos = 0 ∧ (stored s.writes s.key).length = s.cnt ∧
    s.writes.length = s.cnt
  beyond : 0 < s.allkeys → ∃ write ∈ s.writes, write.index = 1024

theorem length_stored_concat (writes : List Write) (key index : ℕ) (byte : UInt8) :
    (stored (writes ++ [⟨key, index, byte⟩]) key).length = (stored writes key).length + 1 := by
  rw [stored, List.filter_append, List.map_append, List.length_append, ← stored]
  simp

theorem Filled.putBit {h : Heap} {new : List ℕ} {s : Plug} {n : ℕ} (hfilled : Filled n new s)
    (hs : Building h new s) :
    ∃ s' new', s.putBit = some s' ∧ Building h new' s' ∧ Filled (n + 1) new' s' := by
  obtain ⟨s', new', hput, hbuilding, hcases⟩ := putBit_cases hs
  refine ⟨s', new', hput, hbuilding, ?_⟩
  have hbcnt := hfilled.bcnt
  have hcnt := hfilled.cnt
  rcases hcases with ⟨hbits, hheap, rfl, hkey, hbcnt', hcnt', hallkeys, hwrites⟩ |
    ⟨hbits, hbcnt', hwrites, ⟨hroom, rfl, hkey, hcnt', hallkeys, hsize, hcurpos⟩ |
      ⟨hlast, hcnt', hallkeys⟩⟩
  · refine ⟨by omega, by omega, fun hzero ↦ ?_, fun hpos ↦ ?_⟩
    · rw [hheap, hkey, hwrites, hcnt']
      exact hfilled.first (hallkeys ▸ hzero)
    · rw [hwrites]
      exact hfilled.beyond (hallkeys ▸ hpos)
  · refine ⟨by omega, by omega, fun hzero ↦ ?_, fun hpos ↦ ?_⟩
    · obtain ⟨hring, _, hstart, hlength, htotal⟩ := hfilled.first (hallkeys ▸ hzero)
      rw [hkey, hsize, hcurpos, hcnt', hwrites, length_stored_concat, hlength, List.length_append,
        htotal]
      exact ⟨hring, rfl, hstart, rfl, rfl⟩
    · obtain ⟨write, hmem, hindex⟩ := hfilled.beyond (hallkeys ▸ hpos)
      exact ⟨write, hwrites ▸ List.mem_append_left _ hmem, hindex⟩
  · refine ⟨by omega, by omega, fun hzero ↦ by omega,
      fun _ ↦ ⟨⟨s.key, s.cnt, s.byte.toUInt8⟩, ?_, hlast⟩⟩
    rw [hwrites]
    exact List.mem_append_right _ List.mem_cons_self

theorem Filled.readLines {h : Heap} {new : List ℕ} {s : Plug} {n : ℕ} {lines : List (List UInt8)}
    {bits : List Bool} (hlines : HoldBits lines bits) (hfilled : Filled n new s)
    (hs : Building h new s) :
    ∃ s' new', lines.foldlM Plug.readLine s = some s' ∧ Building h new' s' ∧
      Filled (n + bits.length) new' s' := by
  induction hlines generalizing n new s with
  | nil => exact ⟨s, new, rfl, hs, hfilled⟩
  | @cons line bit lines bits hline _ ih =>
    let value : ℤ := if bit then 1 else 0
    have hbit : Filled n new { s with bit := UInt32.ofBitVec (BitVec.ofInt 32 value) } :=
      ⟨hfilled.bcnt, hfilled.cnt, hfilled.first, hfilled.beyond⟩
    obtain ⟨s', new', hput, hs', hfilled'⟩ := hbit.putBit ⟨hs.grown, hs.key_mem, hs.cnt_le⟩
    obtain ⟨s'', new'', hrest, hs'', hfilled''⟩ := ih hfilled' hs'
    have hread : s.readLine line = some s' := by
      rw [readLine, hline]
      exact hput
    refine ⟨s'', new'', ?_, hs'', ?_⟩
    · rw [List.foldlM_cons, hread]
      exact hrest
    · rw [List.length_cons, Nat.add_comm bits.length 1, ← Nat.add_assoc]
      exact hfilled''

end Plug

/-- What `get_key_plug` leaves of a file of bits. -/
theorem Heap.getKeyPlug_filled (bit : UInt32) (h : Heap) {lines : List (List UInt8)}
    {bits : List Bool} (hlines : HoldBits lines bits) :
    ∃ s ring, h.getKeyPlug bit (some lines) = some (s.heap, s.allkeys, s.writes) ∧
      s.heap.RingOf ring ∧ Plug.Filled bits.length ring s := by
  obtain ⟨heap, hheap, hstart, hsize, hcurpos⟩ := Plug.start_spec bit h
  have hempty : Plug.Filled 0 [h.dropKeys.allocated] (.start bit heap h.dropKeys.allocated) :=
    ⟨rfl, rfl, fun _ ↦ ⟨rfl, hsize, hcurpos, rfl, rfl⟩, fun hpos ↦ absurd hpos (lt_irrefl 0)⟩
  obtain ⟨s, ring, hread, hs, hfilled⟩ := hempty.readLines hlines hstart
  rw [Nat.zero_add] at hfilled
  refine ⟨s, ring, ?_, hs.grown.ringOf, hfilled⟩
  rw [getKeyPlug, hheap, Option.bind_eq_bind, Option.bind_some, hread]
  rfl

theorem length_bytesOf (bits : List Bool) : (bytesOf bits).length = bits.length / 8 := by
  rw [bytesOf, List.length_map, List.length_range]

/-- A file that is converted is too short for a byte. -/
theorem length_lt_of_converts (bit : UInt32) (h : Heap) {lines : List (List UInt8)}
    {bits : List Bool} (hlines : HoldBits lines bits)
    (hconverts : Converts bits (h.getKeyPlug bit (some lines))) : bits.length < 8 := by
  obtain ⟨built, completed, writes, ring, hresult, hring, hbytes, hindex, hkeys, _⟩ := hconverts
  obtain ⟨s, ring', hplug, hring', hfilled⟩ := h.getKeyPlug_filled bit hlines
  cases hresult.symm.trans hplug
  obtain rfl := hring.unique hring'
  have hcnt := hfilled.cnt
  by_contra hlong
  rcases Nat.eq_zero_or_pos s.allkeys with hzero | hpos
  · obtain ⟨hone, hsize, _, hlength, _⟩ := hfilled.first hzero
    have hkey := (hkeys s.key (by rw [hone]; exact List.mem_cons_self)).1
    have hlengths := congrArg List.length hbytes
    rw [hone, List.flatMap_singleton, length_bytesOf] at hlengths
    -- With eight lines no byte has been stored, with more of them the size is too small.
    omega
  · obtain ⟨write, hmem, hlast⟩ := hfilled.beyond hpos
    have hlt := hindex write hmem
    omega

/-- For every file of lines that hold a bit each, the file is converted if and only if there are
fewer than eight lines. -/
theorem converts_iff (bit : UInt32) (h : Heap) {lines : List (List UInt8)} {bits : List Bool}
    (hlines : HoldBits lines bits) :
    Converts bits (h.getKeyPlug bit (some lines)) ↔ bits.length < 8 := by
  constructor
  · exact length_lt_of_converts bit h hlines
  · intro hshort
    obtain ⟨s, ring, hplug, hring, hfilled⟩ := h.getKeyPlug_filled bit hlines
    have hcnt := hfilled.cnt
    have hzero : s.allkeys = 0 := by omega
    obtain ⟨hone, hsize, hcurpos, hlength, htotal⟩ := hfilled.first hzero
    have hnone : s.writes = [] := List.length_eq_zero_iff.mp (by omega)
    have hnoBytes : bytesOf bits = [] := List.length_eq_zero_iff.mp (by rw [length_bytesOf]; omega)
    refine ⟨_, _, _, ring, hplug, hring, ?_, ?_, ?_, ?_⟩
    · rw [hone, hnone, hnoBytes]
      rfl
    · rw [hnone]
      exact nofun
    · intro key hkey
      rw [hone, List.mem_singleton] at hkey
      rw [hkey, hlength]
      exact ⟨by omega, hcurpos⟩
    · rw [hone, hnone, hzero]
      rfl

/-- The lines `0` and `1`. -/
theorem holdBits_twoLines : HoldBits [[48, 10], [49, 10]] [false, true] :=
  .cons (by decide) (.cons (by decide) .nil)

theorem converts_iff_twoLines :
    HoldBits [[48, 10], [49, 10]] [false, true] ∧
      Converts [false, true] (sampleHeap.getKeyPlug 0 (some [[48, 10], [49, 10]])) :=
  ⟨holdBits_twoLines, (converts_iff 0 sampleHeap holdBits_twoLines).mpr (by decide)⟩

/-- Nine lines with a 1: one byte is stored, and the key has the size 0. -/
theorem not_converts_nineLines :
    ¬ ∀ (bit : UInt32) (h : Heap) (lines : List (List UInt8)) (bits : List Bool),
      HoldBits lines bits → Converts bits (h.getKeyPlug bit (some lines)) := by
  intro hall
  have hlines : HoldBits (List.replicate 9 [49, 10]) (List.replicate 9 true) := by
    have hline : scanInt [49, 10] = .value (if true then 1 else 0) := by decide
    exact .cons hline <| .cons hline <| .cons hline <| .cons hline <| .cons hline <|
      .cons hline <| .cons hline <| .cons hline <| .cons hline .nil
  exact absurd (length_lt_of_converts 0 sampleHeap hlines (hall 0 sampleHeap _ _ hlines))
    (by decide)

end QNet.Qcrypt
