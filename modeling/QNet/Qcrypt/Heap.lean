import QNet.Lib.CircularList
import QNet.Qcrypt.Secrecy

/-!
# The key objects of a qcrypt process

The ring of keys is a circular list of allocated objects, which starts at `keys`. Whenever keys are
read, from an upload (`get_keys_buffer`) or from the files of a directory (`get_files`), the first
object of the old ring is freed and a new ring is built, one object after the other.

Objects are numbered as they are allocated, and no number is used twice. So a pointer to an object
that was freed is never taken for a pointer to a new one, even where `malloc` gives out the same
address again. Fields that have not been written have any value.
-/

namespace QNet.Qcrypt

open ByteStream

/-- A `struct key` without `next`; `key` is the memory from `key[0]` on. -/
structure KeyObject where
  num : Bytes8
  key : Mem
  curpos : ℕ
  size : ℕ

namespace KeyObject

/-- The bytes a key has according to its size. -/
def bytes (key : KeyObject) : List UInt8 := key.key.slice 0 key.size

/-- The key as the codec sees it. -/
def toKey (key : KeyObject) : Key where
  num := key.num
  key := key.key.slice 0 (min key.size 1024)
  length_le := by
    rw [Mem.length_slice]
    exact Nat.min_le_right _ _

theorem toKey_key {key : KeyObject} (h : key.size ≤ 1024) : key.toKey.key = key.bytes := by
  simp only [toKey, Nat.min_eq_left h, bytes]

end KeyObject

/-- The objects and the pointers of a process. -/
structure Heap where
  allocated : ℕ
  live : ℕ → Bool
  obj : ℕ → KeyObject
  next : ℕ → ℕ
  keys : Option ℕ
  curkey : Option ℕ

namespace Heap

/-- The start of the process; an object has its first contents from `heap`. -/
def init (heap : ℕ → KeyObject) : Heap := ⟨0, fun _ ↦ false, heap, id, none, none⟩

/-! ## The functions of the source -/

/-- `malloc`; the new object has the number `allocated`. -/
def malloc (h : Heap) : Heap :=
  { h with allocated := h.allocated + 1, live := Function.update h.live h.allocated true }

def free (h : Heap) (key : ℕ) : Heap := { h with live := Function.update h.live key false }

def write (h : Heap) (key : ℕ) (value : KeyObject) : Heap :=
  { h with obj := Function.update h.obj key value }

/-- `if (keys != NULL) { free(keys); keys = NULL; }` -/
def dropKeys (h : Heap) : Heap :=
  match h.keys with
  | none => h
  | some head => { h.free head with keys := none }

/-- Put an object at the end of the ring; `none` when the walk along the ring does not end. -/
def link (h : Heap) (key : ℕ) : Option Heap :=
  match h.keys with
  | none => some { h with keys := some key, next := Function.update h.next key key }
  | some head => (findLast h.next head h.allocated head).map fun k ↦
      { h with next := Function.update (Function.update h.next k key) key head }

/-- The object that `get_key_buffer` fills with `size` bytes. -/
def filled (old : KeyObject) (f : Mem) (size : ℕ) : KeyObject where
  num i := f i
  key := old.key.store 0 (f.slice 0 size)
  curpos := 0
  size := size

def getKeyBuffer (f : Mem) (size : ℕ) (h : Heap) : Option Heap :=
  (h.malloc.write h.allocated (filled (h.obj h.allocated) f size)).link h.allocated

/-- The loop of `get_keys_buffer`, with `all` bytes and `cnt` keys so far; `fuel` bounds its
rounds. -/
def getKeysBufferLoop (f : Mem) (size : ℕ) : ℕ → ℕ → ℕ → Heap → Option (Heap × ℕ)
  | 0, _, _, _ => none
  | fuel + 1, all, cnt, h =>
      (h.getKeyBuffer f (if size - all > 1024 then 1024 else size - all)).bind fun built ↦
        let read := all + (built.obj h.allocated).size
        if read ≥ size - 16 then some (built, cnt + 1)
        else getKeysBufferLoop f size fuel read (cnt + 1) built

/-- `get_keys_buffer` and what it returns. -/
def getKeysBuffer (f : Mem) (size : ℕ) (h : Heap) : Option (Heap × ℕ) :=
  if size < 16 then some (h, 0) else getKeysBufferLoop f size size 0 0 h.dropKeys

/-- The object that `get_key` fills from a file. -/
def readFrom (old : KeyObject) (file : List UInt8) : KeyObject where
  num i := file.getD i 0
  key := old.key.store 0 ((file.drop 8).take 1024)
  curpos := 0
  size := ((file.drop 8).take 1024).length

/-- `get_key` on a file that could be opened. -/
def getKey (h : Heap) (file : List UInt8) : Option Heap :=
  if file.length < 8 ∨ ((file.drop 8).take 1024).isEmpty then some (h.malloc.free h.allocated)
  else (h.malloc.write h.allocated (readFrom (h.obj h.allocated) file)).link h.allocated

/-- `get_files`; `files` are those with the right ending, in the order of `readdir`. -/
def getFiles (files : List (List UInt8)) (h : Heap) : Option Heap := files.foldlM getKey h.dropKeys

/-- `key_alloc`; the new key has the number `allocated`. -/
def keyAlloc (h : Heap) : Option Heap :=
  (h.malloc.write h.allocated { h.obj h.allocated with size := 0 }).link h.allocated

@[simp]
theorem write_obj_self (h : Heap) (key : ℕ) (value : KeyObject) :
    (h.write key value).obj key = value := Function.update_self _ _ _

theorem write_obj_of_ne (h : Heap) {key other : ℕ} (hne : other ≠ key) (value : KeyObject) :
    (h.write key value).obj other = h.obj other := Function.update_of_ne hne _ _

/-! ## Rings -/

/-- `ring` are the keys of the ring, from `keys` on. They have all been allocated and none has been
freed. -/
structure RingOf (h : Heap) (ring : List ℕ) : Prop where
  keys : h.keys = ring.head?
  circular : ∀ head rest, ring = head :: rest → Circular h.next head rest
  allocated : ∀ key ∈ ring, key < h.allocated
  live : ∀ key ∈ ring, h.live key = true

variable {h h' : Heap} {ring : List ℕ} {key : ℕ}

theorem RingOf.nodup (hring : h.RingOf ring) : ring.Nodup := by
  cases ring with
  | nil => exact List.nodup_nil
  | cons head rest => exact (hring.circular head rest rfl).nodup

/-- There are not more keys than objects. -/
theorem RingOf.length_le (hring : h.RingOf ring) : ring.length ≤ h.allocated := by
  have hsubset : ring ⊆ List.range h.allocated :=
    fun key hkey ↦ List.mem_range.mpr (hring.allocated key hkey)
  have hle := (List.subperm_of_subset hring.nodup hsubset).length_le
  rwa [List.length_range] at hle

/-- A heap has one ring. -/
theorem RingOf.unique {ring' : List ℕ} (hring : h.RingOf ring) (hring' : h.RingOf ring') :
    ring' = ring := by
  have hhead := hring'.keys.symm.trans hring.keys
  cases ring with
  | nil =>
    rw [List.head?_nil, List.head?_eq_none_iff] at hhead
    exact hhead
  | cons head rest =>
    rw [List.head?_cons, List.head?_eq_some_iff] at hhead
    obtain ⟨rest', rfl⟩ := hhead
    have hnodes := (hring.circular head rest rfl).nodes_eq hring.length_le
    have hnodes' := (hring'.circular head rest' rfl).nodes_eq hring'.length_le
    exact Option.some.inj (hnodes'.symm.trans hnodes)

theorem RingOf.dropKeys (h : Heap) : h.dropKeys.RingOf [] := by
  have hkeys : h.dropKeys.keys = none := by
    unfold Heap.dropKeys
    split
    · assumption
    · rfl
  exact ⟨hkeys, nofun, nofun, nofun⟩

/-- What happens to other objects and to `curkey` does not matter to the ring. -/
theorem RingOf.congr (hring : h.RingOf ring) (hkeys : h'.keys = h.keys)
    (hnext : h'.next = h.next) (hallocated : h.allocated ≤ h'.allocated)
    (hlive : ∀ key ∈ ring, h'.live key = h.live key) : h'.RingOf ring where
  keys := hkeys.trans hring.keys
  circular head rest heq := hnext ▸ hring.circular head rest heq
  allocated key hkey := (hring.allocated key hkey).trans_le hallocated
  live key hkey := (hlive key hkey).trans (hring.live key hkey)

theorem RingOf.malloc (hring : h.RingOf ring) : h.malloc.RingOf ring := by
  refine hring.congr rfl rfl (Nat.le_succ _) fun key hkey ↦ ?_
  exact Function.update_of_ne (hring.allocated key hkey).ne _ _

theorem RingOf.free (hring : h.RingOf ring) (hkey : key ∉ ring) : (h.free key).RingOf ring :=
  hring.congr rfl rfl le_rfl fun _ hother ↦
    Function.update_of_ne (ne_of_mem_of_not_mem hother hkey) _ _

theorem RingOf.write (hring : h.RingOf ring) (key : ℕ) (value : KeyObject) :
    (h.write key value).RingOf ring :=
  hring.congr rfl rfl le_rfl fun _ _ ↦ rfl

/-- The walk along the ring ends, and the ring has one more key. -/
theorem RingOf.link (hring : h.RingOf ring) (hnew : key ∉ ring) (hallocated : key < h.allocated)
    (hlive : h.live key = true) :
    ∃ linked, h.link key = some linked ∧ linked.RingOf (ring ++ [key]) ∧ linked.obj = h.obj ∧
      linked.allocated = h.allocated ∧ linked.curkey = h.curkey := by
  have hallocatedAll : ∀ other ∈ ring ++ [key], other < h.allocated := by
    intro other hother
    rcases List.mem_append.mp hother with hold | hnewest
    · exact hring.allocated other hold
    · rwa [List.mem_singleton.mp hnewest]
  have hliveAll : ∀ other ∈ ring ++ [key], h.live other = true := by
    intro other hother
    rcases List.mem_append.mp hother with hold | hnewest
    · exact hring.live other hold
    · rwa [List.mem_singleton.mp hnewest]
  have hkeys := hring.keys
  unfold Heap.link
  cases ring with
  | nil =>
    rw [hkeys]
    refine ⟨_, rfl, ⟨rfl, fun head rest heq ↦ ?_, hallocatedAll, hliveAll⟩, rfl, rfl, rfl⟩
    cases heq
    exact Circular.single h.next key
  | cons head rest =>
    have hcircular := hring.circular head rest rfl
    have hfuel : rest.length < h.allocated := hring.length_le
    rw [hkeys, List.head?_cons]
    dsimp only
    rw [hcircular.findLast_eq hfuel]
    refine ⟨_, rfl, ⟨rfl, fun first others heq ↦ ?_, hallocatedAll, hliveAll⟩, rfl, rfl, rfl⟩
    rw [List.cons_append] at heq
    cases heq
    exact hcircular.append hnew

/-! ## Building a ring -/

/-- From `h` to `h'` new objects were put at the end of the ring. -/
structure Grown (h h' : Heap) (ring new : List ℕ) : Prop where
  ringOf : h'.RingOf (ring ++ new)
  allocated : h.allocated ≤ h'.allocated
  curkey : h'.curkey = h.curkey
  fresh : ∀ key ∈ new, h.allocated ≤ key
  kept : ∀ key < h.allocated, h'.obj key = h.obj key
  size_le : ∀ key ∈ new, (h'.obj key).size ≤ 1024

/-- What the codec sees of some objects. -/
def contents (h : Heap) (ring : List ℕ) : List Key := ring.map fun key ↦ (h.obj key).toKey

theorem Grown.refl (hring : h.RingOf ring) : Grown h h ring [] where
  ringOf := by rwa [List.append_nil]
  allocated := le_rfl
  curkey := rfl
  fresh := nofun
  kept _ _ := rfl
  size_le := nofun

/-- New objects keep what was written when they were made. -/
theorem Grown.kept_new {h'' : Heap} {new new' : List ℕ} (hgrown : Grown h h' ring new)
    (hgrown' : Grown h' h'' (ring ++ new) new') (hkey : key ∈ new) : h''.obj key = h'.obj key :=
  hgrown'.kept key (hgrown.ringOf.allocated key (List.mem_append_right _ hkey))

theorem Grown.trans {h'' : Heap} {new new' : List ℕ} (hgrown : Grown h h' ring new)
    (hgrown' : Grown h' h'' (ring ++ new) new') : Grown h h'' ring (new ++ new') where
  ringOf := List.append_assoc ring new new' ▸ hgrown'.ringOf
  allocated := hgrown.allocated.trans hgrown'.allocated
  curkey := hgrown'.curkey.trans hgrown.curkey
  fresh key hkey := (List.mem_append.mp hkey).elim (hgrown.fresh key)
    fun hnew ↦ hgrown.allocated.trans (hgrown'.fresh key hnew)
  kept key hkey := (hgrown'.kept key (hkey.trans_le hgrown.allocated)).trans (hgrown.kept key hkey)
  size_le key hkey := by
    rcases List.mem_append.mp hkey with hold | hnew
    · rw [hgrown.kept_new hgrown' hold]
      exact hgrown.size_le key hold
    · exact hgrown'.size_le key hnew

/-- A new object may be written again. -/
theorem Grown.write {new : List ℕ} (hgrown : Grown h h' ring new) (hkey : key ∈ new)
    (value : KeyObject) (hsize : value.size ≤ 1024) : Grown h (h'.write key value) ring new where
  ringOf := hgrown.ringOf.write key value
  allocated := hgrown.allocated
  curkey := hgrown.curkey
  fresh := hgrown.fresh
  kept other hother := by
    have hne : other ≠ key := (hother.trans_le (hgrown.fresh key hkey)).ne
    exact (h'.write_obj_of_ne hne value).trans (hgrown.kept other hother)
  size_le other hother := by
    by_cases heq : other = key
    · rwa [heq, write_obj_self]
    · rw [write_obj_of_ne h' heq]
      exact hgrown.size_le other hother

theorem Grown.contents_append {h'' : Heap} {new new' : List ℕ} (hgrown : Grown h h' ring new)
    (hgrown' : Grown h' h'' (ring ++ new) new') :
    h''.contents (new ++ new') = h'.contents new ++ h''.contents new' := by
  rw [contents, List.map_append]
  congr 1
  apply List.map_congr_left
  intro key hkey
  rw [hgrown.kept_new hgrown' hkey]

/-- A new object that has been filled becomes the last key of the ring. -/
theorem RingOf.linkNew (hring : h.RingOf ring) (value : KeyObject) (hsize : value.size ≤ 1024) :
    ∃ linked, (h.malloc.write h.allocated value).link h.allocated = some linked ∧
      Grown h linked ring [h.allocated] ∧ linked.obj h.allocated = value := by
  obtain ⟨linked, hlinked, hnewRing, hobj, hallocated, hcurkey⟩ :=
    (hring.malloc.write h.allocated value).link
      (fun hmem ↦ (hring.allocated _ hmem).false) (Nat.lt_succ_self _) (Function.update_self _ _ _)
  have hvalue : linked.obj h.allocated = value := by
    rw [hobj]
    exact Function.update_self _ _ _
  refine ⟨linked, hlinked, ⟨hnewRing, ?_, hcurkey, ?_, ?_, ?_⟩, hvalue⟩
  · rw [hallocated]
    exact Nat.le_succ _
  · intro key hkey
    exact (List.mem_singleton.mp hkey).ge
  · intro key hkey
    rw [hobj]
    exact Function.update_of_ne hkey.ne _ _
  · intro key hkey
    rwa [List.mem_singleton.mp hkey, hvalue]

/-! ### From an upload -/

theorem filled_toKey (old : KeyObject) (f : Mem) {size : ℕ} (hsize : size ≤ 1024) :
    (filled old f size).toKey = Qcrypt.getKeyBuffer f size hsize := by
  have hheld : (old.key.store 0 (f.slice 0 size)).slice 0 size = f.slice 0 size := by
    have hstored := Mem.holds_store old.key 0 (f.slice 0 size)
    rwa [Mem.Holds, Mem.length_slice] at hstored
  simp only [KeyObject.toKey, filled, Qcrypt.getKeyBuffer, Nat.min_eq_left hsize, hheld]

/-- The loop of `get_keys_buffer` ends, and the new keys are those of the text. Each round takes at
least one byte. -/
theorem getKeysBufferLoop_spec (f : Mem) {size fuel all : ℕ} (cnt : ℕ) (hring : h.RingOf ring)
    (hall : all < size) (hfuel : size - all ≤ fuel) :
    ∃ built new, getKeysBufferLoop f size fuel all cnt h = some (built, cnt + new.length) ∧
      Grown h built ring new ∧ built.contents new = getKeysBufferFuel f size fuel all := by
  induction fuel generalizing all cnt h ring with
  | zero => omega
  | succ fuel ih =>
    have hcount : (if size - all > 1024 then 1024 else size - all) = min 1024 (size - all) := by
      split_ifs <;> omega
    have hle : min 1024 (size - all) ≤ 1024 := Nat.min_le_left _ _
    obtain ⟨linked, hlinked, hgrown, hvalue⟩ :=
      hring.linkNew (filled (h.obj h.allocated) f (min 1024 (size - all))) hle
    have hcontents : linked.contents [h.allocated] = [Qcrypt.getKeyBuffer f _ hle] := by
      rw [contents, List.map_singleton, hvalue, filled_toKey _ f hle]
    have hsize : (linked.obj h.allocated).size = min 1024 (size - all) := by
      rw [hvalue]
      rfl
    rw [getKeysBufferLoop, getKeysBufferFuel, hcount, Heap.getKeyBuffer, hlinked,
      Option.bind_some, hsize]
    dsimp only
    by_cases hdone : size - 16 ≤ all + min 1024 (size - all)
    · rw [if_pos hdone, if_pos hdone]
      exact ⟨linked, [h.allocated], rfl, hgrown, hcontents⟩
    · rw [if_neg hdone, if_neg hdone]
      obtain ⟨built, new, hbuilt, hmore, hrest⟩ := ih (cnt + 1)
        hgrown.ringOf (by omega : all + min 1024 (size - all) < size) (by omega)
      refine ⟨built, h.allocated :: new, ?_, hgrown.trans hmore, ?_⟩
      · rw [hbuilt, List.length_cons]
        congr 2
        omega
      · rw [← List.singleton_append, hgrown.contents_append hmore, hcontents, hrest]
        rfl

/-- `get_keys_buffer` on a text of at least 16 bytes makes a new ring. -/
theorem getKeysBuffer_spec (f : Mem) {size : ℕ} (h : Heap) (hsize : 16 ≤ size) :
    ∃ built ring, h.getKeysBuffer f size = some (built, ring.length) ∧
      Grown h.dropKeys built [] ring ∧ built.contents ring = Qcrypt.getKeysBuffer f size := by
  obtain ⟨built, new, hbuilt, hgrown, hcontents⟩ := getKeysBufferLoop_spec f 0
    (RingOf.dropKeys h) (by omega : 0 < size) (Nat.sub_le size 0)
  refine ⟨built, new, ?_, hgrown, ?_⟩
  · rw [Heap.getKeysBuffer, if_neg (by omega), hbuilt, Nat.zero_add]
  · rw [hcontents, Qcrypt.getKeysBuffer, if_neg (by omega)]

/-! ### From files -/

/-- The key in a file, if it has one. -/
def fileKey (file : List UInt8) : Option Key :=
  if file.length < 8 ∨ ((file.drop 8).take 1024).isEmpty then none
  else some ⟨fun i ↦ file.getD i 0, (file.drop 8).take 1024, List.length_take_le _ _⟩

theorem readFrom_toKey (old : KeyObject) (file : List UInt8) :
    (readFrom old file).toKey =
      ⟨fun i ↦ file.getD i 0, (file.drop 8).take 1024, List.length_take_le _ _⟩ := by
  have hheld := Mem.holds_store old.key 0 ((file.drop 8).take 1024)
  simp only [KeyObject.toKey, readFrom, Nat.min_eq_left (List.length_take_le 1024 (file.drop 8))]
  congr 1

theorem getKey_spec (hring : h.RingOf ring) (file : List UInt8) :
    ∃ built new, h.getKey file = some built ∧ Grown h built ring new ∧
      built.contents new = (fileKey file).toList := by
  unfold getKey fileKey
  split_ifs with hshort
  · have hfree : (h.malloc.free h.allocated).RingOf ring :=
      hring.malloc.free fun hmem ↦ (hring.allocated _ hmem).false
    refine ⟨_, [], rfl, ⟨?_, Nat.le_succ _, rfl, List.forall_mem_nil _, fun _ _ ↦ rfl,
      List.forall_mem_nil _⟩, rfl⟩
    rwa [List.append_nil]
  · obtain ⟨linked, hlinked, hgrown, hvalue⟩ :=
      hring.linkNew (readFrom (h.obj h.allocated) file) (List.length_take_le _ _)
    refine ⟨linked, _, hlinked, hgrown, ?_⟩
    rw [contents, List.map_singleton, hvalue, readFrom_toKey]
    rfl

/-- `get_files` makes a new ring of the keys in the files. -/
theorem getFiles_spec (files : List (List UInt8)) (h : Heap) :
    ∃ built ring, h.getFiles files = some built ∧ Grown h.dropKeys built [] ring ∧
      built.contents ring = files.filterMap fileKey := by
  have hloop (h : Heap) (ring : List ℕ) (hring : h.RingOf ring) :
      ∃ built new, files.foldlM getKey h = some built ∧ Grown h built ring new ∧
        built.contents new = files.filterMap fileKey := by
    induction files generalizing h ring with
    | nil => exact ⟨h, [], rfl, .refl hring, rfl⟩
    | cons file rest ih =>
      obtain ⟨built, new, hbuilt, hgrown, hcontents⟩ := getKey_spec hring file
      obtain ⟨built', more, hbuilt', hgrown', hcontents'⟩ := ih built (ring ++ new) hgrown.ringOf
      refine ⟨built', new ++ more, ?_, hgrown.trans hgrown', ?_⟩
      · rw [List.foldlM_cons, hbuilt]
        exact hbuilt'
      · rw [hgrown.contents_append hgrown', hcontents, hcontents', List.filterMap_cons]
        cases fileKey file <;> rfl
  exact hloop h.dropKeys [] (RingOf.dropKeys h)

end Heap

/-- The heap of a process that has just started, in a memory of zeros. -/
def sampleHeap : Heap := .init fun _ ↦ ⟨fun _ ↦ 0, fun _ ↦ 0, 0, 0⟩

end QNet.Qcrypt
