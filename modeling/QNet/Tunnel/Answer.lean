import QNet.Http.WellFormed
import QNet.Tunnel.Keys

/-!
# What the tunnel makes of the keyworker's answers

The body of an answer comes in parts and is collected in a buffer that grows; then 64 bytes are
copied, however long the body is, and read as hex digits without a look at the result. Any answer
at all so gives a key. `accepts_iff` says that it is the right one if and only if the body begins
with 64 digits.
-/

namespace QNet.Tunnel

open CString Http

/-- `struct MemoryStruct`: the memory from the block on, and the size of the body. -/
structure MemoryStruct where
  memory : Mem
  size : ℕ

/-- A call of the callback: the part of the body, and what lies in the block that `realloc` gives
and behind it. -/
structure Callback where
  contents : List UInt8
  heap : Mem

/-- `WriteMemoryCallback`; `realloc` keeps what was in the old block. -/
def writeMemoryCallback (mem : MemoryStruct) (call : Callback) : MemoryStruct :=
  let memory := call.heap.store 0 (mem.memory.slice 0 (mem.size + 1))
  let memory := memory.store mem.size call.contents
  let size := mem.size + call.contents.length
  ⟨memory.store size [0], size⟩

/-- A request that was answered: what lies in the first block and behind it, the calls of the
callback, and what lies behind the block for the key. -/
structure Transfer where
  start : Mem
  calls : List Callback
  behind : List UInt8

namespace Transfer

def body (t : Transfer) : List UInt8 := (t.calls.map Callback.contents).flatten

def chunk (t : Transfer) : MemoryStruct := t.calls.foldl writeMemoryCallback ⟨t.start, 0⟩

end Transfer

/-- `curl_get_key`: the text from the copy on; `none` when the request failed. -/
def curlGetKey (answer : Option Transfer) : Option (List UInt8) :=
  answer.map fun t ↦ t.chunk.memory.slice 0 64 ++ t.behind

/-- The loop that reads the key; `buff` is what the array for it holds before. -/
def scanKey (nextkey : Option (List UInt8)) (buff : Mem) : Option Bytes32 :=
  nextkey.map fun text i ↦ readKey text buff i

/-- `requestKey`. -/
def askRequestKey (answer : Option Transfer) (buff : Mem) : Option Bytes32 :=
  scanKey (curlGetKey answer) buff

/-- `getLastKey`. -/
def askLastKey (sha256 : Bytes32 → Bytes32) (answer : Option Transfer) (buff : Mem) (k : Keys) :
    Keys := getLastKey sha256 (scanKey (curlGetKey answer) buff) k

/-- `getKeyBySha`. -/
def askKeyBySha (answer : Option Transfer) (buff : Mem) (sha : Bytes32) (k : Keys) :
    Option Keys := getKeyBySha (scanKey (curlGetKey answer) buff) sha k

/-- The text that the keyworker answers with. -/
def sprintfKey (key : Bytes32) : List UInt8 := (List.ofFn key).flatMap printHex

/-! ## What is to be made of a body -/

/-- The body begins with 64 hex digits. -/
def HoldsKey (body : List UInt8) : Prop := 64 ≤ body.length ∧ IsHex (body.take 64)

instance (body : List UInt8) : Decidable (HoldsKey body) := inferInstanceAs (Decidable (_ ∧ _))

/-- The key in a body. -/
def bodyKey (body : List UInt8) : Option Bytes32 :=
  if HoldsKey body then some (hexKey body) else none

/-- However the body comes and whatever the memory holds, `requestKey` gives its key. -/
def RequestAccepts (body : List UInt8) : Prop :=
  ∀ (t : Transfer) (buff : Mem), t.body = body → askRequestKey (some t) buff = bodyKey body

/-- `getLastKey` puts the key of the body in both queues, and nothing when there is none. -/
def LastAccepts (body : List UInt8) : Prop :=
  ∀ (sha256 : Bytes32 → Bytes32) (t : Transfer) (buff : Mem) (k : Keys), t.body = body →
    askLastKey sha256 (some t) buff k =
      match bodyKey body with
      | none => k
      | some key => k.load (constructKey sha256 key)

/-- `getKeyBySha` puts the key of the body in both queues, and reports that there is none. -/
def ByShaAccepts (body : List UInt8) : Prop :=
  ∀ (sha : Bytes32) (t : Transfer) (buff : Mem) (k : Keys), t.body = body →
    askKeyBySha (some t) buff sha k =
      (bodyKey body).map fun key ↦ k.load (constructKeySha key sha)

/-! ## The callback -/

/-- A call puts its part behind what is in the buffer. -/
theorem holds_writeMemoryCallback {mem : MemoryStruct} {bytes : List UInt8}
    (hheld : mem.memory.Holds 0 bytes) (hsize : mem.size = bytes.length) (call : Callback) :
    (writeMemoryCallback mem call).memory.Holds 0 (bytes ++ call.contents) := by
  obtain ⟨memory, size⟩ := mem
  obtain rfl : size = bytes.length := hsize
  have hkept : (call.heap.store 0 (memory.slice 0 (bytes.length + 1))).Holds 0 bytes := by
    rw [Mem.holds_iff]
    intro i hi
    rw [Mem.store_of_mem (by rw [Mem.length_slice]; omega), Mem.getElem_slice]
    exact hheld.apply hi
  have hpart := Mem.holds_store (call.heap.store 0 (memory.slice 0 (bytes.length + 1)))
    (0 + bytes.length) call.contents
  have hboth := Mem.holds_append.mpr ⟨hkept.store (Or.inl le_rfl), hpart⟩
  rw [Nat.zero_add] at hboth
  refine hboth.store (Or.inl ?_)
  rw [List.length_append, Nat.zero_add]

/-- After the calls the body stands in the buffer. -/
theorem holds_chunk (t : Transfer) :
    t.chunk.memory.Holds 0 t.body ∧ t.chunk.size = t.body.length := by
  obtain ⟨start, calls, behind⟩ := t
  unfold Transfer.chunk Transfer.body
  induction calls using List.reverseRecOn with
  | nil => exact ⟨Mem.holds_iff.mpr nofun, rfl⟩
  | append_singleton calls call ih =>
    obtain ⟨hheld, hsize⟩ := ih
    rw [List.foldl_append, List.map_append, List.flatten_append, List.map_singleton,
      List.flatten_singleton, List.length_append]
    exact ⟨holds_writeMemoryCallback hheld hsize call, congrArg (· + call.contents.length) hsize⟩

/-- The text that is read begins with a body of 64 characters. -/
theorem curlGetKey_eq {t : Transfer} (h : 64 ≤ t.body.length) :
    curlGetKey (some t) = some (t.body.take 64 ++ t.behind) := by
  have hslice : t.chunk.memory.slice 0 64 = t.body.take 64 := by
    rw [Mem.slice_eq_iff]
    refine ⟨by rw [List.length_take]; omega, fun i hi ↦ ?_⟩
    have hlt : i < t.body.length := hi.trans_le (List.length_take_le' _ _)
    rw [(holds_chunk t).1.apply hlt, List.getElem_take]
  rw [curlGetKey, Option.map_some, hslice]

/-- The digits are read as they are written. -/
theorem scanKey_of_holdsKey {t : Transfer} (h : HoldsKey t.body) (buff : Mem) :
    scanKey (curlGetKey (some t)) buff = some (hexKey t.body) := by
  obtain ⟨hlength, hhex⟩ := h
  have hkey := readKey_of_digits t.behind buff hhex (by rw [List.length_take]; omega)
  have hsame : hexKey (t.body.take 64) = hexKey t.body := by
    refine hexKey_congr fun n hn ↦ ?_
    simp only [List.getD_eq_getElem?_getD, List.getElem?_take, if_pos hn]
  rw [curlGetKey_eq hlength, scanKey, Option.map_some, hkey, hsame]

/-- A body that comes in one part. -/
def oneCall (body : List UInt8) : Transfer := ⟨fun _ ↦ 0, [⟨body, fun _ ↦ 0⟩], []⟩

theorem body_oneCall (body : List UInt8) : (oneCall body).body = body := by
  simp [oneCall, Transfer.body]

/-! ## The three callers -/

theorem requestAccepts_iff (body : List UInt8) : RequestAccepts body ↔ HoldsKey body := by
  constructor
  · intro h
    have hkey := h (oneCall body) (fun _ ↦ 0) (body_oneCall body)
    by_contra hnot
    rw [bodyKey, if_neg hnot] at hkey
    cases hkey
  · rintro h t buff rfl
    rw [askRequestKey, scanKey_of_holdsKey h, bodyKey, if_pos h]

theorem lastAccepts_iff (body : List UInt8) : LastAccepts body ↔ HoldsKey body := by
  constructor
  · intro h
    have hkeys := h id (oneCall body) (fun _ ↦ 0) Keys.init (body_oneCall body)
    by_contra hnot
    rw [bodyKey, if_neg hnot] at hkeys
    have hlength := congrArg (fun k : Keys ↦ k.q1.items.length) hkeys
    exact absurd hlength (Nat.succ_ne_zero 0)
  · rintro h sha256 t buff k rfl
    rw [askLastKey, scanKey_of_holdsKey h, bodyKey, if_pos h]
    rfl

theorem byShaAccepts_iff (body : List UInt8) : ByShaAccepts body ↔ HoldsKey body := by
  constructor
  · intro h
    have hkeys := h (fun _ ↦ 0) (oneCall body) (fun _ ↦ 0) Keys.init (body_oneCall body)
    by_contra hnot
    rw [bodyKey, if_neg hnot] at hkeys
    cases hkeys
  · rintro h sha t buff k rfl
    rw [askKeyBySha, scanKey_of_holdsKey h, bodyKey, if_pos h]
    rfl

/-! ## The keyworker's text -/

/-- The two characters of a byte. -/
theorem getElem?_flatMap_printHex {bytes : List UInt8} {i : ℕ} {byte : UInt8}
    (h : bytes[i]? = some byte) :
    (bytes.flatMap printHex).getD (2 * i) 0 = (printHex byte).getD 0 0 ∧
      (bytes.flatMap printHex).getD (2 * i + 1) 0 = (printHex byte).getD 1 0 := by
  induction bytes generalizing i with
  | nil => cases h
  | cons first rest ih =>
    cases i with
    | zero =>
      cases h
      exact ⟨rfl, rfl⟩
    | succ i => exact ih h

theorem isHex_flatMap_printHex (bytes : List UInt8) : IsHex (bytes.flatMap printHex) := by
  intro c hc
  obtain ⟨byte, _, hc⟩ := List.mem_flatMap.mp hc
  obtain ⟨first, second, value, value', hprint, hfirst, hsecond, _⟩ := exists_printHex byte
  rw [hprint, List.mem_cons, List.mem_singleton] at hc
  rcases hc with rfl | rfl
  · exact hfirst ▸ rfl
  · exact hsecond ▸ rfl

/-- The text of every key holds that key. -/
theorem bodyKey_sprintfKey (key : Bytes32) : bodyKey (sprintfKey key) = some key := by
  have hlength : (sprintfKey key).length = 64 := by
    rw [sprintfKey, length_flatMap_printHex, List.length_ofFn]
  have hholds : HoldsKey (sprintfKey key) :=
    ⟨hlength.ge, fun c hc ↦ isHex_flatMap_printHex _ c (List.mem_of_mem_take hc)⟩
  rw [bodyKey, if_pos hholds]
  congr 1
  funext i
  obtain ⟨c, c', value, value', hprint, hc, hc', hbyte⟩ := exists_printHex (key i)
  have hplace : (List.ofFn key)[i.val]? = some (key i) := by
    rw [List.getElem?_ofFn, dif_pos i.isLt]
  obtain ⟨hfirst, hsecond⟩ := getElem?_flatMap_printHex hplace
  rw [hprint] at hfirst hsecond
  simp only [hexKey, sprintfKey, hfirst, hsecond]
  simpa [hc, hc'] using hbyte

/-- An answer gives its key if and only if it begins with 64 digits, and every text of the
keyworker does. -/
theorem accepts_iff (body : List UInt8) :
    (RequestAccepts body ↔ HoldsKey body) ∧ (LastAccepts body ↔ HoldsKey body) ∧
      (ByShaAccepts body ↔ HoldsKey body) ∧
        ∀ key, bodyKey (sprintfKey key) = some key :=
  ⟨requestAccepts_iff body, lastAccepts_iff body, byShaAccepts_iff body, bodyKey_sprintfKey⟩

/-- The empty body of a query that failed gives a key. -/
theorem not_accepts_empty :
    ¬ ∀ body, RequestAccepts body ∧ LastAccepts body ∧ ByShaAccepts body := by
  intro h
  exact absurd ((requestAccepts_iff []).mp (h []).1) (by decide)

end QNet.Tunnel
