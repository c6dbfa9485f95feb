import Mathlib.Data.List.DropRight
import QNet.Lib.CString

/-!
# Commands in the body of a POST request

The HTTP handlers of `keyworker` and `qcrypt` are called once for each part of the body that has
arrived, and once more at its end. Each part replaces the buffer, only its length is added to the
count, and no NUL is put behind it. The command at the end is therefore read from the last part and
from the memory behind it.

Bodies for which this makes no difference are few (`independent_iff`). A body of hex digits that
arrives in one part is stored as it should be, whatever lies behind it (`keyworkerEcho_of_whole`).
-/

namespace QNet.Http

open CString Mem

/-- A part of the body, and what lies behind it in the buffer that is allocated for it. -/
structure Chunk where
  data : List UInt8
  behind : List UInt8
  ne_nil : data ≠ []

/-- `struct postStatus` after the first call; `buff` is not set in the beginning. -/
structure PostStatus where
  buff : Option (List UInt8)
  count : ℤ

/-- The value that an `int` has. -/
def asInt (n : ℤ) : ℤ := n.bmod (2 ^ 32)

/-- A call with a part of the body. -/
def receive (post : PostStatus) (chunk : Chunk) : PostStatus :=
  ⟨some (strncpy chunk.data ++ chunk.behind), asInt (post.count + chunk.data.length)⟩

def receiveAll (chunks : List Chunk) : PostStatus := chunks.foldl receive ⟨none, 0⟩

def body (chunks : List Chunk) : List UInt8 := (chunks.map Chunk.data).flatten

/-! ## keyworker -/

def quit : List UInt8 := ascii ['q', 'u', 'i', 't']

def request : List UInt8 := ascii ['r', 'e', 'q', 'u', 'e', 's', 't']

def last : List UInt8 := ascii ['l', 'a', 's', 't']

def key : List UInt8 := ascii ['k', 'e', 'y']

def words : List (List UInt8) := [quit, request, last, key]

inductive Command
  | quit
  | request (device : UInt32)
  | last (device : UInt32)
  | key (sha : Bytes32)
  | upload (keys : List Bytes32)
  deriving DecidableEq

/-- Thirty-two times `sscanf` with `"%02X"`; each time an `unsigned int` is written over the byte
and those behind it. -/
def readKey (text : List UInt8) (buffer : Mem) : Mem :=
  (List.range 32).foldl (fun m i ↦
    match scanHex (text.drop (2 * i)) with
    | none => m
    | some value => m.store i (le32 value)) buffer

/-- The loop over the keys of an upload; `buffer` is the array `key`, which is not cleared. -/
def uploadKeys : ℕ → List UInt8 → Mem → List Bytes32
  | 0, _, _ => []
  | n + 1, text, buffer =>
      let filled := readKey text buffer
      (fun i ↦ filled i) :: uploadKeys n (text.drop 64) filled

/-- The number of the device, 0 by default. -/
def deviceNumber (text : List UInt8) (count : ℤ) (offset : ℕ) : UInt32 :=
  if count > offset then UInt32.ofNat (strtoul (text.drop offset)) else 0

/-- The last call. `none` when `buff` was never set; `stack` is what the arrays for a key hold. -/
def keyworkerEcho (stack : Mem) (post : PostStatus) : Option Command :=
  post.buff.map fun text ↦
    if startsWith text quit then .quit
    else if startsWith text request then .request (deviceNumber text post.count 7)
    else if startsWith text last then .last (deviceNumber text post.count 4)
    else if startsWith text key then .key fun i ↦ readKey (text.drop 3) stack i
    else .upload (uploadKeys (post.count / 64).toNat text stack)

/-! ## qcrypt -/

inductive Action
  | quit
  | reread
  | getKeys (buffer : List UInt8)
  | nothing
  deriving DecidableEq

/-- The last call. `get_keys_buffer` gets `count` bytes. -/
def qcryptEcho (mode : ℤ) (post : PostStatus) : Option Action :=
  post.buff.map fun text ↦
    if startsWith text quit then .quit
    else if mode > 0 ∧ startsWith text (ascii ['r']) then .reread
    else if mode = 0 then .getKeys (text.takeD post.count.toNat 0)
    else .nothing

/-! ## What the body says -/

/-- The key that is written as sixty-four hex digits. -/
def hexKey (text : List UInt8) : Bytes32 := fun i ↦
  let digit (n : ℕ) := (hexDigit (text.getD n 0)).getD 0
  UInt8.ofNat (16 * digit (2 * i) + digit (2 * i + 1))

/-- The consecutive blocks of 64 characters. -/
def blocks (text : List UInt8) : List Bytes32 :=
  (List.range (text.length / 64)).map fun j ↦ hexKey (text.drop (64 * j))

/-- The command of a body. -/
def expected (text : List UInt8) : Command :=
  if startsWith text quit then .quit
  else if startsWith text request then .request (deviceNumber text text.length 7)
  else if startsWith text last then .last (deviceNumber text text.length 4)
  else if startsWith text key then .key (hexKey (text.drop 3))
  else .upload (blocks text)

/-- However the body is split and whatever lies behind the parts, its command is executed. -/
def KeyworkerIndependent (stack : Mem) (text : List UInt8) : Prop :=
  ∀ chunks, body chunks = text →
    keyworkerEcho stack (receiveAll chunks) = some (expected text)

/-- Likewise, in mode 0, the whole body comes to `get_keys_buffer`. -/
def QcryptIndependent (text : List UInt8) : Prop :=
  ∀ chunks, body chunks = text → qcryptEcho 0 (receiveAll chunks) =
    some (if startsWith text quit then .quit else .getKeys text)

/-- The body is shorter than a key, and no end of it can be taken for a command or its beginning. -/
structure Plain (text : List UInt8) : Prop where
  ne_nil : text ≠ []
  length_lt : text.length < 64
  no_command : ∀ rest, rest <:+ text → rest ≠ [] → ∀ word ∈ words, ¬rest <+: word ∧ ¬word <+: rest

/-! ## The state at the end of the body -/

theorem receiveAll_concat (chunks : List Chunk) (chunk : Chunk) :
    receiveAll (chunks ++ [chunk]) = receive (receiveAll chunks) chunk := by
  rw [receiveAll, List.foldl_append]
  rfl

theorem body_concat (chunks : List Chunk) (chunk : Chunk) :
    body (chunks ++ [chunk]) = body chunks ++ chunk.data := by
  rw [body, List.map_append, List.flatten_append]
  simp [body]

theorem asInt_asInt_add (n m : ℤ) : asInt (asInt n + m) = asInt (n + m) := by
  rw [asInt, asInt, Int.bmod_add_bmod, ← asInt]

theorem asInt_of_lt {n : ℕ} (h : n < 2 ^ 31) : asInt n = n := by
  rw [asInt]
  exact Int.bmod_eq_of_le (by omega) (by omega)

/-- The count is the length of the body, as an `int`. -/
theorem count_receiveAll (chunks : List Chunk) :
    (receiveAll chunks).count = asInt (body chunks).length := by
  induction chunks using List.reverseRecOn with
  | nil => rfl
  | append_singleton chunks chunk ih =>
    rw [receiveAll_concat, receive, ih, body_concat, List.length_append, Int.natCast_add,
      asInt_asInt_add]

theorem receiveAll_append_singleton (chunks : List Chunk) (chunk : Chunk) :
    receiveAll (chunks ++ [chunk]) =
      ⟨some (strncpy chunk.data ++ chunk.behind), asInt (body (chunks ++ [chunk])).length⟩ := by
  rw [← count_receiveAll, receiveAll_concat]
  rfl

/-- A body that ends with the given part, and with the given bytes behind it. -/
theorem exists_chunks (front : List UInt8) {rest : List UInt8} (hrest : rest ≠ [])
    (behind : List UInt8) : ∃ chunks, body chunks = front ++ rest ∧
      receiveAll chunks = ⟨some (strncpy rest ++ behind), asInt (front ++ rest).length⟩ := by
  have hlast (chunks : List Chunk) (hfront : body chunks = front) :
      body (chunks ++ [⟨rest, behind, hrest⟩]) = front ++ rest ∧
        receiveAll (chunks ++ [⟨rest, behind, hrest⟩]) =
          ⟨some (strncpy rest ++ behind), asInt (front ++ rest).length⟩ := by
    have hbody : body (chunks ++ [⟨rest, behind, hrest⟩]) = front ++ rest := by
      rw [body_concat, hfront]
    rw [receiveAll_append_singleton, hbody]
    exact ⟨rfl, rfl⟩
  by_cases hfront : front = []
  · exact ⟨_, hlast [] hfront.symm⟩
  · exact ⟨_, hlast [⟨front, [], hfront⟩] (by simp [body])⟩

/-- What is left at the end of a body that is not empty. -/
theorem exists_last {chunks : List Chunk} (hne : body chunks ≠ []) :
    ∃ chunk : Chunk, chunk.data <:+ body chunks ∧ receiveAll chunks =
      ⟨some (strncpy chunk.data ++ chunk.behind), asInt (body chunks).length⟩ := by
  rcases List.eq_nil_or_concat' chunks with rfl | ⟨front, chunk, rfl⟩
  · exact absurd rfl hne
  · refine ⟨chunk, ?_, receiveAll_append_singleton front chunk⟩
    rw [body_concat]
    exact List.suffix_append _ _

/-! ## Which branch is taken -/

theorem startsWith_iff {text word : List UInt8} : startsWith text word ↔ word <+: text :=
  List.isPrefixOf_iff_prefix

theorem not_startsWith_iff {text word : List UInt8} :
    ¬startsWith text word ↔ ¬word <+: text := not_congr startsWith_iff

theorem ne_zero_of_mem_words {word : List UInt8} (h : word ∈ words) : ∀ c ∈ word, c ≠ 0 := by
  have hzero : 0 ∉ word := by
    revert word
    decide
  rintro c hc rfl
  exact hzero hc

theorem exists_head_of_mem_words {word : List UInt8} (h : word ∈ words) :
    ∃ c ∈ word.head?, hexDigit c = none := by
  revert word
  decide

/-- The second character of a word is a lower-case letter. -/
theorem not_prefix_cons {word : List UInt8} (hword : word ∈ words) (c : UInt8)
    {behind : List UInt8} (hbehind : ∀ b ∈ behind.head?, b < 97) : ¬word <+: c :: behind := by
  have hsecond : ∃ b ∈ word[1]?, 97 ≤ b := by
    revert word
    decide
  obtain ⟨b, hb, hle⟩ := hsecond
  rintro ⟨rest, hrest⟩
  have hget : (word ++ rest)[1]? = some b := by
    rw [List.getElem?_append_left (List.getElem?_eq_some_iff.mp hb).1, hb]
  have hhead : b ∈ behind.head? := by
    rw [hrest, List.getElem?_cons_succ, ← List.head?_eq_getElem?] at hget
    exact hget
  exact absurd hle (UInt8.not_le.mpr (hbehind b hhead))

theorem keyworkerEcho_upload {stack : Mem} {text : List UInt8} {count : ℤ}
    (h : ∀ word ∈ words, ¬word <+: text) :
    keyworkerEcho stack ⟨some text, count⟩ =
      some (.upload (uploadKeys (count / 64).toNat text stack)) := by
  have hnot (word : List UInt8) (hword : word ∈ words) : ¬startsWith text word :=
    not_startsWith_iff.mpr (h word hword)
  rw [keyworkerEcho, Option.map_some, if_neg (hnot quit (by decide)),
    if_neg (hnot request (by decide)), if_neg (hnot last (by decide)),
    if_neg (hnot key (by decide))]

theorem keyworkerEcho_command {stack : Mem} {text word : List UInt8} {count : ℤ}
    (hword : word ∈ words) (h : word <+: text) (keys : List Bytes32) :
    keyworkerEcho stack ⟨some text, count⟩ ≠ some (.upload keys) := by
  intro heq
  rw [keyworkerEcho, Option.map_some, Option.some_inj] at heq
  rw [← startsWith_iff] at h
  split_ifs at heq with hquit hrequest hlast hkey
  simp only [words, List.mem_cons, List.not_mem_nil, or_false] at hword
  rcases hword with rfl | rfl | rfl | rfl
  · exact hquit h
  · exact hrequest h
  · exact hlast h
  · exact hkey h

theorem expected_upload {text : List UInt8} (h : ∀ word ∈ words, ¬word <+: text) :
    expected text = .upload (blocks text) := by
  have hnot (word : List UInt8) (hword : word ∈ words) : ¬startsWith text word :=
    not_startsWith_iff.mpr (h word hword)
  rw [expected, if_neg (hnot quit (by decide)), if_neg (hnot request (by decide)),
    if_neg (hnot last (by decide)), if_neg (hnot key (by decide))]

/-- A buffer that begins with a word: the part of the body begins with it or is its beginning. -/
theorem prefix_or_prefix_of_buffer {word data behind : List UInt8} (hword : word ∈ words)
    (h : word <+: strncpy data ++ behind) : word <+: data ∨ data <+: word := by
  have hne := ne_zero_of_mem_words hword
  rcases List.prefix_or_prefix_of_prefix h (List.prefix_append _ behind) with hle | hge
  · exact Or.inl (isPrefix_of_isPrefix_strncpy hne hle)
  · exact Or.inr (isPrefix_of_strncpy hne hge)

/-- Any such part can become a word. -/
theorem exists_buffer {word data : List UInt8} (hword : word ∈ words)
    (h : data <+: word ∨ word <+: data) : ∃ behind, word <+: strncpy data ++ behind := by
  have hne := ne_zero_of_mem_words hword
  rcases h with ⟨rest, hrest⟩ | hle
  · have hdata : strncpy data = data := by
      apply strncpy_of_ne_zero
      intro c hc
      exact hne c (hrest ▸ List.mem_append_left rest hc)
    rw [hdata]
    exact ⟨rest, hrest ▸ List.prefix_refl _⟩
  · exact ⟨[], (isPrefix_strncpy hne hle).trans (List.prefix_append _ _)⟩

/-! ## Reading the keys -/

/-- What is written over a byte of the key later is written behind it. -/
theorem readKey_apply {text : List UInt8} {i : ℕ} {value : UInt32} (stack : Mem) (hi : i < 32)
    (h : scanHex (text.drop (2 * i)) = some value) : readKey text stack i = value.toUInt8 := by
  rw [readKey]
  generalize 32 = n at hi
  induction n with
  | zero => exact absurd hi (Nat.not_lt_zero i)
  | succ n ih =>
    rw [List.range_succ, List.foldl_append, List.foldl_cons, List.foldl_nil]
    rcases Nat.lt_succ_iff_lt_or_eq.mp hi with hlt | rfl
    · cases scanHex (text.drop (2 * n)) with
      | none => exact ih hlt
      | some later => exact (store_of_lt hlt).trans (ih hlt)
    · rw [h]
      have hlength : 0 < (le32 value).length := Nat.zero_lt_succ 3
      exact store_of_mem hlength

/-- Sixty-four digits are read as the key they spell. -/
theorem readKey_of_digits {digits : List UInt8} (behind : List UInt8) (stack : Mem)
    (hdigits : ∀ c ∈ digits, (hexDigit c).isSome) (hlength : 64 ≤ digits.length) :
    (fun i : Fin 32 ↦ readKey (digits ++ behind) stack i) = hexKey digits := by
  funext i
  have hi : 2 * i.val + 1 < digits.length := by omega
  obtain ⟨value, hvalue⟩ := Option.isSome_iff_exists.mp
    (hdigits (digits[2 * i.val]) (List.getElem_mem _))
  obtain ⟨value', hvalue'⟩ := Option.isSome_iff_exists.mp
    (hdigits (digits[2 * i.val + 1]) (List.getElem_mem _))
  have hscan : scanHex ((digits ++ behind).drop (2 * i)) =
      some (UInt32.ofNat (16 * value + value')) := by
    rw [List.drop_append_of_le_length (by omega), List.drop_eq_getElem_cons (by omega),
      List.drop_eq_getElem_cons hi]
    exact scanHex_of_digits _ hvalue hvalue'
  rw [readKey_apply stack i.isLt hscan, UInt32.toUInt8_ofNat', hexKey]
  simp only [List.getD_eq_getElem _ _ hi, List.getD_eq_getElem _ _ (Nat.lt_of_succ_lt hi), hvalue,
    hvalue', Option.getD_some]

theorem uploadKeys_of_digits (n : ℕ) {digits : List UInt8} (behind : List UInt8) (stack : Mem)
    (hdigits : ∀ c ∈ digits, (hexDigit c).isSome) (hlength : 64 * n ≤ digits.length) :
    uploadKeys n (digits ++ behind) stack =
      (List.range n).map fun j ↦ hexKey (digits.drop (64 * j)) := by
  induction n generalizing digits stack with
  | zero => rfl
  | succ n ih =>
    have hdrop : ∀ c ∈ digits.drop 64, (hexDigit c).isSome :=
      fun c hc ↦ hdigits c (List.mem_of_mem_drop hc)
    have hrest : 64 * n ≤ (digits.drop 64).length := by
      rw [List.length_drop]
      omega
    rw [uploadKeys, readKey_of_digits behind stack hdigits (by omega),
      List.drop_append_of_le_length (by omega), ih _ hdrop hrest, List.range_succ_eq_map,
      List.map_cons, List.map_map]
    simp only [List.drop_drop, Nat.mul_zero, List.drop_zero, Function.comp_def, Nat.mul_succ,
      Nat.add_comm]

/-- What the handler is for: the keys of a body that arrives in one part are stored. -/
theorem keyworkerEcho_of_whole (stack : Mem) {digits : List UInt8} (behind : List UInt8)
    (hne : digits ≠ []) (hdigits : ∀ c ∈ digits, (hexDigit c).isSome)
    (hlength : digits.length < 2 ^ 31) :
    keyworkerEcho stack (receiveAll [⟨digits, behind, hne⟩]) =
      some (.upload (blocks digits)) := by
  have hcopy : strncpy digits = digits := by
    apply strncpy_of_ne_zero
    rintro c hc rfl
    exact absurd (hdigits 0 hc) (by decide)
  have hnot : ∀ word ∈ words, ¬word <+: digits ++ behind := by
    rintro word hword ⟨rest, hrest⟩
    obtain ⟨c, hc, hnone⟩ := exists_head_of_mem_words hword
    obtain ⟨digit, others, rfl⟩ := List.exists_cons_of_ne_nil hne
    have hhead : some digit = some c := by
      have hheads := congrArg List.head? hrest
      rwa [List.head?_append, hc, Option.some_or, List.cons_append, List.head?_cons, eq_comm]
        at hheads
    have hsome := hdigits digit List.mem_cons_self
    rw [Option.some_inj.mp hhead, hnone] at hsome
    cases hsome
  have hdiv : ((digits.length : ℤ) / 64).toNat = digits.length / 64 := by omega
  have hstatus : receiveAll [⟨digits, behind, hne⟩] =
      ⟨some (digits ++ behind), digits.length⟩ := by
    rw [← List.nil_append [_], receiveAll_append_singleton, body_concat, hcopy]
    exact congrArg _ (asInt_of_lt hlength)
  rw [hstatus, keyworkerEcho_upload hnot, hdiv, uploadKeys_of_digits _ _ _ hdigits (by omega)]
  rfl

/-! ## The bodies for which nothing else matters -/

/-- The digits behind the last character that decide what the first key ends with. -/
def tail (low : UInt8) : List UInt8 := List.replicate 62 48 ++ [low]

/-- A last character that comes alone gives an upload, whose keys are read from behind it. -/
theorem exists_upload (stack : Mem) {text : List UInt8} (hne : text ≠ []) (low : UInt8) :
    ∃ c chunks, body chunks = text ∧ keyworkerEcho stack (receiveAll chunks) =
      some (.upload (uploadKeys (asInt text.length / 64).toNat (c :: tail low) stack)) := by
  rcases List.eq_nil_or_concat' text with rfl | ⟨front, c, rfl⟩
  · exact absurd rfl hne
  obtain ⟨chunks, hbody, hstatus⟩ := exists_chunks front (List.cons_ne_nil c []) (tail low)
  have hnot : ∀ word ∈ words, ¬word <+: c :: tail low := by
    intro word hword
    apply not_prefix_cons hword
    rintro b ⟨⟩
    decide
  refine ⟨c, chunks, hbody, ?_⟩
  rw [hstatus, strncpy_singleton]
  exact keyworkerEcho_upload hnot

/-- The last byte of the first key that is read. -/
theorem uploadKeys_head (stack : Mem) (c : UInt8) (n : ℕ) {low : UInt8}
    (hlow : low = 48 ∨ low = 49) :
    (uploadKeys (n + 1) (c :: tail low) stack).head?.map (· 31) = some (low - 48) := by
  have hscan : scanHex ((c :: tail low).drop (2 * 31)) = some (low - 48).toUInt32 := by
    rcases hlow with rfl | rfl <;> rfl
  have hbyte : readKey (c :: tail low) stack 31 = low - 48 := by
    rw [readKey_apply stack (by decide) hscan, UInt8.toUInt8_toUInt32]
  rw [uploadKeys, List.head?_cons, Option.map_some]
  exact congrArg some hbyte

theorem blocks_of_expected {text : List UInt8} {keys : List Bytes32}
    (h : expected text = .upload keys) : keys = blocks text := by
  rw [expected] at h
  split_ifs at h
  exact (Command.upload.inj h).symm

theorem length_lt_of_independent {stack : Mem} {text : List UInt8} (hne : text ≠ [])
    (h : KeyworkerIndependent stack text) : text.length < 64 := by
  by_contra hlength
  obtain ⟨c, chunks, hbody, hecho⟩ := exists_upload stack hne 48
  obtain ⟨c', chunks', hbody', hecho'⟩ := exists_upload stack hne 49
  rw [h _ hbody, Option.some_inj] at hecho
  rw [h _ hbody', Option.some_inj, hecho, Command.upload.injEq] at hecho'
  cases hcount : (asInt text.length / 64).toNat with
  | zero =>
    -- The count went over `INT_MAX`.
    have hblocks := congrArg List.length (blocks_of_expected hecho)
    rw [hcount, uploadKeys, blocks, List.length_map, List.length_range, List.length_nil] at hblocks
    omega
  | succ n =>
    have hheads := congrArg (fun keys ↦ keys.head?.map (· 31)) hecho'
    rw [hcount] at hheads
    simp only [uploadKeys_head stack c n (Or.inl rfl), uploadKeys_head stack c' n (Or.inr rfl)]
      at hheads
    exact absurd hheads (by decide)

/-- An end of the body that can be taken for a command is taken for one in some buffer. -/
theorem no_command_of_independent {stack : Mem} {text rest word : List UInt8}
    (h : KeyworkerIndependent stack text) (hsuffix : rest <:+ text) (hrest : rest ≠ [])
    (hword : word ∈ words) : ¬rest <+: word ∧ ¬word <+: rest := by
  rw [← not_or]
  intro hprefix
  obtain ⟨front, rfl⟩ := hsuffix
  obtain ⟨behind, hbehind⟩ := exists_buffer hword hprefix
  obtain ⟨chunks, hbody, hstatus⟩ := exists_chunks front hrest behind
  have hne : front ++ rest ≠ [] := List.append_ne_nil_of_right_ne_nil front hrest
  obtain ⟨c, chunks', hbody', hecho⟩ := exists_upload stack hne 48
  have hcommand := h _ hbody
  rw [hstatus, ← h _ hbody', hecho] at hcommand
  exact keyworkerEcho_command hword hbehind _ hcommand

theorem keyworkerIndependent_of_plain (stack : Mem) {text : List UInt8} (h : Plain text) :
    KeyworkerIndependent stack text := by
  rintro chunks rfl
  obtain ⟨chunk, hsuffix, hstatus⟩ := exists_last h.ne_nil
  have hbuffer : ∀ word ∈ words, ¬word <+: strncpy chunk.data ++ chunk.behind := by
    intro word hword hprefix
    obtain ⟨hdata, hdata'⟩ := h.no_command _ hsuffix chunk.ne_nil word hword
    exact (prefix_or_prefix_of_buffer hword hprefix).elim hdata' hdata
  have hbody : ∀ word ∈ words, ¬word <+: body chunks :=
    fun word hword ↦ (h.no_command _ (List.suffix_refl _) h.ne_nil word hword).2
  have hcount : (asInt (body chunks).length / 64).toNat = 0 := by
    have hlength := h.length_lt
    rw [asInt_of_lt (by omega)]
    omega
  have hblocks : blocks (body chunks) = [] := by
    rw [blocks, Nat.div_eq_of_lt h.length_lt]
    rfl
  rw [hstatus, keyworkerEcho_upload hbuffer, expected_upload hbody, hcount, hblocks]
  rfl

theorem keyworkerIndependent_iff (stack : Mem) (text : List UInt8) :
    KeyworkerIndependent stack text ↔ Plain text := by
  constructor
  · intro h
    have hne : text ≠ [] := by
      rintro rfl
      cases h [] rfl
    exact ⟨hne, length_lt_of_independent hne h,
      fun rest hsuffix hrest word hword ↦ no_command_of_independent h hsuffix hrest hword⟩
  · exact keyworkerIndependent_of_plain stack

theorem quit_mem_words : quit ∈ words := List.mem_cons_self

theorem qcryptEcho_getKeys {text : List UInt8} {count : ℤ} (h : ¬quit <+: text) :
    qcryptEcho 0 ⟨some text, count⟩ = some (.getKeys (text.takeD count.toNat 0)) := by
  rw [qcryptEcho, Option.map_some, if_neg (not_startsWith_iff.mpr h)]
  rfl

/-- The bytes that come to `get_keys_buffer` after a last character that comes alone. -/
theorem takeD_of_qcryptIndependent {text : List UInt8} (hne : text ≠ [])
    (h : QcryptIndependent text) {b : UInt8} (hb : b < 97) :
    text = (text.getLast hne :: [b]).takeD (asInt text.length).toNat 0 := by
  obtain ⟨chunks, hbody, hstatus⟩ :=
    exists_chunks text.dropLast (List.cons_ne_nil (text.getLast hne) []) [b]
  rw [List.dropLast_append_getLast hne] at hbody hstatus
  have hnot : ¬quit <+: text.getLast hne :: [b] := by
    apply not_prefix_cons quit_mem_words
    rintro _ ⟨⟩
    exact hb
  have haction := h _ hbody
  rw [hstatus, strncpy_singleton, List.singleton_append, qcryptEcho_getKeys hnot] at haction
  split_ifs at haction
  · cases haction
  · exact (Action.getKeys.inj (Option.some_inj.mp haction)).symm

/-- Two bytes cannot be told apart from one and the byte behind it. -/
theorem singleton_of_qcryptIndependent {text : List UInt8} (h : QcryptIndependent text) :
    ∃ c, text = [c] ∧ c ≠ 113 := by
  have hne : text ≠ [] := by
    rintro rfl
    cases h [] rfl
  have hzero := takeD_of_qcryptIndependent hne h (b := 0) (by decide)
  have hone := takeD_of_qcryptIndependent hne h (b := 1) (by decide)
  generalize text.getLast hne = c at hzero hone
  match hcount : (asInt text.length).toNat with
  | 0 =>
    rw [hcount] at hzero
    exact absurd hzero hne
  | 1 =>
    rw [hcount] at hzero
    refine ⟨c, hzero, ?_⟩
    rintro rfl
    -- The rest of the word may lie behind the `q`.
    obtain ⟨chunks, hbody, hstatus⟩ :=
      exists_chunks [] (List.cons_ne_nil 113 []) (ascii ['u', 'i', 't'])
    have haction := h chunks (hbody.trans hzero.symm)
    rw [hstatus, hzero] at haction
    cases haction
  | n + 2 =>
    rw [hcount] at hzero hone
    have hsecond := congrArg (·[1]?) (hzero.symm.trans hone)
    simp at hsecond

theorem qcryptIndependent_singleton {c : UInt8} (hc : c ≠ 113) : QcryptIndependent [c] := by
  intro chunks hbody
  obtain ⟨chunk, hsuffix, hstatus⟩ :=
    exists_last (hbody ▸ List.cons_ne_nil c [] : body chunks ≠ [])
  rw [hbody] at hsuffix hstatus
  have hdata : chunk.data = [c] := by
    rcases List.suffix_cons_iff.mp hsuffix with hwhole | hnil
    · exact hwhole
    · exact absurd (List.suffix_nil.mp hnil) chunk.ne_nil
  have hnot (behind : List UInt8) : ¬quit <+: c :: behind := by
    rintro ⟨rest, hrest⟩
    exact hc (List.cons.inj hrest).1.symm
  rw [hstatus, hdata, strncpy_singleton, List.singleton_append, qcryptEcho_getKeys (hnot _),
    if_neg (not_startsWith_iff.mpr (hnot [])), List.length_singleton,
    asInt_of_lt (Nat.one_lt_two_pow (by decide))]
  rfl

theorem qcryptIndependent_iff (text : List UInt8) :
    QcryptIndependent text ↔ ∃ c, text = [c] ∧ c ≠ 113 := by
  constructor
  · exact singleton_of_qcryptIndependent
  · rintro ⟨c, rfl, hc⟩
    exact qcryptIndependent_singleton hc

/-- The command depends on the body only: for `keyworker` exactly when it stores no key and
resembles no command, for `qcrypt` exactly when a single byte is sent. -/
theorem independent_iff (stack : Mem) (text : List UInt8) :
    (KeyworkerIndependent stack text ↔ Plain text) ∧
      (QcryptIndependent text ↔ ∃ c, text = [c] ∧ c ≠ 113) :=
  ⟨keyworkerIndependent_iff stack text, qcryptIndependent_iff text⟩

/-- A key of zeros, and two digits, of which the last comes in a part of its own; a one lies
behind it. -/
theorem not_independent_twoParts :
    ¬KeyworkerIndependent (fun _ ↦ 0) (List.replicate 64 48) ∧ ¬QcryptIndependent [48, 48] := by
  let part : Chunk := ⟨[48], [49], List.cons_ne_nil _ _⟩
  constructor
  · intro h
    have hecho := h [⟨List.replicate 63 48, [], List.cons_ne_nil _ _⟩, part] (by decide)
    revert hecho
    decide
  · intro h
    have haction := h [⟨[48], [], List.cons_ne_nil _ _⟩, part] rfl
    revert haction
    decide

end QNet.Http
