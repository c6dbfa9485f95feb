import QNet.Http.Upload

/-!
# Only hex digits are to become keys

The keyworker reads the keys of an upload and the id of the command `key` with `sscanf` and does
not look at its result. Every block of 64 characters becomes a key and every id is looked up,
whatever the characters are; `wellFormed_iff` says when that is what they say.
-/

namespace QNet.Http

open CString Mem

def IsHex (text : List UInt8) : Prop := ∀ c ∈ text, (hexDigit c).isSome

instance (text : List UInt8) : Decidable (IsHex text) :=
  List.decidableBAll _ text

/-- The characters of a block. -/
def block (text : List UInt8) (j : ℕ) : List UInt8 := (text.drop (64 * j)).take 64

/-- The key that is stored for a block. -/
def storedKey (command : Option Command) (j : ℕ) : Option Bytes32 :=
  match command with
  | some (.upload keys) => keys[j]?
  | _ => none

/-- How often the loop over the blocks runs. -/
def storedBlocks (text : List UInt8) : ℕ := (asInt text.length / 64).toNat

/-- A key is stored for each block of digits, the one they spell, and for no other. -/
def StoresHex (text : List UInt8) (command : Option Command) : Prop :=
  ∀ j < text.length / 64,
    storedKey command j = if IsHex (block text j) then some (hexKey (block text j)) else none

/-- The body is not one of the other commands. -/
def UploadBody (text : List UInt8) : Prop := ∀ word ∈ words, ¬ word <+: text

instance (text : List UInt8) : Decidable (UploadBody text) :=
  inferInstanceAs (Decidable (∀ word ∈ words, ¬ word <+: text))

/-- However the memory is filled, the blocks of a body that arrives in one part are stored well. -/
def WellStored (text : List UInt8) : Prop :=
  ∀ (stack : Mem) (behind : List UInt8) (hne : text ≠ []),
    StoresHex text (keyworkerEcho stack (receiveAll [⟨text, behind, hne⟩]))

/-- The same in whatever parts it arrives. -/
def WellStoredInParts (text : List UInt8) : Prop :=
  ∀ (stack : Mem) (chunks : List Chunk), body chunks = text →
    StoresHex text (keyworkerEcho stack (receiveAll chunks))

/-- A record is looked up only if the id consists of 64 digits, and then under what they spell. -/
def WellLookedUp (id : List UInt8) : Prop :=
  ∀ (stack : Mem) (chunks : List Chunk) (sha : Bytes32), body chunks = key ++ id →
    keyworkerEcho stack (receiveAll chunks) = some (.key sha) →
      id.length = 64 ∧ IsHex id ∧ sha = hexKey id

/-! ## Uploads -/

theorem length_uploadKeys (n : ℕ) (text : List UInt8) (buffer : Mem) :
    (uploadKeys n text buffer).length = n := by
  induction n generalizing text buffer with
  | zero => rfl
  | succ n ih => rw [uploadKeys, List.length_cons, ih]

/-- The first 64 characters decide the key. -/
theorem hexKey_congr {text text' : List UInt8} (h : ∀ n < 64, text.getD n 0 = text'.getD n 0) :
    hexKey text = hexKey text' := by
  funext i
  simp only [hexKey, h (2 * i) (by omega), h (2 * i + 1) (by omega)]

theorem storedKey_eq_none {stack : Mem} {post : PostStatus} {j : ℕ}
    (h : (post.count / 64).toNat ≤ j) : storedKey (keyworkerEcho stack post) j = none := by
  unfold keyworkerEcho
  cases post.buff with
  | none => rfl
  | some text =>
    rw [Option.map_some]
    split_ifs
    · rfl
    · rfl
    · rfl
    · rfl
    · exact List.getElem?_eq_none (by rwa [length_uploadKeys])

theorem keyworkerEcho_onePart {text : List UInt8} (hupload : UploadBody text)
    (hlength : 64 ≤ text.length) (stack : Mem) (behind : List UInt8) (hne : text ≠ []) :
    keyworkerEcho stack (receiveAll [⟨text, behind, hne⟩]) =
      some (.upload (uploadKeys (storedBlocks text) (strncpy text ++ behind) stack)) := by
  have hshort : ∀ word ∈ words, word.length < 64 := by decide
  have hnot : ∀ word ∈ words, ¬ word <+: strncpy text ++ behind := by
    intro word hword hprefix
    rcases prefix_or_prefix_of_buffer hword hprefix with hle | hge
    · exact hupload word hword hle
    · exact absurd (hge.length_le.trans_lt (hshort word hword)) (by omega)
  have hstatus : receiveAll [⟨text, behind, hne⟩] =
      ⟨some (strncpy text ++ behind), asInt text.length⟩ := by
    rw [← List.nil_append [_], receiveAll_append_singleton, body_concat]
    rfl
  rw [hstatus, keyworkerEcho_upload hnot, storedBlocks]

theorem ne_nil_of_lt {text : List UInt8} {j : ℕ} (hj : j < text.length / 64) : text ≠ [] := by
  rintro rfl
  cases hj

theorem storedBlocks_le (text : List UInt8) : storedBlocks text ≤ text.length / 64 := by
  have hle : asInt text.length ≤ text.length := by
    rw [asInt, Int.bmod_def]
    split_ifs <;> omega
  unfold storedBlocks
  omega

/-- The first blocks are stored as they are if they are blocks of digits. -/
theorem storedKey_of_digits {text : List UInt8} (hupload : UploadBody text)
    (hlength : 64 ≤ text.length) (hdigits : ∀ j < storedBlocks text, IsHex (block text j))
    (stack : Mem) (behind : List UInt8) (hne : text ≠ []) {j : ℕ} (hj : j < storedBlocks text) :
    storedKey (keyworkerEcho stack (receiveAll [⟨text, behind, hne⟩])) j =
      some (hexKey (block text j)) := by
  have hle := storedBlocks_le text
  generalize hcount : storedBlocks text = m at hdigits hj hle
  have hfront : ∀ c ∈ text.take (64 * m), (hexDigit c).isSome := by
    intro c hc
    obtain ⟨place, hplace, rfl⟩ := List.mem_iff_getElem.mp hc
    rw [List.length_take] at hplace
    apply hdigits (place / 64) (by omega)
    rw [List.getElem_take, block, List.mem_iff_getElem]
    refine ⟨place % 64, by simp; omega, ?_⟩
    simp only [List.getElem_take, List.getElem_drop, Nat.div_add_mod]
  have hzero : ∀ c ∈ text.take (64 * m), c ≠ 0 := by
    rintro c hc rfl
    exact absurd (hfront 0 hc) (by decide)
  have hbuffer : strncpy text ++ behind =
      text.take (64 * m) ++ (strncpy (text.drop (64 * m)) ++ behind) := by
    conv_lhs => rw [← List.take_append_drop (64 * m) text, strncpy_append hzero]
    rw [List.append_assoc]
  have hkeys := uploadKeys_of_digits m (strncpy (text.drop (64 * m)) ++ behind) stack hfront
    (by rw [List.length_take]; omega)
  have hsame : hexKey ((text.take (64 * m)).drop (64 * j)) = hexKey (block text j) := by
    refine hexKey_congr fun n hn ↦ ?_
    simp only [block, List.getD_eq_getElem?_getD, List.getElem?_drop, List.getElem?_take]
    rw [if_pos (by omega), if_pos hn]
  rw [keyworkerEcho_onePart hupload hlength, hcount, hbuffer, hkeys, storedKey,
    List.getElem?_map, List.getElem?_range hj, Option.map_some, hsame]

theorem wellStored_iff {text : List UInt8} (hupload : UploadBody text) :
    WellStored text ↔ ∀ j < text.length / 64, IsHex (block text j) ↔ j < storedBlocks text := by
  constructor
  · intro h j hj
    have hne := ne_nil_of_lt hj
    have hkey := h (fun _ ↦ 0) [] hne j hj
    rw [keyworkerEcho_onePart hupload (by omega), storedKey] at hkey
    by_cases hhex : IsHex (block text j)
    · rw [if_pos hhex] at hkey
      obtain ⟨hlt, _⟩ := List.getElem?_eq_some_iff.mp hkey
      rw [length_uploadKeys] at hlt
      exact iff_of_true hhex hlt
    · rw [if_neg hhex, List.getElem?_eq_none_iff, length_uploadKeys] at hkey
      exact iff_of_false hhex (Nat.not_lt.mpr hkey)
  · intro h stack behind hne j hj
    by_cases hhex : IsHex (block text j)
    · rw [if_pos hhex]
      refine storedKey_of_digits hupload (by omega) (fun i hi ↦ ?_) stack behind hne
        ((h j hj).mp hhex)
      exact (h i (hi.trans_le (storedBlocks_le text))).mpr hi
    · rw [if_neg hhex]
      apply storedKey_eq_none
      rw [count_receiveAll, show body [⟨text, behind, hne⟩] = text by simp [body]]
      exact Nat.le_of_not_lt ((h j hj).not.mp hhex)

/-- In parts a body is stored well only if nothing is to be stored and nothing is. -/
theorem wellStoredInParts_iff {text : List UInt8} :
    WellStoredInParts text ↔
      ∀ j < text.length / 64, ¬ IsHex (block text j) ∧ storedBlocks text ≤ j := by
  constructor
  · intro h j hj
    have hne := ne_nil_of_lt hj
    have hcount : storedBlocks text = 0 := by
      by_contra hpos
      obtain ⟨m, hm⟩ := Nat.exists_eq_succ_of_ne_zero hpos
      obtain ⟨c, chunks, hbody, hecho⟩ := exists_upload (fun _ ↦ 0) hne 48
      obtain ⟨c', chunks', hbody', hecho'⟩ := exists_upload (fun _ ↦ 0) hne 49
      have hkey := h (fun _ ↦ 0) chunks hbody 0 (by omega)
      have hkey' := h (fun _ ↦ 0) chunks' hbody' 0 (by omega)
      rw [hecho, ← storedBlocks, hm, storedKey, ← List.head?_eq_getElem?] at hkey
      rw [hecho', ← storedBlocks, hm, storedKey, ← List.head?_eq_getElem?, ← hkey] at hkey'
      have hlow := congrArg (Option.map fun k : Bytes32 ↦ k 31) hkey'
      rw [uploadKeys_head _ c m (Or.inl rfl), uploadKeys_head _ c' m (Or.inr rfl)] at hlow
      exact absurd hlow (by decide)
    refine ⟨fun hhex ↦ ?_, hcount ▸ Nat.zero_le j⟩
    obtain ⟨c, chunks, hbody, hecho⟩ := exists_upload (fun _ ↦ 0) hne 48
    have hkey := h (fun _ ↦ 0) chunks hbody j hj
    rw [hecho, ← storedBlocks, hcount, if_pos hhex] at hkey
    cases hkey
  · intro h stack chunks hbody j hj
    rw [if_neg (h j hj).1]
    apply storedKey_eq_none
    rw [count_receiveAll, hbody]
    exact (h j hj).2

/-! ## Ids -/

theorem keyworkerEcho_key (stack : Mem) (rest : List UInt8) (count : ℤ) :
    keyworkerEcho stack ⟨some (key ++ rest), count⟩ =
      some (.key fun i ↦ readKey rest stack i) := rfl

/-- In a command for an id of digits only the whole command begins with the word. -/
theorem eq_of_suffix {id data behind : List UInt8} (hid : IsHex id) (hne : data ≠ [])
    (hsuffix : data <:+ key ++ id) (hstarts : key <+: strncpy data ++ behind) :
    data = key ++ id := by
  obtain ⟨front, hfront⟩ := hsuffix
  have hhead : data.head? = some 107 := by
    rcases prefix_or_prefix_of_buffer (by decide) hstarts with ⟨rest, hrest⟩ | ⟨rest, hrest⟩
    · rw [← hrest]
      rfl
    · obtain ⟨c, others, rfl⟩ := List.exists_cons_of_ne_nil hne
      rw [List.cons_append] at hrest
      exact congrArg some (List.cons_eq_cons.mp hrest).1
  have hplace : (key ++ id)[front.length]? = some 107 := by
    rw [← hfront, List.getElem?_append_right le_rfl, Nat.sub_self, ← List.head?_eq_getElem?, hhead]
  rcases front with - | ⟨a, - | ⟨b, - | ⟨c, front⟩⟩⟩
  · exact hfront
  · have hletter : some (101 : UInt8) = some 107 := hplace
    exact absurd hletter (by decide)
  · have hletter : some (121 : UInt8) = some 107 := hplace
    exact absurd hletter (by decide)
  · have hmem : (107 : UInt8) ∈ id := List.mem_of_getElem? hplace
    exact absurd (hid 107 hmem) (by decide)

theorem wellLookedUp_iff (id : List UInt8) : WellLookedUp id ↔ id.length = 64 ∧ IsHex id := by
  constructor
  · intro h
    have hne : key ++ id ≠ [] := List.append_ne_nil_of_left_ne_nil (by decide) id
    have hkey : ∀ c ∈ key, c ≠ 0 := List.forall_mem_iff_getElem.mpr (by decide)
    have hcopy : strncpy (key ++ id) ++ [] = key ++ strncpy id := by
      rw [strncpy_append hkey, List.append_nil]
    have hstatus : receiveAll [⟨key ++ id, [], hne⟩] =
        ⟨some (key ++ strncpy id), asInt (key ++ id).length⟩ := by
      rw [← List.nil_append [_], receiveAll_append_singleton, body_concat, hcopy]
      rfl
    have hlook := h (fun _ ↦ 0) [⟨key ++ id, [], hne⟩] _ (by simp [body])
      (hstatus ▸ keyworkerEcho_key _ _ _)
    exact ⟨hlook.1, hlook.2.1⟩
  · rintro ⟨hlength, hid⟩ stack chunks sha hbody hecho
    refine ⟨hlength, hid, ?_⟩
    have hne : body chunks ≠ [] := by
      rw [hbody]
      exact List.append_ne_nil_of_left_ne_nil (by decide) id
    obtain ⟨chunk, hsuffix, hstatus⟩ := exists_last hne
    have hstarts : key <+: strncpy chunk.data ++ chunk.behind := by
      rw [hstatus, keyworkerEcho, Option.map_some, Option.some_inj] at hecho
      split_ifs at hecho with _ _ _ hkey
      exact startsWith_iff.mp hkey
    have hzero : ∀ c ∈ key ++ id, c ≠ 0 := by
      rintro c hc rfl
      rcases List.mem_append.mp hc with hc | hc
      · exact absurd hc (by decide)
      · exact absurd (hid 0 hc) (by decide)
    have hdata := eq_of_suffix hid chunk.ne_nil (hbody ▸ hsuffix) hstarts
    rw [hstatus, hdata, strncpy_of_ne_zero hzero, List.append_assoc, keyworkerEcho_key] at hecho
    have hsha := (Command.key.inj (Option.some_inj.mp hecho)).symm
    rw [hsha]
    exact readKey_of_digits chunk.behind stack hid hlength.ge

/-- When the keyworker stores and looks up what the digits say, and nothing else. -/
theorem wellFormed_iff (text id : List UInt8) :
    (UploadBody text →
      (WellStored text ↔
        ∀ j < text.length / 64, IsHex (block text j) ↔ j < storedBlocks text) ∧
      (WellStoredInParts text ↔
        ∀ j < text.length / 64, ¬ IsHex (block text j) ∧ storedBlocks text ≤ j)) ∧
    (WellLookedUp id ↔ id.length = 64 ∧ IsHex id) :=
  ⟨fun hupload ↦ ⟨wellStored_iff hupload, wellStoredInParts_iff⟩, wellLookedUp_iff id⟩

/-- Sixty-four blanks: a key is stored. -/
theorem not_wellStored_blanks : ¬ ∀ text, UploadBody text → WellStored text := by
  intro h
  have hupload : UploadBody (List.replicate 64 32) := by decide
  have hblock := (wellStored_iff hupload).mp (h _ hupload) 0 (by decide)
  exact absurd (hblock.mpr (by decide)) (by decide)

/-- Sixty-four zeros are well stored, and well looked up. -/
theorem wellFormed_iff_zeros :
    WellStored (List.replicate 64 48) ∧ WellLookedUp (List.replicate 64 48) := by
  obtain ⟨hstored, hlooked⟩ := wellFormed_iff (List.replicate 64 48) (List.replicate 64 48)
  exact ⟨(hstored (by decide)).1.mpr (by decide), hlooked.mpr ⟨rfl, by decide⟩⟩

end QNet.Http
