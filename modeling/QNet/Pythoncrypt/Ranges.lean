import Mathlib.Algebra.Order.Ring.Nat
import Mathlib.Data.Finset.Prod
import Mathlib.Order.Interval.Finset.Nat
import QNet.Pythoncrypt.Secrecy

/-!
# Pad ranges of pythoncrypt

A `KeyManager` from its start on, with a list of keys that grows as texts are posted. Every packet
of `encode` uses a range of a key. Between two resets of `cur_key` to zero the ranges only go
forward, through one key after the other, so none of them meets another.

A call of `encode` while `cur_key` is -1 returns nothing, and one may end with an error. Every other
call uses as many bytes as it has data: `ranges_of_run`.
-/

namespace QNet.Pythoncrypt

/-- The index of a slice with the bound `n` in a list of some length. -/
def sliceIndex (n : ℤ) (length : ℕ) : ℕ := if n < 0 then (length + n).toNat else n.toNat

/-- `l[:n]` -/
def sliceTo {α : Type*} (l : List α) (n : ℤ) : List α := l.take (sliceIndex n l.length)

/-- `l[n:]` -/
def sliceFrom {α : Type*} (l : List α) (n : ℤ) : List α := l.drop (sliceIndex n l.length)

/-- The bytes `curpos` to `curpos + count` of a key were put into a packet. -/
structure PadRange where
  key : ℕ
  curpos : ℕ
  count : ℕ
  deriving DecidableEq

/-- What is noted of a run. -/
inductive Entry
  /-- `cur_key` was set to 0. -/
  | reset
  | range (r : PadRange)
  deriving DecidableEq

/-- A `KeyManager`; `cur_key` is `none` for -1. All its keys are ready. -/
structure Manager where
  keys : List (List UInt8)
  curpos : ℕ → ℕ
  curKey : Option ℕ

/-- How a call of `encode` ends. -/
inductive Outcome
  /-- It returns `None`. -/
  | nothing
  | result
  | error
  /-- It has not come to an end yet. -/
  | unfinished
  deriving DecidableEq

structure Encoded where
  manager : Manager
  entries : List Entry
  outcome : Outcome

namespace Manager

def init : Manager := ⟨[], fun _ ↦ 0, none⟩

def size (m : Manager) (key : ℕ) : ℕ := (m.keys.getD key []).length

/-- Another `Key` at the end of the list. -/
def append (m : Manager) (data : List UInt8) : Manager :=
  { m with keys := m.keys ++ [data], curpos := Function.update m.curpos m.keys.length 0 }

/-- The loop of `read_keys`, which also ends with a text that is not ASCII; `fuel` bounds its
rounds. -/
def readKeysLoop (blockSize : ℤ) : ℕ → List UInt8 → Manager → Option Manager
  | 0, _, _ => none
  | fuel + 1, array, m =>
      if array.length > blockSize then
        if IsAscii (sliceTo array blockSize) then
          readKeysLoop blockSize fuel (sliceFrom array blockSize)
            (m.append (sliceTo array blockSize))
        else some m
      else some m

/-- `read_keys`, with the first reset. -/
def readKeys (blockSize : ℤ) (fuel : ℕ) (array : List UInt8) (m : Manager) :
    Option (Manager × List Entry) :=
  if array.length > blockSize ∧ m.curKey = none then
    (readKeysLoop blockSize fuel array { m with curKey := some 0 }).map (·, [.reset])
  else (readKeysLoop blockSize fuel array m).map (·, [])

/-- `next_key`, from the key `cur` on. -/
def nextKey (m : Manager) (cur : ℕ) : Manager × ℕ × List Entry :=
  let (key, entries) := if cur + 1 ≥ m.keys.length then (0, [.reset]) else (cur + 1, [])
  (⟨m.keys, Function.update (Function.update m.curpos cur 0) key 0, some key⟩, key, entries)

/-- A key that does not hold the next packet is left. -/
def seek (m : Manager) (key : ℕ) (count : ℤ) : Manager × ℕ × List Entry :=
  if count + m.curpos key > m.size key then m.nextKey key else (m, key, [])

/-- The loop of `encode` from its round `n` on; `xored n` says whether `xor` has a result in round
`n`, and `fuel` bounds the rounds. -/
def encodeLoop (blockSize : ℤ) (xored : ℕ → Bool) : ℕ → ℕ → Manager → ℕ → List UInt8 → Encoded
  | 0, _, m, _, _ => ⟨m, [], .unfinished⟩
  | fuel + 1, n, m, key, data =>
      if data.isEmpty then ⟨m, [], .result⟩
      else
        let wanted : ℤ := if data.length > blockSize then blockSize else data.length
        let (m, key, entries) := m.seek key wanted
        let count : ℤ := if wanted > m.size key then m.size key else wanted
        let curpos := m.curpos key
        -- `key.num[x]`, both `struct.pack`, `key.key[i]` and `xor` may fail
        if m.size key < 8 ∨ 2 ^ 32 ≤ curpos ∨ count < 0 ∨ 2 ^ 32 ≤ count ∨
            (0 < count ∧ curpos + count > m.size key) ∨ xored n = false then
          ⟨m, entries, .error⟩
        else
          let used := { m with curpos := Function.update m.curpos key (curpos + count.toNat) }
          let rest := encodeLoop blockSize xored fuel (n + 1) used key (sliceFrom data count)
          ⟨rest.manager, entries ++ .range ⟨key, curpos, count.toNat⟩ :: rest.entries, rest.outcome⟩

/-- The reset in `current_key`. -/
def currentKey (m : Manager) (cur : ℕ) : Manager × ℕ × List Entry :=
  if cur > m.keys.length then ({ m with curKey := some 0 }, 0, [.reset]) else (m, cur, [])

/-- `encode`; an error when there is no key at the index. -/
def encode (blockSize : ℤ) (xored : ℕ → Bool) (fuel : ℕ) (data : List UInt8) (m : Manager) :
    Encoded :=
  match m.curKey with
  | none => ⟨m, [], .nothing⟩
  | some cur =>
      let (m, key, entries) := m.currentKey cur
      if key < m.keys.length then
        let call := encodeLoop blockSize xored fuel 0 m key data
        ⟨call.manager, entries ++ call.entries, call.outcome⟩
      else ⟨m, entries, .error⟩

end Manager

/-- The process with what is noted of its run. -/
structure Process where
  manager : Manager
  log : List Entry

inductive Event
  /-- A text is posted; the loop has so many rounds. -/
  | readKeys (fuel : ℕ) (array : List UInt8)
  | encode (xored : ℕ → Bool) (fuel : ℕ) (data : List UInt8)

namespace Process

/-- An event, if it comes to an end. -/
def next (blockSize : ℤ) (s : Process) : Event → Option Process
  | .readKeys fuel array => (s.manager.readKeys blockSize fuel array).map fun (m, entries) ↦
      ⟨m, s.log ++ entries⟩
  | .encode xored fuel data =>
      let call := s.manager.encode blockSize xored fuel data
      if call.outcome = .unfinished then none else some ⟨call.manager, s.log ++ call.entries⟩

/-- All runs from the start of a process. -/
def machine (blockSize : ℤ) : Machine Process Event := .ofNext ⟨.init, []⟩ (next blockSize)

end Process

/-! ## Ranges that go forward -/

/-- The ranges among some entries. -/
def ranges (entries : List Entry) : List PadRange :=
  entries.filterMap fun
    | .reset => none
    | .range r => some r

@[simp]
theorem ranges_append (first second : List Entry) :
    ranges (first ++ second) = ranges first ++ ranges second := List.filterMap_append

namespace PadRange

/-- The bytes of keys that are used. -/
def places (r : PadRange) : Finset (ℕ × ℕ) :=
  {r.key} ×ˢ Finset.Ico r.curpos (r.curpos + r.count)

/-- One range ends before the next one starts, in the same key or an earlier one. -/
def Before (r r' : PadRange) : Prop :=
  r.key < r'.key ∨ r.key = r'.key ∧ r.curpos + r.count ≤ r'.curpos

theorem Before.disjoint {r r' : PadRange} (h : r.Before r') : Disjoint r.places r'.places := by
  rw [places, places, Finset.disjoint_product, Finset.disjoint_singleton]
  rcases h with hkey | ⟨_, hcurpos⟩
  · exact .inl hkey.ne
  · refine .inr (Finset.disjoint_left.mpr fun i hi hi' ↦ ?_)
    rw [Finset.mem_Ico] at hi hi'
    omega

end PadRange

namespace Manager

/-- A used range lies in its key. -/
def Inside (m : Manager) (r : PadRange) : Prop :=
  0 < r.count ∧ r.key < m.keys.length ∧ r.curpos + r.count ≤ m.size r.key

/-- A range that was used since the last reset is not in front of the manager. -/
def Passed (m : Manager) (r : PadRange) : Prop :=
  ∃ cur ∈ m.curKey, r.key < cur ∨ r.key = cur ∧ r.curpos + r.count ≤ m.curpos cur

/-- What holds of a manager and its log. -/
structure Sound (blockSize : ℤ) (m : Manager) (log : List Entry) : Prop where
  size_eq : ∀ key ∈ m.keys, (key.length : ℤ) = blockSize
  pos : m.keys ≠ [] → 0 < blockSize
  curKey_ne : m.keys ≠ [] → m.curKey ≠ none
  curKey_lt : ∀ cur ∈ m.curKey, cur < m.keys.length ∨ cur = 0
  inside : ∀ r ∈ ranges log, m.Inside r
  before : ∀ part, part <:+: log → .reset ∉ part → (ranges part).Pairwise PadRange.Before
  passed : ∀ part, part <:+ log → .reset ∉ part → ∀ r ∈ ranges part, m.Passed r

variable {blockSize : ℤ} {m : Manager} {log : List Entry}

theorem Sound.init (blockSize : ℤ) : Sound blockSize .init [] where
  size_eq := nofun
  pos h := absurd rfl h
  curKey_ne h := absurd rfl h
  curKey_lt := nofun
  inside := nofun
  before part hpart _ := by
    rw [List.infix_nil.mp hpart]
    exact .nil
  passed part hpart _ := by
    rw [List.suffix_nil.mp hpart]
    exact nofun

/-- After a reset there are no ranges to be passed. -/
theorem Sound.reset (hs : Sound blockSize m log) (curpos : ℕ → ℕ) :
    Sound blockSize ⟨m.keys, curpos, some 0⟩ (log ++ [.reset]) where
  size_eq := hs.size_eq
  pos := hs.pos
  curKey_ne _ := nofun
  curKey_lt cur hcur := by
    cases hcur
    exact .inr rfl
  inside r hr := by
    rw [ranges_append] at hr
    exact hs.inside r ((List.append_nil (ranges log)) ▸ hr)
  before part hpart hreset := by
    rcases List.infix_concat_iff.mp hpart with hlast | hold
    · rcases List.suffix_concat_iff.mp hlast with rfl | ⟨before, rfl, _⟩
      · exact .nil
      · exact absurd (List.mem_append_right before List.mem_cons_self) hreset
    · exact hs.before part hold hreset
  passed part hpart hreset := by
    rcases List.suffix_concat_iff.mp hpart with rfl | ⟨before, rfl, _⟩
    · exact nofun
    · exact absurd (List.mem_append_right before List.mem_cons_self) hreset

/-- A range in front of the manager is used. -/
theorem Sound.range (hs : Sound blockSize m log) {r : PadRange} (hcur : m.curKey = some r.key)
    (hcurpos : m.curpos r.key ≤ r.curpos) (hinside : m.Inside r) :
    Sound blockSize
      { m with curpos := Function.update m.curpos r.key (r.curpos + r.count) }
      (log ++ [.range r]) where
  size_eq := hs.size_eq
  pos := hs.pos
  curKey_ne := hs.curKey_ne
  curKey_lt := hs.curKey_lt
  inside r' hr' := by
    rw [ranges_append] at hr'
    rcases List.mem_append.mp hr' with hold | hnew
    · exact hs.inside r' hold
    · rw [List.mem_singleton.mp hnew]
      exact hinside
  before part hpart hreset := by
    rcases List.infix_concat_iff.mp hpart with hlast | hold
    · rcases List.suffix_concat_iff.mp hlast with rfl | ⟨before, rfl, hbefore⟩
      · exact .nil
      · have hnone : .reset ∉ before := fun h ↦ hreset (List.mem_append_left _ h)
        rw [ranges_append]
        refine List.pairwise_append.mpr
          ⟨hs.before before hbefore.isInfix hnone, List.pairwise_singleton _ _, ?_⟩
        intro r' hr' last hlast
        rw [List.mem_singleton.mp hlast]
        obtain ⟨cur, hcur', hpassed⟩ := hs.passed before hbefore hnone r' hr'
        cases hcur.symm.trans hcur'
        exact hpassed.imp_right fun h ↦ ⟨h.1, h.2.trans hcurpos⟩
    · exact hs.before part hold hreset
  passed part hpart hreset := by
    rcases List.suffix_concat_iff.mp hpart with rfl | ⟨before, rfl, hbefore⟩
    · exact nofun
    · have hnone : .reset ∉ before := fun h ↦ hreset (List.mem_append_left _ h)
      intro r' hr'
      rw [ranges_append] at hr'
      refine ⟨r.key, hcur, ?_⟩
      dsimp only
      rw [Function.update_self]
      rcases List.mem_append.mp hr' with hold | hnew
      · obtain ⟨cur, hcur', hpassed⟩ := hs.passed before hbefore hnone r' hold
        cases hcur.symm.trans hcur'
        exact hpassed.imp_right fun h ↦ ⟨h.1, by omega⟩
      · rw [List.mem_singleton.mp hnew]
        exact .inr ⟨rfl, le_rfl⟩

/-- The manager goes on to the start of the next key. -/
theorem Sound.nextKey (hs : Sound blockSize m log) {cur : ℕ} (hcur : m.curKey = some cur)
    (hkey : cur < m.keys.length) :
    ∃ m' key entries, m.nextKey cur = (m', key, entries) ∧ Sound blockSize m' (log ++ entries) ∧
      ranges entries = [] ∧ m'.keys = m.keys ∧ m'.curKey = some key ∧ key < m.keys.length ∧
      m'.curpos key = 0 := by
  unfold Manager.nextKey
  split_ifs with hlast
  · have hlength : 0 < m.keys.length := Nat.zero_lt_of_lt hkey
    refine ⟨_, 0, _, rfl, hs.reset _, rfl, rfl, rfl, hlength, ?_⟩
    exact Function.update_self 0 0 (Function.update m.curpos cur 0)
  · have hnext : cur + 1 < m.keys.length := Nat.lt_of_not_le hlast
    refine ⟨_, cur + 1, [], rfl, ?_, rfl, rfl, rfl, hnext, Function.update_self _ _ _⟩
    rw [List.append_nil]
    refine ⟨hs.size_eq, hs.pos, fun _ ↦ nofun, fun other hother ↦ ?_, hs.inside, hs.before, ?_⟩
    · cases hother
      exact .inl hnext
    · intro part hpart hreset r hr
      obtain ⟨other, hother, hpassed⟩ := hs.passed part hpart hreset r hr
      cases hcur.symm.trans hother
      exact ⟨cur + 1, rfl, .inl (by omega)⟩

theorem length_append (m : Manager) (data : List UInt8) :
    (m.append data).keys.length = m.keys.length + 1 := by
  rw [append, List.length_append, List.length_singleton]

theorem size_append (m : Manager) (data : List UInt8) {key : ℕ} (hkey : key < m.keys.length) :
    (m.append data).size key = m.size key := by
  rw [size, size, append, List.getD_append _ _ _ _ hkey]

/-- Another key is put at the end of the list. -/
theorem Sound.append (hs : Sound blockSize m log) {data : List UInt8}
    (hdata : (data.length : ℤ) = blockSize) (hpos : 0 < blockSize) (hcur : m.curKey ≠ none) :
    Sound blockSize (m.append data) log where
  size_eq key hkey := by
    rcases List.mem_append.mp hkey with hold | hnew
    · exact hs.size_eq key hold
    · rwa [List.mem_singleton.mp hnew]
  pos _ := hpos
  curKey_ne _ := hcur
  curKey_lt cur hcur := by
    have hlength := m.length_append data
    exact (hs.curKey_lt cur hcur).imp_left fun h ↦ by omega
  inside r hr := by
    obtain ⟨hcount, hkey, hsize⟩ := hs.inside r hr
    have hlength := m.length_append data
    exact ⟨hcount, by omega, (m.size_append data hkey).symm ▸ hsize⟩
  before := hs.before
  passed part hpart hreset r hr := by
    obtain ⟨cur, hcur, hpassed⟩ := hs.passed part hpart hreset r hr
    have hinside := hs.inside r ((hpart.sublist.filterMap _).subset hr)
    refine ⟨cur, hcur, hpassed.imp_right fun h ↦ ⟨h.1, ?_⟩⟩
    -- the range lies in an old key, so it is not the new one whose position is set
    have hne : cur ≠ m.keys.length := by
      have hkey := hinside.2.1
      omega
    rw [Manager.append]
    dsimp only
    rw [Function.update_of_ne hne]
    exact h.2

/-! ## Reading keys -/

/-- A loop that comes back to the same text does not end. -/
theorem readKeysLoop_eq_none {array : List UInt8} (hlong : array.length > blockSize)
    (hto : sliceTo array blockSize = []) (hfrom : sliceFrom array blockSize = array) (fuel : ℕ)
    (m : Manager) : readKeysLoop blockSize fuel array m = none := by
  induction fuel generalizing m with
  | zero => rfl
  | succ fuel ih =>
    rw [readKeysLoop, if_pos hlong, hto, hfrom, if_pos nofun]
    exact ih _

theorem sliceIndex_sliceFrom (hblock : blockSize ≤ 0) (array : List UInt8) :
    sliceIndex blockSize (sliceFrom array blockSize).length = 0 := by
  rw [sliceFrom, List.length_drop, sliceIndex, sliceIndex]
  split_ifs <;> omega

/-- With a block size that is not positive no keys are read. -/
theorem readKeysLoop_of_nonpos (hblock : blockSize ≤ 0) {fuel : ℕ} {array : List UInt8}
    {m' : Manager} (hread : readKeysLoop blockSize fuel array m = some m') : m' = m := by
  cases fuel with
  | zero => cases hread
  | succ fuel =>
    rw [readKeysLoop] at hread
    split_ifs at hread with hlong hascii
    · have hindex := sliceIndex_sliceFrom hblock array
      have hlong' : (sliceFrom array blockSize).length > blockSize := by
        rw [sliceFrom, List.length_drop, sliceIndex]
        split_ifs <;> omega
      rw [readKeysLoop_eq_none hlong'] at hread
      · cases hread
      · rw [sliceTo, hindex, List.take_zero]
      · rw [sliceFrom, hindex, List.drop_zero]
    · exact (Option.some.inj hread).symm
    · exact (Option.some.inj hread).symm

theorem length_sliceTo {array : List UInt8} (hpos : 0 < blockSize)
    (hlong : array.length > blockSize) : ((sliceTo array blockSize).length : ℤ) = blockSize := by
  rw [sliceTo, List.length_take, sliceIndex, if_neg (by omega)]
  omega

theorem Sound.readKeysLoop (hs : Sound blockSize m log) (hcur : m.curKey ≠ none) {fuel : ℕ}
    {array : List UInt8} {m' : Manager}
    (hread : Manager.readKeysLoop blockSize fuel array m = some m') : Sound blockSize m' log := by
  rcases le_or_gt blockSize 0 with hnonpos | hpos
  · rwa [readKeysLoop_of_nonpos hnonpos hread]
  · induction fuel generalizing array m with
    | zero => cases hread
    | succ fuel ih =>
      rw [Manager.readKeysLoop] at hread
      split_ifs at hread with hlong hascii
      · exact ih (hs.append (length_sliceTo hpos hlong) hpos hcur) hcur hread
      · cases hread
        exact hs
      · cases hread
        exact hs

theorem Sound.readKeys (hs : Sound blockSize m log) {fuel : ℕ} {array : List UInt8}
    {result : Manager × List Entry} (hread : m.readKeys blockSize fuel array = some result) :
    Sound blockSize result.1 (log ++ result.2) := by
  unfold Manager.readKeys at hread
  split_ifs at hread with hfirst
  · obtain ⟨m', hloop, rfl⟩ := Option.map_eq_some_iff.mp hread
    exact (hs.reset m.curpos).readKeysLoop nofun hloop
  · obtain ⟨m', hloop, rfl⟩ := Option.map_eq_some_iff.mp hread
    rw [List.append_nil]
    by_cases hlong : array.length > blockSize
    · exact hs.readKeysLoop (fun hnone ↦ hfirst ⟨hlong, hnone⟩) hloop
    · cases fuel with
      | zero => cases hloop
      | succ fuel =>
        rw [Manager.readKeysLoop, if_neg hlong] at hloop
        cases hloop
        exact hs

/-! ## Encoding -/

theorem Sound.size_key (hs : Sound blockSize m log) {key : ℕ} (hkey : key < m.keys.length) :
    0 < blockSize ∧ (m.size key : ℤ) = blockSize := by
  have hmem := List.getElem_mem hkey
  refine ⟨hs.pos (List.ne_nil_of_mem hmem), ?_⟩
  rw [size, List.getD_eq_getElem _ _ hkey]
  exact hs.size_eq _ hmem

/-- Nothing is noted. -/
theorem Sound.silent (hs : Sound blockSize m log) : Sound blockSize m (log ++ []) := by
  rwa [List.append_nil]

/-- A packet that fits into keys finds room. -/
theorem Sound.seek (hs : Sound blockSize m log) {key : ℕ} (hcur : m.curKey = some key)
    (hkey : key < m.keys.length) {count : ℤ} (hcount : count ≤ blockSize) :
    ∃ m' key' entries, m.seek key count = (m', key', entries) ∧
      Sound blockSize m' (log ++ entries) ∧ ranges entries = [] ∧ m'.keys = m.keys ∧
      m'.curKey = some key' ∧ key' < m.keys.length ∧ count + m'.curpos key' ≤ blockSize := by
  obtain ⟨_, hsize⟩ := hs.size_key hkey
  unfold Manager.seek
  split_ifs with hfull
  · obtain ⟨m', key', entries, hnext, hs', hnone, hkeys, hcur', hkey', hcurpos⟩ :=
      hs.nextKey hcur hkey
    exact ⟨m', key', entries, hnext, hs', hnone, hkeys, hcur', hkey', by omega⟩
  · exact ⟨m, key, [], rfl, hs.silent, rfl, rfl, hcur, hkey, by omega⟩

/-- What `encode` does for some data. -/
structure Encodes (blockSize : ℤ) (log : List Entry) (xored : ℕ → Bool) (fuel : ℕ)
    (data : List UInt8) (call : Encoded) : Prop where
  sound : Sound blockSize call.manager (log ++ call.entries)
  ends : data.length < fuel → call.outcome ≠ .unfinished
  counts : call.outcome = .result →
    ((ranges call.entries).map PadRange.count).sum = data.length
  returns : 8 ≤ blockSize → blockSize < 2 ^ 32 → (∀ i, xored i = true) → data.length < fuel →
    call.outcome = .result

theorem Sound.encodeLoop (hs : Sound blockSize m log) (xored : ℕ → Bool) (fuel n : ℕ) {key : ℕ}
    (hcur : m.curKey = some key) (hkey : key < m.keys.length) (data : List UInt8) :
    Encodes blockSize log xored fuel data
      (Manager.encodeLoop blockSize xored fuel n m key data) := by
  induction fuel generalizing n m key data log with
  | zero =>
    exact ⟨hs.silent, fun h ↦ absurd h (Nat.not_lt_zero _), nofun, fun _ _ _ h ↦
      absurd h (Nat.not_lt_zero _)⟩
  | succ fuel ih =>
    rw [Manager.encodeLoop]
    by_cases hempty : data.isEmpty
    · rw [if_pos hempty, List.isEmpty_iff.mp hempty]
      exact ⟨hs.silent, fun _ ↦ nofun, fun _ ↦ rfl, fun _ _ _ _ ↦ rfl⟩
    · have hdata : 0 < data.length := List.length_pos_iff.mpr (mt List.isEmpty_iff.mpr hempty)
      obtain ⟨hpos, _⟩ := hs.size_key hkey
      rw [if_neg hempty]
      generalize hwanted :
        (if (data.length : ℤ) > blockSize then blockSize else (data.length : ℤ)) = wanted
      have hrange : 0 < wanted ∧ wanted ≤ blockSize ∧ wanted ≤ data.length := by
        rw [← hwanted]
        split_ifs <;> omega
      obtain ⟨m', key', entries, hseek, hs', hnone, hkeys, hcur', hkey', hroom⟩ :=
        hs.seek hcur hkey hrange.2.1
      rw [← hkeys] at hkey'
      obtain ⟨_, hsize⟩ := hs'.size_key hkey'
      have hcount : (if wanted > m'.size key' then (m'.size key' : ℤ) else wanted) = wanted :=
        if_neg (by omega)
      simp only [hseek, hcount]
      split_ifs with herror
      · refine ⟨hs', fun _ ↦ nofun, nofun, fun hlong hshort hxored _ ↦ ?_⟩
        simp only [hxored, Bool.true_eq_false, or_false] at herror
        omega
      · have hused := hs'.range (r := ⟨key', m'.curpos key', wanted.toNat⟩) hcur' le_rfl
          ⟨by dsimp only; omega, hkey', by dsimp only; omega⟩
        have hindex : sliceIndex wanted data.length = wanted.toNat := if_neg (by omega)
        have hrest : (sliceFrom data wanted).length = data.length - wanted.toNat := by
          rw [sliceFrom, List.length_drop, hindex]
        obtain ⟨hsound, hends, hcounts, hreturns⟩ :=
          ih hused (n + 1) hcur' hkey' (sliceFrom data wanted)
        refine ⟨?_, fun hfuel ↦ hends (by omega), fun hresult ↦ ?_,
          fun hlong hshort hxored hfuel ↦ hreturns hlong hshort hxored (by omega)⟩
        · simpa only [List.append_assoc, List.singleton_append] using hsound
        · have hsum := hcounts hresult
          have hcons (r : PadRange) (rest : List Entry) :
              ranges (entries ++ .range r :: rest) = r :: ranges rest := by
            rw [ranges_append, hnone, List.nil_append]
            rfl
          rw [hcons, List.map_cons, List.sum_cons, hsum, hrest]
          dsimp only
          omega

/-- A call of `encode`, with keys or without. -/
theorem Sound.encode (hs : Sound blockSize m log) (xored : ℕ → Bool) (fuel : ℕ)
    (data : List UInt8) :
    let call := m.encode blockSize xored fuel data
    Sound blockSize call.manager (log ++ call.entries) ∧
      (data.length < fuel → call.outcome ≠ .unfinished) ∧
      (call.outcome = .result → ((ranges call.entries).map PadRange.count).sum = data.length) ∧
      (m.curKey = none → call.outcome = .nothing ∧ ranges call.entries = []) ∧
      (m.keys ≠ [] → 8 ≤ blockSize → blockSize < 2 ^ 32 → (∀ i, xored i = true) →
        data.length < fuel → call.outcome = .result) := by
  unfold Manager.encode
  cases hcur : m.curKey with
  | none =>
    exact ⟨hs.silent, fun _ ↦ nofun, nofun, fun _ ↦ ⟨rfl, rfl⟩,
      fun hkeys ↦ absurd hcur (hs.curKey_ne hkeys)⟩
  | some cur =>
    have hlt := hs.curKey_lt cur hcur
    have hsame : m.currentKey cur = (m, cur, []) := if_neg (by omega)
    simp only [hsame, List.nil_append]
    split_ifs with hkey
    · obtain ⟨hsound, hends, hcounts, hreturns⟩ :=
        hs.encodeLoop xored fuel 0 hcur hkey data
      exact ⟨hsound, hends, hcounts, nofun, fun _ ↦ hreturns⟩
    · refine ⟨hs.silent, fun _ ↦ nofun, nofun, nofun, fun hkeys ↦ ?_⟩
      have hpos := List.length_pos_iff.mpr hkeys
      omega

end Manager

/-! ## All runs -/

namespace Process

theorem sound_of_run {blockSize : ℤ} {events : List Event} {s : Process}
    (hrun : (machine blockSize).Run events s) : s.manager.Sound blockSize s.log := by
  refine hrun.invariant (P := fun s ↦ s.manager.Sound blockSize s.log) ?_ ?_
  · rintro s rfl
    exact .init blockSize
  · intro s e t hs hstep
    cases e with
    | readKeys fuel array =>
      obtain ⟨result, hread, rfl⟩ := Option.map_eq_some_iff.mp hstep
      exact hs.readKeys hread
    | encode xored fuel data =>
      have hsound := (hs.encode xored fuel data).1
      simp only [machine, Machine.ofNext, next] at hstep
      split_ifs at hstep
      cases hstep
      exact hsound

/-- For every block size and every sequence of texts and calls of `encode`: the ranges between two
resets do not meet, and every range lies in its key and is not empty. Every call comes to an end,
and if it returns a result, it has used as many bytes as it has data; with keys of eight bytes at
least, and a working `xor`, it does so. While `cur_key` is -1 it returns nothing and uses no
bytes. -/
theorem ranges_of_run (blockSize : ℤ) {events : List Event} {s : Process}
    (hrun : (machine blockSize).Run events s) :
    (∀ part, part <:+: s.log → .reset ∉ part →
      (ranges part).Pairwise fun r r' ↦ Disjoint r.places r'.places) ∧
    (∀ r ∈ ranges s.log, 0 < r.count ∧ r.key < s.manager.keys.length ∧
      r.curpos + r.count ≤ s.manager.size r.key) ∧
    ∀ xored fuel data, let call := s.manager.encode blockSize xored fuel data
      (data.length < fuel → call.outcome ≠ .unfinished) ∧
      (call.outcome = .result → ((ranges call.entries).map PadRange.count).sum = data.length) ∧
      (s.manager.curKey = none → call.outcome = .nothing ∧ ranges call.entries = []) ∧
      (s.manager.keys ≠ [] → 8 ≤ blockSize → blockSize < 2 ^ 32 → (∀ i, xored i = true) →
        data.length < fuel → call.outcome = .result) := by
  have hs := sound_of_run hrun
  refine ⟨fun part hpart hreset ↦ ?_, hs.inside, fun xored fuel data ↦ ?_⟩
  · exact (hs.before part hpart hreset).imp PadRange.Before.disjoint
  · exact (hs.encode xored fuel data).2

/-- Two keys of nine bytes are read, and fifteen bytes are encoded. -/
def fifteenBytes : List Event :=
  [.readKeys 3 (List.replicate 19 65), .encode (fun _ ↦ true) 3 (List.replicate 15 0)]

theorem ranges_of_run_fifteenBytes :
    ∃ s, (machine 9).Run fifteenBytes s ∧
      s.log = [.reset, .range ⟨0, 0, 9⟩, .range ⟨1, 0, 6⟩] ∧
      [(⟨0, 0, 9⟩ : PadRange), ⟨1, 0, 6⟩].Pairwise fun r r' ↦ Disjoint r.places r'.places := by
  obtain ⟨s, hrun, hlog⟩ := Machine.exists_run_ofNext ⟨.init, []⟩ (next 9) fifteenBytes
    (P := fun s ↦ s.log = [.reset, .range ⟨0, 0, 9⟩, .range ⟨1, 0, 6⟩]) (by decide)
  refine ⟨s, hrun, hlog, ?_⟩
  have hpart : [Entry.range ⟨0, 0, 9⟩, .range ⟨1, 0, 6⟩] <:+: s.log :=
    ⟨[.reset], [], hlog.symm⟩
  exact (ranges_of_run 9 hrun).1 _ hpart (by decide)

/-- A call before there are keys uses nothing. -/
theorem not_ranges_noKeys :
    ¬ ∀ (blockSize : ℤ) (events : List Event) (s : Process),
      (machine blockSize).Run events s → ∀ xored fuel data,
        data.length < fuel →
          ((ranges (s.manager.encode blockSize xored fuel data).entries).map
            PadRange.count).sum = data.length := by
  intro hall
  have hsum := hall 9 [] ⟨.init, []⟩ (.start rfl) (fun _ ↦ true) 2 [7] (by decide)
  cases hsum

end Process

end QNet.Pythoncrypt
