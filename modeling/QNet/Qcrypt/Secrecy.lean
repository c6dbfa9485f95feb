import QNet.Lib.PadSecrecy
import QNet.Qcrypt.EndToEnd

/-!
# What a ring of uploaded keys hides

`get_keys_buffer` builds a ring from an uploaded text of hardly limited size. It reads every key
from the start of the text, so all keys have the same bytes, and takes its first eight bytes as
their number. The number is sent in front of every block, and the same bytes are used as pad.

Where a block stands depends only on the sizes of the keys and of the data (`map_place_blocks`). So
a ring explains another plaintext if and only if the two agree under the first eight bytes of the
keys and differ in the same way wherever two keys are used at the same offset: `secret_iff`.
-/

namespace QNet.Qcrypt

open ByteStream Pad

/-- `get_key_buffer`. -/
def getKeyBuffer (f : Mem) (size : ℕ) (h : size ≤ 1024) : Key where
  num i := f i
  key := f.slice 0 size
  length_le := by rwa [Mem.length_slice]

/-- The loop of `get_keys_buffer` with `all` bytes of keys so far; `fuel` bounds its rounds. -/
def getKeysBufferFuel (f : Mem) (size : ℕ) : ℕ → ℕ → List Key
  | 0, _ => []
  | fuel + 1, all =>
      getKeyBuffer f (min 1024 (size - all)) (Nat.min_le_left _ _) ::
        if size - 16 ≤ all + min 1024 (size - all) then []
        else getKeysBufferFuel f size fuel (all + min 1024 (size - all))

/-- `get_keys_buffer`; a text of less than 16 bytes gives no ring. -/
def getKeysBuffer (f : Mem) (size : ℕ) : List Key :=
  if size < 16 then [] else getKeysBufferFuel f size size 0

/-- The blocks a process with new keys writes for chunks of plaintext; `heap` is the memory behind
the keys. -/
def blocks (heap : ℕ → Mem) (keys : List Key) (chunks : List (List UInt8)) : List (Block keys) :=
  (feed (Codec.crypt fun i ↦ heap i) Codec.init chunks).2.flatten

/-- What it writes: headers and data. -/
def stream (heap : ℕ → Mem) (keys : List Key) (chunks : List (List UInt8)) : List UInt8 :=
  (blocks heap keys chunks).flatMap Block.whole

/-- Where the blocks stand in keys of the given sizes. -/
def places (sizes : List ℕ) (chunks : List (List UInt8)) : List Place :=
  layout (fun size stop ↦ size ≤ stop) sizes 0 0 ((chunks.flatMap (cut 32)).map List.length)

/-- Some ring of the same key sizes gives the stream of `m1` for `m2`. -/
def Secret (heap : ℕ → Mem) (f : Mem) (size : ℕ) (m1 m2 : List (List UInt8)) : Prop :=
  ∃ f' size', (getKeysBuffer f' size').map Key.size = (getKeysBuffer f size).map Key.size ∧
    stream heap (getKeysBuffer f' size') m2 = stream heap (getKeysBuffer f size) m1

/-! ## Where blocks stand -/

def Block.place {keys : List Key} (b : Block keys) : Place := ⟨b.key, b.curpos, b.out.length⟩

theorem getD_map_size {keys : List Key} (i : Fin keys.length) :
    (keys.map Key.size).getD i 0 = (keys.get i).size := by
  rw [List.getD_eq_getElem _ _ (by rw [List.length_map]; exact i.isLt), List.getElem_map]
  rfl

theorem Codec.cryptBlock_place {keys : List Key} (behind : Fin keys.length → Mem) {s : Codec keys}
    (data : List UInt8) {i : Fin keys.length} (hcur : s.current = some i) :
    ∃ b, (s.cryptBlock behind data).2 = some b ∧
      b.place = Pad.place (fun size stop ↦ size ≤ stop) (keys.map Key.size) i (s.curpos i)
        data.length ∧
      (s.cryptBlock behind data).1.current = some b.key ∧
      (s.cryptBlock behind data).1.curpos b.key = b.curpos + data.length := by
  obtain ⟨b, hb, hlength, _, hkey, hcurpos, hplace⟩ := cryptBlock_eq behind data hcur
  refine ⟨b, hb, ?_, current_eq_some_iff.mpr (.inl hkey), hcurpos⟩
  rw [Block.place, Pad.place, getD_map_size, hlength]
  cases hplace with
  | inl hfull =>
    obtain ⟨hfull, hnext, hstart⟩ := hfull
    rw [Full] at hfull
    rw [if_pos hfull, hnext, hstart, nextKey, List.length_map]
  | inr hroom =>
    obtain ⟨hroom, hsame, hstart⟩ := hroom
    rw [Full] at hroom
    rw [if_neg hroom, hsame, hstart]

theorem Codec.feed_cryptBlock_place {keys : List Key} (behind : Fin keys.length → Mem)
    {s : Codec keys} (pieces : List (List UInt8)) {i : Fin keys.length}
    (hcur : s.current = some i) :
    (feed (cryptBlock behind) s pieces).2.reduceOption.map Block.place =
      layout (fun size stop ↦ size ≤ stop) (keys.map Key.size) i (s.curpos i)
        (pieces.map List.length) := by
  induction pieces generalizing s i with
  | nil => rfl
  | cons piece rest ih =>
    obtain ⟨b, hb, hplace, hnext, hcurpos⟩ := cryptBlock_place behind piece hcur
    rw [feed_cons, hb, List.reduceOption_cons_of_some, List.map_cons, ih hnext, hcurpos,
      List.map_cons, layout, ← hplace]
    rfl

/-! ## The blocks of a stream -/

theorem feed_crypt {keys : List Key} (behind : Fin keys.length → Mem) (s : Codec keys)
    (chunks : List (List UInt8)) :
    (feed (Codec.crypt behind) s chunks).2.flatten =
      (feed (Codec.cryptBlock behind) s (chunks.flatMap (cut 32))).2.reduceOption := by
  induction chunks generalizing s with
  | nil => rfl
  | cons data rest ih =>
    rw [feed_cons, List.flatten_cons, ih, List.flatMap_cons, feed_append,
      List.reduceOption_append]
    rfl

/-- Without keys nothing is written. -/
theorem blocks_eq_nil {keys : List Key} (hkeys : keys = []) (heap : ℕ → Mem)
    (chunks : List (List UInt8)) : blocks heap keys chunks = [] := by
  cases hblocks : blocks heap keys chunks with
  | nil => rfl
  | cons b rest =>
    subst hkeys
    exact b.key.elim0

/-- The blocks hold the plaintext. -/
theorem blocks_data {keys : List Key} (hkeys : keys ≠ []) (heap : ℕ → Mem)
    (chunks : List (List UInt8)) :
    (blocks heap keys chunks).flatMap (Block.data fun i ↦ heap i) = chunks.flatten := by
  rw [blocks, feed_crypt, List.flatMap_def, (Codec.feed_cryptBlock _ hkeys _ _).1]
  induction chunks with
  | nil => rfl
  | cons data rest ih =>
    rw [List.flatMap_cons, List.flatten_append, ih, flatten_cut (by decide), List.flatten_cons]

/-- Where blocks stand depends on the sizes of the keys and the lengths of the chunks only. -/
theorem map_place_blocks {keys : List Key} (hkeys : keys ≠ []) (heap : ℕ → Mem)
    (chunks : List (List UInt8)) :
    (blocks heap keys chunks).map Block.place = places (keys.map Key.size) chunks := by
  have hcur : (Codec.init : Codec keys).current = some ⟨0, List.length_pos_iff.mpr hkeys⟩ :=
    Codec.current_eq_some_iff.mpr (.inr ⟨rfl, rfl⟩)
  rw [blocks, feed_crypt, Codec.feed_cryptBlock_place _ _ hcur]
  rfl

/-- Chunks of the same lengths have their blocks at the same places. -/
theorem places_eq (sizes : List ℕ) {m1 m2 : List (List UInt8)}
    (hm : m1.map List.length = m2.map List.length) : places sizes m1 = places sizes m2 := by
  rw [places, places, map_length_flatMap_cut 32 hm]

/-- What stands before the data of a block. -/
def Block.header {keys : List Key} (b : Block keys) : List UInt8 :=
  List.ofFn (keys.get b.key).num ++ (leBytes 4 b.curpos ++ leBytes 4 b.out.length)

theorem Block.whole_eq_header {keys : List Key} (b : Block keys) : b.whole = b.header ++ b.out := by
  rw [whole_eq, header, List.append_assoc, List.append_assoc]
  rfl

/-- At the same place headers differ in the number of the key only. -/
theorem header_eq_iff {keys keys' : List Key} {b : Block keys} {b' : Block keys'}
    (h : b.place = b'.place) :
    b.header = b'.header ↔ (keys.get b.key).num = (keys'.get b'.key).num := by
  obtain ⟨_, hcurpos, hlength⟩ := Place.mk.inj h
  rw [Block.header, Block.header, hcurpos, hlength, List.append_left_inj]
  exact List.ofFn_injective.eq_iff

/-- Streams with their blocks at the same places are told by the headers and the data. -/
theorem flatMap_whole_eq_iff {keys keys' : List Key} {l : List (Block keys)}
    {l' : List (Block keys')} (h : List.Forall₂ (fun b b' ↦ b.place = b'.place) l l') :
    l.flatMap Block.whole = l'.flatMap Block.whole ↔
      List.Forall₂ (fun b b' ↦ b.header = b'.header) l l' ∧
        l.flatMap Block.out = l'.flatMap Block.out := by
  have hlengths : List.Forall₂ (fun (b : Block keys) (b' : Block keys') ↦
      b.header.length = b'.header.length ∧ b.out.length = b'.out.length) l l' := by
    apply h.imp
    intro b b' hplace
    exact ⟨by simp [Block.header], congrArg Place.length hplace⟩
  rw [← flatMap_append_eq_iff hlengths, ← funext Block.whole_eq_header,
    ← funext Block.whole_eq_header]

/-! ## A ring from a text -/

theorem mem_getKeysBuffer {f : Mem} {size : ℕ} {key : Key} (h : key ∈ getKeysBuffer f size) :
    key.num = (fun i : Fin 8 ↦ f i) ∧ key.key = f.slice 0 key.size := by
  have hfuel (fuel all : ℕ) (hmem : key ∈ getKeysBufferFuel f size fuel all) :
      key.num = (fun i : Fin 8 ↦ f i) ∧ key.key = f.slice 0 key.size := by
    induction fuel generalizing all with
    | zero => cases hmem
    | succ fuel ih =>
      rw [getKeysBufferFuel] at hmem
      rcases List.mem_cons.mp hmem with rfl | hrest
      · exact ⟨rfl, by simp only [Key.size, getKeyBuffer, Mem.length_slice]⟩
      · split_ifs at hrest
        · cases hrest
        · exact ih _ hrest
  unfold getKeysBuffer at h
  split_ifs at h
  · cases h
  · exact hfuel _ _ h

theorem getKeysBuffer_sizes (f f' : Mem) (size : ℕ) :
    (getKeysBuffer f size).map Key.size = (getKeysBuffer f' size).map Key.size := by
  have hfuel (fuel all : ℕ) : (getKeysBufferFuel f size fuel all).map Key.size =
      (getKeysBufferFuel f' size fuel all).map Key.size := by
    induction fuel generalizing all with
    | zero => rfl
    | succ fuel ih =>
      rw [getKeysBufferFuel, getKeysBufferFuel, List.map_cons, List.map_cons]
      congr 1
      · simp only [Key.size, getKeyBuffer, Mem.length_slice]
      · split_ifs
        · rfl
        · exact ih _
  unfold getKeysBuffer
  split_ifs
  · rfl
  · exact hfuel _ _

/-- Blocks that stand at places within their keys. -/
theorem fits_iff {keys : List Key} {l : List (Block keys)} :
    Fits (keys.map Key.size) (l.map Block.place) ↔ ∀ b ∈ l, b.Fits := by
  rw [Fits, List.forall_mem_map]
  apply forall₂_congr
  intro b hb
  rw [Block.place, getD_map_size]
  rfl

/-- The data of a stream under a text. -/
theorem flatMap_out_eq {f : Mem} {size : ℕ} (heap : ℕ → Mem)
    {l : List (Block (getKeysBuffer f size))} (hfits : ∀ b ∈ l, b.Fits) :
    l.flatMap Block.out =
      cipher f (offsets (l.map Block.place)) (l.flatMap (Block.data fun i ↦ heap i)) := by
  have hblock (b : Block (getKeysBuffer f size)) (hb : b ∈ l) :
      b.out = cipher f ((List.range b.out.length).map (b.curpos + ·))
        (b.data fun i ↦ heap i) := by
    have hkey := (mem_getKeysBuffer (List.get_mem _ b.key)).2
    have hfit : b.curpos + b.out.length ≤ ((getKeysBuffer f size).get b.key).key.length :=
      hfits b hb
    have hdata : b.data (fun i ↦ heap i) = xorPad (fun i ↦ f (b.curpos + i)) b.out := by
      apply xorPad_congr
      intro i hi
      have hinside : b.curpos + i < ((getKeysBuffer f size).get b.key).key.length := by omega
      rw [pad, List.getD_eq_getElem _ _ hinside]
      simp only [hkey, Mem.getElem_slice, Nat.zero_add]
    have hrange := cipher_range f b.curpos (xorPad (fun i ↦ f (b.curpos + i)) b.out)
    rw [length_xorPad, xorPad_xorPad] at hrange
    rw [hdata, hrange]
  have hlength (b : Block (getKeysBuffer f size)) (_ : b ∈ l) :
      (b.data fun i ↦ heap i).length = ((List.range b.out.length).map (b.curpos + ·)).length := by
    rw [Block.data, length_xorPad, List.length_map, List.length_range]
  rw [offsets, List.flatMap_map]
  exact (List.flatMap_congr hblock).trans (cipher_flatMap hlength).symm

theorem length_offsets {keys : List Key} (behind : Fin keys.length → Mem) (l : List (Block keys)) :
    (l.flatMap (Block.data behind)).length = (offsets (l.map Block.place)).length := by
  rw [offsets, List.flatMap_map, List.length_flatMap, List.length_flatMap]
  congr 2
  funext b
  rw [Block.data, length_xorPad, List.length_map, List.length_range]
  rfl

/-- All keys of a ring from a text have the same number. -/
theorem headers_eq_iff {f f' : Mem} {size size' : ℕ} {l : List (Block (getKeysBuffer f size))}
    {l' : List (Block (getKeysBuffer f' size'))}
    (h : List.Forall₂ (fun b b' ↦ b.place = b'.place) l l') (hl : l ≠ []) :
    List.Forall₂ (fun b b' ↦ b.header = b'.header) l l' ↔ ∀ a ∈ List.range 8, f' a = f a := by
  have hheader {b : Block (getKeysBuffer f size)} {b' : Block (getKeysBuffer f' size')}
      (hplace : b.place = b'.place) : b.header = b'.header ↔ ∀ a ∈ List.range 8, f' a = f a := by
    rw [header_eq_iff hplace, (mem_getKeysBuffer (List.get_mem _ b.key)).1,
      (mem_getKeysBuffer (List.get_mem _ b'.key)).1]
    constructor
    · intro heq a ha
      exact (congrFun heq ⟨a, List.mem_range.mp ha⟩).symm
    · intro hall
      funext i
      exact (hall i (List.mem_range.mpr i.isLt)).symm
  cases h with
  | nil => exact absurd rfl hl
  | cons hplace hrest =>
    rw [List.forall₂_cons, hheader hplace]
    exact ⟨fun hboth ↦ hboth.1,
      fun hall ↦ ⟨hall, hrest.imp fun _ _ hplace' ↦ (hheader hplace').mpr hall⟩⟩

/-- The stream under another text, told by the first eight bytes and the pad. -/
theorem stream_eq_iff {heap : ℕ → Mem} {f f' : Mem} {size size' : ℕ} {m1 m2 : List (List UInt8)}
    (hkeys : getKeysBuffer f size ≠ [])
    (hsizes : (getKeysBuffer f' size').map Key.size = (getKeysBuffer f size).map Key.size)
    (hm : m1.map List.length = m2.map List.length)
    (hfits : Fits ((getKeysBuffer f size).map Key.size)
      (places ((getKeysBuffer f size).map Key.size) m1))
    (hplaces : places ((getKeysBuffer f size).map Key.size) m1 ≠ []) :
    stream heap (getKeysBuffer f' size') m2 = stream heap (getKeysBuffer f size) m1 ↔
      (∀ a ∈ List.range 8, f' a = f a) ∧
        cipher f' (offsets (places ((getKeysBuffer f size).map Key.size) m1)) m2.flatten =
          cipher f (offsets (places ((getKeysBuffer f size).map Key.size) m1)) m1.flatten := by
  have hkeys' : getKeysBuffer f' size' ≠ [] := by
    intro hnil
    rw [hnil, List.map_nil, eq_comm, List.map_eq_nil_iff] at hsizes
    exact hkeys hsizes
  have h1 := map_place_blocks hkeys heap m1
  have h2 : (blocks heap (getKeysBuffer f' size') m2).map Block.place =
      places ((getKeysBuffer f size).map Key.size) m1 := by
    rw [map_place_blocks hkeys', hsizes, places_eq _ hm]
  have hblocks : blocks heap (getKeysBuffer f size) m1 ≠ [] := by
    intro hnil
    rw [hnil, List.map_nil] at h1
    exact hplaces h1.symm
  have hsame := map_eq_map_iff_forall₂.mp (h1.trans h2.symm)
  have hfits1 := fits_iff.mp (h1.symm ▸ hfits)
  have hfits2 : ∀ b ∈ blocks heap (getKeysBuffer f' size') m2, b.Fits := by
    rwa [← fits_iff, hsizes, h2]
  rw [eq_comm, stream, stream, flatMap_whole_eq_iff hsame, headers_eq_iff hsame hblocks,
    flatMap_out_eq heap hfits1, flatMap_out_eq heap hfits2, blocks_data hkeys, blocks_data hkeys',
    h1, h2]
  exact and_congr_right' eq_comm

/-- For every uploaded text, all chunks of plaintext `m1` whose blocks lie in their keys, and all
`m2` of the same lengths: a ring of the same sizes gives the stream of `m1` for `m2` if and only
if the plaintexts agree wherever the first eight bytes of a key are the pad, and differ in the same
way wherever keys are used at the same offset. -/
theorem secret_iff (heap : ℕ → Mem) (f : Mem) (size : ℕ) {m1 m2 : List (List UInt8)}
    (hm : m1.map List.length = m2.map List.length)
    (hfits : Fits ((getKeysBuffer f size).map Key.size)
      (places ((getKeysBuffer f size).map Key.size) m1)) :
    Secret heap f size m1 m2 ↔ Explained 0 (List.range 8)
      (differences (offsets (places ((getKeysBuffer f size).map Key.size) m1))
        m1.flatten m2.flatten) := by
  by_cases hkeys : getKeysBuffer f size = []
  · -- Without keys nothing is written, and nothing fits.
    have hnone (chunks : List (List UInt8)) : stream heap (getKeysBuffer f size) chunks = [] := by
      rw [stream, blocks_eq_nil hkeys]
      rfl
    rw [hkeys, List.map_nil] at hfits ⊢
    rw [hfits.offsets_eq_nil]
    exact iff_of_true ⟨f, size, rfl, (hnone m2).trans (hnone m1).symm⟩ nofun
  · have hplaces1 := map_place_blocks hkeys heap m1
    have hplaces2 := map_place_blocks hkeys heap m2
    by_cases hplaces : places ((getKeysBuffer f size).map Key.size) m1 = []
    · rw [← places_eq _ hm, hplaces, List.map_eq_nil_iff] at hplaces2
      rw [hplaces, List.map_eq_nil_iff] at hplaces1
      rw [hplaces]
      refine iff_of_true ⟨f, size, rfl, ?_⟩ nofun
      rw [stream, stream, hplaces1, hplaces2]
    · have h1 : m1.flatten.length =
          (offsets (places ((getKeysBuffer f size).map Key.size) m1)).length := by
        rw [← hplaces1, ← length_offsets (fun i ↦ heap i), blocks_data hkeys]
      have h2 : m2.flatten.length =
          (offsets (places ((getKeysBuffer f size).map Key.size) m1)).length := by
        rw [← h1, List.length_flatten, List.length_flatten, hm]
      rw [← exists_text_iff f 0 (List.range 8) (fun a ↦ UInt8.and_zero) h1 h2]
      constructor
      · rintro ⟨f', size', hsizes, hstream⟩
        have hboth := (stream_eq_iff hkeys hsizes hm hfits hplaces).mp hstream
        exact ⟨f', fun a ↦ UInt8.and_zero, hboth⟩
      · rintro ⟨f', _, hboth⟩
        have hsizes := getKeysBuffer_sizes f' f size
        exact ⟨f', size, hsizes, (stream_eq_iff hkeys hsizes hm hfits hplaces).mpr hboth⟩

end QNet.Qcrypt
