import QNet.Qcrypt.Search

/-!
# Where crypt reads in a key

Before each block `crypt` looks whether the current key has room for it, and otherwise goes to the
next key, which it does not look at. A block leaves a key behind its end exactly when it comes after
such a change and the new key is shorter than the block. Every ring with a key of less than 32 bytes
comes to this: `inKeys_iff`.
-/

namespace QNet.Qcrypt

open ByteStream

variable {keys : List Key}

/-- Every index that is used for the block lies in its key. -/
def Block.InKey (b : Block keys) : Prop :=
  ∀ i < b.out.length, b.curpos + i < (keys.get b.key).size

/-- If the current key is left, then the next one has room for the block. -/
def Codec.RoomBehind (s : Codec keys) (piece : List UInt8) : Prop :=
  ∀ i ∈ s.current, s.Full i piece.length → piece.length ≤ (keys.get (nextKey i)).size

/-- All indices of some calls of `crypt` lie in the keys. -/
def InKeys (behind : Fin keys.length → Mem) (calls : List (List UInt8)) : Prop :=
  ∀ b ∈ (feed (Codec.crypt behind) Codec.init calls).2.flatten, b.InKey

/-! ## One run -/

theorem Codec.cryptBlock_inKey_iff (behind : Fin keys.length → Mem) (s : Codec keys)
    {piece : List UInt8} (hpos : 0 < piece.length) :
    (∀ b ∈ (s.cryptBlock behind piece).2, b.InKey) ↔ s.RoomBehind piece := by
  cases hcur : s.current with
  | none =>
    have hnone : (s.cryptBlock behind piece).2 = none := by rw [cryptBlock, hcur]
    refine iff_of_true (by simp [hnone]) ?_
    simp [RoomBehind, hcur]
  | some i =>
    obtain ⟨b, hb, hlength, _, _, _, hplace⟩ := cryptBlock_eq behind piece hcur
    simp only [hb, Option.mem_some_iff, forall_eq', Block.InKey, RoomBehind, hcur, hlength]
    rcases hplace with ⟨hfull, hkey, hcurpos⟩ | ⟨hroom, hkey, hcurpos⟩
    · rw [hkey, hcurpos]
      constructor
      · intro hall _
        have hlast := hall (piece.length - 1) (by omega)
        omega
      · intro hsize j hj
        have hle := hsize hfull
        omega
    · refine iff_of_true (fun j hj ↦ ?_) fun hfull ↦ absurd hfull hroom
      rw [Full] at hroom
      rw [hkey, hcurpos]
      omega

/-- For any calls: all indices lie in the keys if and only if every key that `crypt` goes to has
room for the block. -/
theorem inKeys_iff_roomBehind (behind : Fin keys.length → Mem) (calls : List (List UInt8)) :
    InKeys behind calls ↔
      ∀ before piece, before ++ [piece] <+: calls.flatMap (cut 32) →
        (feed (Codec.cryptBlock behind) Codec.init before).1.RoomBehind piece := by
  have hpieces : ∀ piece ∈ calls.flatMap (cut 32), 0 < piece.length := by
    intro piece hpiece
    obtain ⟨data, _, hmem⟩ := List.mem_flatMap.mp hpiece
    exact (length_of_mem_cut (by decide) hmem).1
  have hblocks : InKeys behind calls ↔
      ∀ o ∈ (feed (Codec.cryptBlock behind) Codec.init (calls.flatMap (cut 32))).2,
        ∀ b ∈ o, b.InKey := by
    rw [InKeys, feed_crypt]
    simp only [List.reduceOption_mem_iff]
    constructor
    · intro hall o ho b hb
      rw [Option.mem_def] at hb
      exact hall b (hb ▸ ho)
    · exact fun hall b hb ↦ hall (some b) hb b rfl
  rw [hblocks]
  exact feed_forall_iff
    (fun s piece hpiece ↦ s.cryptBlock_inKey_iff behind (hpieces piece hpiece)) Codec.init

/-! ## All runs -/

section Blocks

variable (behind : Fin keys.length → Mem)

/-- A block of 32 bytes. -/
def whole : List UInt8 := List.replicate 32 0

/-- The process after `m` blocks of 32 bytes. -/
def afterWhole (m : ℕ) : Codec keys :=
  (feed (Codec.cryptBlock behind) Codec.init (List.replicate m whole)).1

theorem afterWhole_succ (m : ℕ) :
    afterWhole behind (m + 1) = ((afterWhole behind m).cryptBlock behind whole).1 := by
  rw [afterWhole, List.replicate_succ', feed_append]
  rfl

/-- The current key is used up after some more blocks. -/
theorem exists_full (i : Fin keys.length) (m : ℕ)
    (hcur : (afterWhole behind m).current = some i) :
    ∃ n, (afterWhole behind n).current = some i ∧ (afterWhole behind n).Full i 32 := by
  generalize hleft : (keys.get i).size - (afterWhole behind m).curpos i = left
  induction left using Nat.strong_induction_on generalizing m with
  | _ left ih =>
    by_cases hfull : (afterWhole behind m).Full i 32
    · exact ⟨m, hcur, hfull⟩
    · obtain ⟨b, _, _, _, hcurkey, hcurpos, hplace⟩ :=
        Codec.cryptBlock_eq behind whole hcur
      rw [← afterWhole_succ] at hcurkey hcurpos
      rcases hplace with ⟨hleave, _⟩ | ⟨_, hkey, hstart⟩
      · exact absurd hleave hfull
      · have hnext : (afterWhole behind (m + 1)).current = some i :=
          Codec.current_eq_some_iff.mpr (.inl (hkey ▸ hcurkey))
        rw [Codec.Full] at hfull
        have hlength : whole.length = 32 := rfl
        rw [hkey, hstart, hlength] at hcurpos
        exact ih _ (by omega) (m + 1) hnext rfl

/-- Every key is used up at some time. -/
theorem exists_full_iterate (start : Fin keys.length) (hstart : start.val = 0) (t : ℕ) :
    ∃ n, (afterWhole behind n).current = some (nextKey^[t] start) ∧
      (afterWhole behind n).Full (nextKey^[t] start) 32 := by
  induction t with
  | zero =>
    have hcur : (afterWhole behind 0).current = some start :=
      Codec.current_eq_some_iff.mpr (.inr ⟨rfl, hstart⟩)
    exact exists_full behind start 0 hcur
  | succ t ih =>
    obtain ⟨n, hcur, hfull⟩ := ih
    obtain ⟨b, _, _, _, hcurkey, _, hplace⟩ := Codec.cryptBlock_eq behind whole hcur
    rw [← afterWhole_succ] at hcurkey
    rw [Function.iterate_succ_apply']
    rcases hplace with ⟨_, hkey, _⟩ | ⟨hroom, _⟩
    · exact exists_full behind _ (n + 1)
        (Codec.current_eq_some_iff.mpr (.inl (hkey ▸ hcurkey)))
    · exact absurd hfull hroom

end Blocks

theorem nextKey_val (i : Fin keys.length) : (nextKey i).val = (i + 1) % keys.length := rfl

theorem nextKey_iterate (i : Fin keys.length) (t : ℕ) :
    (nextKey^[t] i).val = (i + t) % keys.length := by
  induction t with
  | zero => exact (Nat.mod_eq_of_lt i.isLt).symm
  | succ t ih =>
    rw [Function.iterate_succ_apply', nextKey_val, ih, Nat.mod_add_mod, Nat.add_assoc]

/-- Some blocks of 32 bytes lead from the key before into any key. -/
theorem size_ge_of_inKeys (behind : Fin keys.length → Mem)
    (hall : ∀ calls, InKeys behind calls) : ∀ key ∈ keys, 32 ≤ key.size := by
  intro key hkey
  obtain ⟨j, hj⟩ := List.get_of_mem hkey
  have hlength : 0 < keys.length := Nat.zero_lt_of_lt j.isLt
  let before := nextKey^[j + (keys.length - 1)] ⟨0, hlength⟩
  have hnext : nextKey before = j := by
    apply Fin.ext
    have hsum : 0 + (j.val + (keys.length - 1)) + 1 = j.val + keys.length := by omega
    rw [nextKey_val, nextKey_iterate, Nat.mod_add_mod, hsum, Nat.add_mod_right,
      Nat.mod_eq_of_lt j.isLt]
  obtain ⟨n, hcur, hfull⟩ := exists_full_iterate behind ⟨0, hlength⟩ rfl (j + (keys.length - 1))
  have hpieces : List.replicate n whole ++ [whole] <+:
      (List.replicate (n + 1) whole).flatMap (cut 32) := by
    have hcut : cut 32 whole = [whole] := by decide
    rw [← List.replicate_succ', List.flatMap_replicate, hcut, List.flatten_replicate_singleton]
  have hcalls := hall (List.replicate (n + 1) whole)
  have hroom := (inKeys_iff_roomBehind behind _).mp hcalls _ _ hpieces
  rw [← hj, ← hnext]
  exact hroom before hcur hfull

/-- For every ring, and all calls: the indices lie in the keys if and only if all keys have 32
bytes. -/
theorem forall_inKeys_iff (behind : Fin keys.length → Mem) :
    (∀ calls, InKeys behind calls) ↔ ∀ key ∈ keys, 32 ≤ key.size := by
  constructor
  · exact size_ge_of_inKeys behind
  · intro hsize calls
    rw [inKeys_iff_roomBehind]
    intro before piece hpart i _ _
    obtain ⟨data, _, hmem⟩ := List.mem_flatMap.mp
      (hpart.subset (List.mem_append_right before List.mem_cons_self))
    have hle := (length_of_mem_cut (by decide) hmem).2
    exact hle.trans (hsize _ (List.get_mem keys _))

/-- For every ring that is read from an upload, from files or from bits, and any calls of `crypt`:
the indices lie in the keys if and only if every key that `crypt` goes to has room for the block.
They do so for all calls if and only if all keys of the ring have 32 bytes. -/
theorem inKeys_iff {h : Heap} {ring : List ℕ} (hring : h.RingOf ring) (mode : ℤ)
    (arrival : Arrival) :
    ∃ built ring', h.reload mode arrival = some built ∧ built.RingOf ring' ∧
      ∀ behind : Fin (built.contents ring').length → Mem,
        (∀ calls, InKeys behind calls ↔
          ∀ before piece, before ++ [piece] <+: calls.flatMap (cut 32) →
            (feed (Codec.cryptBlock behind) Codec.init before).1.RoomBehind piece) ∧
        ((∀ calls, InKeys behind calls) ↔ ∀ key ∈ built.contents ring', 32 ≤ key.size) := by
  obtain ⟨built, ring', hbuilt, hloaded⟩ := Heap.reload_spec hring mode arrival
  exact ⟨built, ring', hbuilt, hloaded.ringOf, fun behind ↦
    ⟨inKeys_iff_roomBehind behind, forall_inKeys_iff behind⟩⟩

/-- A text of sixteen bytes has been uploaded. -/
def sixteenBytes : Arrival := ⟨[(fun _ ↦ 7, 16)], [], 0, none⟩

theorem inKeys_iff_sixteenBytes : ∃ built ring, sampleHeap.reload 0 sixteenBytes = some built ∧
    built.RingOf ring ∧ ∀ behind : Fin (built.contents ring).length → Mem,
      (∀ calls, InKeys behind calls) ↔ ∀ key ∈ built.contents ring, 32 ≤ key.size := by
  obtain ⟨built, ring, hbuilt, hring, hiff⟩ :=
    inKeys_iff (Heap.RingOf.dropKeys sampleHeap) 0 sixteenBytes
  exact ⟨built, ring, hbuilt, hring, fun behind ↦ (hiff behind).2⟩

/-- The only key has sixteen bytes, and a block of 32 bytes is encrypted with it. -/
theorem not_inKeys_sixteenBytes :
    ¬ ∀ (h built : Heap) (ring ring' : List ℕ) (mode : ℤ) (arrival : Arrival), h.RingOf ring →
      h.reload mode arrival = some built → built.RingOf ring' →
        ∀ (behind : Fin (built.contents ring').length → Mem) (calls : List (List UInt8)),
          InKeys behind calls := by
  intro hall
  obtain ⟨built, ring, hbuilt, hgrown, hcontents⟩ :=
    sampleHeap.getKeysBuffer_spec (fun _ ↦ 7) (le_refl 16)
  have hreload : sampleHeap.reload 0 sixteenBytes = some built := by
    have hupload : sampleHeap.upload (fun _ ↦ 7, 16) = some built := by
      rw [Heap.upload, hbuilt, Option.map_some]
    simp only [Heap.reload, sixteenBytes, List.foldlM_cons, List.foldlM_nil, hupload]
    rfl
  have hsizes : (built.contents ring).map Key.size = [16] := by
    rw [hcontents]
    decide
  have hsize := size_ge_of_inKeys (fun _ _ ↦ 0) (hall _ _ _ ring 0 sixteenBytes
    (Heap.RingOf.dropKeys sampleHeap) hreload hgrown.ringOf fun _ _ ↦ 0)
  have hmem : 16 ∈ (built.contents ring).map Key.size := by
    rw [hsizes]
    exact List.mem_cons_self
  obtain ⟨key, hkey, hsixteen⟩ := List.mem_map.mp hmem
  have hle := hsize key hkey
  omega

end QNet.Qcrypt
