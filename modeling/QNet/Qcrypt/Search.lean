import QNet.Qcrypt.Plug

/-!
# The search of decrypt for a key

`decrypt` compares the number in the header with `curkey` and then walks along the ring. As long as
there is no key of the number it reads the keys again, or, with keys from uploads, just walks once
more. There is no other way out of the loop, so a number that is in no ring keeps the process busy
for ever: `searchEnds_iff`.

Numbers are compared with `strncmp`, which stops at a NUL. The first key that agrees with the
number as far as a NUL is taken, whatever follows: `usesRight_iff`.
-/

namespace QNet.Qcrypt

open CString

/-- What there is to be read at a moment: the texts that another thread has uploaded in the
meantime, the files of the directory, and the file of bits. -/
structure Arrival where
  uploads : List (Mem × ℕ)
  files : List (List UInt8)
  bit : UInt32
  plug : Option (List (List UInt8))

/-- `strncmp(in, key->num, 8) == 0`. -/
def Same (num : Bytes8) (key : KeyObject) : Bool :=
  strncmpEq (List.ofFn num) (List.ofFn key.num)

namespace Heap

/-- One walk along the ring. -/
def searchKeys (num : Bytes8) (h : Heap) : Option (Option ℕ) :=
  match h.keys with
  | none => some none
  | some head => search h.next head (fun key ↦ Same num (h.obj key)) h.allocated head

/-- Uploads of the other thread. -/
def upload (h : Heap) (text : Mem × ℕ) : Option Heap :=
  (h.getKeysBuffer text.1 text.2).map Prod.fst

/-- What happens to the keys between two walks. In mode 0 `decrypt` reads nothing, but another
thread may upload keys. One that does so while a walk is under way frees the keys it walks on: that
is a race of the threads, and no upload is within a walk here. -/
def reload (mode : ℤ) (arrival : Arrival) (h : Heap) : Option Heap :=
  if mode = 1 then h.getFiles arrival.files
  else if mode = 2 then (h.getKeyPlug arrival.bit arrival.plug).map Prod.fst
  else if mode = 0 then arrival.uploads.foldlM upload h
  else some h

/-- The loop `while (flagToReload == 1)`, in the `n`-th round; `fuel` bounds the rounds. -/
def awaitKey (mode : ℤ) (num : Bytes8) (arrivals : ℕ → Arrival) : ℕ → ℕ → Heap → Option Heap
  | 0, _, _ => none
  | fuel + 1, n, h =>
      (h.searchKeys num).bind fun
        | some key => some { h with curkey := some key }
        | none => (h.reload mode (arrivals n)).bind (awaitKey mode num arrivals fuel (n + 1))

/-- `decrypt` up to the point where `curkey` is the key it uses. -/
def decryptKey (mode : ℤ) (num : Bytes8) (arrivals : ℕ → Arrival) (fuel : ℕ) (h : Heap) :
    Option Heap :=
  if h.curkey.any fun key ↦ Same num (h.obj key) then some h
  else awaitKey mode num arrivals fuel 0 h

/-- The process after `n` reloads. -/
def reloads (mode : ℤ) (arrivals : ℕ → Arrival) : ℕ → Heap → Option Heap
  | 0, h => some h
  | n + 1, h => (reloads mode arrivals n h).bind (reload mode (arrivals n))

variable {h h' : Heap} {ring : List ℕ}

/-! ## The walk and the reload -/

theorem searchKeys_eq (hring : h.RingOf ring) (num : Bytes8) :
    h.searchKeys num = some (ring.find? fun key ↦ Same num (h.obj key)) := by
  have hkeys := hring.keys
  unfold searchKeys
  cases ring with
  | nil =>
    rw [hkeys]
    rfl
  | cons head rest =>
    rw [hkeys, List.head?_cons]
    exact (hring.circular head rest rfl).search_eq hring.length_le _

/-- From `h` to `h'` the ring may have been replaced, but `curkey` is what it was. -/
structure Reloaded (h h' : Heap) (ring : List ℕ) : Prop where
  ringOf : h'.RingOf ring
  allocated : h.allocated ≤ h'.allocated
  curkey : h'.curkey = h.curkey
  kept : ∀ key < h.allocated, h'.obj key = h.obj key

theorem Reloaded.refl (hring : h.RingOf ring) : Reloaded h h ring :=
  ⟨hring, le_rfl, rfl, fun _ _ ↦ rfl⟩

theorem Reloaded.trans {h'' : Heap} {ring' : List ℕ} (hloaded : Reloaded h h' ring)
    (hloaded' : Reloaded h' h'' ring') : Reloaded h h'' ring' where
  ringOf := hloaded'.ringOf
  allocated := hloaded.allocated.trans hloaded'.allocated
  curkey := hloaded'.curkey.trans hloaded.curkey
  kept key hkey :=
    (hloaded'.kept key (hkey.trans_le hloaded.allocated)).trans (hloaded.kept key hkey)

theorem dropKeys_kept (h : Heap) : h.dropKeys.allocated = h.allocated ∧
    h.dropKeys.curkey = h.curkey ∧ h.dropKeys.obj = h.obj := by
  unfold dropKeys
  split <;> exact ⟨rfl, rfl, rfl⟩

theorem Reloaded.of_grown (hgrown : h.dropKeys.Grown h' [] ring) : Reloaded h h' ring := by
  obtain ⟨hallocated, hcurkey, hobj⟩ := h.dropKeys_kept
  refine ⟨hgrown.ringOf, hallocated ▸ hgrown.allocated, hcurkey ▸ hgrown.curkey, fun key hkey ↦ ?_⟩
  rw [← hobj]
  exact hgrown.kept key (hallocated ▸ hkey)

theorem upload_spec (hring : h.RingOf ring) (text : Mem × ℕ) :
    ∃ h' ring', h.upload text = some h' ∧ Reloaded h h' ring' := by
  unfold upload
  by_cases hshort : text.2 < 16
  · refine ⟨h, ring, ?_, .refl hring⟩
    rw [Heap.getKeysBuffer, if_pos hshort, Option.map_some]
  · obtain ⟨built, ring', hbuilt, hgrown, _⟩ :=
      h.getKeysBuffer_spec text.1 (Nat.le_of_not_lt hshort)
    refine ⟨built, ring', ?_, .of_grown hgrown⟩
    rw [hbuilt, Option.map_some]

/-- Reading the keys again always ends, with a ring. -/
theorem reload_spec (hring : h.RingOf ring) (mode : ℤ) (arrival : Arrival) :
    ∃ h' ring', h.reload mode arrival = some h' ∧ Reloaded h h' ring' := by
  unfold reload
  split_ifs
  · obtain ⟨built, ring', hbuilt, hgrown, _⟩ := getFiles_spec arrival.files h
    exact ⟨built, ring', hbuilt, .of_grown hgrown⟩
  · obtain ⟨built, ring', completed, writes, hbuilt, hgrown, _⟩ :=
      h.getKeyPlug_spec arrival.bit arrival.plug
    refine ⟨built, ring', ?_, .of_grown hgrown⟩
    rw [hbuilt, Option.map_some]
  · induction arrival.uploads generalizing h ring with
    | nil => exact ⟨h, ring, rfl, .refl hring⟩
    | cons text rest ih =>
      obtain ⟨h', ring', hupload, hloaded⟩ := upload_spec hring text
      obtain ⟨h'', ring'', hrest, hloaded'⟩ := ih hloaded.ringOf
      refine ⟨h'', ring'', ?_, hloaded.trans hloaded'⟩
      rw [List.foldlM_cons, hupload]
      exact hrest
  · exact ⟨h, ring, rfl, .refl hring⟩

/-! ## When the search ends -/

/-- The ring has a key that counts as one of the number. -/
def Holds (num : Bytes8) (h : Heap) : Prop :=
  ∃ ring, h.RingOf ring ∧ ∃ key ∈ ring, Same num (h.obj key) = true

theorem searchKeys_isSome_iff (hring : h.RingOf ring) (num : Bytes8) :
    (∃ key, h.searchKeys num = some (some key)) ↔ h.Holds num := by
  rw [searchKeys_eq hring]
  simp only [Option.some.injEq, ← Option.isSome_iff_exists, List.find?_isSome]
  constructor
  · exact fun hfound ↦ ⟨ring, hring, hfound⟩
  · rintro ⟨ring', hring', hfound⟩
    rwa [← hring.unique hring']

section Await

variable {mode : ℤ} {num : Bytes8} {arrivals : ℕ → Arrival}

theorem holds_of_awaitKey {fuel n : ℕ} {start : Heap}
    (hreloads : reloads mode arrivals n start = some h) (hring : h.RingOf ring)
    (hawait : awaitKey mode num arrivals fuel n h = some h') :
    ∃ m loaded, reloads mode arrivals m start = some loaded ∧ loaded.Holds num := by
  induction fuel generalizing n h ring with
  | zero => cases hawait
  | succ fuel ih =>
    have hsearch := searchKeys_eq hring num
    rw [awaitKey, hsearch, Option.bind_some] at hawait
    cases hfound : ring.find? fun key ↦ Same num (h.obj key) with
    | some key =>
      exact ⟨n, h, hreloads, (searchKeys_isSome_iff hring num).mp ⟨key, by rw [hsearch, hfound]⟩⟩
    | none =>
      rw [hfound] at hawait
      obtain ⟨next, ring', hreload, hloaded⟩ := reload_spec hring mode (arrivals n)
      dsimp only at hawait
      rw [hreload, Option.bind_some] at hawait
      refine ih (n := n + 1) ?_ hloaded.ringOf hawait
      rw [reloads, hreloads, Option.bind_some, hreload]

/-- A search that has come to the round of a ring with the number ends there, if not before. -/
theorem awaitKey_of_holds (hring : h.RingOf ring) (m n : ℕ) {start loaded : Heap}
    (hreloads : reloads mode arrivals n start = some h)
    (hloaded : reloads mode arrivals (n + m) start = some loaded) (hholds : loaded.Holds num) :
    ∃ fuel h', awaitKey mode num arrivals fuel n h = some h' := by
  induction m generalizing n h ring with
  | zero =>
    cases hreloads.symm.trans hloaded
    obtain ⟨key, hkey⟩ := (searchKeys_isSome_iff hring num).mpr hholds
    refine ⟨1, { loaded with curkey := some key }, ?_⟩
    rw [awaitKey, hkey]
    rfl
  | succ m ih =>
    obtain ⟨next, ring', hreload, hnext⟩ := reload_spec hring mode (arrivals n)
    have hreloadsNext : reloads mode arrivals (n + 1) start = some next := by
      rw [reloads, hreloads, Option.bind_some, hreload]
    have hindex : n + (m + 1) = n + 1 + m := by omega
    obtain ⟨fuel, found, hrest⟩ := ih hnext.ringOf (n + 1) hreloadsNext (hindex ▸ hloaded)
    cases hsearch : h.searchKeys num with
    | none =>
      rw [searchKeys_eq hring] at hsearch
      cases hsearch
    | some result =>
      cases result with
      | some key => exact ⟨1, { h with curkey := some key }, by rw [awaitKey, hsearch]; rfl⟩
      | none =>
        refine ⟨fuel + 1, found, ?_⟩
        rw [awaitKey, hsearch, Option.bind_some]
        dsimp only
        rw [hreload, Option.bind_some, hrest]

end Await

/-- For every number, mode and ring, whatever is there to be read later, the search ends if and
only if the number counts as the one of `curkey`, of a key of the ring, or of a key of a ring that
is loaded later. -/
theorem searchEnds_iff (hring : h.RingOf ring) (mode : ℤ) (num : Bytes8)
    (arrivals : ℕ → Arrival) :
    (∃ fuel h', h.decryptKey mode num arrivals fuel = some h') ↔
      (∃ key ∈ h.curkey, Same num (h.obj key) = true) ∨
        ∃ n loaded, reloads mode arrivals n h = some loaded ∧ loaded.Holds num := by
  have hcurkey : (∃ key ∈ h.curkey, Same num (h.obj key) = true) ↔
      h.curkey.any (fun key ↦ Same num (h.obj key)) = true := by
    cases h.curkey <;> simp
  rw [hcurkey]
  unfold decryptKey
  split_ifs with hcur
  · exact iff_of_true ⟨0, h, rfl⟩ (.inl hcur)
  · constructor
    · rintro ⟨fuel, h', hawait⟩
      exact .inr (holds_of_awaitKey rfl hring hawait)
    · rintro (hsame | ⟨n, loaded, hloaded, hholds⟩)
      · exact absurd hsame hcur
      · exact awaitKey_of_holds hring n 0 rfl ((Nat.zero_add n).symm ▸ hloaded) hholds

/-! ## Which key is found -/

/-- The first element with `p` is one with `right` if and only if none with `p` stands before those
with `right`. -/
theorem find?_right_iff {α : Type*} {p right : α → Bool} {l : List α}
    (hright : ∀ a ∈ l, right a = true → p a = true) (hmem : ∃ a ∈ l, right a = true) :
    (∃ a ∈ l.find? p, right a = true) ↔ ∀ a ∈ l.takeWhile (!right ·), p a = false := by
  induction l with
  | nil => simp at hmem
  | cons b rest ih =>
    cases hb : right b with
    | true =>
      have hp := hright b List.mem_cons_self hb
      simp [hb, hp]
    | false =>
      cases hp : p b with
      | true => simp [hb, hp]
      | false =>
        have hmemRest : ∃ a ∈ rest, right a = true := by simpa [hb] using hmem
        have hrightRest := fun a ha ↦ hright a (List.mem_cons_of_mem b ha)
        simpa [hb, hp] using ih hrightRest hmemRest

theorem same_of_num_eq {num : Bytes8} {key : KeyObject} (hnum : key.num = num) :
    Same num key = true := by
  rw [Same, strncmpEq_iff (by simp), hnum]
  exact .inl rfl

/-- The key is found in the first round: the first one that counts as one of the number, `curkey`
before the ring. -/
theorem decryptKey_eq (hring : h.RingOf ring) (mode : ℤ) {num : Bytes8} (arrivals : ℕ → Arrival)
    (hnum : ∃ key ∈ ring, (h.obj key).num = num) :
    (∃ h', h.decryptKey mode num arrivals 1 = some h') ∧
      ∀ fuel h', h.decryptKey mode num arrivals fuel = some h' → h'.obj = h.obj ∧
        h'.curkey = (h.curkey.toList ++ ring).find? fun key ↦ Same num (h.obj key) := by
  have hsearch := searchKeys_eq hring num
  obtain ⟨key, hkey⟩ : ∃ key, ring.find? (fun key ↦ Same num (h.obj key)) = some key := by
    obtain ⟨key, hmem, hkeyNum⟩ := hnum
    rw [← Option.isSome_iff_exists, List.find?_isSome]
    exact ⟨key, hmem, same_of_num_eq hkeyNum⟩
  have hawait (fuel : ℕ) : awaitKey mode num arrivals (fuel + 1) 0 h =
      some { h with curkey := some key } := by
    rw [awaitKey, hsearch, hkey]
    rfl
  have hround : (∃ h', awaitKey mode num arrivals 1 0 h = some h') ∧
      ∀ fuel h', awaitKey mode num arrivals fuel 0 h = some h' → h'.obj = h.obj ∧
        h'.curkey = ring.find? fun key ↦ Same num (h.obj key) := by
    refine ⟨⟨_, hawait 0⟩, fun fuel h' hh' ↦ ?_⟩
    cases fuel with
    | zero => cases hh'
    | succ fuel =>
      cases (hawait fuel).symm.trans hh'
      exact ⟨rfl, hkey.symm⟩
  unfold decryptKey
  cases hcur : h.curkey with
  | none =>
    simp only [Option.any_none, Bool.false_eq_true, if_false, Option.toList_none, List.nil_append]
    exact hround
  | some cur =>
    rw [Option.any_some, Option.toList_some, List.singleton_append, List.find?_cons]
    cases hsame : Same num (h.obj cur) with
    | true =>
      simp only [if_true]
      refine ⟨⟨h, rfl⟩, fun fuel h' hh' ↦ ?_⟩
      cases hh'
      exact ⟨rfl, hcur⟩
    | false =>
      simp only [Bool.false_eq_true, if_false]
      exact hround

/-- `decrypt` uses a key with the number of the header. -/
def UsesRight (mode : ℤ) (num : Bytes8) (arrivals : ℕ → Arrival) (h : Heap) : Prop :=
  ∃ fuel h', h.decryptKey mode num arrivals fuel = some h' ∧
    ∃ key ∈ h'.curkey, (h'.obj key).num = num

/-- The key that is found, as a search in a list. -/
theorem usesRight_iff_find? (hring : h.RingOf ring) (mode : ℤ) {num : Bytes8}
    (arrivals : ℕ → Arrival) (hnum : ∃ key ∈ ring, (h.obj key).num = num) :
    UsesRight mode num arrivals h ↔
      ∃ key ∈ (h.curkey.toList ++ ring).find? (fun key ↦ Same num (h.obj key)),
        decide ((h.obj key).num = num) = true := by
  obtain ⟨⟨found, hfound⟩, hall⟩ := decryptKey_eq hring mode arrivals hnum
  simp only [decide_eq_true_eq]
  constructor
  · rintro ⟨fuel, h', hh', hright⟩
    obtain ⟨hobj, hcurkey⟩ := hall fuel h' hh'
    rwa [← hcurkey, ← hobj]
  · intro hright
    obtain ⟨hobj, hcurkey⟩ := hall 1 found hfound
    refine ⟨1, found, hfound, ?_⟩
    rwa [hcurkey, hobj]

/-- For every ring with a key of the number, whatever `curkey` is, `decrypt` uses a key of exactly
this number if and only if no key that is compared before has a number that agrees with it as far
as a NUL. -/
theorem usesRight_iff (hring : h.RingOf ring) (mode : ℤ) {num : Bytes8} (arrivals : ℕ → Arrival)
    (hnum : ∃ key ∈ ring, (h.obj key).num = num) :
    UsesRight mode num arrivals h ↔
      ∀ key ∈ (h.curkey.toList ++ ring).takeWhile (fun key ↦ (h.obj key).num ≠ num),
        ¬ AgreeToNul (List.ofFn num) (List.ofFn (h.obj key).num) := by
  have hmem : ∃ key ∈ h.curkey.toList ++ ring, decide ((h.obj key).num = num) = true := by
    obtain ⟨key, hkey, hkeyNum⟩ := hnum
    exact ⟨key, List.mem_append_right _ hkey, decide_eq_true hkeyNum⟩
  rw [usesRight_iff_find? hring mode arrivals hnum,
    find?_right_iff (fun key _ hkey ↦ same_of_num_eq (of_decide_eq_true hkey)) hmem]
  have hbefore : (fun key ↦ !decide ((h.obj key).num = num)) =
      fun key ↦ decide ((h.obj key).num ≠ num) := by
    funext key
    rw [decide_not]
  rw [hbefore]
  apply forall₂_congr
  intro key hkey
  have hne : List.ofFn num ≠ List.ofFn (h.obj key).num := by
    intro heq
    have hother := List.mem_takeWhile_imp hkey
    exact of_decide_eq_true hother (List.ofFn_injective heq).symm
  rw [Bool.eq_false_iff, Ne, Same, strncmpEq_iff (by simp)]
  exact not_congr (or_iff_right hne)

/-! ### Two keys -/

/-- The numbers 00…0 and 0100…0 count as one. -/
def sampleFiles : List (List UInt8) := [[0, 0, 0, 0, 0, 0, 0, 0, 7], [0, 1, 0, 0, 0, 0, 0, 0, 8]]

/-- A process that has read the two keys. -/
theorem exists_sampleRing :
    ∃ (h : Heap) (first second : ℕ), h.RingOf [first, second] ∧ h.curkey = none ∧
      List.ofFn (h.obj first).num = [0, 0, 0, 0, 0, 0, 0, 0] ∧
      List.ofFn (h.obj second).num = [0, 1, 0, 0, 0, 0, 0, 0] := by
  obtain ⟨h, ring, _, hgrown, hcontents⟩ := getFiles_spec sampleFiles sampleHeap
  have hnums : ring.map (fun key ↦ List.ofFn (h.obj key).num) =
      [[0, 0, 0, 0, 0, 0, 0, 0], [0, 1, 0, 0, 0, 0, 0, 0]] := by
    have hmap := congrArg (List.map fun key : Key ↦ List.ofFn key.num) hcontents
    rw [contents, List.map_map] at hmap
    exact hmap.trans (by decide)
  obtain ⟨first, rest, rfl, hfirst, hrest⟩ := List.map_eq_cons_iff.mp hnums
  obtain ⟨second, rest, rfl, hsecond, hnil⟩ := List.map_eq_cons_iff.mp hrest
  rw [List.map_eq_nil_iff.mp hnil] at hgrown
  exact ⟨h, first, second, hgrown.ringOf, hgrown.curkey, hfirst, hsecond⟩

/-- The arrivals of a process that gets no more keys. -/
def noArrivals (_ : ℕ) : Arrival := ⟨[], [], 0, none⟩

theorem reloads_noArrivals (n : ℕ) (h : Heap) : reloads 0 noArrivals n h = some h := by
  induction n with
  | zero => rfl
  | succ n ih =>
    rw [reloads, ih]
    rfl

/-- The number of the first key is looked for. -/
theorem searchEnds_iff_first : ∃ (h : Heap) (first second : ℕ), h.RingOf [first, second] ∧
    ∃ fuel h', h.decryptKey 0 (h.obj first).num noArrivals fuel = some h' := by
  obtain ⟨h, first, second, hring, _⟩ := exists_sampleRing
  refine ⟨h, first, second, hring, (searchEnds_iff hring 0 _ noArrivals).mpr (.inr ⟨0, h, rfl, ?_⟩)⟩
  exact ⟨_, hring, first, List.mem_cons_self, same_of_num_eq rfl⟩

/-- Without keys, and with none to come, the search does not end. -/
theorem not_searchEnds_noKeys :
    ¬ ∀ (h : Heap) (ring : List ℕ) (mode : ℤ) (num : Bytes8) (arrivals : ℕ → Arrival),
      h.RingOf ring → ∃ fuel h', h.decryptKey mode num arrivals fuel = some h' := by
  intro hall
  have hring : sampleHeap.RingOf [] := RingOf.dropKeys sampleHeap
  obtain ⟨fuel, h', hfound⟩ := hall sampleHeap [] 0 (fun _ ↦ 7) noArrivals hring
  obtain ⟨n, loaded, hloaded, ring, hloadedRing, key, hkey, _⟩ :=
    holds_of_awaitKey rfl hring hfound
  rw [reloads_noArrivals] at hloaded
  cases hloaded
  rw [hring.unique hloadedRing] at hkey
  cases hkey

/-- The number of the first key is looked for. -/
theorem usesRight_iff_first : ∃ (h : Heap) (first second : ℕ), h.RingOf [first, second] ∧
    UsesRight 0 (h.obj first).num noArrivals h := by
  obtain ⟨h, first, second, hring, hcurkey, _⟩ := exists_sampleRing
  refine ⟨h, first, second, hring,
    (usesRight_iff hring 0 noArrivals ⟨first, List.mem_cons_self, rfl⟩).mpr ?_⟩
  rw [hcurkey]
  simp

/-- The number of the second key is looked for, and the first one is found. -/
theorem not_usesRight_second :
    ¬ ∀ (h : Heap) (ring : List ℕ) (mode : ℤ) (num : Bytes8) (arrivals : ℕ → Arrival),
      h.RingOf ring → (ring.map fun key ↦ (h.obj key).num).Nodup →
        (∃ key ∈ ring, (h.obj key).num = num) → UsesRight mode num arrivals h := by
  intro hall
  obtain ⟨h, first, second, hring, hcurkey, hfirst, hsecond⟩ := exists_sampleRing
  have hne : (h.obj first).num ≠ (h.obj second).num := by
    intro heq
    rw [heq, hsecond] at hfirst
    exact absurd hfirst (by decide)
  have hmem : ∃ key ∈ [first, second], (h.obj key).num = (h.obj second).num :=
    ⟨second, by simp, rfl⟩
  have hright := hall h _ 0 _ noArrivals hring (by simpa using hne) hmem
  rw [usesRight_iff_find? hring 0 noArrivals hmem, hcurkey] at hright
  have hsame : Same (h.obj second).num (h.obj first) = true := by
    rw [Same, hfirst, hsecond]
    decide
  simp [hsame, hne] at hright

end Heap

end QNet.Qcrypt
