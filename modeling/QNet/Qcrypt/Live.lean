import QNet.Qcrypt.Search

/-!
# The current key of a qcrypt process

`keys` and `curkey` are two global pointers. When the keys are read again, the ring is replaced,
and its first key freed, without a look at `curkey`. In the modes with files `curkey` is set to the
new ring at once, but it is null when no key was found. An upload leaves `curkey` where it was, so
the next call of `crypt` or `decrypt` goes through a pointer into the old ring: `curkeyLive_iff`.

A call is followed from one use of `curkey` to the next. What happens after a use
of a wrong pointer is not defined by the language; here the old contents are read.
-/

namespace QNet.Qcrypt

open ByteStream

namespace Heap

/-- `curkey` is a key of the ring, of which no key has been freed. -/
def Live (h : Heap) : Prop := ∃ ring, h.RingOf ring ∧ ∃ key ∈ h.curkey, key ∈ ring

/-! ## crypt -/

/-- A key that does not hold the next block is left. -/
def seek (h : Heap) (key readsize : ℕ) : Heap × ℕ :=
  if (h.obj key).curpos + readsize ≥ (h.obj key).size then
    let left := h.write key { h.obj key with curpos := 0 }
    let next := left.next key
    ({ left.write next { left.obj next with curpos := 0 } with curkey := some next }, next)
  else (h, key)

/-- A block is written and `curpos` moved behind it. -/
def cryptBlock (h : Heap) (key : ℕ) (data : List UInt8) : Heap × List (List UInt8) :=
  let cur := h.obj key
  (h.write key { cur with curpos := cur.curpos + data.length },
    [List.ofFn cur.num, leBytes 4 cur.curpos, leBytes 4 data.length,
      xorPad (fun i ↦ cur.key (cur.curpos + i)) data])

/-! ## decrypt -/

/-- The heaps in which `curkey` is used by the walks along the ring. -/
def awaitUses (mode : ℤ) (num : Bytes8) (arrivals : ℕ → Arrival) : ℕ → ℕ → Heap → List Heap
  | 0, _, _ => []
  | fuel + 1, n, h =>
      let walk := match h.keys with
        | none => []
        | some head => visited h.next head (fun key ↦ Same num (h.obj key)) h.allocated head
      walk.map (fun key ↦ { h with curkey := some key }) ++
        match h.searchKeys num, h.reload mode (arrivals n) with
        | some none, some loaded => awaitUses mode num arrivals fuel (n + 1) loaded
        | _, _ => []

/-- The position from the header is stored, and the data are decrypted. -/
def decryptBlock (h : Heap) (key curpos : ℕ) (data : List UInt8) : Heap × List UInt8 :=
  (h.write key { h.obj key with curpos := curpos },
    xorPad (fun i ↦ (h.obj key).key (i + curpos)) data)

end Heap

/-- The process. `replaced` says that the ring was replaced by an upload since `curkey` was set. -/
structure Process where
  heap : Heap
  reread : Bool
  replaced : Bool

inductive Process.Event
  /-- The body of a POST request. -/
  | upload (text : Mem × ℕ)
  | reread
  | crypt (data : List UInt8) (arrival : Arrival)
  /-- With the fields of a block, and so many rounds of the search. -/
  | decrypt (num : Bytes8) (curpos : ℕ) (data : List UInt8) (arrivals : ℕ → Arrival) (fuel : ℕ)

/-- What a call has done: the heaps in which it used `curkey`, what it wrote, and the process
afterwards, if it returned. -/
structure Result where
  uses : List Heap
  writes : List (List UInt8)
  next : Option Process

namespace Process

variable (mode : ℤ)

/-- The start of a round of `crypt`: keys may be read again, and `curkey` becomes the first one. The
round is only made with the second component. -/
def prepare (arrival : Arrival) (s : Process) : Option (Process × Bool) :=
  if s.reread || s.heap.curkey.isNone then
    if mode = 1 ∨ mode = 2 then
      (s.heap.reload mode arrival).map fun h ↦ (⟨{ h with curkey := h.keys }, false, false⟩, true)
    else if s.heap.keys.isNone then some ({ s with reread := false }, false)
    else some (⟨{ s.heap with curkey := s.heap.keys }, false, false⟩, true)
  else some (s, true)

/-- The rounds of `crypt`. -/
def cryptLoop (arrival : Arrival) : Process → List (List UInt8) → Result
  | s, [] => ⟨[], [], some s⟩
  | s, piece :: rest =>
      match s.prepare mode arrival with
      | none => ⟨[], [], none⟩
      | some (s, false) => ⟨[], [], some s⟩
      | some (s, true) =>
          match s.heap.curkey with
          | none => ⟨[s.heap], [], none⟩
          | some key =>
              let (sought, key) := s.heap.seek key piece.length
              let (heap, writes) := sought.cryptBlock key piece
              let result := cryptLoop arrival { s with heap := heap } rest
              ⟨s.heap :: sought :: result.uses, writes ++ result.writes, result.next⟩

/-- `decrypt` with a complete header. -/
def decrypt (num : Bytes8) (curpos : ℕ) (data : List UInt8) (arrivals : ℕ → Arrival) (fuel : ℕ)
    (s : Process) : Result :=
  let compared := if s.heap.curkey.isSome then [s.heap] else []
  let same := s.heap.curkey.any fun key ↦ Same num (s.heap.obj key)
  let walks := if same then [] else s.heap.awaitUses mode num arrivals fuel 0
  match s.heap.decryptKey mode num arrivals fuel with
  | none => ⟨compared ++ walks, [], none⟩
  | some found =>
      match found.curkey with
      | none => ⟨compared ++ walks, [], none⟩
      | some key =>
          let (heap, out) := found.decryptBlock key curpos data
          ⟨compared ++ walks ++ [found], [out], some ⟨heap, s.reread, same && s.replaced⟩⟩

/-- An event; uploads are only taken in mode 0, and requests to read again in the other ones. -/
def react (s : Process) : Event → Result
  | .upload text =>
      let uploaded := if mode = 0 then s.heap.upload text else some s.heap
      ⟨[], [], uploaded.map fun h ↦
        ⟨h, s.reread, s.replaced || decide (mode = 0 ∧ 16 ≤ text.2 ∧ s.heap.curkey.isSome)⟩⟩
  | .reread => ⟨[], [], some { s with reread := s.reread || decide (mode > 0) }⟩
  | .crypt data arrival => cryptLoop mode arrival s (cut 32 data)
  | .decrypt num curpos data arrivals fuel => s.decrypt mode num curpos data arrivals fuel

/-- A process that has read its keys. -/
def start (h : Heap) : Process := ⟨{ h with curkey := none }, false, false⟩

/-- All runs of the process. -/
def machine (h : Heap) : Machine Process Event := .ofNext (start h) fun s e ↦ (react mode s e).next

/-- `crypt` finds a key when it reads the keys again, and otherwise `curkey` has been set since the
ring was replaced. -/
def Ready (arrival : Arrival) (s : Process) : Prop :=
  if s.reread ∨ s.heap.curkey = none then
    (mode = 1 → ∃ file ∈ arrival.files, (Heap.fileKey file).isSome) ∧
      (mode = 2 → arrival.plug.isSome)
  else s.replaced = false

/-- What an event needs. -/
def Safe (s : Process) : Event → Prop
  | .crypt data arrival => data ≠ [] → s.Ready mode arrival
  | .decrypt .. => s.heap.curkey.isSome → s.replaced = false
  | _ => True

end Process

/-! ## Where curkey points -/

namespace Heap

variable {h h' : Heap} {ring : List ℕ} {key : ℕ}

theorem RingOf.next_mem (hring : h.RingOf ring) (hkey : key ∈ ring) : h.next key ∈ ring := by
  cases ring with
  | nil => cases hkey
  | cons head rest => exact (hring.circular head rest rfl).next_mem hkey

theorem RingOf.setCurkey (hring : h.RingOf ring) (cur : Option ℕ) :
    { h with curkey := cur }.RingOf ring := hring.congr rfl rfl le_rfl fun _ _ ↦ rfl

theorem seek_spec (hring : h.RingOf ring) (hcur : h.curkey = some key) (hkey : key ∈ ring)
    (readsize : ℕ) :
    (h.seek key readsize).1.RingOf ring ∧
      (h.seek key readsize).1.curkey = some (h.seek key readsize).2 ∧
      (h.seek key readsize).2 ∈ ring := by
  unfold seek
  split_ifs
  · exact ⟨((hring.write _ _).write _ _).setCurkey _, rfl, hring.next_mem hkey⟩
  · exact ⟨hring, hcur, hkey⟩

theorem cryptBlock_ringOf (hring : h.RingOf ring) (key : ℕ) (data : List UInt8) :
    (h.cryptBlock key data).1.RingOf ring := hring.write _ _

/-- Reading the keys again, with when a key is found. -/
theorem reload_keys (h : Heap) {mode : ℤ} (hmode : mode = 1 ∨ mode = 2) (arrival : Arrival) :
    ∃ h' ring', h.reload mode arrival = some h' ∧ h'.RingOf ring' ∧
      (ring' ≠ [] ↔ (mode = 1 → ∃ file ∈ arrival.files, (fileKey file).isSome) ∧
        (mode = 2 → arrival.plug.isSome)) := by
  rcases hmode with rfl | rfl
  · obtain ⟨built, ring', hbuilt, hgrown, hcontents⟩ := getFiles_spec arrival.files h
    refine ⟨built, ring', hbuilt, hgrown.ringOf, ?_⟩
    have hempty : ring' = [] ↔ arrival.files.filterMap fileKey = [] := by
      rw [← hcontents, contents, List.map_eq_nil_iff]
    rw [Ne, hempty, List.filterMap_eq_nil_iff]
    simp [Option.isSome_iff_ne_none]
  · obtain ⟨built, ring', completed, writes, hbuilt, hgrown, hplug⟩ :=
      h.getKeyPlug_spec arrival.bit arrival.plug
    refine ⟨built, ring', ?_, hgrown.ringOf, ?_⟩
    · simp [reload, hbuilt]
    · simpa using hplug

variable {mode : ℤ} {num : Bytes8} {arrivals : ℕ → Arrival}

/-- The walks along the ring do not leave it. -/
theorem awaitUses_live (hring : h.RingOf ring) (fuel n : ℕ) :
    ∀ use ∈ awaitUses mode num arrivals fuel n h, use.Live := by
  induction fuel generalizing h n ring with
  | zero => exact nofun
  | succ fuel ih =>
    intro use huse
    rw [awaitUses] at huse
    rcases List.mem_append.mp huse with hwalk | hrest
    · obtain ⟨key, hkey, rfl⟩ := List.mem_map.mp hwalk
      refine ⟨ring, hring.setCurkey _, key, rfl, ?_⟩
      have hkeys := hring.keys
      cases ring with
      | nil =>
        rw [hkeys] at hkey
        cases hkey
      | cons head rest =>
        rw [hkeys] at hkey
        exact (hring.circular head rest rfl).visited_subset _ List.mem_cons_self key hkey
    · obtain ⟨loaded, ring', hloaded, hring'⟩ := reload_spec hring mode (arrivals n)
      rw [hloaded] at hrest
      split at hrest
      · rename_i hreload
        cases hreload
        exact ih hring'.ringOf (n + 1) use hrest
      · cases hrest

theorem awaitKey_mem (hring : h.RingOf ring) {fuel n : ℕ}
    (hfound : awaitKey mode num arrivals fuel n h = some h') :
    ∃ ring', h'.RingOf ring' ∧ ∀ key ∈ h'.curkey, key ∈ ring' := by
  induction fuel generalizing h n ring with
  | zero => cases hfound
  | succ fuel ih =>
    rw [awaitKey, searchKeys_eq hring, Option.bind_some] at hfound
    split at hfound
    · rename_i key hkey
      cases hfound
      refine ⟨ring, hring.setCurkey _, fun other hother ↦ ?_⟩
      cases hother
      exact List.mem_of_find?_eq_some hkey
    · obtain ⟨loaded, ring', hloaded, hring'⟩ := reload_spec hring mode (arrivals n)
      rw [hloaded, Option.bind_some] at hfound
      exact ih hring'.ringOf hfound

end Heap

namespace Process

/-- `curkey` is a key of the ring, or an older one if the ring was replaced. -/
structure Points (s : Process) (ring : List ℕ) : Prop where
  ringOf : s.heap.RingOf ring
  current : ∀ key ∈ s.heap.curkey, s.replaced = false → key ∈ ring
  old : ∀ key ∈ s.heap.curkey, s.replaced = true → key ∉ ring ∧ key < s.heap.allocated

variable {mode : ℤ} {s : Process} {ring : List ℕ}

theorem Points.live_iff (hs : s.Points ring) :
    s.heap.Live ↔ s.heap.curkey.isSome ∧ s.replaced = false := by
  constructor
  · rintro ⟨ring', hring', key, hkey, hmem⟩
    refine ⟨Option.isSome_iff_exists.mpr ⟨key, hkey⟩, ?_⟩
    by_contra hreplaced
    rw [hs.ringOf.unique hring'] at hmem
    exact (hs.old key hkey (Bool.eq_true_of_not_eq_false hreplaced)).1 hmem
  · rintro ⟨hsome, hreplaced⟩
    obtain ⟨key, hkey⟩ := Option.isSome_iff_exists.mp hsome
    exact ⟨ring, hs.ringOf, key, hkey, hs.current key hkey hreplaced⟩

/-- `curkey` has just been set. -/
theorem Points.of_set {h : Heap} (hring : h.RingOf ring) (hcur : ∀ key ∈ h.curkey, key ∈ ring)
    (reread : Bool) : Points ⟨h, reread, false⟩ ring :=
  ⟨hring, fun key hkey _ ↦ hcur key hkey, nofun⟩

/-! ### Uploads -/

/-- The keys of an upload are new, so `curkey` is none of them. -/
theorem Points.upload (hs : s.Points ring) (text : Mem × ℕ) {t : Process}
    (ht : (react mode s (.upload text)).next = some t) : ∃ ring', t.Points ring' := by
  by_cases htaken : mode = 0 ∧ 16 ≤ text.2
  · obtain ⟨hmode, hsize⟩ := htaken
    obtain ⟨built, new, hbuilt, hgrown, _⟩ := s.heap.getKeysBuffer_spec text.1 hsize
    have hloaded := Heap.Reloaded.of_grown hgrown
    have hupload : s.heap.upload text = some built := by
      rw [Heap.upload, hbuilt, Option.map_some]
    simp only [react, if_pos hmode, hupload, Option.map_some, Option.some.injEq] at ht
    subst ht
    have hbefore (key : ℕ) (hkey : key ∈ s.heap.curkey) : key < s.heap.allocated := by
      cases hreplaced : s.replaced with
      | false => exact hs.ringOf.allocated key (hs.current key hkey hreplaced)
      | true => exact (hs.old key hkey hreplaced).2
    refine ⟨new, hloaded.ringOf, fun key hkey hreplaced ↦ ?_, fun key hkey _ ↦ ?_⟩
    · rw [hloaded.curkey] at hkey
      have hsome : s.heap.curkey.isSome := Option.isSome_iff_exists.mpr ⟨key, hkey⟩
      simp [hmode, hsize, hsome] at hreplaced
    · rw [hloaded.curkey] at hkey
      have hlt := hbefore key hkey
      refine ⟨fun hmem ↦ ?_, hlt.trans_le hloaded.allocated⟩
      have hfresh := hgrown.fresh key hmem
      rw [s.heap.dropKeys_kept.1] at hfresh
      omega
  · have hsame : (react mode s (.upload text)).next = some s := by
      have hreplaced : ¬ (mode = 0 ∧ 16 ≤ text.2 ∧ s.heap.curkey.isSome) :=
        fun h ↦ htaken ⟨h.1, h.2.1⟩
      simp only [react, hreplaced, decide_false, Bool.or_false]
      split_ifs with hmode
      · have hshort : text.2 < 16 := by
          by_contra hlong
          exact htaken ⟨hmode, by omega⟩
        rw [Heap.upload, Heap.getKeysBuffer, if_pos hshort]
        rfl
      · rfl
    cases hsame.symm.trans ht
    exact ⟨ring, hs⟩

/-! ### crypt -/

/-- Before a round, a use of `curkey` is right if and only if a key was to be found, or `curkey`
has been set. -/
theorem Points.prepare (hs : s.Points ring) (mode : ℤ) (arrival : Arrival) :
    ∃ s' ring' again, s.prepare mode arrival = some (s', again) ∧ s'.Points ring' ∧
      s'.reread = false ∧ ((again = true → s'.heap.Live) ↔ s.Ready mode arrival) := by
  unfold Process.prepare Ready
  simp only [Bool.or_eq_true, Option.isNone_iff_eq_none]
  split_ifs with hreread hmode hkeys
  · obtain ⟨h, ring', hreload, hring', hfound⟩ := s.heap.reload_keys hmode arrival
    have hring := hring'.setCurkey h.keys
    have hcur : ∀ key ∈ ({ h with curkey := h.keys } : Heap).curkey, key ∈ ring' := by
      intro key hkey
      change key ∈ h.keys at hkey
      rw [hring'.keys] at hkey
      exact List.mem_of_head? hkey
    have hpoints := Points.of_set hring hcur false
    refine ⟨_, ring', true, by rw [hreload]; rfl, hpoints, rfl, ?_⟩
    rw [hpoints.live_iff, ← hfound]
    change (true = true → h.keys.isSome = true ∧ false = false) ↔ _
    rw [hring'.keys]
    simp
  · refine ⟨_, ring, false, rfl, ⟨hs.ringOf, hs.current, hs.old⟩, rfl, ?_⟩
    rw [not_or] at hmode
    exact iff_of_true nofun ⟨fun h ↦ absurd h hmode.1, fun h ↦ absurd h hmode.2⟩
  · obtain ⟨head, hhead⟩ := Option.ne_none_iff_exists'.mp hkeys
    have hmem : head ∈ ring := List.mem_of_head? (hs.ringOf.keys ▸ hhead)
    have hpoints : Points ⟨{ s.heap with curkey := s.heap.keys }, false, false⟩ ring := by
      refine .of_set (hs.ringOf.setCurkey _) (fun key hkey ↦ ?_) false
      cases hhead.symm.trans hkey
      exact hmem
    refine ⟨_, ring, true, rfl, hpoints, rfl, iff_of_true (fun _ ↦ ?_) ?_⟩
    · exact ⟨ring, hpoints.ringOf, head, hhead, hmem⟩
    · rw [not_or] at hmode
      exact ⟨fun h ↦ absurd h hmode.1, fun h ↦ absurd h hmode.2⟩
  · rw [not_or, Bool.not_eq_true] at hreread
    refine ⟨s, ring, true, rfl, hs, hreread.1, ?_⟩
    rw [hs.live_iff, Option.isSome_iff_ne_none]
    simp [hreread.2]

variable {arrival : Arrival} {h : Heap} {key : ℕ}

/-- A round with `curkey` set. -/
theorem cryptLoop_cons (mode : ℤ) (arrival : Arrival) (hcur : h.curkey = some key)
    (replaced : Bool) (piece : List UInt8) (pieces : List (List UInt8)) :
    let sought := h.seek key piece.length
    let rest := cryptLoop mode arrival
      ⟨(sought.1.cryptBlock sought.2 piece).1, false, replaced⟩ pieces
    (cryptLoop mode arrival ⟨h, false, replaced⟩ (piece :: pieces)).uses =
        h :: sought.1 :: rest.uses ∧
      (cryptLoop mode arrival ⟨h, false, replaced⟩ (piece :: pieces)).next = rest.next := by
  have hprepare : Process.prepare mode arrival ⟨h, false, replaced⟩ =
      some (⟨h, false, replaced⟩, true) := by
    simp [Process.prepare, hcur]
  simp only [cryptLoop, hprepare, hcur, and_self]

/-- Once `curkey` is a key of the ring it stays one. -/
theorem cryptLoop_set (hring : h.RingOf ring) (hcur : h.curkey = some key) (hkey : key ∈ ring)
    (pieces : List (List UInt8)) :
    (∀ use ∈ (cryptLoop mode arrival ⟨h, false, false⟩ pieces).uses, use.Live) ∧
      ∀ t, (cryptLoop mode arrival ⟨h, false, false⟩ pieces).next = some t → t.Points ring := by
  induction pieces generalizing h key with
  | nil =>
    refine ⟨nofun, fun t ht ↦ ?_⟩
    cases ht
    refine .of_set hring (fun other hother ↦ ?_) false
    cases hcur.symm.trans hother
    exact hkey
  | cons piece pieces ih =>
    obtain ⟨huses, hnext⟩ := cryptLoop_cons mode arrival hcur false piece pieces
    obtain ⟨hsought, hsoughtCur, hmem⟩ := Heap.seek_spec hring hcur hkey piece.length
    have hwritten := Heap.cryptBlock_ringOf hsought (h.seek key piece.length).2 piece
    have hrest := ih hwritten hsoughtCur hmem
    rw [huses, hnext, List.forall_mem_cons, List.forall_mem_cons]
    exact ⟨⟨⟨ring, hring, key, hcur, hkey⟩, ⟨ring, hsought, _, hsoughtCur, hmem⟩, hrest.1⟩,
      hrest.2⟩

theorem cryptLoop_spec (hs : s.Points ring) (arrival : Arrival) {pieces : List (List UInt8)}
    (hpieces : pieces ≠ []) :
    ((∀ use ∈ (cryptLoop mode arrival s pieces).uses, use.Live) ↔ s.Ready mode arrival) ∧
      (s.Ready mode arrival → ∀ t, (cryptLoop mode arrival s pieces).next = some t →
        ∃ ring', t.Points ring') := by
  obtain ⟨piece, rest, rfl⟩ := List.exists_cons_of_ne_nil hpieces
  obtain ⟨⟨h, reread, replaced⟩, ring', again, hprepare, hpoints, rfl, hready⟩ :=
    hs.prepare mode arrival
  rw [← hready]
  cases again with
  | false =>
    simp only [cryptLoop, hprepare]
    exact ⟨by simp, fun _ t ht ↦ ⟨ring', by cases ht; exact hpoints⟩⟩
  | true =>
    simp only [forall_const]
    cases hcur : h.curkey with
    | none =>
      simp only [cryptLoop, hprepare, hcur, List.mem_singleton, forall_eq, true_and]
      exact fun _ t ht ↦ nomatch ht
    | some key =>
      -- the round is the one that starts after the keys were read
      have hsame : cryptLoop mode arrival s (piece :: rest) =
          cryptLoop mode arrival ⟨h, false, replaced⟩ (piece :: rest) := by
        have hagain : Process.prepare mode arrival ⟨h, false, replaced⟩ =
            some (⟨h, false, replaced⟩, true) := by
          simp [Process.prepare, hcur]
        simp only [cryptLoop, hprepare, hagain]
      rw [hsame]
      obtain ⟨huses, hnext⟩ := cryptLoop_cons mode arrival hcur replaced piece rest
      have hset (hlive : h.Live) : replaced = false ∧ key ∈ ring' := by
        obtain ⟨_, hreplaced⟩ := hpoints.live_iff.mp hlive
        exact ⟨hreplaced, hpoints.current key hcur hreplaced⟩
      constructor
      · constructor
        · intro hall
          exact hall h (huses ▸ List.mem_cons_self)
        · intro hlive
          obtain ⟨rfl, hkey⟩ := hset hlive
          exact (cryptLoop_set hpoints.ringOf hcur hkey (piece :: rest)).1
      · intro hlive t ht
        obtain ⟨rfl, hkey⟩ := hset hlive
        exact ⟨ring', (cryptLoop_set hpoints.ringOf hcur hkey (piece :: rest)).2 t ht⟩

/-! ### decrypt -/

/-- The key that `decrypt` uses is one of the ring, unless it was `curkey` before. -/
theorem decryptKey_points (hs : s.Points ring) {num : Bytes8} {arrivals : ℕ → Arrival}
    {fuel : ℕ} {found : Heap}
    (hfound : s.heap.decryptKey mode num arrivals fuel = some found) :
    ∃ ring', Points ⟨found, s.reread,
      (s.heap.curkey.any fun key ↦ Same num (s.heap.obj key)) && s.replaced⟩ ring' := by
  unfold Heap.decryptKey at hfound
  split_ifs at hfound with hsame
  · cases hfound
    rw [hsame, Bool.true_and]
    exact ⟨ring, hs⟩
  · obtain ⟨ring', hring', hmem⟩ := Heap.awaitKey_mem hs.ringOf hfound
    rw [Bool.eq_false_of_not_eq_true hsame, Bool.false_and]
    exact ⟨ring', .of_set hring' hmem s.reread⟩

theorem decrypt_spec (hs : s.Points ring) (mode : ℤ) (num : Bytes8) (curpos : ℕ)
    (data : List UInt8) (arrivals : ℕ → Arrival) (fuel : ℕ) :
    ((∀ use ∈ (s.decrypt mode num curpos data arrivals fuel).uses, use.Live) ↔
        (s.heap.curkey.isSome → s.replaced = false)) ∧
      ∀ t, (s.decrypt mode num curpos data arrivals fuel).next = some t →
        ∃ ring', t.Points ring' := by
  have hcompared : (∀ use ∈ (if s.heap.curkey.isSome then [s.heap] else []), use.Live) ↔
      (s.heap.curkey.isSome → s.replaced = false) := by
    split_ifs with hsome
    · rw [List.forall_mem_singleton, hs.live_iff]
      simp [hsome]
    · exact iff_of_true nofun fun h ↦ absurd h hsome
  have hwalks : ∀ use ∈ (if (s.heap.curkey.any fun key ↦ Same num (s.heap.obj key)) then []
      else s.heap.awaitUses mode num arrivals fuel 0), use.Live := by
    split_ifs
    · exact nofun
    · exact Heap.awaitUses_live hs.ringOf fuel 0
  unfold decrypt
  cases hfound : s.heap.decryptKey mode num arrivals fuel with
  | none =>
    refine ⟨?_, nofun⟩
    rw [List.forall_mem_append, hcompared, and_iff_left hwalks]
  | some found =>
    obtain ⟨ring', hpoints⟩ := decryptKey_points hs hfound
    cases hcur : found.curkey with
    | none =>
      simp only [hcur]
      refine ⟨?_, nofun⟩
      rw [List.forall_mem_append, hcompared, and_iff_left hwalks]
    | some key =>
      simp only [hcur]
      constructor
      · rw [List.forall_mem_append, List.forall_mem_append, hcompared, and_iff_left hwalks,
          List.forall_mem_singleton]
        refine and_iff_left_of_imp fun hset ↦ hpoints.live_iff.mpr ⟨?_, ?_⟩
        · exact Option.isSome_iff_exists.mpr ⟨key, hcur⟩
        · rw [Bool.and_eq_false_iff, or_iff_not_imp_left, Bool.not_eq_false]
          intro hsame
          obtain ⟨current, hcurrent, _⟩ := (Option.any_eq_true _ _).mp hsame
          exact hset (Option.isSome_iff_exists.mpr ⟨current, hcurrent⟩)
      · intro t ht
        cases ht
        exact ⟨ring', hpoints.ringOf.write _ _, hpoints.current, hpoints.old⟩

/-! ## All runs -/

/-- One event: its uses are right if and only if it is safe, and a safe one keeps `Points`. -/
theorem react_spec (hs : s.Points ring) (e : Event) :
    ((∀ use ∈ (react mode s e).uses, use.Live) ↔ s.Safe mode e) ∧
      (s.Safe mode e → ∀ t, (react mode s e).next = some t → ∃ ring', t.Points ring') := by
  cases e with
  | upload text => exact ⟨iff_of_true nofun trivial, fun _ t ht ↦ hs.upload text ht⟩
  | reread =>
    refine ⟨iff_of_true nofun trivial, fun _ t ht ↦ ⟨ring, ?_⟩⟩
    cases ht
    exact ⟨hs.ringOf, hs.current, hs.old⟩
  | crypt data arrival =>
    simp only [react, Safe]
    cases data with
    | nil =>
      refine ⟨iff_of_true nofun fun h ↦ absurd rfl h, fun _ t ht ↦ ⟨ring, ?_⟩⟩
      cases ht
      exact hs
    | cons byte data =>
      have hpieces : ByteStream.cut 32 (byte :: data) ≠ [] := by
        intro hnil
        have hflatten := ByteStream.flatten_cut (n := 32) (by decide) (byte :: data)
        rw [hnil] at hflatten
        cases hflatten
      simpa using cryptLoop_spec hs arrival hpieces
  | decrypt num curpos data arrivals fuel =>
    obtain ⟨hiff, hkeep⟩ := decrypt_spec hs mode num curpos data arrivals fuel
    exact ⟨hiff, fun _ ↦ hkeep⟩

/-- For every ring, mode and sequence of events: whenever `curkey` is used it is a key of the ring,
if and only if every event is safe. -/
theorem curkeyLive_iff {h : Heap} (hring : h.RingOf ring) (mode : ℤ) (events : List Event) :
    (∀ before e s, before ++ [e] <+: events → (machine mode h).Run before s →
        ∀ use ∈ (react mode s e).uses, use.Live) ↔
      ∀ before e s, before ++ [e] <+: events → (machine mode h).Run before s →
        s.Safe mode e := by
  refine Machine.forall_steps_iff (I := fun s ↦ ∃ ring, s.Points ring) ?_ ?_ ?_ events
  · exact ⟨ring, .of_set (hring.setCurkey none) nofun false⟩
  · rintro s e ⟨ring, hs⟩
    exact (react_spec hs e).1
  · rintro s e t ⟨ring, hs⟩ hsafe ht
    exact (react_spec hs e).2 hsafe t ht

/-- Two keys are uploaded, of which the first is used up, and then another one. -/
def twoUploads : List Event :=
  [.upload (fun _ ↦ 7, 1056), .crypt (List.replicate 1024 0) (Heap.noArrivals 0),
    .upload (fun _ ↦ 7, 16)]

/-- Only one upload. -/
def oneUpload : List Event := [.upload (fun _ ↦ 7, 16), .crypt [0] (Heap.noArrivals 0)]

theorem curkeyLive_iff_oneUpload :
    ∃ s, (machine 0 sampleHeap).Run [.upload (fun _ ↦ 7, 16)] s ∧ s.heap.keys = some 0 ∧
      ∀ use ∈ (react 0 s (.crypt [0] (Heap.noArrivals 0))).uses, use.Live := by
  obtain ⟨s, hrun, hkeys⟩ := Machine.exists_run_ofNext (start sampleHeap)
    (fun s e ↦ (react 0 s e).next) [.upload (fun _ ↦ 7, 16)]
    (P := fun s ↦ s.heap.keys = some 0) (by decide +kernel)
  have hring : sampleHeap.RingOf [] := Heap.RingOf.dropKeys sampleHeap
  refine ⟨s, hrun, hkeys, (curkeyLive_iff hring 0 oneUpload).mpr ?_ _ _ s (List.prefix_refl _) hrun⟩
  intro before e s hpart hrun
  have hreplaced : s.replaced = false := by
    have hs := Machine.run_ofNext_iff.mp hrun
    rcases before with _ | ⟨first, _ | ⟨second, rest⟩⟩
    · cases hs
      rfl
    · obtain ⟨rfl, _⟩ := List.cons_prefix_cons.mp hpart
      have hall : ((oneUpload.take 1).foldlM (fun s e ↦ (react 0 s e).next)
          (start sampleHeap)).all (fun s ↦ !s.replaced) := by decide +kernel
      rw [oneUpload, List.take_succ_cons, List.take_zero, hs] at hall
      simpa using hall
    · have hlength := hpart.length_le
      simp [oneUpload] at hlength
  cases e with
  | upload | reread => trivial
  | crypt data arrival =>
    intro _
    rw [Ready]
    split_ifs
    · exact ⟨nofun, nofun⟩
    · exact hreplaced
  | decrypt => exact fun _ ↦ hreplaced

/-- `curkey` is the second key of the old ring. -/
theorem not_curkeyLive_twoUploads :
    ¬ ∀ (h : Heap) (ring : List ℕ) (mode : ℤ) (events : List Event), h.RingOf ring →
      ∀ before e s, before ++ [e] <+: events → (machine mode h).Run before s →
        ∀ use ∈ (react mode s e).uses, use.Live := by
  intro hall
  obtain ⟨s, hrun, hkeys, hnodes, hcur, hreread⟩ := Machine.exists_run_ofNext (start sampleHeap)
    (fun s e ↦ (react 0 s e).next) twoUploads
    (P := fun s ↦ s.heap.keys = some 2 ∧ nodes s.heap.next 2 s.heap.allocated 2 = some [2] ∧
      s.heap.curkey = some 1 ∧ s.reread = false) (by decide +kernel)
  have hmem : s.heap ∈ (react 0 s (.crypt [0] (Heap.noArrivals 0))).uses := by
    obtain ⟨⟨allocated, live, obj, next, keys, curkey⟩, reread, replaced⟩ := s
    cases hcur
    cases hreread
    exact List.mem_cons_self
  obtain ⟨ring, hring, key, hkey, hkeyMem⟩ := hall sampleHeap [] 0
    (twoUploads ++ [.crypt [0] (Heap.noArrivals 0)]) (Heap.RingOf.dropKeys sampleHeap) twoUploads
    _ s (List.prefix_refl _) hrun s.heap hmem
  cases hcur.symm.trans hkey
  have hhead := hring.keys.symm.trans hkeys
  rw [List.head?_eq_some_iff] at hhead
  obtain ⟨rest, rfl⟩ := hhead
  have hall := ((hring.circular 2 rest rfl).nodes_eq hring.length_le).symm.trans hnodes
  cases hall
  cases List.mem_singleton.mp hkeyMem

end Process

end QNet.Qcrypt
