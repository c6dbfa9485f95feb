import QNet.Ctap.AesInverse

/-!
# The tunnel on its own AES

Both ends expand the key of every frame into an array that still has the words of the frame before,
or what lay on the stack. For the three key sizes the expansion writes every word that the rounds
read, so that nothing of that is left, and the permutation of the blocks is the same at both ends
and whatever was sent before.
-/

namespace QNet.Ctap

open Tunnel

namespace Aes

/-! ## What the expansion leaves of the array -/

/-- Two arrays of one size that have the same first words. -/
structure AgreeTo (n : ℕ) (w w' : Array UInt32) : Prop where
  size : w.size = w'.size
  words : ∀ i < n, w.getD i 0 = w'.getD i 0

variable {w w' : Array UInt32} {n : ℕ}

theorem getD_setIfInBounds (w : Array UInt32) (idx i : ℕ) (v : UInt32) :
    (w.setIfInBounds idx v).getD i 0 = if i = idx ∧ i < w.size then v else w.getD i 0 := by
  simp only [Array.getD_eq_getD_getElem?, Array.getElem?_setIfInBounds]
  by_cases hidx : idx = i
  · rw [hidx]
    by_cases hsize : i < w.size
    · simp [hsize]
    · simp [hsize]
  · simp [hidx, Ne.symm hidx]

theorem AgreeTo.set (h : AgreeTo n w w') (v : UInt32) :
    AgreeTo (n + 1) (w.setIfInBounds n v) (w'.setIfInBounds n v) := by
  constructor
  · simpa using h.size
  · intro i hi
    rw [getD_setIfInBounds, getD_setIfInBounds, h.size]
    split_ifs with hset
    · rfl
    · rcases Nat.lt_succ_iff_lt_or_eq.mp hi with hlt | heq
      · exact h.words i hlt
      · have hout : w'.size ≤ i := Nat.not_lt.mp fun hsize ↦ hset ⟨heq, hsize⟩
        rw [Array.getD_eq_getD_getElem?, Array.getD_eq_getD_getElem?,
          Array.getElem?_eq_none (h.size ▸ hout), Array.getElem?_eq_none hout]

/-- A word of the schedule comes from words before it. -/
theorem AgreeTo.nextWord {Nk : ℕ} (h : AgreeTo n w w') (hNk : 0 < Nk) (hn : 0 < n) :
    nextWord Nk w n = nextWord Nk w' n := by
  unfold Aes.nextWord
  rw [h.words (n - 1) (by omega), h.words (n - Nk) (by omega)]

theorem agreeTo_key (key : ℕ → UInt8) (h : w.size = w'.size) (Nk : ℕ) :
    AgreeTo Nk ((List.range Nk).foldl (fun w idx ↦ w.setIfInBounds idx (keyWord key idx)) w)
      ((List.range Nk).foldl (fun w idx ↦ w.setIfInBounds idx (keyWord key idx)) w') := by
  induction Nk with
  | zero => exact ⟨h, fun i hi ↦ absurd hi (Nat.not_lt_zero i)⟩
  | succ Nk ih =>
    rw [List.range_succ, List.foldl_append, List.foldl_append]
    exact ih.set _

theorem agreeTo_expand {Nk : ℕ} (hNk : 0 < Nk) (hn : 0 < n) (h : AgreeTo n w w') (m : ℕ) :
    AgreeTo (n + m)
      ((List.range' n m).foldl (fun w idx ↦ w.setIfInBounds idx (Aes.nextWord Nk w idx)) w)
      ((List.range' n m).foldl (fun w idx ↦ w.setIfInBounds idx (Aes.nextWord Nk w idx)) w') := by
  induction m with
  | zero => exact h
  | succ m ih =>
    rw [List.range'_concat, List.foldl_append, List.foldl_append, Nat.one_mul, List.foldl_cons,
      List.foldl_nil, List.foldl_cons, List.foldl_nil, ih.nextWord hNk (by omega)]
    exact ih.set _

/-- The words that the rounds of a key size read do not depend on what was in the array. -/
theorem agreeTo_aesKeySetup (key : ℕ → UInt8) (h : w.size = w'.size) {keysize : ℤ} {Nr Nk : ℕ}
    (hsize : roundsAndWords keysize = some (Nr, Nk)) :
    AgreeTo (4 * (Nr + 1)) (aesKeySetup key w keysize) (aesKeySetup key w' keysize) := by
  have hbounds : 0 < Nk ∧ Nk ≤ 4 * (Nr + 1) := by
    unfold roundsAndWords at hsize
    split_ifs at hsize <;> simp only [Option.some.injEq, Prod.mk.injEq] at hsize <;> omega
  have hexpand := agreeTo_expand hbounds.1 hbounds.1 (agreeTo_key key h Nk) (4 * (Nr + 1) - Nk)
  rw [Nat.add_sub_cancel' hbounds.2] at hexpand
  unfold aesKeySetup
  rw [hsize]
  exact hexpand

/-- The blocks under a schedule for 256 bits. -/
def aesPerm (key : Array UInt32) : Equiv.Perm Block where
  toFun := aesEncrypt key 256
  invFun := aesDecrypt key 256
  left_inv := aesDecrypt_aesEncrypt (Or.inr (Or.inr (by decide)))
  right_inv := aesEncrypt_aesDecrypt (Or.inr (Or.inr (by decide)))

theorem mod_32_lt (i : ℕ) : i % 32 < 32 := Nat.mod_lt i (by decide)

/-- `aes_key_setup(key, key_schedule, 256)` -/
def setup (keySchedule : Array UInt32) (key : Bytes32) : Array UInt32 :=
  aesKeySetup (fun i ↦ key ⟨i % 32, mod_32_lt i⟩) keySchedule 256

theorem size_foldl_set (f : Array UInt32 → ℕ → UInt32) (l : List ℕ) (w : Array UInt32) :
    (l.foldl (fun w idx ↦ w.setIfInBounds idx (f w idx)) w).size = w.size := by
  induction l generalizing w with
  | nil => rfl
  | cons idx l ih => rw [List.foldl_cons, ih, Array.size_setIfInBounds]

theorem size_setup (keySchedule : Array UInt32) (key : Bytes32) :
    (setup keySchedule key).size = keySchedule.size := by
  have hsize : roundsAndWords 256 = some (14, 8) := rfl
  unfold setup aesKeySetup
  rw [hsize]
  simp only [size_foldl_set]

/-- All sixty words are written. -/
theorem setup_eq {w w' : Array UInt32} (hw : w.size = 60) (hw' : w'.size = 60) (key : Bytes32) :
    setup w key = setup w' key := by
  have hsize : roundsAndWords 256 = some (14, 8) := rfl
  have hagree : AgreeTo 60 (setup w key) (setup w' key) :=
    agreeTo_aesKeySetup (fun i ↦ key ⟨i % 32, mod_32_lt i⟩) (hw.trans hw'.symm) hsize
  apply Array.ext
  · rw [size_setup, size_setup, hw, hw']
  · intro i hi hi'
    have hword := hagree.words i (by rw [size_setup, hw] at hi; exact hi)
    rwa [Array.getD_eq_getD_getElem?, Array.getD_eq_getD_getElem?, Array.getElem?_eq_getElem hi,
      Array.getElem?_eq_getElem hi'] at hword

end Aes

open Aes

/-! ## Frames one after the other -/

/-- A frame that one end sends and the other end receives: which end sends it, the key it goes
under, the two buffers, and what the TAP device gave. -/
structure Frame where
  fromLeft : Bool
  cur : Key
  buffer : Mem
  buffer' : Mem
  packet : List UInt8

/-- TAP2NET at an end with this `key_schedule`. -/
def Frame.send (f : Frame) (iv : Block) (keySchedule : Array UInt32) : Record :=
  tap2net (fun key ↦ aesPerm (setup keySchedule key)) iv f.cur f.buffer f.packet

/-- NET2TAP at the other end, with the key of the record's id. -/
def Frame.receive (f : Frame) (iv : Block) (keySchedule : Array UInt32) (record : Record) :
    List UInt8 :=
  net2tap (fun key ↦ aesPerm (setup keySchedule key)) iv f.cur f.buffer' record.plength
    record.payload

/-- What the TAP devices get of frames in both directions. Each end has one `key_schedule` for what
it sends and what it receives, and `left` and `right` are the two. The buffers of the code end at
`BUFSIZE`: this is what it does where every padded frame fits (`diff_le_bufsize_iff`). -/
def exchange (iv : Block) : Array UInt32 → Array UInt32 → List Frame → List (List UInt8)
  | _, _, [] => []
  | left, right, f :: frames =>
      let (sender, receiver) := if f.fromLeft then (left, right) else (right, left)
      f.receive iv receiver (f.send iv sender) ::
        exchange iv (setup left f.cur.key) (setup right f.cur.key) frames

theorem Frame.receive_send (f : Frame) (iv : Block) {w w' : Array UInt32} (hw : w.size = 60)
    (hw' : w'.size = 60) (hlength : f.packet.length < 65536) :
    f.receive iv w' (f.send iv w) = f.packet := by
  have hsetup : (fun key ↦ aesPerm (setup w' key)) = fun key ↦ aesPerm (setup w key) := by
    funext key
    rw [setup_eq hw' hw]
  rw [Frame.receive, Frame.send, hsetup]
  exact net2tap_tap2net _ iv f.cur f.buffer f.buffer' f.packet hlength

/-- Every frame whose padding `buffer` can hold arrives as it was, whatever lies in the arrays at
the beginning, whatever keys the frames before it had, and whatever the buffers hold. -/
theorem exchange_eq_packets (iv : Block) (left right : Array UInt32) (frames : List Frame)
    (hleft : left.size = 60) (hright : right.size = 60)
    (hlength : ∀ f ∈ frames, f.packet.length ≤ 1920) :
    exchange iv left right frames = frames.map Frame.packet := by
  induction frames generalizing left right with
  | nil => rfl
  | cons f frames ih =>
    have hrest := ih (setup left f.cur.key) (setup right f.cur.key)
      ((size_setup left f.cur.key).trans hleft) ((size_setup right f.cur.key).trans hright)
      fun f' hf' ↦ hlength f' (List.mem_cons_of_mem f hf')
    have hf : f.packet.length < 65536 := (hlength f List.mem_cons_self).trans_lt (by decide)
    rw [exchange, hrest, List.map_cons]
    cases f.fromLeft
    · exact congrArg (· :: _) (f.receive_send iv hright hleft hf)
    · exact congrArg (· :: _) (f.receive_send iv hleft hright hf)

/-- With what lay on the stack in both arrays, two frames. -/
theorem exchange_eq_packets_pair : ∃ (left right : Array UInt32) (frames : List Frame),
    frames.length = 2 ∧ exchange (fun i ↦ UInt8.ofNat i) left right frames =
      frames.map Frame.packet := by
  let cur : Key := ⟨fun _ ↦ 0, fun i ↦ UInt8.ofNat i, 0⟩
  exact ⟨Array.replicate 60 7, Array.replicate 60 9,
    [⟨true, cur, fun _ ↦ 0, fun _ ↦ 1, [1, 2, 3]⟩, ⟨false, cur, fun _ ↦ 2, fun _ ↦ 3, [4]⟩], rfl,
    exchange_eq_packets _ _ _ _ rfl rfl (by decide)⟩

end QNet.Ctap
