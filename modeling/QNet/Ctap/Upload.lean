import QNet.Http.Upload
import QNet.Tunnel.Keys

/-!
# Keys that are put into `ctap`

The HTTP handler of `ctap` is to take a key from every 32 bytes of a body. It hands the byte at the
beginning of a block to `ConstructKey` as if it were the pointer to it, and its loop ends one block
early. `uploads_iff` says when that does no harm: if and only if the loop does not run and the
body is too long for one of the queues, so that an empty prefix of it is right.
-/

namespace QNet.Ctap

open CString Http Tunnel

/-- The bytes that can be read, by their address. -/
abbrev AddressSpace := ℤ → Option UInt8

/-- A `char` that is taken for a pointer. -/
def charPointer (c : UInt8) : ℤ := c.toInt8.toInt

/-- `ConstructKey`; the program dies when it reads where nothing is. -/
def constructKeyAt (space : AddressSpace) (sha256 : Bytes32 → Bytes32) (buf : ℤ) : Option Key :=
  if h : ∀ i : Fin 32, (space (buf + i.val)).isSome then
    some (constructKey sha256 fun i ↦ (space (buf + i.val)).get (h i))
  else none

structure Queues where
  q1 : BoundedQueue Key
  q2 : BoundedQueue Key

/-- The new key and its copy. -/
def Queues.enqueue (q : Queues) (k1 : Key) : Queues := ⟨q.q1.enqueue k1, q.q2.enqueue k1⟩

/-- The loop from `i` on, with the number of rounds that are left. -/
def loop (space : AddressSpace) (sha256 : Bytes32 → Bytes32) (buff : List UInt8) :
    ℕ → ℕ → Queues → Option Queues
  | 0, _, q => some q
  | rounds + 1, i, q =>
      (constructKeyAt space sha256 (charPointer (buff.getD i 0))).bind fun k1 ↦
        loop space sha256 buff rounds (i + 32) (q.enqueue k1)

/-- How often the loop runs: `i` goes up by 32 while it is below `post->count - 32`. -/
def rounds (count : ℤ) : ℕ := ((asInt (count - 32) + 31) / 32).toNat

/-- The last call of `ahc_echo`. `none` when `buff` was never set or the program dies. -/
def ahcEcho (space : AddressSpace) (sha256 : Bytes32 → Bytes32) (post : PostStatus) (q : Queues) :
    Option Queues :=
  post.buff.bind fun buff ↦
    if startsWith buff quit then some q else loop space sha256 buff (rounds post.count) 0 q

/-! ## What is to be done with a body -/

/-- The keys of a body, with their SHA. -/
def bodyKeys (sha256 : Bytes32 → Bytes32) (text : List UInt8) : List Key :=
  (List.range (text.length / 32)).map fun j ↦
    constructKey sha256 fun i ↦ text.getD (32 * j + i.val) 0

def free (q : BoundedQueue Key) : ℕ := q.limit - q.items.length

/-- Both queues get these keys behind those they have. -/
def Appended (q q' : Queues) (keys : List Key) : Prop :=
  q'.q1.items = q.q1.items ++ keys ∧ q'.q2.items = q.q2.items ++ keys

/-- Whatever else is in memory, all keys of the body come to both queues if there is room for them,
and otherwise the same first ones. -/
def Uploads (chunks : List Chunk) (q : Queues) : Prop :=
  ∀ (space : AddressSpace) (sha256 : Bytes32 → Bytes32),
    ∃ q', ahcEcho space sha256 (receiveAll chunks) q = some q' ∧
      let keys := bodyKeys sha256 (body chunks)
      if keys.length ≤ free q.q1 ∧ keys.length ≤ free q.q2 then Appended q q' keys
      else ∃ n, Appended q q' (keys.take n)

/-! ## What is done -/

theorem length_bodyKeys (sha256 : Bytes32 → Bytes32) (text : List UInt8) :
    (bodyKeys sha256 text).length = text.length / 32 := by
  rw [bodyKeys, List.length_map, List.length_range]

/-- Where nothing can be read no key is made. -/
theorem constructKeyAt_unmapped (sha256 : Bytes32 → Bytes32) (buf : ℤ) :
    constructKeyAt (fun _ ↦ none) sha256 buf = none :=
  dif_neg fun h ↦ absurd (h 0) Bool.false_ne_true

theorem loop_unmapped (sha256 : Bytes32 → Bytes32) (buff : List UInt8) {n : ℕ} (hn : n ≠ 0) (i : ℕ)
    (q : Queues) : loop (fun _ ↦ none) sha256 buff n i q = none := by
  obtain ⟨n, rfl⟩ := Nat.exists_eq_succ_of_ne_zero hn
  rw [loop, constructKeyAt_unmapped, Option.bind_none]

/-- The loop does not run, or is not come to. -/
def Idle (chunks : List Chunk) : Prop :=
  ∃ buff, (receiveAll chunks).buff = some buff ∧
    (startsWith buff quit ∨ rounds (asInt (body chunks).length) = 0)

theorem ahcEcho_of_idle {chunks : List Chunk} (h : Idle chunks) (space : AddressSpace)
    (sha256 : Bytes32 → Bytes32) (q : Queues) :
    ahcEcho space sha256 (receiveAll chunks) q = some q := by
  obtain ⟨buff, hbuff, hidle⟩ := h
  rw [ahcEcho, hbuff, Option.bind_some, count_receiveAll]
  split_ifs with hquit
  · rfl
  · rw [hidle.resolve_left hquit, loop]

theorem ahcEcho_unmapped {chunks : List Chunk} (h : ¬ Idle chunks) (sha256 : Bytes32 → Bytes32)
    (q : Queues) : ahcEcho (fun _ ↦ none) sha256 (receiveAll chunks) q = none := by
  rw [ahcEcho, count_receiveAll]
  cases hbuff : (receiveAll chunks).buff with
  | none => rfl
  | some buff =>
    have hnot : ¬ (startsWith buff quit ∨ rounds (asInt (body chunks).length) = 0) :=
      fun hidle ↦ h ⟨buff, hbuff, hidle⟩
    rw [not_or] at hnot
    rw [Option.bind_some, if_neg hnot.1, loop_unmapped sha256 buff hnot.2]

/-- The buffer is set only by a part of the body. -/
theorem Idle.body_ne_nil {chunks : List Chunk} (h : Idle chunks) : body chunks ≠ [] := by
  rcases List.eq_nil_or_concat' chunks with rfl | ⟨front, chunk, rfl⟩
  · obtain ⟨buff, hbuff, _⟩ := h
    cases hbuff
  · rw [body_concat]
    exact List.append_ne_nil_of_right_ne_nil _ chunk.ne_nil

/-- The keys of a body of `32 * n` bytes come to the queues as they should if and only if the loop
does not run and there is no room for all of them. -/
theorem uploads_iff {chunks : List Chunk} {n : ℕ} (hlength : (body chunks).length = 32 * n)
    (q : Queues) :
    Uploads chunks q ↔ Idle chunks ∧ (free q.q1 < n ∨ free q.q2 < n) := by
  have hkeys (sha256 : Bytes32 → Bytes32) : (bodyKeys sha256 (body chunks)).length = n := by
    rw [length_bodyKeys, hlength, Nat.mul_div_cancel_left n (by decide)]
  constructor
  · intro h
    have hidle : Idle chunks := by
      by_contra hnot
      obtain ⟨q', hecho, _⟩ := h (fun _ ↦ none) id
      rw [ahcEcho_unmapped hnot] at hecho
      cases hecho
    refine ⟨hidle, ?_⟩
    by_contra hroom
    rw [not_or, Nat.not_lt, Nat.not_lt] at hroom
    obtain ⟨q', hecho, happended⟩ := h (fun _ ↦ none) id
    rw [ahcEcho_of_idle hidle] at hecho
    obtain rfl := Option.some.inj hecho
    simp only [hkeys, hroom, and_self, ↓reduceIte] at happended
    have hzero := hkeys id
    rw [List.self_eq_append_right.mp happended.1, List.length_nil] at hzero
    rw [← hzero, Nat.mul_zero, List.length_eq_zero_iff] at hlength
    exact hidle.body_ne_nil hlength
  · rintro ⟨hidle, hroom⟩ space sha256
    refine ⟨q, ahcEcho_of_idle hidle space sha256 q, ?_⟩
    simp only [hkeys]
    rw [if_neg (by omega)]
    exact ⟨0, by simp [Appended]⟩

/-- A part of a body with one block of zeros. -/
def zeroBlock : Chunk := ⟨List.replicate 32 0, [], by decide⟩

/-- One block is not taken, although there is room for it. -/
theorem not_uploads_zeroBlock : ¬ ∀ chunks n q, (body chunks).length = 32 * n →
    ¬ quit <+: body chunks → Uploads chunks q := by
  intro h
  have huploads := h [zeroBlock] 1 ⟨.empty 100, .empty 100⟩ (by decide) (by decide)
  obtain ⟨_, hroom⟩ := (uploads_iff (n := 1) (by decide) _).mp huploads
  exact absurd hroom (by decide)

/-- A queue of `ctap` without room for another key. -/
def fullQueue : BoundedQueue Key where
  limit := 100
  items := List.replicate 100 ⟨fun _ ↦ 0, fun _ ↦ 0, 0⟩
  length_le := (List.length_replicate ..).le

/-- One block, and the first queue is full. -/
theorem uploads_iff_full : Uploads [zeroBlock] ⟨fullQueue, .empty 100⟩ := by
  have hidle : Idle [zeroBlock] := ⟨List.replicate 32 0, by decide, Or.inr (by decide)⟩
  have hfull : free fullQueue < 1 := by simp [free, fullQueue]
  exact (uploads_iff (n := 1) (by decide) _).mpr ⟨hidle, Or.inl hfull⟩

end QNet.Ctap
