import QNet.Lib.Memory

/-!
# What a ring still has of a stream

A stream that is written into a ring of `n` places leaves its last `n` bytes there: byte `i` is at
place `i % n`. Two counters of a stream that are kept modulo `n` tell how far they are apart as
long as that is less than `n`, and with it where in the ring the bytes between them begin.
-/

namespace QNet.Replay

/-- The last `n` bytes of the stream are in the ring. -/
def Recent (n : ℕ) (ring : Mem) (stream : List UInt8) : Prop :=
  ∀ i (h : i < stream.length), stream.length ≤ i + n → ring (i % n) = stream[i]

variable {n : ℕ} {ring : Mem} {stream bytes : List UInt8}

theorem recent_nil (n : ℕ) (ring : Mem) : Recent n ring [] :=
  fun _ h ↦ absurd h (Nat.not_lt_zero _)

/-- The place of an element in terms of the place at the end. -/
theorem mod_add_of_lt {len j : ℕ} (h : len % n + j < n) : (len + j) % n = len % n + j := by
  rw [Nat.add_mod, Nat.mod_eq_of_lt (a := j) (by omega), Nat.mod_eq_of_lt h]

theorem mod_sub {len k : ℕ} (hk : k ≤ len) (hkn : k ≤ n) (hn : 0 < n) :
    (len - k) % n = if k ≤ len % n then len % n - k else len % n + n - k := by
  have hdiv := Nat.div_add_mod len n
  have hlt := Nat.mod_lt len hn
  split_ifs with hle
  · have heq : len - k = n * (len / n) + (len % n - k) := by omega
    rw [heq, Nat.mul_add_mod, Nat.mod_eq_of_lt (by omega)]
  · have hpos : 0 < len / n := by
      by_contra hzero
      rw [Nat.eq_zero_of_not_pos hzero, Nat.mul_zero] at hdiv
      omega
    have heq : len - k = n * (len / n - 1) + (len % n + n - k) := by
      have hmul : n * (len / n - 1) + n = n * (len / n) := by
        rw [← Nat.mul_succ, Nat.succ_eq_add_one, Nat.sub_add_cancel hpos]
      omega
    rw [heq, Nat.mul_add_mod, Nat.mod_eq_of_lt (by omega)]

/-- Bytes that fit before the end of the ring are written behind the last one. -/
theorem Recent.append (h : Recent n ring stream) (hn : 0 < n)
    (hroom : stream.length % n + bytes.length ≤ n) :
    Recent n (ring.store (stream.length % n) bytes) (stream ++ bytes) := by
  intro i hi hle
  rw [List.length_append] at hi hle
  rcases Nat.lt_or_ge i stream.length with hlt | hge
  · obtain ⟨k, hk, rfl⟩ : ∃ k ≤ stream.length, i = stream.length - k :=
      ⟨stream.length - i, Nat.sub_le _ _, by omega⟩
    have hplace := mod_sub (n := n) hk (by omega) hn
    rw [List.getElem_append_left hlt, ← h _ hlt (by omega)]
    split_ifs at hplace with hsplit
    · exact Mem.store_of_lt (by omega)
    · exact Mem.store_of_ge (by omega)
  · obtain ⟨j, rfl⟩ := Nat.exists_eq_add_of_le hge
    rw [List.getElem_append_right hge, mod_add_of_lt (by omega), Mem.store_of_mem (by omega)]
    simp only [Nat.add_sub_cancel_left]

/-- A piece of the stream that does not reach behind the end of the ring. -/
theorem Recent.slice (h : Recent n ring stream) {i m : ℕ} (hm : i + m ≤ stream.length)
    (hrecent : stream.length ≤ i + n) (hend : i % n + m ≤ n) :
    ring.slice (i % n) m = (stream.drop i).take m := by
  rw [Mem.slice_eq_iff]
  constructor
  · rw [List.length_take, List.length_drop]
    omega
  · intro j hj
    rw [List.length_take, List.length_drop] at hj
    have hplace : i % n + j < n := by omega
    rw [List.getElem_take, List.getElem_drop, ← mod_add_of_lt hplace]
    exact h (i + j) (by omega) (by omega)

/-! ## Counters modulo `n` -/

/-- How far the counter `r` is behind the counter `s`. -/
def behind (n : ℕ) (s r : ℤ) : ℤ := if s - r < 0 then s - r + n else s - r

theorem behind_mod {s r : ℕ} (hle : r ≤ s) (hlt : s < r + n) :
    behind n ((s % n : ℕ) : ℤ) ((r % n : ℕ) : ℤ) = (s - r : ℕ) := by
  have hn : 0 < n := by omega
  have hplace := mod_sub (n := n) (Nat.sub_le s r) (by omega) hn
  rw [Nat.sub_sub_self hle] at hplace
  have hs := Nat.mod_lt s hn
  unfold behind
  split_ifs at hplace ⊢ <;> omega

end QNet.Replay
