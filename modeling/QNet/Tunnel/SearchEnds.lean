import QNet.Tunnel.Loop

/-!
# When the search for a key ends

The receivers compare the id of a datagram with the current key and then with those in `q2`. When
`q2` is empty they ask the keyworker, and the answer goes through `q2` as well. In the UDP programs
it is stored under the id that was asked for, so it ends the search. `ctap` computes the id anew
from the bytes of the answer; a wrong key is dropped like the others, and the keyworker is asked
again: `leavesSearch_iff`.
-/

namespace QNet.Tunnel

/-- The programs with a receiver. -/
inductive Receiver
  | ctap
  | udp (prog : Program)
  deriving DecidableEq

/-- The size with which `q2` is made. -/
def Receiver.limit : Receiver → ℕ
  | .ctap => 100
  | .udp _ => 10

/-- The key that `getKeyBySha` makes of an answer. -/
def Receiver.construct (sha256 : Bytes32 → Bytes32) (sha : Bytes32) : Receiver → Bytes32 → Key
  | .ctap => constructKey sha256
  | .udp _ => fun buff ↦ constructKeySha buff sha

/-- The loop of `findKey` with `construct` in `getKeyBySha` and an answer for every query: at most
the given number of rounds, after `n` queries. -/
def searchKey (construct : Bytes32 → Key) (answers : ℕ → Option Bytes32) (sha : Bytes32) :
    ℕ → ℕ → Keys → Option (Keys × Bool)
  | 0, _, k => k.curKey2.bind fun cur ↦ if cur.sha = sha then some (k, true) else none
  | rounds + 1, n, k =>
      match k.curKey2 with
      | none => none
      | some cur =>
          if cur.sha = sha then some (k, true)
          else
            match k.q2.dequeue with
            | some (key, q2) =>
                searchKey construct answers sha rounds n { k with q2 := q2, curKey2 := some key }
            | none =>
                match answers n with
                | none => some (k, false)
                | some buff =>
                    let asked := k.load (construct buff)
                    match asked.q2.dequeue with
                    | none => searchKey construct answers sha rounds (n + 1) asked
                    | some (key, q2) =>
                        searchKey construct answers sha rounds (n + 1)
                          { asked with q2 := q2, curKey2 := some key }

/-- The loop is left after at most two rounds more than `q2` has keys, with the right key or
without one. -/
def LeavesSearch (construct : Bytes32 → Key) (answers : ℕ → Option Bytes32) (sha : Bytes32)
    (k : Keys) : Prop :=
  ∃ k' found, searchKey construct answers sha (k.q2.items.length + 2) 0 k = some (k', found) ∧
    (found = true → ∃ cur ∈ k'.curKey2, cur.sha = sha)

section Search

variable {construct : Bytes32 → Key} {answers : ℕ → Option Bytes32} {sha : Bytes32} {k k' : Keys}
  {cur : Key} {found : Bool} {rounds n : ℕ}

/-! ## One round -/

theorem searchKey_of_eq (hcur : k.curKey2 = some cur) (hsha : cur.sha = sha) (rounds n : ℕ) :
    searchKey construct answers sha rounds n k = some (k, true) := by
  cases rounds with
  | zero => simp only [searchKey, hcur, Option.bind_some, if_pos hsha]
  | succ rounds => simp only [searchKey, hcur, if_pos hsha]

theorem searchKey_zero (hcur : k.curKey2 = some cur) (hsha : cur.sha ≠ sha) (n : ℕ) :
    searchKey construct answers sha 0 n k = none := by
  simp only [searchKey, hcur, Option.bind_some, if_neg hsha]

/-- The next key in `q2` becomes the current one. -/
theorem searchKey_dequeue (hcur : k.curKey2 = some cur) (hsha : cur.sha ≠ sha) {key : Key}
    {rest : List Key} (hitems : k.q2.items = key :: rest) :
    ∃ next, next.curKey2 = some key ∧ next.q2.items = rest ∧ next.q2.limit = k.q2.limit ∧
      ∀ rounds n, searchKey construct answers sha (rounds + 1) n k =
        searchKey construct answers sha rounds n next := by
  obtain ⟨q2, hq2, hrest, hlimit⟩ := BoundedQueue.exists_dequeue hitems
  refine ⟨{ k with q2 := q2, curKey2 := some key }, rfl, hrest, hlimit, fun rounds n ↦ ?_⟩
  simp only [searchKey, hcur, if_neg hsha, hq2]

/-- Without keys in `q2` the keyworker is asked, and its answer becomes the current key. -/
theorem searchKey_ask (hcur : k.curKey2 = some cur) (hsha : cur.sha ≠ sha)
    (hitems : k.q2.items = []) (hlimit : 0 < k.q2.limit) (n : ℕ) :
    (answers n = none ∧ ∀ rounds,
        searchKey construct answers sha (rounds + 1) n k = some (k, false)) ∨
      ∃ buff asked, answers n = some buff ∧ asked.curKey2 = some (construct buff) ∧
        asked.q2.items = [] ∧ asked.q2.limit = k.q2.limit ∧ ∀ rounds,
          searchKey construct answers sha (rounds + 1) n k =
            searchKey construct answers sha rounds (n + 1) asked := by
  have hnone := BoundedQueue.dequeue_eq_none_iff.mpr hitems
  cases hanswer : answers n with
  | none =>
    refine .inl ⟨rfl, fun rounds ↦ ?_⟩
    simp only [searchKey, hcur, if_neg hsha, hnone, hanswer]
  | some buff =>
    have hloaded : (k.load (construct buff)).q2.dequeue = some (construct buff, k.q2) := by
      rw [BoundedQueue.dequeue_eq_some_iff, hitems]
      exact ⟨BoundedQueue.items_enqueue_of_isEmpty hitems hlimit,
        (BoundedQueue.limit_enqueue _ _).symm⟩
    refine .inr ⟨buff, { k.load (construct buff) with
      q2 := k.q2, curKey2 := some (construct buff) }, rfl, rfl, hitems, rfl, fun rounds ↦ ?_⟩
    simp only [searchKey, hcur, if_neg hsha, hnone, hanswer, hloaded]

/-! ## The rounds with keys in q2 -/

/-- A search that is left with success has the right key. -/
theorem searchKey_found (h : searchKey construct answers sha rounds n k = some (k', true)) :
    ∃ cur ∈ k'.curKey2, cur.sha = sha := by
  induction rounds generalizing n k with
  | zero =>
    obtain ⟨cur, hcur, h⟩ := Option.bind_eq_some_iff.mp h
    split_ifs at h with hsha
    cases h
    exact ⟨cur, hcur, hsha⟩
  | succ rounds ih =>
    rw [searchKey] at h
    split at h
    · cases h
    · rename_i cur hcur
      split_ifs at h with hsha
      · cases h
        exact ⟨cur, hcur, hsha⟩
      · split at h
        · exact ih h
        · split at h
          · cases h
          · dsimp only at h
            split at h <;> exact ih h

variable (construct answers) in
/-- A key of the id in `q2` is found. -/
theorem searchKey_of_mem (hcur : k.curKey2 = some cur)
    (hmem : ∃ key ∈ cur :: k.q2.items, key.sha = sha) (extra n : ℕ) :
    ∃ k', searchKey construct answers sha (k.q2.items.length + extra) n k = some (k', true) := by
  generalize hitems : k.q2.items = items at hmem
  induction items generalizing k cur with
  | nil =>
    obtain ⟨key, hkey, hsha⟩ := hmem
    rw [List.mem_singleton.mp hkey] at hsha
    exact ⟨k, searchKey_of_eq hcur hsha _ n⟩
  | cons key rest ih =>
    by_cases hsha : cur.sha = sha
    · exact ⟨k, searchKey_of_eq hcur hsha _ n⟩
    · obtain ⟨next, hnext, hrest, _, hstep⟩ := searchKey_dequeue hcur hsha hitems
      have hmemRest : ∃ other ∈ key :: rest, other.sha = sha := by
        obtain ⟨other, hother, hotherSha⟩ := hmem
        rcases List.mem_cons.mp hother with rfl | hother
        · exact absurd hotherSha hsha
        · exact ⟨other, hother, hotherSha⟩
      obtain ⟨k', hk'⟩ := ih hnext hrest hmemRest
      refine ⟨k', ?_⟩
      rw [List.length_cons, Nat.add_right_comm, hstep, hk']

variable (construct answers) in
/-- Other keys are dropped. -/
theorem searchKey_drain (hcur : k.curKey2 = some cur)
    (hnone : ∀ key ∈ cur :: k.q2.items, key.sha ≠ sha) :
    ∃ drained last, drained.curKey2 = some last ∧ last.sha ≠ sha ∧ drained.q2.items = [] ∧
      drained.q2.limit = k.q2.limit ∧ ∀ extra n,
        searchKey construct answers sha (k.q2.items.length + extra) n k =
          searchKey construct answers sha extra n drained := by
  generalize hitems : k.q2.items = items at hnone
  induction items generalizing k cur with
  | nil =>
    refine ⟨k, cur, hcur, hnone cur List.mem_cons_self, hitems, rfl, fun extra n ↦ ?_⟩
    rw [List.length_nil, Nat.zero_add]
  | cons key rest ih =>
    obtain ⟨next, hnext, hrest, hlimit, hstep⟩ :=
      searchKey_dequeue hcur (hnone cur List.mem_cons_self) hitems
    obtain ⟨drained, last, hlast, hsha, hempty, hdrained, hall⟩ :=
      ih hnext hrest fun other hother ↦ hnone other (List.mem_cons_of_mem cur hother)
    refine ⟨drained, last, hlast, hsha, hempty, hdrained.trans hlimit, fun extra n ↦ ?_⟩
    rw [List.length_cons, Nat.add_right_comm, hstep, ← hall]

/-! ## The rounds with queries -/

/-- The key that `construct` makes of the answer has the id, or there is no answer. -/
def Ends (construct : Bytes32 → Key) (answers : ℕ → Option Bytes32) (sha : Bytes32) (n : ℕ) :
    Prop := ∀ buff ∈ answers n, (construct buff).sha = sha

/-- One query more is made as long as the answers are wrong. -/
theorem searchKey_isSome_iff (hcur : k.curKey2 = some cur) (hsha : cur.sha ≠ sha)
    (hitems : k.q2.items = []) (hlimit : 0 < k.q2.limit) (rounds n : ℕ) :
    (searchKey construct answers sha rounds n k).isSome ↔
      ∃ i < rounds, Ends construct answers sha (n + i) := by
  induction rounds generalizing k cur n with
  | zero =>
    rw [searchKey_zero hcur hsha]
    simp
  | succ rounds ih =>
    rcases searchKey_ask hcur hsha hitems hlimit n with
      ⟨hnone, hstep⟩ | ⟨buff, asked, hbuff, hasked, hempty, hkept, hstep⟩
    · rw [hstep]
      refine iff_of_true rfl ⟨0, Nat.succ_pos _, fun buff hbuff ↦ ?_⟩
      cases hnone.symm.trans hbuff
    · rw [hstep]
      have hends : Ends construct answers sha n ↔ (construct buff).sha = sha := by
        simp [Ends, hbuff]
      by_cases hright : (construct buff).sha = sha
      · rw [searchKey_of_eq hasked hright]
        exact iff_of_true rfl ⟨0, Nat.succ_pos _, hends.mpr hright⟩
      · rw [ih hasked hright hempty (hkept ▸ hlimit)]
        constructor
        · rintro ⟨i, hi, hi'⟩
          refine ⟨i + 1, by omega, ?_⟩
          rwa [Nat.add_comm i 1, ← Nat.add_assoc]
        · rintro ⟨i, hi, hi'⟩
          cases i with
          | zero => exact absurd (hends.mp hi') hright
          | succ i =>
            refine ⟨i, by omega, ?_⟩
            rwa [Nat.add_assoc, Nat.add_comm 1 i]

theorem leavesSearch_iff_isSome : LeavesSearch construct answers sha k ↔
    (searchKey construct answers sha (k.q2.items.length + 2) 0 k).isSome := by
  rw [Option.isSome_iff_exists]
  constructor
  · rintro ⟨k', found, hfound, _⟩
    exact ⟨_, hfound⟩
  · rintro ⟨⟨k', found⟩, hfound⟩
    refine ⟨k', found, hfound, fun htrue ↦ searchKey_found (htrue ▸ hfound)⟩

/-- With the key in `q2`, or one of the first two answers right or missing. -/
theorem leavesSearch_iff_ends (construct : Bytes32 → Key) (answers : ℕ → Option Bytes32)
    (sha : Bytes32) (hcur : k.curKey2 = some cur) (hlimit : 0 < k.q2.limit) :
    LeavesSearch construct answers sha k ↔
      (∃ key ∈ cur :: k.q2.items, key.sha = sha) ∨ ∃ n < 2, Ends construct answers sha n := by
  rw [leavesSearch_iff_isSome]
  by_cases hmem : ∃ key ∈ cur :: k.q2.items, key.sha = sha
  · obtain ⟨k', hk'⟩ := searchKey_of_mem construct answers hcur hmem 2 0
    rw [hk']
    exact iff_of_true rfl (.inl hmem)
  · obtain ⟨drained, last, hlast, hsha, hempty, hdrained, hall⟩ :=
      searchKey_drain construct answers hcur fun key hkey hkeySha ↦ hmem ⟨key, hkey, hkeySha⟩
    rw [hall, searchKey_isSome_iff hlast hsha hempty (hdrained ▸ hlimit), or_iff_right hmem]
    simp only [Nat.zero_add]

/-- With the answers of one query, the search is the one of the tunnel loop. -/
theorem findKey_of_searchKey {nextkey : Option Bytes32}
    (h : searchKey (fun buff ↦ constructKeySha buff sha) (fun _ ↦ nextkey) sha rounds n k =
      some (k', found)) : findKey nextkey sha (rounds + 1) k = some (k', found) := by
  induction rounds generalizing n k with
  | zero =>
    obtain ⟨cur, hcur, h⟩ := Option.bind_eq_some_iff.mp h
    split_ifs at h with hsha
    simp only [findKey, hcur, if_pos hsha, h]
  | succ rounds ih =>
    rw [searchKey] at h
    rw [findKey]
    cases hcur : k.curKey2 with
    | none =>
      rw [hcur] at h
      cases h
    | some cur =>
      simp only [hcur] at h ⊢
      split_ifs at h ⊢ with hsha
      · exact h
      · cases hq2 : k.q2.dequeue with
        | some next =>
          simp only [hq2] at h ⊢
          exact ih h
        | none =>
          simp only [hq2] at h ⊢
          cases nextkey with
          | none => exact h
          | some buff =>
            simp only [getKeyBySha, Option.map_some] at h ⊢
            cases hasked : (k.load (constructKeySha buff sha)).q2.dequeue with
            | none =>
              simp only [hasked] at h ⊢
              exact ih h
            | some next =>
              simp only [hasked] at h ⊢
              exact ih h

/-- The search of the tunnel loop is never cut off. -/
theorem findKey_ends (nextkey : Option Bytes32) (sha : Bytes32) (hcur : k.curKey2 = some cur)
    (hlimit : 0 < k.q2.limit) :
    ∃ k' found, findKey nextkey sha (k.q2.items.length + 3) k = some (k', found) := by
  have hleaves := (leavesSearch_iff_ends (fun buff ↦ constructKeySha buff sha)
    (fun _ ↦ nextkey) sha hcur hlimit).mpr (.inr ⟨0, by decide, fun _ _ ↦ rfl⟩)
  obtain ⟨k', found, hfound, _⟩ := hleaves
  exact ⟨k', found, findKey_of_searchKey hfound⟩

end Search

/-! ## The receivers -/

/-- For every receiver, datagram and content of `q2`, and all answers of the keyworker: the search
is left in time if and only if the program is not `ctap`, or the key is there already, or one of
the first two answers is a key that hashes to the id or none. -/
theorem leavesSearch_iff (p : Receiver) (sha256 : Bytes32 → Bytes32)
    (answers : ℕ → Option Bytes32) (sha : Bytes32) {k : Keys} {cur : Key}
    (hlimit : k.q2.limit = p.limit) (hcur : k.curKey2 = some cur) :
    LeavesSearch (p.construct sha256 sha) answers sha k ↔
      p ≠ .ctap ∨ (∃ key ∈ cur :: k.q2.items, key.sha = sha) ∨
        ∃ n < 2, ∀ buff ∈ answers n, sha256 buff = sha := by
  have hpos : 0 < k.q2.limit := by
    rw [hlimit]
    cases p <;> exact Nat.succ_pos _
  rw [leavesSearch_iff_ends _ answers sha hcur hpos]
  cases p with
  | ctap => exact (or_iff_right (not_not.mpr rfl)).symm
  | udp prog =>
    refine iff_of_true (.inr ⟨0, by decide, fun _ _ ↦ rfl⟩) (.inl ?_)
    exact nofun

/-- `ctap` asks for a key that the keyworker does not have. -/
theorem leavesSearch_iff_noAnswer : LeavesSearch (Receiver.ctap.construct id fun _ ↦ 5)
    (fun _ ↦ none) (fun _ ↦ 5) { Keys.init with q2 := .empty 100, curKey2 := some sampleKey } :=
  (leavesSearch_iff .ctap id _ _ rfl rfl).mpr (.inr (.inr ⟨0, by decide, nofun⟩))

/-- Whatever the hash is, wrong answers keep `ctap` asking. -/
theorem not_leavesSearch_wrongAnswers :
    ¬ ∃ sha256 : Bytes32 → Bytes32, ∀ (p : Receiver) (answers : ℕ → Option Bytes32)
      (sha : Bytes32) (k : Keys) (cur : Key), k.q2.limit = p.limit → k.curKey2 = some cur →
        LeavesSearch (p.construct sha256 sha) answers sha k := by
  rintro ⟨sha256, hall⟩
  have hne : sha256 0 ≠ fun i ↦ sha256 0 i + 1 := by
    intro heq
    have hfirst := congrFun heq 0
    simp at hfirst
  have hleaves := hall .ctap (fun _ ↦ some 0) (fun i ↦ sha256 0 i + 1)
    { Keys.init with q2 := .empty 100, curKey2 := some (constructKey sha256 0) } _ rfl rfl
  rw [leavesSearch_iff_ends _ _ _ rfl (Nat.succ_pos 99)] at hleaves
  rcases hleaves with ⟨key, hkey, hsha⟩ | ⟨n, _, hends⟩
  · rw [List.mem_singleton.mp hkey] at hsha
    exact hne hsha
  · exact hne (hends 0 rfl)

end QNet.Tunnel
