import QNet.Kks.Wire

/-!
# Sifting

Bob sends his record of detections with the keys in it, and Alice sends back hers, from which she
removes the keys. Both call `sift_key` with their own record and the received one. Its loop runs
over the keys of the received record, so Bob's sifted key is always empty, and the two keys fit
together only if no detection has equal bases: `agree_iff`.
-/

namespace QNet.Kks

/-- One round of the loop of `sift_key`; an index behind the end of a vector is undefined. -/
def siftBit (my other : Detections) (answer : List Bool) (i : ℕ) : Option (List Bool) := do
  let theirs ← other.basis[i]?
  let mine ← my.basis[i]?
  if theirs = mine then
    let bit ← my.key[i]?
    return answer ++ [bit]
  else return answer

/-- `sift_key`. -/
def siftKey (my other : Detections) : Option (List Bool) :=
  (List.range other.key.length).foldlM (siftBit my other) []

/-- What Alice sends: `to_send` without the keys. -/
def Detections.clearKey (d : Detections) : Detections := { d with key := [] }

/-- The keys Alice and Bob sift when their records have been exchanged. -/
def siftBoth (bob alice : Detections) : Option (List Bool × List Bool) := do
  let aliceKey ← siftKey alice bob
  let bobKey ← siftKey bob alice.clearKey
  return (aliceKey, bobKey)

/-- The same with both records sent over the network. -/
def exchange (bob alice : Detections) : Option (List Bool × List Bool) := do
  let (bobDetect, _) ← recvDetections (sendDetections bob)
  let (aliceDetect, _) ← recvDetections (sendDetections alice.clearKey)
  let aliceKey ← siftKey alice bobDetect
  let bobKey ← siftKey bob aliceDetect
  return (aliceKey, bobKey)

theorem exchange_eq {bob alice : Detections} (hbob : bob.Small) (halice : alice.clearKey.Small) :
    exchange bob alice = siftBoth bob alice := by
  have hbobRecv := recvDetections_sendDetections hbob []
  have haliceRecv := recvDetections_sendDetections halice []
  rw [List.append_nil] at hbobRecv haliceRecv
  rw [exchange, hbobRecv, haliceRecv]
  rfl

/-! ## The records of the two ends -/

/-- The basis and the bit of a detection at both ends. -/
structure Sample where
  bobBasis : Bool
  bobKey : Bool
  aliceBasis : Bool
  aliceKey : Bool

/-- Bob's `my_detect`; there is one more count than there are detections. -/
def bobRecord (samples : List Sample) (count : List UInt32) : Detections :=
  ⟨samples.map Sample.bobBasis, samples.map Sample.bobKey, [], count⟩

/-- What `get_detect` answers; `more` are its answers for the last counts. -/
def aliceRecord (samples : List Sample) (more : List (Bool × Bool)) (count : List UInt32) :
    Detections :=
  ⟨samples.map Sample.aliceBasis ++ more.map Prod.fst,
    samples.map Sample.aliceKey ++ more.map Prod.snd, [], count⟩

/-- The detections in which the bases are equal. -/
def matching (samples : List Sample) : List Sample :=
  samples.filter fun s ↦ s.bobBasis = s.aliceBasis

/-- Both ends hold their bits of the detections with equal bases. -/
def Agree (samples : List Sample) (more : List (Bool × Bool)) (count answered : List UInt32) :
    Prop :=
  siftBoth (bobRecord samples count) (aliceRecord samples more answered) =
    some ((matching samples).map Sample.aliceKey, (matching samples).map Sample.bobKey)

theorem matching_append (first second : List Sample) :
    matching (first ++ second) = matching first ++ matching second := List.filter_append _ _

theorem siftBit_alice (samples : List Sample) (more : List (Bool × Bool))
    (count answered : List UInt32) (answer : List Bool) {i : ℕ} (hi : i < samples.length) :
    siftBit (aliceRecord samples more answered) (bobRecord samples count) answer i =
      some (answer ++ (matching [samples[i]]).map Sample.aliceKey) := by
  have hbob : (bobRecord samples count).basis[i]? = some samples[i].bobBasis := by
    rw [bobRecord, List.getElem?_map, List.getElem?_eq_getElem hi, Option.map_some]
  have hbasis : (aliceRecord samples more answered).basis[i]? = some samples[i].aliceBasis := by
    rw [aliceRecord, List.getElem?_append_left (by rwa [List.length_map]), List.getElem?_map,
      List.getElem?_eq_getElem hi, Option.map_some]
  have hkey : (aliceRecord samples more answered).key[i]? = some samples[i].aliceKey := by
    rw [aliceRecord, List.getElem?_append_left (by rwa [List.length_map]), List.getElem?_map,
      List.getElem?_eq_getElem hi, Option.map_some]
  rw [siftBit, hbob, hbasis, hkey, matching, List.filter_singleton]
  simp only [Option.bind_eq_bind, Option.bind_some]
  by_cases heq : samples[i].bobBasis = samples[i].aliceBasis
  · simp [heq]
  · simp [heq]

/-- Alice's sifted key is right. -/
theorem siftKey_alice (samples : List Sample) (more : List (Bool × Bool))
    (count answered : List UInt32) :
    siftKey (aliceRecord samples more answered) (bobRecord samples count) =
      some ((matching samples).map Sample.aliceKey) := by
  have hloop (n : ℕ) (hn : n ≤ samples.length) :
      (List.range n).foldlM (siftBit (aliceRecord samples more answered) (bobRecord samples count))
        [] = some ((matching (samples.take n)).map Sample.aliceKey) := by
    induction n with
    | zero => rfl
    | succ n ih =>
      have hlt : n < samples.length := hn
      have htake : samples.take (n + 1) = samples.take n ++ [samples[n]] := by
        rw [List.take_succ_eq_append_getElem hlt]
      rw [List.range_succ, List.foldlM_append, ih (Nat.le_of_lt hlt), htake, matching_append,
        List.map_append, Option.bind_eq_bind, Option.bind_some, List.foldlM_cons,
        siftBit_alice samples more count answered _ hlt]
      rfl
  have hlength : (bobRecord samples count).key.length = samples.length := List.length_map _
  rw [siftKey, hlength, hloop samples.length (Nat.le_refl _), List.take_length]

/-- Bob's sifted key is empty. -/
theorem siftKey_clearKey (my other : Detections) : siftKey my other.clearKey = some [] := rfl

/-- For every sequence of detections with any bases and bits at the two ends: the sifted keys fit
together if and only if no detection has equal bases, and then both are empty. -/
theorem agree_iff (samples : List Sample) (more : List (Bool × Bool))
    (count answered : List UInt32) :
    Agree samples more count answered ↔ ∀ s ∈ samples, s.bobBasis ≠ s.aliceBasis := by
  have hboth : siftBoth (bobRecord samples count) (aliceRecord samples more answered) =
      some ((matching samples).map Sample.aliceKey, []) := by
    rw [siftBoth, siftKey_alice, siftKey_clearKey]
    rfl
  have hempty : matching samples = [] ↔ ∀ s ∈ samples, s.bobBasis ≠ s.aliceBasis := by
    rw [matching, List.filter_eq_nil_iff]
    apply forall₂_congr
    intro s _
    rw [decide_eq_true_eq]
  rw [Agree, hboth, Option.some_inj, Prod.mk.injEq, and_iff_right rfl, eq_comm,
    List.map_eq_nil_iff, hempty]

/-- One detection with equal bases: Alice has a bit and Bob has none. -/
theorem not_agree_oneSample :
    siftBoth (bobRecord [⟨true, true, true, true⟩] [5, 0])
        (aliceRecord [⟨true, true, true, true⟩] [] [5]) = some ([true], []) ∧
      ¬Agree [⟨true, true, true, true⟩] [] [5, 0] [5] := by
  constructor
  · rfl
  · rw [Agree]
    decide

end QNet.Kks
