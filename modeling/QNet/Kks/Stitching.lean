import QNet.Kks.Frames

/-!
# Records of several frames

`board_if::detects` appends the records of the frames one after the other. The stitching element at
the end of a record leads to the end of its frame; `append` adds it to the first distance of the
next record. It takes it from the vector `count` of a record that is empty at first, where `back`
and `pop_back` are undefined, so that no frame can be read at all (`not_stitches`). Behind a record
with a stitching element everything is as it should be (`stitched_of_started`).

`get_detect` is to answer with Alice's samples at the positions of Bob's detections. It takes the
distances for positions, and the stitching element for one more of them.
-/

namespace QNet.Kks

open Relative

/-! ## Appending -/

namespace Detections

/-- `detections answer;`. -/
def empty : Detections := ⟨[], [], [], []⟩

/-- `append`: undefined when one of the records has no distances. -/
def append (d other : Detections) : Option Detections := do
  let first ← other.count.head?
  let last ← d.count.getLast?
  return {
    basis := d.basis ++ other.basis
    key := d.key ++ other.key
    special := d.special ++ other.special
    count := d.count.dropLast ++ (first + last) :: other.count.tail }

/-- The positions that the distances lead to, without the stitching element. -/
def positions (d : Detections) : List UInt32 := runningSums 0 d.count.dropLast

/-- Where the stitching element leads. -/
def total (d : Detections) : UInt32 := d.count.sum

end Detections

/-- The records of the frames, appended to a record. -/
def stitchTo (start : Detections) (records : List Detections) : Option Detections :=
  records.foldlM Detections.append start

/-- The positions of frames of length `L`, beginning with frame `k`. -/
def placed (L : ℕ) : ℕ → List Detections → List UInt32
  | _, [] => []
  | k, record :: records =>
      record.positions.map (UInt32.ofNat (L * k) + ·) ++ placed L (k + 1) records

/-- The record has all positions of the frames in order, and all bits, and ends with the last of
the frames. -/
structure Stitched (L : ℕ) (records : List Detections) (d : Detections) : Prop where
  positions : d.positions = placed L 0 records
  total : d.total = UInt32.ofNat (L * records.length)
  basis : d.basis = records.flatMap Detections.basis
  key : d.key = records.flatMap Detections.key

/-- What the loop of `board_if::detects` makes of the records is stitched. -/
def Stitches (L : ℕ) (records : List Detections) : Prop :=
  ∃ d, stitchTo .empty records = some d ∧ Stitched L records d

theorem stitchTo_empty_cons (first : Detections) (rest : List Detections) :
    stitchTo .empty (first :: rest) = none := by
  have happend : Detections.append .empty first = none := by
    rw [Detections.append]
    cases first.count.head? <;> rfl
  rw [stitchTo, List.foldlM_cons, happend]
  rfl

/-- For one frame or more, whatever they hold, there is no record. -/
theorem not_stitches (L : ℕ) (first : Detections) (rest : List Detections) :
    ¬ Stitches L (first :: rest) := by
  rintro ⟨d, hd, _⟩
  rw [stitchTo_empty_cons] at hd
  cases hd

/-- One frame in which nothing was detected. -/
theorem not_stitches_oneFrame : ¬ Stitches frameSamples [⟨[], [], [], [131072]⟩] := by
  rintro ⟨d, hd, _⟩
  cases hd

/-! ## Behind a stitching element -/

theorem Detections.append_spec {d other : Detections} (hd : d.count ≠ [])
    (hother : other.count ≠ []) :
    ∃ r, d.append other = some r ∧ r.count ≠ [] ∧ r.basis = d.basis ++ other.basis ∧
      r.key = d.key ++ other.key ∧
      r.positions = d.positions ++ other.positions.map (d.total + ·) ∧
      r.total = d.total + other.total := by
  obtain ⟨front, last, hfront⟩ := (List.eq_nil_or_concat' d.count).resolve_left hd
  obtain ⟨first, rest, hrest⟩ := List.exists_cons_of_ne_nil hother
  have htotal : d.total = front.sum + last := by
    rw [Detections.total, hfront, List.sum_append, List.sum_singleton]
  refine ⟨⟨d.basis ++ other.basis, d.key ++ other.key, d.special ++ other.special,
    front ++ (first + last) :: rest⟩, ?_, ?_, rfl, rfl, ?_, ?_⟩
  · rw [Detections.append, hfront, hrest, List.getLast?_concat, List.dropLast_concat]
    rfl
  · exact List.append_ne_nil_of_right_ne_nil front (List.cons_ne_nil _ _)
  · rw [htotal, Detections.positions, Detections.positions, Detections.positions, hfront, hrest,
      List.dropLast_concat]
    cases rest with
    | nil =>
      rw [List.dropLast_concat]
      exact (List.append_nil _).symm
    | cons second rest =>
      rw [List.dropLast_append_of_ne_nil (List.cons_ne_nil _ _), List.dropLast_cons_cons,
        List.dropLast_cons_cons, runningSums_join]
  · rw [htotal, Detections.total, Detections.total, hrest, List.sum_append, List.sum_cons,
      List.sum_cons, add_comm first last, add_assoc, add_assoc]

/-- A record whose stitching element completes the frame. -/
structure Completes (L : ℕ) (record : Detections) : Prop where
  count_ne_nil : record.count ≠ []
  total : record.total = UInt32.ofNat L

theorem stitchTo_spec {L k : ℕ} {records : List Detections}
    (hrecords : ∀ record ∈ records, Completes L record) {start : Detections}
    (hcount : start.count ≠ []) (htotal : start.total = UInt32.ofNat (L * k)) :
    ∃ d, stitchTo start records = some d ∧ d.positions = start.positions ++ placed L k records ∧
      d.total = UInt32.ofNat (L * (k + records.length)) ∧
      d.basis = start.basis ++ records.flatMap Detections.basis ∧
      d.key = start.key ++ records.flatMap Detections.key := by
  induction records generalizing start k with
  | nil =>
    exact ⟨start, rfl, (List.append_nil _).symm, htotal, (List.append_nil _).symm,
      (List.append_nil _).symm⟩
  | cons record records ih =>
    have hrecord : Completes L record := hrecords record List.mem_cons_self
    obtain ⟨middle, hmiddle, hne, hbasis, hkey, hpositions, hsum⟩ :=
      Detections.append_spec hcount hrecord.count_ne_nil
    have hnext : middle.total = UInt32.ofNat (L * (k + 1)) := by
      rw [hsum, htotal, hrecord.total, Nat.mul_succ, UInt32.ofNat_add]
    obtain ⟨d, hd, hpositions', htotal', hbasis', hkey'⟩ :=
      ih (fun other hother ↦ hrecords other (List.mem_cons_of_mem _ hother)) hne hnext
    refine ⟨d, ?_, ?_, ?_, ?_, ?_⟩
    · rw [stitchTo, List.foldlM_cons, hmiddle]
      exact hd
    · rw [hpositions', hpositions, htotal, placed, List.append_assoc]
    · rw [htotal', List.length_cons, Nat.add_assoc, Nat.add_comm 1]
    · rw [hbasis', hbasis, List.flatMap_cons, List.append_assoc]
    · rw [hkey', hkey, List.flatMap_cons, List.append_assoc]

/-- If the record of the first frame were taken over instead of appended to nothing, all frames
would be stitched. -/
theorem stitched_of_started {L : ℕ} {first : Detections} {rest : List Detections}
    (hfirst : Completes L first) (hrest : ∀ record ∈ rest, Completes L record) :
    ∃ d, stitchTo first rest = some d ∧ Stitched L (first :: rest) d := by
  obtain ⟨d, hd, hpositions, htotal, hbasis, hkey⟩ :=
    stitchTo_spec (k := 1) hrest hfirst.count_ne_nil (by rw [hfirst.total, Nat.mul_one])
  have hplaced : first.positions.map (UInt32.ofNat (L * 0) + ·) = first.positions := by
    have hzero (pos : UInt32) : UInt32.ofNat (L * 0) + pos = pos := by
      rw [Nat.mul_zero]
      exact zero_add pos
    rw [funext hzero, List.map_id']
  refine ⟨d, hd, ?_, ?_, hbasis, hkey⟩
  · rw [hpositions, placed, hplaced]
  · rw [htotal, List.length_cons, Nat.add_comm 1]

/-! ## Alice's samples -/

/-- `board_if::detects`, for the frames that are read until the time is over. -/
def boardDetects (frames : List DMAFrame) : Option Detections :=
  stitchTo .empty (frames.map DMAFrame.detects)

/-- The loop of `get_detect` that reads frames up to a number; `curr` is `curr_frame`, and `queue`
are the frames that can still be read. -/
def readUntil (number : ℕ) : DMAFrame → List DMAFrame → Option (DMAFrame × List DMAFrame)
  | curr, [] => if curr.count.toNat < number then none else some (curr, [])
  | curr, next :: queue =>
      if curr.count.toNat < number then readUntil number next queue else some (curr, next :: queue)

/-- One round of the loop of `get_detect`: a sample of the frame with the number that the element of
`count` has, if there is such a frame. -/
def getSample (s : (DMAFrame × List DMAFrame) × Detections) (i : UInt32) :
    Option ((DMAFrame × List DMAFrame) × Detections) := do
  let (curr, queue) ← readUntil (i.toNat / frameSamples) s.1.1 s.1.2
  if curr.count.toNat = i.toNat / frameSamples then
    let bs := curr.bsAt (i.toNat % frameSamples)
    return ((curr, queue), { s.2 with
      basis := s.2.basis ++ [bs.testBit 0]
      key := s.2.key ++ [bs.testBit 1]
      count := s.2.count ++ [i] })
  else return ((curr, queue), s.2)

/-- `get_detect`. -/
def getDetect (curr : DMAFrame) (queue : List DMAFrame) (count : List UInt32) : Option Detections :=
  (count.foldlM getSample ((curr, queue), .empty)).map Prod.snd

/-- A frame of Bob and the frame of Alice with the same number. -/
structure FramePair where
  bob : DMAFrame
  alice : DMAFrame
  count_eq : bob.count = alice.count

/-- Alice answers with her samples at the positions of Bob's detections, in order. -/
def SameSlots (curr : DMAFrame) (pairs : List FramePair) : Prop :=
  ∃ record answer, boardDetects (pairs.map FramePair.bob) = some record ∧
    getDetect curr (pairs.map FramePair.alice) record.count = some answer ∧
    answer.basis = pairs.flatMap (fun pair ↦ pair.bob.detections.map pair.alice.basisAt) ∧
    answer.key = pairs.flatMap fun pair ↦ pair.bob.detections.map pair.alice.keyAt

/-- She does if and only if Bob has read no frame. -/
theorem sameSlots_iff (curr : DMAFrame) (pairs : List FramePair) :
    SameSlots curr pairs ↔ pairs = [] := by
  constructor
  · rintro ⟨record, answer, hrecord, _⟩
    cases pairs with
    | nil => rfl
    | cons pair pairs =>
      rw [boardDetects, List.map_cons, List.map_cons, stitchTo_empty_cons] at hrecord
      cases hrecord
  · rintro rfl
    exact ⟨.empty, .empty, rfl, rfl, rfl, rfl⟩

/-- Two frames in which nothing was detected. -/
theorem not_sameSlots_quietFrames :
    ¬ SameSlots DMAFrame.quietFrame [⟨DMAFrame.quietFrame, DMAFrame.quietFrame, rfl⟩] := by
  rintro ⟨record, answer, hrecord, _⟩
  rw [boardDetects, List.map_cons, List.map_cons, stitchTo_empty_cons] at hrecord
  cases hrecord

/-! ## Distances taken for positions -/

theorem testBit_bsAt (frame : DMAFrame) (pos : ℕ) {j : ℕ} (hj : j < 2) :
    (frame.bsAt pos).testBit j = (Word.bs (frame.p (pos / 8))).testBit (pos % 8 * 2 + j) := by
  rw [DMAFrame.bsAt, show 4 = 2 ^ 2 from rfl, Nat.testBit_mod_two_pow, Nat.testBit_shiftRight,
    decide_eq_true hj, Bool.true_and]

theorem readUntil_self (curr : DMAFrame) (queue : List DMAFrame) :
    readUntil curr.count.toNat curr queue = some (curr, queue) := by
  cases queue <;> rw [readUntil, if_neg (Nat.lt_irrefl _)]

/-- While all elements of `count` belong to the frame that was read last, each of them is answered,
with the sample that stands there. -/
theorem getDetect_of_current (curr : DMAFrame) (queue : List DMAFrame) {count : List UInt32}
    (hcount : ∀ i ∈ count, i.toNat / frameSamples = curr.count.toNat) :
    getDetect curr queue count =
      some ⟨count.map fun i ↦ curr.basisAt (i.toNat % frameSamples),
        count.map fun i ↦ curr.keyAt (i.toNat % frameSamples), [], count⟩ := by
  have hloop (d : Detections) : count.foldlM getSample ((curr, queue), d) = some ((curr, queue),
      { d with
        basis := d.basis ++ count.map fun i ↦ curr.basisAt (i.toNat % frameSamples)
        key := d.key ++ count.map fun i ↦ curr.keyAt (i.toNat % frameSamples)
        count := d.count ++ count }) := by
    induction count generalizing d with
    | nil => simp
    | cons i count ih =>
      have hi := hcount i List.mem_cons_self
      have hround : getSample ((curr, queue), d) i = some ((curr, queue), { d with
          basis := d.basis ++ [curr.basisAt (i.toNat % frameSamples)]
          key := d.key ++ [curr.keyAt (i.toNat % frameSamples)]
          count := d.count ++ [i] }) := by
        rw [getSample, hi, readUntil_self]
        simp only [Option.bind_eq_bind, Option.bind_some]
        rw [if_pos trivial, testBit_bsAt curr _ Nat.zero_lt_two, testBit_bsAt curr _ Nat.one_lt_two]
        rfl
      rw [List.foldlM_cons, hround]
      simp only [Option.bind_eq_bind, Option.bind_some]
      rw [ih (fun i' hi' ↦ hcount i' (List.mem_cons_of_mem _ hi'))]
      simp
  rw [getDetect, hloop]
  rfl

/-- So the record of a single frame gets an answer for its stitching element, too. -/
theorem length_getDetect_detects (bob curr : DMAFrame) (queue : List DMAFrame)
    (hcount : ∀ i ∈ bob.detects.count, i.toNat / frameSamples = curr.count.toNat) :
    ∃ answer, getDetect curr queue bob.detects.count = some answer ∧
      answer.basis.length = bob.detects.basis.length + 1 := by
  refine ⟨_, getDetect_of_current curr queue hcount, ?_⟩
  have hdistances (sum : UInt32) (l : List ℕ) : (DMAFrame.distances sum l).length = l.length := by
    induction l generalizing sum with
    | nil => rfl
    | cons pos l ih => rw [DMAFrame.distances, List.length_cons, ih, List.length_cons]
  rw [List.length_map, bob.detects_eq, List.length_append, hdistances, List.length_map,
    List.length_singleton]

end QNet.Kks
