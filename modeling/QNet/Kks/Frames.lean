import Mathlib.Data.UInt
import QNet.Kks.Wire
import QNet.Lib.Relative

/-!
# Detections in a frame of the board

A frame is 16384 words. Word 0 holds the number of the frame and the mark 0xABCD; every other word
holds eight samples, each with a bit for a detection, a bit that tells calibration, and two bits of
basis and key. `DMAFrame::detects` gives back the detections with the distances between them.

Its loop begins with word 0, so that the mark always counts as two detections, at the samples 1 and
5 (`hits_eq`), and no frame is read as it should be (`not_extracts`). The distances are wrong, too:
`sum` is meant to be the last position and becomes the sum of all positions (`scan_eq`).
-/

namespace QNet.Kks

open Relative

/-- `AnBBufferMinSize`, the bytes of a frame. -/
def bufferMinSize : ℕ := 16384 * 4

/-- The number of words of a frame. -/
def frameWords : ℕ := bufferMinSize / 4

/-- The number of samples of a frame. -/
def frameSamples : ℕ := bufferMinSize * 2

/-! ## Words -/

namespace Word

def bs (word : UInt32) : ℕ := word.toNat % 2 ^ 16

def calib (word : UInt32) : ℕ := word.toNat / 2 ^ 16 % 2 ^ 8

def detect (word : UInt32) : ℕ := word.toNat / 2 ^ 24

/-- The number of the frame, in word 0. -/
def count (word : UInt32) : UInt16 := word.toUInt16

/-- The mark, in word 0. -/
def abcd (word : UInt32) : ℕ := word.toNat / 2 ^ 16

/-- Sample `i` is a detection outside of the calibration. -/
def detected (word : UInt32) (i : ℕ) : Bool := !(calib word).testBit i && (detect word).testBit i

end Word

/-- The words of a frame; the board puts the mark in front. -/
structure DMAFrame where
  p : ℕ → UInt32
  mark : Word.abcd (p 0) = 0xABCD

namespace DMAFrame

def count (frame : DMAFrame) : UInt16 := Word.count (frame.p 0)

/-- `bs_at`. -/
def bsAt (frame : DMAFrame) (pos : ℕ) : ℕ := (Word.bs (frame.p (pos / 8)) >>> (pos % 8 * 2)) % 4

/-! ## The loop -/

/-- What the body of the loop does with a detection; `s` is `answer` and `sum`. -/
def push (frame : DMAFrame) (s : Detections × UInt32) (word i : ℕ) : Detections × UInt32 :=
  ({ s.1 with
      basis := s.1.basis ++ [(Word.bs (frame.p word)).testBit (i * 2)]
      key := s.1.key ++ [(Word.bs (frame.p word)).testBit (i * 2 + 1)]
      count := s.1.count ++ [UInt32.ofNat (8 * word + i) - s.2] },
    s.2 + UInt32.ofNat (8 * word + i))

/-- The inner loop, over the samples of a word. -/
def scanWord (frame : DMAFrame) (s : Detections × UInt32) (word : ℕ) : Detections × UInt32 :=
  if Word.detect (frame.p word) ≠ 0 then
    (List.range 8).foldl
      (fun s i ↦ if Word.detected (frame.p word) i then frame.push s word i else s) s
  else s

/-- The outer loop. -/
def scan (frame : DMAFrame) : Detections × UInt32 :=
  (List.range frameWords).foldl frame.scanWord (⟨[], [], [], []⟩, 0)

/-- `DMAFrame::detects`: the detections, and behind them the stitching element. -/
def detects (frame : DMAFrame) : Detections :=
  let s := frame.scan
  { s.1 with count := s.1.count ++ [UInt32.ofNat frameSamples - s.2] }

/-! ## What a frame holds -/

def isHit (frame : DMAFrame) (pos : ℕ) : Bool := Word.detected (frame.p (pos / 8)) (pos % 8)

def basisAt (frame : DMAFrame) (pos : ℕ) : Bool :=
  (Word.bs (frame.p (pos / 8))).testBit (pos % 8 * 2)

def keyAt (frame : DMAFrame) (pos : ℕ) : Bool :=
  (Word.bs (frame.p (pos / 8))).testBit (pos % 8 * 2 + 1)

/-- The positions that the loop takes for detections. -/
def hits (frame : DMAFrame) : List ℕ := (List.range frameSamples).filter frame.isHit

/-- The positions of the detections. The samples begin behind word 0. -/
def detections (frame : DMAFrame) : List ℕ := frame.hits.filter (8 ≤ ·)

/-- The distances lead to the detections, basis and key are those of the samples, and with the last
element the distances make up the frame. -/
structure Extracts (frame : DMAFrame) : Prop where
  positions : (runningSums 0 frame.detects.count.dropLast).map UInt32.toNat = frame.detections
  basis : frame.detects.basis = frame.detections.map frame.basisAt
  key : frame.detects.key = frame.detections.map frame.keyAt
  total : frame.detects.count.sum = UInt32.ofNat frameSamples

/-! ## The loop runs over the positions -/

theorem detected_of_detect_eq_zero {word : UInt32} (h : Word.detect word = 0) (i : ℕ) :
    Word.detected word i = false := by
  rw [Word.detected, h, Nat.zero_testBit, Bool.and_false]

theorem scanWord_eq (frame : DMAFrame) (s : Detections × UInt32) (word : ℕ) :
    frame.scanWord s word = (List.range 8).foldl
      (fun s i ↦ if Word.detected (frame.p word) i then frame.push s word i else s) s := by
  rw [scanWord]
  split_ifs with hdetect
  · rfl
  · have hnone (s : Detections × UInt32) (i : ℕ) :
        (if Word.detected (frame.p word) i then frame.push s word i else s) = s := by
      rw [if_neg]
      simp [detected_of_detect_eq_zero (not_not.mp hdetect)]
    rw [funext₂ hnone, List.foldl_fixed]

theorem foldl_words {σ : Type*} (step : σ → ℕ → σ) (width n : ℕ) (s : σ) :
    (List.range n).foldl
        (fun s word ↦ (List.range width).foldl (fun s i ↦ step s (width * word + i)) s) s =
      (List.range (width * n)).foldl step s := by
  induction n with
  | zero => rfl
  | succ n ih =>
    rw [List.range_succ, List.foldl_append, ih, Nat.mul_succ, List.range_add, List.foldl_append,
      List.foldl_map]
    rfl

/-- The body of the loop at a position. -/
def visit (frame : DMAFrame) (s : Detections × UInt32) (pos : ℕ) : Detections × UInt32 :=
  if frame.isHit pos then frame.push s (pos / 8) (pos % 8) else s

theorem scanWord_eq_visit (frame : DMAFrame) (s : Detections × UInt32) (word : ℕ) :
    frame.scanWord s word = (List.range 8).foldl (fun s i ↦ frame.visit s (8 * word + i)) s := by
  rw [scanWord_eq]
  apply List.foldl_ext
  intro s i hi
  have hlt : i < 8 := List.mem_range.mp hi
  have hdiv : (8 * word + i) / 8 = word := by omega
  have hmod : (8 * word + i) % 8 = i := by omega
  rw [visit, isHit, hdiv, hmod]

theorem scan_eq_foldl (frame : DMAFrame) :
    frame.scan =
      frame.hits.foldl (fun s pos ↦ frame.push s (pos / 8) (pos % 8)) (⟨[], [], [], []⟩, 0) := by
  rw [scan, funext₂ frame.scanWord_eq_visit, foldl_words, hits, List.foldl_filter]
  rfl

/-! ## What the loop makes of them -/

/-- The distances that are put out: every position less the sum of all positions before. -/
def distances : UInt32 → List ℕ → List UInt32
  | _, [] => []
  | sum, pos :: rest => (UInt32.ofNat pos - sum) :: distances (sum + UInt32.ofNat pos) rest

theorem foldl_push (frame : DMAFrame) (d : Detections) (sum : UInt32) (l : List ℕ) :
    l.foldl (fun s pos ↦ frame.push s (pos / 8) (pos % 8)) (d, sum) =
      ({ d with
          basis := d.basis ++ l.map frame.basisAt
          key := d.key ++ l.map frame.keyAt
          count := d.count ++ distances sum l },
        sum + (l.map UInt32.ofNat).sum) := by
  induction l generalizing d sum with
  | nil => simp [distances]
  | cons pos l ih =>
    rw [List.foldl_cons, push, Nat.div_add_mod, ih]
    simp only [List.map_cons, List.append_assoc, List.singleton_append, List.sum_cons, add_assoc,
      distances, basisAt, keyAt]

theorem scan_eq (frame : DMAFrame) :
    frame.scan = (⟨frame.hits.map frame.basisAt, frame.hits.map frame.keyAt, [],
      distances 0 frame.hits⟩, (frame.hits.map UInt32.ofNat).sum) := by
  rw [scan_eq_foldl, foldl_push, zero_add, List.nil_append, List.nil_append, List.nil_append]

theorem detects_eq (frame : DMAFrame) :
    frame.detects = ⟨frame.hits.map frame.basisAt, frame.hits.map frame.keyAt, [],
      distances 0 frame.hits ++
        [UInt32.ofNat frameSamples - (frame.hits.map UInt32.ofNat).sum]⟩ := by
  rw [detects, scan_eq]

/-! ## The mark -/

theorem detected_mark (frame : DMAFrame) (i : ℕ) :
    Word.detected (frame.p 0) i = (!(0xCD : ℕ).testBit i && (0xAB : ℕ).testBit i) := by
  have hmark : (frame.p 0).toNat / 2 ^ 16 = 0xABCD := frame.mark
  have hcalib : Word.calib (frame.p 0) = 0xCD := by
    rw [Word.calib, hmark]
    rfl
  have hdetect : Word.detect (frame.p 0) = 0xAB := by
    rw [Word.detect]
    omega
  rw [Word.detected, hcalib, hdetect]

/-- The loop takes the mark for detections at the samples 1 and 5. -/
theorem hits_eq (frame : DMAFrame) : frame.hits = 1 :: 5 :: frame.detections := by
  have hfirst : (List.range 8).filter frame.isHit = [1, 5] := by
    have hmark : ∀ pos ∈ List.range 8, frame.isHit pos =
        (!(0xCD : ℕ).testBit pos && (0xAB : ℕ).testBit pos) := by
      intro pos hpos
      have hlt : pos < 8 := List.mem_range.mp hpos
      rw [isHit, Nat.div_eq_of_lt hlt, Nat.mod_eq_of_lt hlt, detected_mark]
    rw [List.filter_congr hmark]
    decide
  have hsplit : frame.hits =
      [1, 5] ++ ((List.range (frameSamples - 8)).map (8 + ·)).filter frame.isHit := by
    rw [hits, ← hfirst, ← List.filter_append, ← List.range_add]
    rfl
  have hrest : ∀ pos ∈ ((List.range (frameSamples - 8)).map (8 + ·)).filter frame.isHit,
      decide (8 ≤ pos) = true := by
    intro pos hpos
    obtain ⟨i, _, rfl⟩ := List.mem_map.mp (List.mem_of_mem_filter hpos)
    exact decide_eq_true (Nat.le_add_right 8 i)
  have hnone : [1, 5].filter (8 ≤ ·) = [] := by decide
  rw [detections, hsplit, List.filter_append, List.filter_eq_self.mpr hrest, hnone,
    List.nil_append, List.cons_append, List.cons_append, List.nil_append]

theorem length_detects_basis (frame : DMAFrame) :
    frame.detects.basis.length = frame.detections.length + 2 := by
  have htwo (l : List ℕ) : (1 :: 5 :: l).length = l.length + 2 := rfl
  rw [detects_eq, hits_eq, List.length_map, htwo]

/-- No frame is read as it should be: there are always two bits of basis too many. -/
theorem not_extracts (frame : DMAFrame) : ¬ frame.Extracts := by
  intro h
  have hbasis := congrArg List.length h.basis
  rw [length_detects_basis, List.length_map] at hbasis
  omega

/-- The first frame, in which nothing was detected. -/
def quietFrame : DMAFrame := ⟨fun word ↦ if word = 0 then 0xABCD0000 else 0, rfl⟩

theorem not_extracts_quietFrame : quietFrame.detects.basis.length ≠ 0 ∧ ¬ quietFrame.Extracts := by
  have hlength := length_detects_basis quietFrame
  constructor
  · omega
  · intro h
    have hbasis := congrArg List.length h.basis
    rw [List.length_map] at hbasis
    omega

end DMAFrame

end QNet.Kks
