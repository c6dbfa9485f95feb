import Mathlib.Algebra.BigOperators.Group.List.Basic
import Mathlib.Algebra.Group.Basic

/-!
# Positions given by distances

A list of positions is written down as the distances between neighbours. `runningSums` gives the
positions back; a list of distances that is joined to another in the middle of a distance gives the
positions of both, one behind the other (`runningSums_join`).
-/

namespace QNet.Relative

variable {M : Type*} [AddCommGroup M]

/-- The positions behind `start`. -/
def runningSums : M → List M → List M
  | _, [] => []
  | start, distance :: distances => (start + distance) :: runningSums (start + distance) distances

theorem runningSums_append (start : M) (first second : List M) :
    runningSums start (first ++ second) =
      runningSums start first ++ runningSums (start + first.sum) second := by
  induction first generalizing start with
  | nil => rw [List.sum_nil, add_zero]; rfl
  | cons distance first ih =>
    rw [List.cons_append, runningSums, ih, runningSums, List.sum_cons, add_assoc]
    rfl

theorem runningSums_add (shift start : M) (distances : List M) :
    runningSums (shift + start) distances = (runningSums start distances).map (shift + ·) := by
  induction distances generalizing start with
  | nil => rfl
  | cons distance distances ih =>
    rw [runningSums, add_assoc, ih, runningSums, List.map_cons]

/-- The last distance of the first list is added to the first one of the second. -/
theorem runningSums_join (first second : List M) (last distance : M) :
    runningSums 0 (first ++ (distance + last) :: second) =
      runningSums 0 first ++ (runningSums 0 (distance :: second)).map (first.sum + last + ·) := by
  have hjoined : first.sum + (distance + last) = first.sum + last + distance := by
    rw [add_comm distance, add_assoc]
  rw [runningSums_append, ← runningSums_add, add_zero, runningSums, runningSums, zero_add, hjoined]

end QNet.Relative
