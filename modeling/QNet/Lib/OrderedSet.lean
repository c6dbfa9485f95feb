import Mathlib.Data.List.Nodup
import Mathlib.Data.List.Infix

/-!
# Sets in the order of adding

An `OrderedSet` is a list without repetitions: a new element comes to its end, an element that is
there already stays in its place, and removing one keeps the others in their order. After any
sequence of changes the set contains what was added and not removed since.
-/

namespace QNet

variable {α : Type*}

structure OrderedSet (α : Type*) where
  toList : List α
  nodup : toList.Nodup

namespace OrderedSet

instance : Membership α (OrderedSet α) := ⟨fun s a ↦ a ∈ s.toList⟩

theorem mem_def {s : OrderedSet α} {a : α} : a ∈ s ↔ a ∈ s.toList := Iff.rfl

def empty : OrderedSet α := ⟨[], List.nodup_nil⟩

inductive Change (α : Type*)
  | add (a : α)
  | remove (a : α)

variable [DecidableEq α]

def add (s : OrderedSet α) (a : α) : OrderedSet α :=
  if h : a ∈ s.toList then s
  else
    { toList := s.toList ++ [a]
      nodup := s.nodup.append (List.nodup_singleton a) (List.disjoint_singleton.mpr h) }

def remove (s : OrderedSet α) (a : α) : OrderedSet α where
  toList := s.toList.erase a
  nodup := s.nodup.erase a

theorem add_of_mem {s : OrderedSet α} {a : α} (h : a ∈ s) : s.add a = s := dif_pos h

theorem toList_add_of_notMem {s : OrderedSet α} {a : α} (h : a ∉ s) :
    (s.add a).toList = s.toList ++ [a] := by
  rw [add, dif_neg (mem_def.not.mp h)]

theorem toList_remove (s : OrderedSet α) (a : α) : (s.remove a).toList = s.toList.erase a := rfl

theorem remove_of_notMem {s : OrderedSet α} {a : α} (h : a ∉ s) : s.remove a = s := by
  simp only [remove, List.erase_of_not_mem (mem_def.not.mp h)]

theorem mem_add_iff {s : OrderedSet α} {a b : α} : b ∈ s.add a ↔ b = a ∨ b ∈ s := by
  by_cases h : a ∈ s
  · rw [add_of_mem h]
    constructor
    · exact Or.inr
    · rintro (rfl | hb)
      · exact h
      · exact hb
  · rw [mem_def, toList_add_of_notMem h, List.mem_append, List.mem_singleton, or_comm]
    rfl

theorem mem_remove_iff {s : OrderedSet α} {a b : α} : b ∈ s.remove a ↔ b ≠ a ∧ b ∈ s :=
  s.nodup.mem_erase_iff

def change (s : OrderedSet α) : Change α → OrderedSet α
  | .add a => s.add a
  | .remove a => s.remove a

/-- The set after these changes, from the empty one on. -/
def after (changes : List (Change α)) : OrderedSet α := changes.foldl change empty

theorem after_concat (changes : List (Change α)) (c : Change α) :
    after (changes ++ [c]) = (after changes).change c := by
  rw [after, List.foldl_append]
  rfl

/-- The set contains what was added and not removed since. -/
theorem mem_after_iff {changes : List (Change α)} {a : α} :
    a ∈ after changes ↔
      ∃ before since, changes = before ++ .add a :: since ∧ Change.remove a ∉ since := by
  induction changes using List.reverseRecOn with
  | nil =>
    refine iff_of_false List.not_mem_nil ?_
    rintro ⟨before, since, h, _⟩
    exact List.append_ne_nil_of_right_ne_nil _ (List.cons_ne_nil _ _) h.symm
  | append_singleton changes c ih =>
    rw [after_concat]
    have hearlier (hc : c ≠ .remove a) (ha : a ∈ after changes) :
        ∃ before since, changes ++ [c] = before ++ .add a :: since ∧ Change.remove a ∉ since := by
      obtain ⟨before, since, rfl, hsince⟩ := ih.mp ha
      refine ⟨before, since ++ [c], by rw [List.append_assoc]; rfl, fun hmem ↦ ?_⟩
      rcases List.mem_append.mp hmem with hmem | hmem
      · exact hsince hmem
      · exact hc (List.mem_singleton.mp hmem).symm
    have hlater (h : ∃ before since, changes ++ [c] = before ++ .add a :: since ∧
        Change.remove a ∉ since) : c = .add a ∨ c ≠ .remove a ∧ a ∈ after changes := by
      obtain ⟨before, since, h, hsince⟩ := h
      rcases List.eq_nil_or_concat since with rfl | ⟨since, last, rfl⟩
      · exact Or.inl (List.append_inj_right' h rfl |> List.singleton_inj.mp)
      · rw [List.concat_eq_append] at h hsince
        rw [← List.cons_append, ← List.append_assoc] at h
        obtain ⟨hchanges, hlast⟩ := List.append_inj' h rfl
        rw [List.singleton_inj.mp hlast]
        refine Or.inr ⟨fun hc ↦ hsince ?_, ih.mpr ⟨before, since, hchanges, fun hmem ↦ hsince ?_⟩⟩
        · exact List.mem_append_right _ (List.mem_singleton.mpr hc.symm)
        · exact List.mem_append_left _ hmem
    cases c with
    | add b =>
      rw [change, mem_add_iff]
      constructor
      · rintro (rfl | ha)
        · exact ⟨changes, [], rfl, List.not_mem_nil⟩
        · exact hearlier nofun ha
      · intro h
        rcases hlater h with hc | ⟨_, ha⟩
        · exact Or.inl (Change.add.inj hc).symm
        · exact Or.inr ha
    | remove b =>
      rw [change, mem_remove_iff]
      constructor
      · rintro ⟨hb, ha⟩
        exact hearlier (fun hc ↦ hb (Change.remove.inj hc).symm) ha
      · intro h
        rcases hlater h with hc | ⟨hc, ha⟩
        · cases hc
        · exact ⟨fun hb ↦ hc (hb ▸ rfl), ha⟩

end OrderedSet

end QNet
