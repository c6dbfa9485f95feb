import Mathlib.Data.List.Nodup
import Mathlib.Logic.Function.Basic

/-!
# Circular linked lists

Nodes with a link to the next one, of which the last links back to the first. The functions are the
loops of C code on such a list; they count their rounds down from `fuel`, and `none` means that it
did not suffice. On a circular list as many rounds as there are nodes suffice.
-/

namespace QNet

variable {α : Type*} {next next' : α → α} {head a new : α} {l rest : List α}

/-- From `a` the links lead through `l` and then to `head`. -/
def Leads (next : α → α) (head : α) : α → List α → Prop
  | a, [] => next a = head
  | a, b :: rest => next a = b ∧ Leads next head b rest

/-- The links lead from `head` through `rest` and back. -/
structure Circular (next : α → α) (head : α) (rest : List α) : Prop where
  nodup : (head :: rest).Nodup
  leads : Leads next head head rest

theorem Leads.congr (h : Leads next head a l) (heq : ∀ b ∈ a :: l, next' b = next b) :
    Leads next' head a l := by
  induction l generalizing a with
  | nil => exact (heq a List.mem_cons_self).trans h
  | cons b rest ih =>
    refine ⟨(heq a List.mem_cons_self).trans h.1, ih h.2 fun c hc ↦ heq c ?_⟩
    exact List.mem_cons_of_mem _ hc

theorem Leads.next_ne {b : α} (h : Leads next head a (b :: rest)) (hhead : head ∉ b :: rest) :
    next a ≠ head := by
  intro heq
  rw [← heq, h.1] at hhead
  exact hhead List.mem_cons_self

theorem Leads.next_mem (h : Leads next head a l) {b : α} (hb : b ∈ a :: l) :
    next b = head ∨ next b ∈ l := by
  induction l generalizing a with
  | nil =>
    rw [List.mem_singleton.mp hb]
    exact .inl h
  | cons c rest ih =>
    rcases List.mem_cons.mp hb with rfl | hrest
    · exact .inr (h.1 ▸ List.mem_cons_self)
    · exact (ih h.2 hrest).imp id (List.mem_cons_of_mem _)

/-- Another node behind the last one. -/
theorem Leads.concat [DecidableEq α] (h : Leads next head a l) (hnodup : (a :: l).Nodup)
    (hnew : new ∉ a :: l) :
    Leads (Function.update (Function.update next ((a :: l).getLast (List.cons_ne_nil a l)) new)
      new head) head a (l ++ [new]) := by
  induction l generalizing a with
  | nil =>
    have hne : a ≠ new := fun heq ↦ hnew (heq ▸ List.mem_cons_self)
    refine ⟨?_, Function.update_self _ _ _⟩
    rw [Function.update_of_ne hne]
    exact Function.update_self _ _ _
  | cons b rest ih =>
    have hnodupRest := (List.nodup_cons.mp hnodup).2
    have hlast : (b :: rest).getLast (List.cons_ne_nil b rest) ∈ b :: rest := List.getLast_mem _
    have hneLast : a ≠ (b :: rest).getLast (List.cons_ne_nil b rest) :=
      fun heq ↦ (List.nodup_cons.mp hnodup).1 (heq ▸ hlast)
    have hneNew : a ≠ new := fun heq ↦ hnew (heq ▸ List.mem_cons_self)
    rw [List.getLast_cons (List.cons_ne_nil b rest)]
    refine ⟨?_, ih h.2 hnodupRest fun hmem ↦ hnew (List.mem_cons_of_mem _ hmem)⟩
    rw [Function.update_of_ne hneNew, Function.update_of_ne hneLast]
    exact h.1

namespace Circular

theorem congr (h : Circular next head rest) (heq : ∀ b ∈ head :: rest, next' b = next b) :
    Circular next' head rest := ⟨h.nodup, h.leads.congr heq⟩

/-- A node that links to itself. -/
theorem single [DecidableEq α] (next : α → α) (a : α) : Circular (Function.update next a a) a [] :=
  ⟨List.nodup_singleton a, Function.update_self _ _ _⟩

theorem next_mem (h : Circular next head rest) {b : α} (hb : b ∈ head :: rest) :
    next b ∈ head :: rest := by
  rcases h.leads.next_mem hb with hhead | hrest
  · exact hhead ▸ List.mem_cons_self
  · exact List.mem_cons_of_mem _ hrest

theorem append [DecidableEq α] (h : Circular next head rest) (hnew : new ∉ head :: rest) :
    Circular (Function.update
      (Function.update next ((head :: rest).getLast (List.cons_ne_nil head rest)) new) new head)
      head (rest ++ [new]) := by
  refine ⟨?_, h.leads.concat h.nodup hnew⟩
  rw [← List.cons_append]
  exact h.nodup.append (List.nodup_singleton new) (by simpa using hnew)

end Circular

/-! ## Loops -/

section Loops

variable [DecidableEq α]

/-- `k = a; while (k->next != head) k = k->next;` -/
def findLast (next : α → α) (head : α) : ℕ → α → Option α
  | 0, _ => none
  | fuel + 1, k => if next k = head then some k else findLast next head fuel (next k)

/-- `for (k = a;; k = k->next)`, left where `p` holds or, without a result, before `head`. -/
def search (next : α → α) (head : α) (p : α → Bool) : ℕ → α → Option (Option α)
  | 0, _ => none
  | fuel + 1, k =>
      if p k then some (some k)
      else if next k = head then some none
      else search next head p fuel (next k)

/-- The nodes that `search` looks at. -/
def visited (next : α → α) (head : α) (p : α → Bool) : ℕ → α → List α
  | 0, _ => []
  | fuel + 1, k =>
      k :: if p k || decide (next k = head) then [] else visited next head p fuel (next k)

/-- The nodes from `a` on up to the last one. -/
def nodes (next : α → α) (head : α) : ℕ → α → Option (List α)
  | 0, _ => none
  | fuel + 1, k =>
      if next k = head then some [k] else (nodes next head fuel (next k)).map (k :: ·)

omit [DecidableEq α] in
/-- Induction for the loops: in each round the loop is at the last node, or it goes on to the
next. -/
theorem Leads.rounds_induction {P : ℕ → α → List α → Prop}
    (hlast : ∀ fuel a, next a = head → P (fuel + 1) a [])
    (hmore : ∀ fuel a rest, next a ≠ head → P fuel (next a) rest →
      P (fuel + 1) a (next a :: rest))
    {fuel : ℕ} (h : Leads next head a l) (hhead : head ∉ l) (hfuel : l.length < fuel) :
    P fuel a l := by
  induction l generalizing a fuel with
  | nil =>
    obtain ⟨fuel, rfl⟩ : ∃ n, fuel = n + 1 := ⟨fuel - 1, by omega⟩
    exact hlast fuel a h
  | cons b rest ih =>
    rw [List.length_cons] at hfuel
    obtain ⟨fuel, rfl⟩ : ∃ n, fuel = n + 1 := ⟨fuel - 1, by omega⟩
    have hnext : next a = b := h.1
    have hne := h.next_ne hhead
    subst hnext
    exact hmore fuel a rest hne
      (ih h.2 (fun hmem ↦ hhead (List.mem_cons_of_mem _ hmem)) (by omega))

theorem Leads.findLast_eq {fuel : ℕ} (h : Leads next head a l) (hhead : head ∉ l)
    (hfuel : l.length < fuel) :
    findLast next head fuel a = some ((a :: l).getLast (List.cons_ne_nil a l)) := by
  refine rounds_induction
    (P := fun fuel a l ↦ findLast next head fuel a = some ((a :: l).getLast (List.cons_ne_nil a l)))
    ?_ ?_ h hhead hfuel
  · intro fuel a hback
    rw [findLast, if_pos hback]
    rfl
  · intro fuel a rest hne ih
    rw [findLast, if_neg hne, ih, List.getLast_cons (List.cons_ne_nil _ rest)]

theorem Leads.search_eq {p : α → Bool} {fuel : ℕ} (h : Leads next head a l) (hhead : head ∉ l)
    (hfuel : l.length < fuel) : search next head p fuel a = some ((a :: l).find? p) := by
  refine rounds_induction (P := fun fuel a l ↦ search next head p fuel a = some ((a :: l).find? p))
    ?_ ?_ h hhead hfuel
  · intro fuel a hback
    rw [search, if_pos hback]
    cases hp : p a <;> simp [hp]
  · intro fuel a rest hne ih
    rw [search, if_neg hne, ih]
    cases hp : p a <;> simp [hp]

theorem Leads.nodes_eq {fuel : ℕ} (h : Leads next head a l) (hhead : head ∉ l)
    (hfuel : l.length < fuel) : nodes next head fuel a = some (a :: l) := by
  refine rounds_induction (P := fun fuel a l ↦ nodes next head fuel a = some (a :: l))
    ?_ ?_ h hhead hfuel
  · intro fuel a hback
    rw [nodes, if_pos hback]
  · intro fuel a rest hne ih
    rw [nodes, if_neg hne, ih, Option.map_some]

namespace Circular

variable {fuel : ℕ} (h : Circular next head rest) (hfuel : rest.length < fuel)

include h hfuel

theorem findLast_eq :
    findLast next head fuel head =
      some ((head :: rest).getLast (List.cons_ne_nil head rest)) :=
  h.leads.findLast_eq (List.nodup_cons.mp h.nodup).1 hfuel

theorem search_eq (p : α → Bool) :
    search next head p fuel head = some ((head :: rest).find? p) :=
  h.leads.search_eq (List.nodup_cons.mp h.nodup).1 hfuel

theorem nodes_eq : nodes next head fuel head = some (head :: rest) :=
  h.leads.nodes_eq (List.nodup_cons.mp h.nodup).1 hfuel

omit hfuel

/-- A search does not leave the list. -/
theorem visited_subset (p : α → Bool) {a : α} (ha : a ∈ head :: rest) :
    ∀ b ∈ visited next head p fuel a, b ∈ head :: rest := by
  induction fuel generalizing a with
  | zero => exact nofun
  | succ fuel ih =>
    rw [visited, List.forall_mem_cons]
    refine ⟨ha, ?_⟩
    split_ifs
    · exact nofun
    · exact ih (h.next_mem ha)

end Circular

end Loops

end QNet
