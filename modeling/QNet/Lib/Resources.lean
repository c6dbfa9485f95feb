import Mathlib.Data.Int.Notation
import Mathlib.Data.List.Basic

/-!
# Resources that are released in reverse order

`held` follows the operations of a program on its resources, with those it holds on a stack: a
resource that is released has to be the one acquired last. An `Attempt` is a program that returns an
error code, zero for success, and has to give everything back when it fails. `hold` puts one more
resource around it, as functions with `goto` fall-backs do: without the resource the function fails,
and a failure of the rest releases it again. Such a function gives everything back if and only if
its rest does.
-/

namespace QNet

variable {ρ σ : Type*}

/-- An operation on a resource. -/
inductive Op (ρ : Type*)
  | acquire (r : ρ)
  | release (r : ρ)
  deriving DecidableEq

/-- An error code, the operations and a state. -/
structure Attempt (ρ σ : Type*) where
  retval : ℤ
  ops : List (Op ρ)
  state : σ

/-- The resource `r` around `body`; `refused` is the error without the resource, or zero. -/
def hold (r : ρ) (refused : ℤ) (s : σ) (body : Attempt ρ σ) : Attempt ρ σ :=
  if refused ≠ 0 then ⟨refused, [], s⟩
  else
    { body with
      ops := .acquire r :: body.ops ++ if body.retval ≠ 0 then [.release r] else [] }

variable [DecidableEq ρ]

/-- The resources held after the operations, the last one first; `none` where another one than the
last one has been released. -/
def held : List ρ → List (Op ρ) → Option (List ρ)
  | stack, [] => some stack
  | stack, .acquire r :: rest => held (r :: stack) rest
  | [], .release _ :: _ => none
  | top :: stack, .release r :: rest => if top = r then held stack rest else none

/-- A failure gives everything back, in reverse order. -/
def Undone (a : Attempt ρ σ) : Prop := a.retval ≠ 0 → held [] a.ops = some []

theorem held_append (stack : List ρ) (first second : List (Op ρ)) :
    held stack (first ++ second) = (held stack first).bind (held · second) := by
  induction first generalizing stack with
  | nil => rfl
  | cons op rest ih =>
    cases op with
    | acquire r => exact ih (r :: stack)
    | release r =>
      cases stack with
      | nil => rfl
      | cons top stack =>
        rw [List.cons_append, held, held]
        split
        · exact ih stack
        · rfl

/-- A resource below the others is not touched by operations that do not release it. -/
theorem held_concat {r : ρ} {ops : List (Op ρ)} (h : .release r ∉ ops) (stack : List ρ) :
    held (stack ++ [r]) ops = (held stack ops).map (· ++ [r]) := by
  induction ops generalizing stack with
  | nil => rfl
  | cons op rest ih =>
    have hrest : .release r ∉ rest := fun hmem ↦ h (List.mem_cons_of_mem _ hmem)
    cases op with
    | acquire r' => exact ih hrest (r' :: stack)
    | release r' =>
      cases stack with
      | nil =>
        have hne : r ≠ r' := by
          rintro rfl
          exact h List.mem_cons_self
        exact if_neg hne
      | cons top stack =>
        rw [List.cons_append, held, held]
        split
        · exact ih hrest stack
        · rfl

section Hold

variable {r : ρ} {refused : ℤ} {s : σ} {body : Attempt ρ σ}

omit [DecidableEq ρ]

theorem hold_of_refused (h : refused ≠ 0) : hold r refused s body = ⟨refused, [], s⟩ := if_pos h

theorem hold_zero :
    hold r 0 s body =
      { body with
        ops := .acquire r :: body.ops ++ if body.retval ≠ 0 then [.release r] else [] } :=
  if_neg (not_not.mpr rfl)

theorem retval_hold_eq_zero_iff :
    (hold r refused s body).retval = 0 ↔ refused = 0 ∧ body.retval = 0 := by
  by_cases h : refused = 0
  · rw [h, hold_zero, and_iff_right rfl]
  · rw [hold_of_refused h]
    exact iff_of_false h fun hboth ↦ h hboth.1

theorem release_mem_hold {x : ρ} (h : .release x ∈ (hold r refused s body).ops) :
    x = r ∨ .release x ∈ body.ops := by
  by_cases hrefused : refused = 0
  · rw [hrefused, hold_zero] at h
    rcases List.mem_append.mp h with hops | hlast
    · rcases List.mem_cons.mp hops with hfirst | hbody
      · cases hfirst
      · exact .inr hbody
    · split at hlast
      · left
        simpa using hlast
      · cases hlast
  · rw [hold_of_refused hrefused] at h
    cases h

end Hold

/-- One more resource around a program is given back if and only if the others are. -/
theorem undone_hold_iff {r : ρ} {refused : ℤ} {s : σ} {body : Attempt ρ σ}
    (h : .release r ∉ body.ops) :
    Undone (hold r refused s body) ↔ (refused = 0 → Undone body) := by
  by_cases hrefused : refused = 0
  · rw [hrefused, hold_zero]
    unfold Undone
    dsimp only
    by_cases hdone : body.retval = 0
    · exact iff_of_true (fun hfails ↦ absurd hdone hfails) fun _ hfails ↦ absurd hdone hfails
    · have hstack : held [] (.acquire r :: body.ops ++ [.release r]) =
          ((held [] body.ops).map (· ++ [r])).bind (held · [.release r]) := by
        rw [held_append]
        exact congrArg (Option.bind · _) (held_concat h [])
      rw [if_pos hdone, hstack]
      cases held [] body.ops with
      | none => simp [hdone]
      | some stack =>
        cases stack with
        | nil => simp [hdone, held]
        | cons top stack =>
          refine iff_of_false (fun hall ↦ ?_) fun hall ↦ by simpa using hall rfl hdone
          have hlast : held (top :: (stack ++ [r])) [.release r] = some [] := hall hdone
          rw [held, held] at hlast
          split at hlast <;> simp at hlast
  · rw [hold_of_refused hrefused]
    exact iff_of_true (fun _ ↦ rfl) fun hzero ↦ absurd hzero hrefused

/-! ## Several resources -/

/-- The resources `steps` around `body`, the first one outermost, each with the error without it. -/
def holdAll (steps : List (ρ × ℤ)) (s : σ) (body : Attempt ρ σ) : Attempt ρ σ :=
  steps.foldr (fun step rest ↦ hold step.1 step.2 s rest) body

/-- None of the resources is refused. -/
def Granted (steps : List (ρ × ℤ)) : Prop := ∀ step ∈ steps, step.2 = 0

section HoldAll

variable {steps : List (ρ × ℤ)} {s : σ} {body : Attempt ρ σ}

omit [DecidableEq ρ]

theorem granted_nil : Granted ([] : List (ρ × ℤ)) := List.forall_mem_nil _

theorem granted_cons_iff {step : ρ × ℤ} :
    Granted (step :: steps) ↔ step.2 = 0 ∧ Granted steps := List.forall_mem_cons

theorem retval_holdAll_eq_zero_iff :
    (holdAll steps s body).retval = 0 ↔ Granted steps ∧ body.retval = 0 := by
  induction steps with
  | nil => exact (and_iff_right granted_nil).symm
  | cons step rest ih =>
    rw [granted_cons_iff, and_assoc, ← ih]
    exact retval_hold_eq_zero_iff

/-- A program whose resources are refused leaves the state as it is. -/
theorem state_holdAll_of_not_granted (h : ¬ Granted steps) : (holdAll steps s body).state = s := by
  induction steps with
  | nil => exact absurd granted_nil h
  | cons step rest ih =>
    change (hold step.1 step.2 s (holdAll rest s body)).state = s
    by_cases hstep : step.2 = 0
    · rw [hstep, hold_zero]
      exact ih fun hrest ↦ h (granted_cons_iff.mpr ⟨hstep, hrest⟩)
    · rw [hold_of_refused hstep]

theorem state_holdAll_of_granted (h : Granted steps) :
    (holdAll steps s body).state = body.state := by
  induction steps with
  | nil => rfl
  | cons step rest ih =>
    obtain ⟨hstep, hrest⟩ := granted_cons_iff.mp h
    change (hold step.1 step.2 s (holdAll rest s body)).state = body.state
    rw [hstep, hold_zero]
    exact ih hrest

theorem release_mem_holdAll {x : ρ} (h : .release x ∈ (holdAll steps s body).ops) :
    x ∈ steps.map Prod.fst ∨ .release x ∈ body.ops := by
  induction steps with
  | nil => exact .inr h
  | cons step rest ih =>
    rcases release_mem_hold h with rfl | hrest
    · exact .inl List.mem_cons_self
    · exact (ih hrest).imp_left (List.mem_cons_of_mem _)

end HoldAll

/-- Resources of which there is one each are given back if and only if those of the rest are. -/
theorem undone_holdAll_iff {steps : List (ρ × ℤ)} {s : σ} {body : Attempt ρ σ}
    (hnodup : (steps.map Prod.fst).Nodup)
    (h : ∀ r ∈ steps.map Prod.fst, .release r ∉ body.ops) :
    Undone (holdAll steps s body) ↔ (Granted steps → Undone body) := by
  induction steps with
  | nil => exact (imp_iff_right granted_nil).symm
  | cons step rest ih =>
    obtain ⟨hstep, hrest⟩ := List.nodup_cons.mp hnodup
    have hbelow : .release step.1 ∉ (holdAll rest s body).ops := fun hmem ↦
      (release_mem_holdAll hmem).elim hstep (h _ List.mem_cons_self)
    rw [granted_cons_iff, and_imp, ← ih hrest fun r hr ↦ h r (List.mem_cons_of_mem _ hr)]
    exact undone_hold_iff hbelow

end QNet
