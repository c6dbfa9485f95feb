import Mathlib.Data.Prod.Basic

/-!
# Transactions whose calls may fail

The body of a transaction works on the store and makes calls, each of which may fail. A failed call
aborts the transaction when its result is checked; when it is not, the body goes on without it. The
program dies when it follows a pointer that was never set. `transact` begins a transaction, runs
the body and commits; an abort and a failed commit leave the store as it was.

An operation is atomic when it reports success with all effects of its body, or failure with none.
The body to compare with is the one whose unchecked calls succeed.
-/

namespace QNet

universe u

variable {σ ρ α β : Type u}

/-- A body ends early when it aborts, with a result, or when the program dies. -/
abbrev Txn (σ ρ α : Type u) := StateT σ (Except (Option ρ)) α

namespace Txn

/-- A call that reads the store; when it fails the transaction is aborted with the result `r`. -/
def read (fails : Bool) (f : σ → Option α) (r : ρ) : Txn σ ρ α := fun s ↦
  match if fails then none else f s with
  | none => .error (some r)
  | some a => .ok (a, s)

/-- A call that changes the store, likewise. -/
def change (fails : Bool) (f : σ → Option σ) (r : ρ) : Txn σ ρ PUnit := fun s ↦
  match if fails then none else f s with
  | none => .error (some r)
  | some t => .ok (⟨⟩, t)

/-- A call whose failure is an answer. -/
def attempt (fails : Bool) (f : σ → Option (α × σ)) : Txn σ ρ (Option α) := fun s ↦
  match if fails then none else f s with
  | none => .ok (none, s)
  | some next => .ok (some next.1, next.2)

/-- A call whose result is not looked at. -/
def unchecked (fails : Bool) (f : σ → σ) : Txn σ ρ PUnit := fun s ↦
  .ok (⟨⟩, if fails then s else f s)

/-- The body follows a pointer. -/
def follow (invalid : Bool) : Txn σ ρ PUnit := fun s ↦
  if invalid then .error none else .ok (⟨⟩, s)

theorem pure_apply (a : α) (s : σ) : (pure a : Txn σ ρ α) s = .ok (a, s) := rfl

theorem bind_apply (first : Txn σ ρ α) (rest : α → Txn σ ρ β) (s : σ) :
    (first >>= rest) s =
      match first s with
      | .error early => .error early
      | .ok (a, t) => rest a t := by
  change Except.bind (first s) (fun next ↦ rest next.1 next.2) = _
  cases first s with
  | error early => rfl
  | ok next => rfl

/-! ## How a body ends -/

/-- When the body ends early, then in a way that `P` allows, and otherwise with a result and a store
that `Q` allows. -/
def Ends (P : Option ρ → Prop) (Q : α → σ → Prop) (body : Txn σ ρ α) (s : σ) : Prop :=
  match body s with
  | .error early => P early
  | .ok (a, t) => Q a t

theorem ends_congr {P : Option ρ → Prop} {Q Q' : α → σ → Prop} {body : Txn σ ρ α} {s : σ}
    (h : ∀ a t, body s = .ok (a, t) → (Q a t ↔ Q' a t)) :
    Ends P Q body s ↔ Ends P Q' body s := by
  unfold Ends
  cases hbody : body s with
  | error early => rfl
  | ok next => exact h next.1 next.2 hbody

theorem ends_false_iff {Q : α → σ → Prop} {body : Txn σ ρ α} {s : σ} :
    Ends (fun _ ↦ False) Q body s ↔ ∃ a t, body s = .ok (a, t) ∧ Q a t := by
  unfold Ends
  cases body s with
  | error early => simp
  | ok next =>
    obtain ⟨a, t⟩ := next
    constructor
    · intro hQ
      exact ⟨a, t, rfl, hQ⟩
    · intro ⟨_, _, heq, hQ⟩
      cases heq
      exact hQ

theorem forall_ok_iff {R : α → σ → Prop} {body : Txn σ ρ α} {s t : σ} {a : α}
    (h : body s = .ok (a, t)) : (∀ b u, body s = .ok (b, u) → R b u) ↔ R a t := by
  constructor
  · intro hall
    exact hall a t h
  · intro hR b u hb
    cases h.symm.trans hb
    exact hR

section Rules

variable {P : Option ρ → Prop} {Q : β → σ → Prop} {rest : α → Txn σ ρ β} {s : σ}

@[simp]
theorem ends_pure {b : β} : Ends P Q (pure b : Txn σ ρ β) s ↔ Q b s := Iff.rfl

theorem ends_bind {first : Txn σ ρ α} :
    Ends P Q (first >>= rest) s ↔ Ends P (fun a t ↦ Ends P Q (rest a) t) first s := by
  unfold Ends
  rw [bind_apply]
  cases first s with
  | error early => rfl
  | ok next => rfl

/-- A call that fails or goes on with what it was given. -/
theorem ends_call {γ : Type u} (fails : Bool) (f : σ → Option γ) (failed : Txn σ ρ β)
    (done : γ → Txn σ ρ β) :
    Ends P Q (fun s ↦ match if fails then none else f s with
        | none => failed s
        | some a => done a s) s ↔
      (fails = true ∨ f s = none → Ends P Q failed s) ∧
        (fails = false → ∀ a, f s = some a → Ends P Q (done a) s) := by
  cases fails with
  | true => simp [Ends]
  | false =>
    cases hf : f s with
    | none => simp [Ends, hf]
    | some a => simp [Ends, hf]

@[simp]
theorem ends_read {fails : Bool} {f : σ → Option β} {r : ρ} :
    Ends P Q (read fails f r) s ↔
      (fails = true ∨ f s = none → P (some r)) ∧ (fails = false → ∀ b, f s = some b → Q b s) :=
  ends_call fails f (fun _ ↦ .error (some r)) fun b s ↦ .ok (b, s)

@[simp]
theorem ends_change {fails : Bool} {f : σ → Option σ} {r : ρ} {Q : PUnit → σ → Prop} :
    Ends P Q (change fails f r) s ↔
      (fails = true ∨ f s = none → P (some r)) ∧ (fails = false → ∀ t, f s = some t → Q ⟨⟩ t) :=
  ends_call fails f (fun _ ↦ .error (some r)) fun t _ ↦ .ok (PUnit.unit, t)

theorem ends_ite {c : Prop} [Decidable c] {yes no : Txn σ ρ β} :
    Ends P Q (if c then yes else no) s ↔ (c → Ends P Q yes s) ∧ (¬ c → Ends P Q no s) := by
  by_cases h : c
  · simp [h]
  · simp [h]

@[simp]
theorem ends_attempt {fails : Bool} {f : σ → Option (α × σ)} {Q : Option α → σ → Prop} :
    Ends P Q (attempt fails f) s ↔
      (fails = true ∨ f s = none → Q none s) ∧
        (fails = false → ∀ a t, f s = some (a, t) → Q (some a) t) := by
  unfold Ends attempt
  cases fails with
  | true => simp
  | false =>
    cases f s with
    | none => simp
    | some next =>
      obtain ⟨a, t⟩ := next
      simp

@[simp]
theorem ends_unchecked {fails : Bool} {f : σ → σ} {Q : PUnit → σ → Prop} :
    Ends P Q (unchecked fails f) s ↔ Q ⟨⟩ (if fails then s else f s) := Iff.rfl

@[simp]
theorem ends_follow {invalid : Bool} {Q : PUnit → σ → Prop} :
    Ends P Q (follow invalid) s ↔ (invalid = true → P none) ∧ (invalid = false → Q ⟨⟩ s) := by
  unfold Ends follow
  cases invalid with
  | true => simp
  | false => simp

end Rules

/-! ## Transactions -/

/-- A transaction around a body, and the result that is reported with the store it leaves; `none`
when the program dies. `refused` is reported when the transaction cannot be begun, and `lost` says
what becomes of the body's result when the commit fails. -/
def transact (beginFails commitFails : Bool) (refused : ρ) (lost : ρ → ρ) (body : Txn σ ρ ρ)
    (s : σ) : Option (ρ × σ) :=
  if beginFails then some (refused, s)
  else
    match body s with
    | .error none => none
    | .error (some r) => some (r, s)
    | .ok (r, t) => if commitFails then some (lost r, s) else some (r, t)

/-- Success is reported with all effects of the body, or failure with none. -/
def Atomic (success : ρ → Prop) (same : σ → σ → Prop) (full : Txn σ ρ ρ) (s : σ) :
    Option (ρ × σ) → Prop
  | none => False
  | some (r, t) =>
      success r ∧ (∃ r' all, full s = .ok (r', all) ∧ same t all) ∨ ¬ success r ∧ same t s

variable {beginFails commitFails : Bool} {refused : ρ} {lost : ρ → ρ} {body full : Txn σ ρ ρ}
  {s : σ} {success : ρ → Prop} {same : σ → σ → Prop}

/-- The body aborts with failures only, and comes to its end with a success only. -/
def Reports (success : ρ → Prop) (body : Txn σ ρ ρ) (s : σ) : Prop :=
  Ends (fun early ↦ ∀ r, early = some r → ¬ success r) (fun r _ ↦ success r) body s

/-- What makes a transaction atomic: the program does not die, and when the body comes to its end it
has done all it was to do, and a failed commit is reported or nothing was to be changed. -/
theorem atomic_transact_iff (hsame : ∀ s, same s s) (hrefused : ¬ success refused)
    (hreports : Reports success body s)
    (hfull : ∀ r t, body s = .ok (r, t) → ∃ r' all, full s = .ok (r', all)) :
    Atomic success same full s (transact beginFails commitFails refused lost body s) ↔
      (beginFails = false →
        Ends (· ≠ none)
          (fun r t ↦ ∀ r' all, full s = .ok (r', all) →
            if commitFails then success (lost r) → same s all else same t all) body s) := by
  unfold transact
  cases beginFails with
  | true => exact iff_of_true (Or.inr ⟨hrefused, hsame s⟩) nofun
  | false =>
    unfold Reports Ends at *
    cases hbody : body s with
    | error early =>
      rw [hbody] at hreports
      cases early with
      | none => simp [Atomic]
      | some r =>
        refine iff_of_true (Or.inr ⟨hreports r rfl, hsame s⟩) fun _ ↦ ?_
        exact Option.some_ne_none r
    | ok next =>
      obtain ⟨r, t⟩ := next
      rw [hbody] at hreports
      obtain ⟨r', all, hall⟩ := hfull r t hbody
      have hsuccess : success r := hreports
      have hunique (u : σ) : (∃ r' all, full s = .ok (r', all) ∧ same u all) ↔ same u all := by
        constructor
        · intro ⟨_, _, hfound, hu⟩
          cases hall.symm.trans hfound
          exact hu
        · intro hu
          exact ⟨r', all, hall, hu⟩
      cases commitFails with
      | true =>
        by_cases hlost : success (lost r)
        · simp only [Atomic, hunique]
          simp [hall, hlost]
        · simp only [Atomic, hunique]
          simp [hlost, hsame s]
      | false =>
        simp only [Atomic, hunique]
        simp [hall, hsuccess]

/-- The same for a body all of whose calls are checked. -/
theorem atomic_transact_self_iff (hsame : ∀ s, same s s) (hrefused : ¬ success refused)
    (hreports : Reports success body s) :
    Atomic success same body s (transact beginFails commitFails refused lost body s) ↔
      (beginFails = false →
        Ends (· ≠ none) (fun r t ↦ commitFails = true → success (lost r) → same s t) body s) := by
  rw [atomic_transact_iff hsame hrefused hreports fun r t h ↦ ⟨r, t, h⟩]
  apply imp_congr_right
  intro _
  apply ends_congr
  intro r t hbody
  cases commitFails with
  | true => simp [hbody]
  | false => simp [hbody, hsame t]

end Txn

end QNet
