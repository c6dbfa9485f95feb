import Mathlib.Data.List.Basic
import Mathlib.Data.List.Infix

/-!
# Labelled machines and their runs

A `Machine` is a set of initial states and a labelled step relation. A run is a finite sequence
of events from an initial state; invariants are proved once for one step and carried to every
run. `Machine.guard` keeps only the steps which meet a condition on the state before the step
and on the event, so that "in every run all of whose steps meet the condition" is a run of the
guarded machine.

Programs that answer every input with an output are deterministic; `feed` runs such a program
on a list of inputs and collects its outputs. A program that may be undefined is compared with one
that is not by a relation of their states.
-/

namespace QNet

variable {σ ε ω τ : Type*}

structure Machine (σ ε : Type*) where
  init : σ → Prop
  step : σ → ε → σ → Prop

namespace Machine

variable {M : Machine σ ε}

/-- `M.Run events s`: the events, in this order, lead from an initial state to `s`. -/
inductive Run (M : Machine σ ε) : List ε → σ → Prop
  | start {s : σ} : M.init s → Run M [] s
  | snoc {events : List ε} {s t : σ} {e : ε} :
      Run M events s → M.step s e t → Run M (events ++ [e]) t

def Reachable (M : Machine σ ε) (s : σ) : Prop := ∃ events, M.Run events s

/-- The machine which takes only the steps that meet `C`. -/
def guard (M : Machine σ ε) (C : σ → ε → Prop) : Machine σ ε where
  init := M.init
  step s e t := M.step s e t ∧ C s e

/-- The induction rule: what holds initially and is kept by every step holds along every run. -/
theorem Run.invariant {P : σ → Prop} {events : List ε} {s : σ} (hrun : M.Run events s)
    (hinit : ∀ s, M.init s → P s)
    (hstep : ∀ s e t, P s → M.step s e t → P t) : P s := by
  induction hrun with
  | start h => exact hinit _ h
  | snoc _ hlast ih => exact hstep _ _ _ ih hlast

theorem Reachable.invariant {P : σ → Prop} {s : σ} (hreach : M.Reachable s)
    (hinit : ∀ s, M.init s → P s)
    (hstep : ∀ s e t, P s → M.step s e t → P t) : P s := by
  obtain ⟨_, hrun⟩ := hreach
  exact hrun.invariant hinit hstep

/-- The last step of a run. -/
theorem Run.of_append_singleton {events : List ε} {e : ε} {t : σ} (h : M.Run (events ++ [e]) t) :
    ∃ s, M.Run events s ∧ M.step s e t := by
  generalize hevents : events ++ [e] = all at h
  cases h with
  | start => simp at hevents
  | snoc hbefore hlast =>
    obtain ⟨rfl, rfl⟩ := List.append_singleton_inj.mp hevents
    exact ⟨_, hbefore, hlast⟩

theorem Run.of_guard {C : σ → ε → Prop} {events : List ε} {s : σ}
    (h : (M.guard C).Run events s) : M.Run events s := by
  induction h with
  | start h => exact .start h
  | snoc _ hlast ih => exact .snoc ih hlast.1

/-- The machine of a step function which is undefined where an event cannot happen. -/
def ofNext (start : σ) (next : σ → ε → Option σ) : Machine σ ε where
  init s := s = start
  step s e t := next s e = some t

/-- Runs of an executable machine are computed by folding its step function. -/
theorem run_ofNext_iff {start : σ} {next : σ → ε → Option σ} {events : List ε} {s : σ} :
    (ofNext start next).Run events s ↔ events.foldlM next start = some s := by
  constructor
  · intro hrun
    induction hrun with
    | start h => rw [List.foldlM_nil, h]; rfl
    | snoc _ hlast ih =>
      rw [List.foldlM_append, ih]
      exact (bind_pure _).trans hlast
  · induction events using List.reverseRecOn generalizing s with
    | nil =>
      intro h
      exact .start (Option.some.inj h).symm
    | append_singleton events e ih =>
      intro h
      rw [List.foldlM_append] at h
      obtain ⟨middle, hmiddle, hlast⟩ := Option.bind_eq_some_iff.mp h
      exact .snoc (ih hmiddle) ((bind_pure _).symm.trans hlast)

/-- A run of an executable machine whose last state meets a decidable condition. -/
theorem exists_run_ofNext (start : σ) (next : σ → ε → Option σ) (events : List ε) {P : σ → Prop}
    [DecidablePred P] (h : (events.foldlM next start).any (fun s ↦ decide (P s)) = true) :
    ∃ s, (ofNext start next).Run events s ∧ P s := by
  obtain ⟨s, hs, hP⟩ := (Option.any_eq_true _ _).mp h
  exact ⟨s, run_ofNext_iff.mpr hs, of_decide_eq_true hP⟩

/-- A condition on the steps is exactly what gives every step of a run a property, when under some
invariant it is so for each step, and the steps that meet the condition keep the invariant. -/
theorem forall_steps_iff {start : σ} {next : σ → ε → Option σ} {I : σ → Prop} {Q C : σ → ε → Prop}
    (hstart : I start) (hiff : ∀ s e, I s → (Q s e ↔ C s e))
    (hkeep : ∀ s e t, I s → C s e → next s e = some t → I t) (events : List ε) :
    (∀ before e s, before ++ [e] <+: events → (ofNext start next).Run before s → Q s e) ↔
      ∀ before e s, before ++ [e] <+: events → (ofNext start next).Run before s → C s e := by
  have hearlier {before : List ε} {e e' : ε} (hpart : before ++ [e] ++ [e'] <+: events) :
      before ++ [e] <+: events := (List.prefix_append _ _).trans hpart
  have hinv (hC : ∀ before e s, before ++ [e] <+: events → (ofNext start next).Run before s →
      I s → C s e) {before : List ε} {s : σ} (hrun : (ofNext start next).Run before s) :
      ∀ e, before ++ [e] <+: events → I s := by
    induction hrun with
    | start h => exact fun _ _ ↦ h ▸ hstart
    | @snoc before s t e hbefore hlast ih =>
      intro e' hpart
      have hs := ih e (hearlier hpart)
      exact hkeep s e t hs (hC before e s (hearlier hpart) hbefore hs) hlast
  constructor
  · intro hall before e s hpart hrun
    have hC (before : List ε) (e : ε) (s : σ) (hpart : before ++ [e] <+: events)
        (hrun : (ofNext start next).Run before s) (hs : I s) : C s e :=
      (hiff s e hs).mp (hall before e s hpart hrun)
    exact hC before e s hpart hrun (hinv hC hrun e hpart)
  · intro hmeets before e s hpart hrun
    have hs := hinv (fun before e s hpart hrun _ ↦ hmeets before e s hpart hrun) hrun e hpart
    exact (hiff s e hs).mpr (hmeets before e s hpart hrun)

/-- Every step of the only run on these events meets a condition. -/
def meets (next : σ → ε → Option σ) (C : σ → ε → Prop) [∀ s e, Decidable (C s e)] :
    σ → List ε → Bool
  | _, [] => true
  | s, e :: rest => decide (C s e) && (next s e).all (meets next C · rest)

/-- A condition on the steps of a run can be computed. -/
theorem forall_steps_of_meets {start : σ} {next : σ → ε → Option σ} {C : σ → ε → Prop}
    [∀ s e, Decidable (C s e)] {events : List ε} (h : meets next C start events = true)
    (before : List ε) (e : ε) (s : σ) (hpart : before ++ [e] <+: events)
    (hrun : (ofNext start next).Run before s) : C s e := by
  rw [run_ofNext_iff] at hrun
  induction before generalizing start events with
  | nil =>
    obtain ⟨rest, rfl⟩ := hpart
    obtain rfl := Option.some.inj hrun
    rw [List.nil_append, List.singleton_append, meets, Bool.and_eq_true] at h
    exact of_decide_eq_true h.1
  | cons first before ih =>
    obtain ⟨rest, rfl⟩ := hpart
    obtain ⟨middle, hmiddle, hrest⟩ := Option.bind_eq_some_iff.mp hrun
    rw [List.cons_append, List.cons_append, meets, hmiddle, Bool.and_eq_true] at h
    exact ih h.2 (List.prefix_append _ _) hrest

/-- The rule for a property of the states: it holds in every state that is reached if and only if
every step meets the condition under which it is kept. -/
theorem forall_states_iff {start : σ} {next : σ → ε → Option σ} {P : σ → Prop} {C : σ → ε → Prop}
    (hstart : P start) (hiff : ∀ s e, P s → ((∀ t, next s e = some t → P t) ↔ C s e))
    (events : List ε) :
    (∀ before s, before <+: events → (ofNext start next).Run before s → P s) ↔
      ∀ before e s, before ++ [e] <+: events → (ofNext start next).Run before s → C s e := by
  rw [← forall_steps_iff hstart hiff (fun s e t hs hC ht ↦ (hiff s e hs).mpr hC t ht) events]
  constructor
  · intro hall before e s hpart hrun t ht
    exact hall (before ++ [e]) t hpart (hrun.snoc ht)
  · intro hall before s hpart hrun
    cases hrun with
    | start h => exact h ▸ hstart
    | snoc hbefore hlast => exact hall _ _ _ hpart hbefore _ hlast

/-- A property that every step keeps exactly when it meets a condition holds at the end of a run if
and only if the run is one of the guarded machine. -/
theorem holds_iff_run_guard {start : σ} {next : σ → ε → Option σ} {I P : σ → Prop}
    {C : σ → ε → Prop} (hinv : I start) (hstart : P start)
    (hkeep : ∀ s e t, I s → next s e = some t → I t)
    (hiff : ∀ s e t, I s → next s e = some t → (P t ↔ P s ∧ C s e)) {events : List ε} {s : σ}
    (hrun : (ofNext start next).Run events s) :
    P s ↔ ((ofNext start next).guard C).Run events s := by
  have hI {events : List ε} {s : σ} (hrun : (ofNext start next).Run events s) : I s :=
    hrun.invariant (fun _ h ↦ h ▸ hinv) hkeep
  induction hrun with
  | start h => exact iff_of_true (h ▸ hstart) (.start h)
  | @snoc before s t e hbefore hlast ih =>
    rw [hiff s e t (hI hbefore) hlast]
    constructor
    · rintro ⟨hs, hC⟩
      exact .snoc (ih.mp hs) ⟨hlast, hC⟩
    · intro hguarded
      obtain ⟨s', hrun', hlast'⟩ := hguarded.of_append_singleton
      -- The machine is deterministic: the guarded run came through the same state.
      obtain rfl : s' = s := by
        have hplain : (ofNext start next).Run before s' := hrun'.of_guard
        rw [run_ofNext_iff] at hplain hbefore
        exact Option.some.inj (hplain.symm.trans hbefore)
      exact ⟨ih.mpr hrun', hlast'.2⟩

/-- A guard on an executable machine can be computed together with its steps. -/
theorem guard_ofNext (start : σ) (next : σ → ε → Option σ) (C : σ → ε → Prop)
    [∀ s e, Decidable (C s e)] :
    (ofNext start next).guard C = ofNext start fun s e ↦ if C s e then next s e else none := by
  have hstep (s : σ) (e : ε) (t : σ) :
      (next s e = some t ∧ C s e) = ((if C s e then next s e else none) = some t) := by
    by_cases hC : C s e
    · rw [if_pos hC, and_iff_left hC]
    · rw [if_neg hC]
      exact propext (iff_of_false (fun h ↦ hC h.2) nofun)
  simp only [guard, ofNext, hstep]

/-- A run of the guarded machine whose last state meets a decidable condition. -/
theorem exists_run_guard (start : σ) (next : σ → ε → Option σ) (C : σ → ε → Prop)
    [∀ s e, Decidable (C s e)] (events : List ε) {P : σ → Prop} [DecidablePred P]
    (h : (events.foldlM (fun s e ↦ if C s e then next s e else none) start).any
      (fun s ↦ decide (P s)) = true) :
    ∃ s, ((ofNext start next).guard C).Run events s ∧ P s := by
  rw [guard_ofNext]
  exact exists_run_ofNext start _ events h

end Machine

/-- What holds at the start and is kept by the steps of a run of a deterministic program holds after
every part of it. -/
theorem foldl_induction {next : σ → ε → σ} {P : σ → Prop} {events : List ε} {start : σ}
    (hstart : P start)
    (hstep : ∀ before e, before ++ [e] <+: events → P (before.foldl next start) →
      P (next (before.foldl next start) e)) :
    ∀ before, before <+: events → P (before.foldl next start) := by
  intro before
  induction before using List.reverseRecOn with
  | nil => exact fun _ ↦ hstart
  | append_singleton before e ih =>
    intro hpart
    rw [List.foldl_append]
    exact hstep before e hpart (ih ((List.prefix_append before [e]).trans hpart))

/-- A condition on the steps is exactly what keeps an invariant of a deterministic program: the
invariant holds after every part of a run if and only if every step meets the condition. -/
theorem foldl_invariant_iff {next : σ → ε → σ} {P : σ → Prop} {C : σ → ε → Prop} {events : List ε}
    {start : σ} (hstart : P start)
    (hstep : ∀ s, P s → ∀ e ∈ events, P (next s e) ↔ C s e) :
    (∀ before, before <+: events → P (before.foldl next start)) ↔
      ∀ before e, before ++ [e] <+: events → C (before.foldl next start) e := by
  have hmem {before : List ε} {e : ε} (hpart : before ++ [e] <+: events) : e ∈ events :=
    hpart.subset (List.mem_append_right _ List.mem_cons_self)
  constructor
  · intro hall before e hpart
    have hbefore : before <+: events := (List.prefix_append before [e]).trans hpart
    have hafter := hall _ hpart
    rw [List.foldl_append] at hafter
    exact (hstep _ (hall _ hbefore) e (hmem hpart)).mp hafter
  · intro hmeets
    apply foldl_induction hstart
    intro before e hpart hbefore
    exact (hstep _ hbefore e (hmem hpart)).mpr (hmeets before e hpart)

/-- A condition on the steps of a deterministic program can be computed. -/
theorem foldl_steps_of_meets {next : σ → ε → σ} {C : σ → ε → Prop} [∀ s e, Decidable (C s e)]
    {start : σ} {events : List ε}
    (h : Machine.meets (fun s e ↦ some (next s e)) C start events = true) (before : List ε) (e : ε)
    (hpart : before ++ [e] <+: events) : C (before.foldl next start) e := by
  have hrun : (Machine.ofNext start fun s e ↦ some (next s e)).Run before
      (before.foldl next start) := Machine.run_ofNext_iff.mpr (List.foldlM_pure ..)
  exact Machine.forall_steps_of_meets h before e _ hpart hrun

/-- The rule of `Machine.forall_steps_iff` for deterministic programs. -/
theorem foldl_steps_iff {next : σ → ε → σ} {I : σ → Prop} {Q C : σ → ε → Prop} {start : σ}
    (hstart : I start) (hiff : ∀ s e, I s → (Q s e ↔ C s e))
    (hkeep : ∀ s e, I s → C s e → I (next s e)) (events : List ε) :
    (∀ before e, before ++ [e] <+: events → Q (before.foldl next start) e) ↔
      ∀ before e, before ++ [e] <+: events → C (before.foldl next start) e := by
  have hinv (hC : ∀ before e, before ++ [e] <+: events → I (before.foldl next start) →
      C (before.foldl next start) e) :
      ∀ before, before <+: events → I (before.foldl next start) :=
    foldl_induction hstart fun before e hpart hs ↦ hkeep _ e hs (hC before e hpart hs)
  have hbefore {before : List ε} {e : ε} (hpart : before ++ [e] <+: events) : before <+: events :=
    (List.prefix_append before [e]).trans hpart
  constructor
  · intro hall before e hpart
    have hC (before : List ε) (e : ε) (hpart : before ++ [e] <+: events)
        (hs : I (before.foldl next start)) : C (before.foldl next start) e :=
      (hiff _ e hs).mp (hall before e hpart)
    exact hC before e hpart (hinv hC before (hbefore hpart))
  · intro hmeets before e hpart
    have hs := hinv (fun before e hpart _ ↦ hmeets before e hpart) before (hbefore hpart)
    exact (hiff _ e hs).mpr (hmeets before e hpart)

/-- A condition on the steps is exactly what keeps a property of a deterministic program, when some
stronger invariant is kept by the steps that meet the condition and the other steps break the
property. -/
theorem foldl_property_iff {next : σ → ε → σ} {I P : σ → Prop} {C : σ → ε → Prop}
    {events : List ε} {start : σ} (hstart : I start) (hproperty : ∀ s, I s → P s)
    (hkeep : ∀ s e, I s → C s e → I (next s e)) (hbreak : ∀ s e, I s → ¬ C s e → ¬ P (next s e)) :
    (∀ before, before <+: events → P (before.foldl next start)) ↔
      ∀ before e, before ++ [e] <+: events → C (before.foldl next start) e := by
  have hiff : (∀ before, before <+: events → I (before.foldl next start)) ↔
      ∀ before e, before ++ [e] <+: events → C (before.foldl next start) e := by
    apply foldl_invariant_iff hstart
    intro s hs e _
    constructor
    · intro hnext
      by_contra hC
      exact hbreak s e hs hC (hproperty _ hnext)
    · exact hkeep s e hs
  rw [← hiff]
  constructor
  · intro hall
    apply foldl_induction hstart
    intro before e hpart hbefore
    have hafter := hall _ hpart
    rw [List.foldl_append] at hafter
    by_cases hC : C (before.foldl next start) e
    · exact hkeep _ e hbefore hC
    · exact absurd hafter (hbreak _ e hbefore hC)
  · exact fun hall before hpart ↦ hproperty _ (hall before hpart)

/-- A register of a deterministic program has the value that was written last. -/
theorem foldl_lastWrite {α : Type*} {next : σ → ε → σ} {write : ε → Option α} (read : σ → α)
    (hstep : ∀ s e, read (next s e) = (write e).getD (read s)) (events : List ε) (start : σ) :
    read (events.foldl next start) = (events.reverse.findSome? write).getD (read start) := by
  induction events using List.reverseRecOn with
  | nil => rfl
  | append_singleton events e ih =>
    rw [List.foldl_append, List.foldl_cons, List.foldl_nil, hstep, ih, List.reverse_append,
      List.reverse_singleton, List.singleton_append, List.findSome?_cons]
    cases write e <;> rfl

/-- Run an input-output program on a list of inputs. -/
def feed (step : σ → ε → σ × ω) : σ → List ε → σ × List ω
  | s, [] => (s, [])
  | s, e :: rest =>
      let next := step s e
      let tail := feed step next.1 rest
      (tail.1, next.2 :: tail.2)

@[simp]
theorem feed_nil (step : σ → ε → σ × ω) (s : σ) : feed step s [] = (s, []) := rfl

@[simp]
theorem feed_cons (step : σ → ε → σ × ω) (s : σ) (e : ε) (rest : List ε) :
    feed step s (e :: rest) =
      ((feed step (step s e).1 rest).1, (step s e).2 :: (feed step (step s e).1 rest).2) := rfl

theorem feed_append (step : σ → ε → σ × ω) (s : σ) (first second : List ε) :
    feed step s (first ++ second) =
      ((feed step (feed step s first).1 second).1,
        (feed step s first).2 ++ (feed step (feed step s first).1 second).2) := by
  induction first generalizing s with
  | nil => rfl
  | cons e rest ih => simp only [List.cons_append, feed_cons, ih]

/-- Convergence: while the goal is not reached every input of a kind decreases a measure, and the
goal is kept once it is reached. -/
theorem feed_settles {step : σ → ε → σ × ω} {I : ε → Prop} {P : σ → Prop} {m : σ → ℕ}
    (hkeep : ∀ s e, I e → P s → P (step s e).1)
    (hstep : ∀ s e, I e → P (step s e).1 ∨ m (step s e).1 < m s)
    {s : σ} {inputs : List ε} (hinputs : ∀ e ∈ inputs, I e)
    (hlength : m s < inputs.length) : P (feed step s inputs).1 := by
  have hall {s : σ} (hs : P s) {inputs : List ε} (hinputs : ∀ e ∈ inputs, I e) :
      P (feed step s inputs).1 := by
    induction inputs generalizing s with
    | nil => exact hs
    | cons e rest ih =>
      exact ih (hkeep s e (hinputs e List.mem_cons_self) hs)
        fun e' he' ↦ hinputs e' (List.mem_cons_of_mem _ he')
  induction inputs generalizing s with
  | nil => exact absurd hlength (Nat.not_lt_zero _)
  | cons e rest ih =>
    have hrest : ∀ e' ∈ rest, I e' := fun e' he' ↦ hinputs e' (List.mem_cons_of_mem _ he')
    rw [feed_cons]
    rcases hstep s e (hinputs e List.mem_cons_self) with hgoal | hless
    · exact hall hgoal hrest
    · rw [List.length_cons] at hlength
      exact ih hrest (by omega)

/-- Invariants of a program hold of the state it is left in. -/
theorem feed_invariant {step : σ → ε → σ × ω} {P : σ → Prop}
    (hstep : ∀ s e, P s → P (step s e).1) {s : σ} (hs : P s) (inputs : List ε) :
    P (feed step s inputs).1 := by
  induction inputs generalizing s with
  | nil => exact hs
  | cons e rest ih => exact ih (hstep s e hs)

/-- All outputs of a run have a property if and only if every step meets the condition under which
its output has it. -/
theorem feed_forall_iff {step : σ → ε → σ × ω} {Q : ω → Prop} {C : σ → ε → Prop} {inputs : List ε}
    (hstep : ∀ s, ∀ e ∈ inputs, Q (step s e).2 ↔ C s e) (s : σ) :
    (∀ o ∈ (feed step s inputs).2, Q o) ↔
      ∀ before e, before ++ [e] <+: inputs → C (feed step s before).1 e := by
  induction inputs generalizing s with
  | nil =>
    refine iff_of_true nofun fun before e hpart ↦ ?_
    simp at hpart
  | cons first rest ih =>
    have hrest := ih (fun s e he ↦ hstep s e (List.mem_cons_of_mem _ he)) (step s first).1
    rw [feed_cons, List.forall_mem_cons, hstep s first List.mem_cons_self, hrest]
    constructor
    · rintro ⟨hfirst, hall⟩ before e hpart
      cases before with
      | nil =>
        obtain ⟨rfl, _⟩ := List.cons_prefix_cons.mp hpart
        exact hfirst
      | cons b before =>
        obtain ⟨rfl, hrestPart⟩ := List.cons_prefix_cons.mp hpart
        exact hall before e hrestPart
    · intro hall
      refine ⟨hall [] first (List.cons_prefix_cons.mpr ⟨rfl, List.nil_prefix⟩),
        fun before e hpart ↦ ?_⟩
      exact hall (first :: before) e (List.cons_prefix_cons.mpr ⟨rfl, hpart⟩)

/-! ## Programs that may be undefined -/

/-- `feed` for a program which may be undefined; `none` as soon as a step is. -/
def feedOption (step : σ → ε → Option (σ × ω)) : σ → List ε → Option (σ × List ω)
  | s, [] => some (s, [])
  | s, e :: rest =>
      (step s e).bind fun next ↦
        (feedOption step next.1 rest).map fun tail ↦ (tail.1, next.2 :: tail.2)

/-- Every input is permitted in the state in which it comes. -/
def Permitted (next : τ → ε → τ × ω) (permits : τ → ε → Prop) : τ → List ε → Prop
  | _, [] => True
  | t, e :: rest => permits t e ∧ Permitted next permits (next t e).1 rest

instance Permitted.decidable {next : τ → ε → τ × ω} {permits : τ → ε → Prop}
    [∀ t e, Decidable (permits t e)] :
    (t : τ) → (inputs : List ε) → Decidable (Permitted next permits t inputs)
  | _, [] => inferInstanceAs (Decidable True)
  | t, e :: rest =>
      haveI : Decidable (Permitted next permits (next t e).1 rest) :=
        Permitted.decidable (next t e).1 rest
      inferInstanceAs (Decidable (permits t e ∧ Permitted next permits (next t e).1 rest))

/-- The simulation rule: when every permitted step is defined, has the output of the abstract step
and keeps the relation, a run of permitted steps is defined and has the outputs of the abstract
run. -/
theorem feedOption_eq_feed {step : σ → ε → Option (σ × ω)} {next : τ → ε → τ × ω}
    {permits : τ → ε → Prop} {R : σ → τ → Prop}
    (hstep : ∀ s t e, R s t → permits t e →
      ∃ s', step s e = some (s', (next t e).2) ∧ R s' (next t e).1)
    {inputs : List ε} {s : σ} {t : τ} (hR : R s t)
    (hpermitted : Permitted next permits t inputs) :
    ∃ s', feedOption step s inputs = some (s', (feed next t inputs).2) ∧
      R s' (feed next t inputs).1 := by
  induction inputs generalizing s t with
  | nil => exact ⟨s, rfl, hR⟩
  | cons e rest ih =>
    obtain ⟨s₁, hfirst, hR₁⟩ := hstep s t e hR hpermitted.1
    obtain ⟨s', hrest, hR'⟩ := ih hR₁ hpermitted.2
    refine ⟨s', ?_, hR'⟩
    rw [feedOption, hfirst, Option.bind_some, hrest, Option.map_some, feed_cons]

end QNet
