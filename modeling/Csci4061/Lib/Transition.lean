import Mathlib.Data.List.Basic

/-!
# Labelled transition systems

A program whose threads interleave is given by its initial states and one labelled step
relation. Invariants are proved once for a step and hold of every run by `Reachable.invariant`.
A guard on the steps is a second system, `restrict`, so that a result about the runs whose
steps all meet a condition is a result about the reachable states of the restricted system.

`EachStep` states a property of all steps of a run, where a step of the program may be undefined.

`Refinement` compares two systems through an abstraction function. A concrete step either
performs one abstract step or leaves the abstract state alone.
-/

namespace Csci4061.Lib

/-- Initial states and the one-step relation of a program. -/
structure TransitionSystem (σ ℓ : Type*) where
  init : σ → Prop
  step : σ → ℓ → σ → Prop

namespace TransitionSystem

variable {σ ℓ τ m : Type*}

/-- A finite run from one state to another, with the labels of its steps in order. -/
inductive Run (T : TransitionSystem σ ℓ) (s : σ) : List ℓ → σ → Prop
  | nil : Run T s [] s
  | snoc {labels : List ℓ} {t u : σ} {label : ℓ} :
      Run T s labels t → T.step t label u → Run T s (labels ++ [label]) u

/-- The states which some run reaches from an initial state. -/
def Reachable (T : TransitionSystem σ ℓ) (t : σ) : Prop :=
  ∃ s labels, T.init s ∧ T.Run s labels t

/-- An initial state is reachable by the empty run. -/
theorem Reachable.of_init {T : TransitionSystem σ ℓ} {s : σ} (h : T.init s) : T.Reachable s :=
  ⟨s, [], h, .nil⟩

/-- A step from a reachable state stays among the reachable states. -/
theorem Reachable.snoc {T : TransitionSystem σ ℓ} {s t : σ} {label : ℓ}
    (h : T.Reachable s) (hstep : T.step s label t) : T.Reachable t := by
  obtain ⟨s₀, labels, hinit, hrun⟩ := h
  exact ⟨s₀, labels ++ [label], hinit, hrun.snoc hstep⟩

/-- What holds at the start and is preserved by each step holds at the end of every run. -/
theorem Run.invariant {T : TransitionSystem σ ℓ} {I : σ → Prop}
    (hstep : ∀ s label t, I s → T.step s label t → I t)
    {s t : σ} {labels : List ℓ} (hrun : T.Run s labels t) (hs : I s) : I t := by
  induction hrun with
  | nil => exact hs
  | snoc _ hlast ih => exact hstep _ _ _ ih hlast

/-- The invariant rule: initial states satisfy it, and every step preserves it. -/
theorem Reachable.invariant {T : TransitionSystem σ ℓ} {I : σ → Prop}
    (hinit : ∀ s, T.init s → I s) (hstep : ∀ s label t, I s → T.step s label t → I t)
    {t : σ} (h : T.Reachable t) : I t := by
  obtain ⟨s, labels, hs, hrun⟩ := h
  exact hrun.invariant hstep (hinit s hs)

/-- The invariant rule, for a step from a state which is known to be reachable. -/
theorem Reachable.invariant_of_reachable {T : TransitionSystem σ ℓ} {I : σ → Prop}
    (hinit : ∀ s, T.init s → I s) (hstep : ∀ s label t, T.Reachable s → I s → T.step s label t → I t)
    {t : σ} (h : T.Reachable t) : I t := by
  have hinit' (s : σ) (hs : T.init s) : T.Reachable s ∧ I s := ⟨.of_init hs, hinit s hs⟩
  have hstep' (s : σ) (label : ℓ) (t : σ) (hs : T.Reachable s ∧ I s) (hnext : T.step s label t) :
      T.Reachable t ∧ I t := ⟨hs.1.snoc hnext, hstep s label t hs.1 hs.2 hnext⟩
  have hboth : T.Reachable t ∧ I t := h.invariant hinit' hstep'
  exact hboth.2

/-- The same program, taking only the steps which meet a condition on the state before them. -/
def restrict (T : TransitionSystem σ ℓ) (guard : σ → ℓ → Prop) : TransitionSystem σ ℓ where
  init := T.init
  step s label t := guard s label ∧ T.step s label t

/-- A run of the restricted program is a run of the program. -/
theorem Run.of_restrict {T : TransitionSystem σ ℓ} {guard : σ → ℓ → Prop} {s t : σ}
    {labels : List ℓ} (hrun : (T.restrict guard).Run s labels t) : T.Run s labels t := by
  induction hrun with
  | nil => exact .nil
  | snoc _ hlast ih => exact ih.snoc hlast.2

/-- A run of the program whose labels meet the condition in any state is a run of the restricted one. -/
theorem Run.restrict {T : TransitionSystem σ ℓ} {guard : σ → ℓ → Prop} {s t : σ} {labels : List ℓ}
    (hrun : T.Run s labels t) (hlabels : ∀ label ∈ labels, ∀ u, guard u label) :
    (T.restrict guard).Run s labels t := by
  induction hrun with
  | nil => exact .nil
  | snoc _ hlast ih =>
    have hfirst := ih fun label hmem => hlabels label (List.mem_append_left _ hmem)
    exact hfirst.snoc ⟨hlabels _ (by simp) _, hlast⟩

/-- A run whose steps meet two conditions is a run of the program which is restricted twice. -/
theorem Run.restrict_and {T : TransitionSystem σ ℓ} {guard guard' : σ → ℓ → Prop} {s t : σ}
    {labels : List ℓ}
    (hrun : (T.restrict fun s label => guard s label ∧ guard' s label).Run s labels t) :
    ((T.restrict guard).restrict guard').Run s labels t := by
  induction hrun with
  | nil => exact .nil
  | snoc _ hlast ih => exact ih.snoc ⟨hlast.1.2, hlast.1.1, hlast.2⟩

/-- If a property is kept by the steps which meet a guard, and these meet a second guard where it holds,
then a run under the first guard is one under the second. -/
theorem Run.change_guard {T : TransitionSystem σ ℓ} {guard guard' : σ → ℓ → Prop} {I : σ → Prop}
    (hstep : ∀ s label t, I s → guard s label → T.step s label t → guard' s label ∧ I t)
    {s t : σ} {labels : List ℓ} (hs : I s) (hrun : (T.restrict guard).Run s labels t) :
    (T.restrict guard').Run s labels t ∧ I t := by
  induction hrun with
  | nil => exact ⟨.nil, hs⟩
  | snoc _ hlast ih =>
    obtain ⟨hguard, ht⟩ := hstep _ _ _ ih.2 hlast.1 hlast.2
    exact ⟨ih.1.snoc ⟨hguard, hlast.2⟩, ht⟩

/-- The same program, taking only the steps which end in a state with a property. -/
def keeping (T : TransitionSystem σ ℓ) (I : σ → Prop) : TransitionSystem σ ℓ where
  init s := T.init s ∧ I s
  step s label t := T.step s label t ∧ I t

/-- A run of the program which keeps a property ends in a state which has it. -/
theorem Run.of_keeping {T : TransitionSystem σ ℓ} {I : σ → Prop} {s t : σ} {labels : List ℓ}
    (hrun : (T.keeping I).Run s labels t) (hs : I s) : I t := by
  cases hrun with
  | nil => exact hs
  | snoc _ hlast => exact hlast.2

/-- If a guard says exactly which steps keep a property, then the runs whose steps all meet the
guard are the runs whose states all have the property. -/
theorem restrict_run_iff_keeping {T : TransitionSystem σ ℓ} {guard : σ → ℓ → Prop} {I J : σ → Prop}
    (hJ : ∀ s label t, J s → T.step s label t → J t)
    (hexact : ∀ s label t, J s → I s → T.step s label t → (I t ↔ guard s label))
    {s t : σ} {labels : List ℓ} (hs : J s) (hIs : I s) :
    (T.restrict guard).Run s labels t ↔ (T.keeping I).Run s labels t := by
  constructor
  · intro hrun
    induction hrun with
    | nil => exact .nil
    | snoc hprev hlast ih =>
      have hj := hprev.of_restrict.invariant hJ hs
      exact ih.snoc ⟨hlast.2, (hexact _ _ _ hj (ih.of_keeping hIs) hlast.2).mpr hlast.1⟩
  · intro hrun
    have hplain : T.Run s labels t ∧ (T.restrict guard).Run s labels t := by
      induction hrun with
      | nil => exact ⟨.nil, .nil⟩
      | snoc hprev hlast ih =>
        have hj := ih.1.invariant hJ hs
        have hguard := (hexact _ _ _ hj (hprev.of_keeping hIs) hlast.1).mp hlast.2
        exact ⟨ih.1.snoc hlast.1, ih.2.snoc ⟨hguard, hlast.1⟩⟩
    exact hplain.2

/-- A program whose label determines the next state, with `none` for a step which is not enabled. -/
def ofNext (init : σ → Prop) (next : σ → ℓ → Option σ) : TransitionSystem σ ℓ where
  init := init
  step s label t := next s label = some t

/-- A step which is enabled and meets the guard stays among the reachable states. -/
theorem Reachable.next {init : σ → Prop} {next : σ → ℓ → Option σ} {guard : σ → ℓ → Prop} {s t : σ}
    (h : ((ofNext init next).restrict guard).Reachable s) (label : ℓ) (hguard : guard s label)
    (hnext : next s label = some t) : ((ofNext init next).restrict guard).Reachable t :=
  h.snoc ⟨hguard, hnext⟩

/-- A run goes on with a step which is enabled and meets the guard. -/
theorem Run.next {init : σ → Prop} {next : σ → ℓ → Option σ} {guard : σ → ℓ → Prop} {s t u : σ}
    {labels : List ℓ} (hrun : ((ofNext init next).restrict guard).Run s labels t) (label : ℓ)
    (hguard : guard t label) (hnext : next t label = some u) :
    ((ofNext init next).restrict guard).Run s (labels ++ [label]) u :=
  hrun.snoc ⟨hguard, hnext⟩

/-- Execute a list of labels. -/
def exec (next : σ → ℓ → Option σ) : σ → List ℓ → Option σ
  | s, [] => some s
  | s, label :: labels => (next s label).bind fun t => exec next t labels

/-- An execution which succeeds ends in its result, whatever stands for one which does not. -/
theorem exec_getD {next : σ → ℓ → Option σ} {s d : σ} {labels : List ℓ}
    (h : (exec next s labels).isSome = true) :
    exec next s labels = some ((exec next s labels).getD d) := by
  obtain ⟨t, hexec⟩ := Option.isSome_iff_exists.mp h
  rw [hexec, Option.getD_some]

/-- A run which starts with a step. -/
theorem Run.cons {T : TransitionSystem σ ℓ} {s t u : σ} {label : ℓ} {labels : List ℓ}
    (hstep : T.step s label t) (hrun : T.Run t labels u) : T.Run s (label :: labels) u := by
  induction hrun with
  | nil => exact Run.nil.snoc hstep
  | snoc _ hlast ih => exact ih.snoc hlast

/-- A successful execution is a run. -/
theorem Run.of_exec {init : σ → Prop} {next : σ → ℓ → Option σ} {s t : σ} {labels : List ℓ}
    (h : exec next s labels = some t) : (ofNext init next).Run s labels t := by
  induction labels generalizing s with
  | nil =>
    obtain rfl : s = t := Option.some.inj h
    exact .nil
  | cons label labels ih =>
    obtain ⟨u, hstep, hrest⟩ := Option.bind_eq_some_iff.mp h
    exact .cons hstep (ih hrest)

/-- A successful execution which checks a guard at every step is a run of the restricted program. -/
theorem Run.of_exec_guarded {init : σ → Prop} {next : σ → ℓ → Option σ} {guard : σ → ℓ → Prop}
    [∀ s label, Decidable (guard s label)] {s t : σ} {labels : List ℓ}
    (h : exec (fun s label => if guard s label then next s label else none) s labels = some t) :
    ((ofNext init next).restrict guard).Run s labels t := by
  induction labels generalizing s with
  | nil =>
    obtain rfl : s = t := Option.some.inj h
    exact .nil
  | cons label labels ih =>
    obtain ⟨u, hstep, hrest⟩ := Option.bind_eq_some_iff.mp h
    by_cases hguard : guard s label
    · simp only [hguard, if_true] at hstep
      exact .cons ⟨hguard, hstep⟩ (ih hrest)
    · simp [hguard] at hstep

/-- In the run which takes some labels in order, each of them meets a condition in the state in which it
is taken, the first one for which there is no step included. -/
def EachStep (T : TransitionSystem σ ℓ) (P : σ → ℓ → Prop) (s : σ) (labels : List ℓ) : Prop :=
  ∀ taken label t, taken ++ [label] <+: labels → T.Run s taken t → P t label

/-- Conditions which imply each other under an invariant are met in the same runs. -/
theorem eachStep_congr {T : TransitionSystem σ ℓ} {P Q : σ → ℓ → Prop} {I : σ → Prop}
    (hstep : ∀ s label t, I s → T.step s label t → I t) (hiff : ∀ s label, I s → (P s label ↔ Q s label))
    {s : σ} (hs : I s) (labels : List ℓ) : T.EachStep P s labels ↔ T.EachStep Q s labels := by
  constructor
  · intro h taken label t hbegins hrun
    exact (hiff t label (hrun.invariant hstep hs)).mp (h taken label t hbegins hrun)
  · intro h taken label t hbegins hrun
    exact (hiff t label (hrun.invariant hstep hs)).mpr (h taken label t hbegins hrun)

/-- A label which does not meet the condition after an execution. -/
theorem not_eachStep_of_exec {init : σ → Prop} {next : σ → ℓ → Option σ} {P : σ → ℓ → Prop} {s t : σ}
    {taken : List ℓ} (h : exec next s taken = some t) {label : ℓ} (hnot : ¬ P t label) :
    ¬ (ofNext init next).EachStep P s (taken ++ [label]) :=
  fun heach => hnot (heach taken label t List.prefix_rfl (Run.of_exec h))

/-- An abstraction function under which every concrete step is an abstract step or invisible.

The obligation for a step is stated under an invariant of the concrete program, which the
refinement carries along its runs. -/
structure Refinement (T : TransitionSystem σ ℓ) (U : TransitionSystem τ m) where
  inv : σ → Prop
  abs : σ → τ
  visible : ℓ → Option m
  inv_init : ∀ s, T.init s → inv s
  inv_step : ∀ s label t, inv s → T.step s label t → inv t
  abs_init : ∀ s, T.init s → U.init (abs s)
  abs_step : ∀ s label t, inv s → T.step s label t →
    match visible label with
    | none => abs t = abs s
    | some l => U.step (abs s) l (abs t)

/-- The abstract run of a refinement takes the visible labels in the same order. -/
theorem Refinement.run {T : TransitionSystem σ ℓ} {U : TransitionSystem τ m}
    (R : Refinement T U) {s t : σ} {labels : List ℓ} (hs : R.inv s) (hrun : T.Run s labels t) :
    U.Run (R.abs s) (labels.filterMap R.visible) (R.abs t) := by
  induction hrun with
  | nil => exact .nil
  | @snoc labels t u label hprev hlast ih =>
    have ht : R.inv t := hprev.invariant R.inv_step hs
    have hstep := R.abs_step t label u ht hlast
    rw [List.filterMap_append]
    cases hv : R.visible label with
    | none =>
      simp only [hv] at hstep
      simpa [hv, hstep] using ih
    | some l =>
      simp only [hv] at hstep
      simpa [hv] using ih.snoc hstep

/-- A refinement maps reachable states to reachable states. -/
theorem Refinement.reachable {T : TransitionSystem σ ℓ} {U : TransitionSystem τ m}
    (R : Refinement T U) {t : σ} (h : T.Reachable t) : U.Reachable (R.abs t) := by
  obtain ⟨s, labels, hs, hrun⟩ := h
  exact ⟨R.abs s, _, R.abs_init s hs, R.run (R.inv_init s hs) hrun⟩

/-- Refinements compose, dropping the steps which are invisible at either stage. -/
def Refinement.comp {υ k : Type*} {T : TransitionSystem σ ℓ} {U : TransitionSystem τ m}
    {V : TransitionSystem υ k} (S : Refinement U V) (R : Refinement T U) : Refinement T V where
  inv s := R.inv s ∧ S.inv (R.abs s)
  abs s := S.abs (R.abs s)
  visible label := (R.visible label).bind S.visible
  inv_init s hs := ⟨R.inv_init s hs, S.inv_init _ (R.abs_init s hs)⟩
  inv_step s label t hs hstep := by
    refine ⟨R.inv_step s label t hs.1 hstep, ?_⟩
    have habs := R.abs_step s label t hs.1 hstep
    cases hv : R.visible label with
    | none =>
      simp only [hv] at habs
      rw [habs]
      exact hs.2
    | some l =>
      simp only [hv] at habs
      exact S.inv_step _ l _ hs.2 habs
  abs_init s hs := S.abs_init _ (R.abs_init s hs)
  abs_step s label t hs hstep := by
    have habs := R.abs_step s label t hs.1 hstep
    cases hv : R.visible label with
    | none =>
      simp only [hv] at habs
      simp only [Option.bind_none, habs]
    | some l =>
      simp only [hv] at habs
      exact S.abs_step _ l _ hs.2 habs

/-- A relation between the states of two programs under which every step of the first is answered by a
step of the second, with the label that a function gives. The states need not determine each other. -/
structure Simulation (T : TransitionSystem σ ℓ) (U : TransitionSystem τ m) where
  rel : σ → τ → Prop
  label : ℓ → m
  rel_init : ∀ s, T.init s → ∃ t, U.init t ∧ rel s t
  rel_step : ∀ s l s' t, rel s t → T.step s l s' → ∃ t', U.step t (label l) t' ∧ rel s' t'

/-- Every run is answered by a run with the same labels. -/
theorem Simulation.run {T : TransitionSystem σ ℓ} {U : TransitionSystem τ m} (S : Simulation T U)
    {s s' : σ} {t : τ} {labels : List ℓ} (hrel : S.rel s t) (hrun : T.Run s labels s') :
    ∃ t', U.Run t (labels.map S.label) t' ∧ S.rel s' t' := by
  induction hrun with
  | nil => exact ⟨t, .nil, hrel⟩
  | snoc _ hlast ih =>
    obtain ⟨u, hprev, hu⟩ := ih
    obtain ⟨u', hstep, hu'⟩ := S.rel_step _ _ _ u hu hlast
    refine ⟨u', ?_, hu'⟩
    rw [List.map_append]
    exact hprev.snoc hstep

/-- A reachable state is related to a reachable state. -/
theorem Simulation.reachable {T : TransitionSystem σ ℓ} {U : TransitionSystem τ m} (S : Simulation T U)
    {s : σ} (h : T.Reachable s) : ∃ t, U.Reachable t ∧ S.rel s t := by
  obtain ⟨s₀, labels, hinit, hrun⟩ := h
  obtain ⟨t₀, hinit', hrel⟩ := S.rel_init s₀ hinit
  obtain ⟨t, hrun', ht⟩ := S.run hrel hrun
  exact ⟨t, ⟨t₀, _, hinit', hrun'⟩, ht⟩

end TransitionSystem

end Csci4061.Lib
