import Csci4061.Make.Build

/-!
# Facts about all evaluations

A call of `build` is made of six basic steps. What each of them preserves is preserved by every
evaluation, and the steps are restricted to the targets which the evaluation can get to: a call on
a target stays among the target and what is below it in the dependency graph.

The frame results follow. Statuses of other targets stay the same, the events are about the targets
reached, and a target which was visited stays visited.
-/

namespace Csci4061.Make

open Csci4061.Lib

variable {n : ℕ} {σ : Type*} {mk : Makefile n} {env : Env σ}

/-- The target of an event. -/
def Event.target : Event σ n → TargetRef n
  | .entered target _ _ => target
  | .executed target => target
  | .returned target => target

/-- Targets whose dependencies may be visited, and among them those which may be called on. -/
structure Scope (n : ℕ) where
  visits : TargetRef n → Prop
  calls : TargetRef n → Prop
  visits_of_calls : ∀ target, calls target → visits target

/-- The dependencies of visited targets may be called on. -/
def Scope.Closed (mk : Makefile n) (scope : Scope n) : Prop :=
  ∀ target i, scope.visits target → mk.Edge (mk.index target) i → scope.calls (.entry i)

/-- A target is an entry below another one. -/
def Makefile.Under (mk : Makefile n) (target under : TargetRef n) : Prop :=
  ∃ i, under = .entry i ∧ mk.Below (mk.index target) i

/-- A dependency of a target, or of one below it, is below it. -/
theorem Makefile.under_edge {target visited : TargetRef n} {i : Fin n}
    (h : visited = target ∨ mk.Under target visited) (hedge : mk.Edge (mk.index visited) i) :
    mk.Under target (.entry i) := by
  cases h with
  | inl heq =>
    subst heq
    exact ⟨i, rfl, .single hedge⟩
  | inr hunder =>
    obtain ⟨j, rfl, hbelow⟩ := hunder
    exact ⟨i, rfl, hbelow.tail hedge⟩

/-- In an acyclic table a target below another one is not that one. -/
theorem Makefile.Acyclic.ne_of_under (h : mk.Acyclic) {target under : TargetRef n}
    (hunder : mk.Under target under) :
    under ≠ target := by
  obtain ⟨i, rfl, hbelow⟩ := hunder
  rintro rfl
  exact h i hbelow

/-- The loop of a target calls on the targets below it. -/
def Scope.loop (mk : Makefile n) (target : TargetRef n) : Scope n where
  visits visited := visited = target ∨ mk.Under target visited
  calls := mk.Under target
  visits_of_calls _ := Or.inr

/-- The calls of a loop stay below its target. -/
theorem Scope.loop_closed (mk : Makefile n) (target : TargetRef n) : (Scope.loop mk target).Closed mk :=
  fun _ _ => Makefile.under_edge

/-- A call on a target stays among the target and those below it. -/
def Scope.call (mk : Makefile n) (target : TargetRef n) : Scope n where
  visits visited := visited = target ∨ mk.Under target visited
  calls visited := visited = target ∨ mk.Under target visited
  visits_of_calls _ := id

/-- The calls below a target stay below it. -/
theorem Scope.call_closed (mk : Makefile n) (target : TargetRef n) : (Scope.call mk target).Closed mk :=
  fun _ _ h hedge => Or.inr (Makefile.under_edge h hedge)

/-- All targets. -/
def Scope.all (n : ℕ) : Scope n where
  visits _ := True
  calls _ := True
  visits_of_calls _ := id

/-- All targets are closed. -/
theorem Scope.all_closed (mk : Makefile n) : (Scope.all n).Closed mk := fun _ _ _ _ => trivial

/-- One target alone, for the steps of its own call. -/
def Scope.only (target : TargetRef n) : Scope n where
  visits visited := visited = target
  calls called := called = target
  visits_of_calls _ := id

/-- A task which stays in a scope. -/
def Task.Within (mk : Makefile n) (scope : Scope n) : Task n → Prop
  | .call target => scope.calls target
  | .loop target names => scope.visits target ∧ names ⊆ (mk.target target).dependencyNames

/-- What the basic steps of `build` preserve. -/
structure StepInvariant (mk : Makefile n) (env : Env σ) (scope : Scope n) (P : BuildState σ n → Prop) :
    Prop where
  /-- A target is marked or finished. -/
  setStatus : ∀ s target status, scope.visits target → status ≠ .unfinished → P s →
    P (s.setStatus target status)
  /-- Two files are looked at. -/
  look : ∀ s file₁ file₂, P s → P (s.setWorld (env.compareModificationTime s.world file₁ file₂).2)
  /-- A child process is created, or not. -/
  fork : ∀ s, P s → P (s.setWorld (env.fork s.world).2)
  /-- A call begins. -/
  enter : ∀ s target, scope.calls target → P s → P (s.record (.entered target s.status s.world))
  /-- The command of a marked target runs. -/
  execute : ∀ s target, scope.calls target → s.status target = .needsBuilding → P s →
    P ((s.setWorld (env.command s.world (mk.target target).command).2).record (.executed target))
  /-- A call returns. -/
  leave : ∀ s target, scope.calls target → P s → P (s.record (.returned target))

section StepInvariant

variable {scope : Scope n} {P : BuildState σ n → Prop}

/-- A pass of the loop preserves what the steps preserve. -/
theorem StepInvariant.visit (hP : StepInvariant mk env scope P) {target : TargetRef n} {name : CString}
    {s s₁ : BuildState σ n} {dependsOn : Option (Fin n)} (htarget : scope.visits target)
    (h : visitDependency mk env target name s = (dependsOn, s₁)) (hs : P s) : P s₁ := by
  obtain ⟨world, hworld, hmark⟩ := visitDependency_cases h
  have hlook : P (s.setWorld world) := by
    cases hworld with
    | inl heq =>
      subst heq
      exact hs
    | inr hlooked =>
      obtain ⟨file₁, file₂, rfl⟩ := hlooked
      exact hP.look s file₁ file₂ hs
  cases hmark with
  | inl heq => exact heq ▸ hlook
  | inr heq => exact heq ▸ hP.setStatus _ target _ htarget (by decide) hlook

/-- The beginning of a call preserves what the steps preserve. -/
theorem StepInvariant.begin (hP : StepInvariant mk env scope P) {target : TargetRef n}
    {s : BuildState σ n} (htarget : scope.calls target) (hs : P s) : P (beginTarget mk target s) := by
  have henter := hP.enter s target htarget hs
  cases beginTarget_cases mk target s with
  | inl heq => exact heq ▸ henter
  | inr heq => exact heq ▸ hP.setStatus _ target _ (scope.visits_of_calls _ htarget) (by decide) henter

/-- The end of a call preserves what the steps preserve. -/
theorem StepInvariant.finish (hP : StepInvariant mk env scope P) {target : TargetRef n}
    {s s₁ : BuildState σ n} {result : ℤ} (htarget : scope.calls target)
    (h : finishTarget mk env target s = (result, s₁)) (hs : P s) :
    P s₁ := by
  have hvisits := scope.visits_of_calls _ htarget
  by_cases hmark : s.status target = .needsBuilding
  · have hfork := hP.fork s hs
    have hexecute := hP.execute (s.setWorld (env.fork s.world).2) target htarget hmark hfork
    rcases finishTarget_marked hmark h with ⟨-, rfl⟩ | ⟨s₂, rfl, ⟨-, rfl⟩ | ⟨-, rfl⟩⟩
    · exact hfork
    · exact hexecute
    · exact hP.setStatus _ target _ hvisits (by decide) hexecute
  · rw [finishTarget_unmarked hmark] at h
    obtain ⟨-, rfl⟩ := Prod.mk.inj h
    exact hP.setStatus s target _ hvisits (by decide) hs

/-- What the basic steps preserve is preserved by every evaluation in the scope. -/
theorem Eval.invariant {task : Task n} {s s' : BuildState σ n} {result : ℤ}
    (h : Eval mk env task s result s') (hclosed : scope.Closed mk) (hP : StepInvariant mk env scope P)
    (hwithin : task.Within mk scope) (hs : P s) :
    P s' := by
  induction h with
  | loop_nil => exact hs
  | loop_pass hvisit _ ih =>
    obtain ⟨htarget, hnames⟩ := hwithin
    exact ih ⟨htarget, (List.cons_subset.mp hnames).2⟩ (hP.visit htarget hvisit hs)
  | loop_call hvisit _ _ _ ihcall ihloop =>
    obtain ⟨htarget, hnames⟩ := hwithin
    obtain ⟨hname, hrest⟩ := List.cons_subset.mp hnames
    have hedge := hclosed _ _ htarget (visitDependency_edge hname hvisit)
    exact ihloop ⟨htarget, hrest⟩ (ihcall hedge (hP.visit htarget hvisit hs))
  | loop_fail hvisit _ ihcall =>
    obtain ⟨htarget, hnames⟩ := hwithin
    have hname := (List.cons_subset.mp hnames).1
    have hedge := hclosed _ _ htarget (visitDependency_edge hname hvisit)
    exact ihcall hedge (hP.visit htarget hvisit hs)
  | call_finish _ _ hfinish ih =>
    have hloop := ih ⟨scope.visits_of_calls _ hwithin, List.Subset.refl _⟩ (hP.begin hwithin hs)
    exact hP.leave _ _ hwithin (hP.finish hwithin hfinish hloop)
  | call_fail _ ih =>
    have hloop := ih ⟨scope.visits_of_calls _ hwithin, List.Subset.refl _⟩ (hP.begin hwithin hs)
    exact hP.leave _ _ hwithin hloop

end StepInvariant

/-- A target which is visited stays visited. -/
theorem stepInvariant_visited (mk : Makefile n) (env : Env σ) (scope : Scope n) (target : TargetRef n) :
    StepInvariant mk env scope fun s => s.status target ≠ .unfinished where
  setStatus s changed status _ hstatus hs := by
    by_cases heq : target = changed
    · rw [heq, BuildState.setStatus_status, Function.update_self]
      exact hstatus
    · rw [BuildState.setStatus_status, Function.update_of_ne heq]
      exact hs
  look _ _ _ hs := hs
  fork _ hs := hs
  enter _ _ _ hs := hs
  execute _ _ _ _ hs := hs
  leave _ _ _ hs := hs

/-- The status of a target outside the scope stays the same. -/
theorem stepInvariant_status (mk : Makefile n) (env : Env σ) {scope : Scope n} {target : TargetRef n}
    (htarget : ¬ scope.visits target) (status : Status) :
    StepInvariant mk env scope fun s => s.status target = status where
  setStatus s changed _ hchanged _ hs := by
    have hne : target ≠ changed := fun heq => htarget (heq ▸ hchanged)
    rw [BuildState.setStatus_status, Function.update_of_ne hne]
    exact hs
  look _ _ _ hs := hs
  fork _ hs := hs
  enter _ _ _ hs := hs
  execute _ _ _ _ hs := hs
  leave _ _ _ hs := hs

/-- A trace which grew by events about some targets grows by one more of them. -/
theorem growsWithin_record {calls : TargetRef n → Prop} {trace : List (Event σ n)} {s : BuildState σ n}
    {event : Event σ n} (hevent : calls event.target)
    (hs : ∃ events, s.trace = trace ++ events ∧ ∀ e ∈ events, calls e.target) :
    ∃ events, (s.record event).trace = trace ++ events ∧ ∀ e ∈ events, calls e.target := by
  obtain ⟨events, htrace, hevents⟩ := hs
  refine ⟨events ++ [event], by rw [BuildState.record_trace, htrace, List.append_assoc], ?_⟩
  intro e he
  rcases List.mem_append.mp he with hold | hnew
  · exact hevents e hold
  · exact List.mem_singleton.mp hnew ▸ hevent

/-- The trace grows by events about targets of the scope. -/
theorem stepInvariant_trace (mk : Makefile n) (env : Env σ) (scope : Scope n)
    (trace : List (Event σ n)) :
    StepInvariant mk env scope fun s =>
      ∃ events, s.trace = trace ++ events ∧ ∀ e ∈ events, scope.calls e.target where
  setStatus _ _ _ _ _ hs := hs
  look _ _ _ hs := hs
  fork _ hs := hs
  enter _ _ htarget hs := growsWithin_record htarget hs
  execute _ _ htarget _ hs := growsWithin_record htarget hs
  leave _ _ htarget hs := growsWithin_record htarget hs

section Frame

variable {s s' : BuildState σ n} {result : ℤ}

/-- A target which was visited before a call is visited after it. -/
theorem Eval.call_visited {called target : TargetRef n} (h : Eval mk env (.call called) s result s')
    (htarget : s.status target ≠ .unfinished) : s'.status target ≠ .unfinished :=
  h.invariant (Scope.all_closed mk) (stepInvariant_visited mk env _ target) trivial htarget

/-- A call keeps the status of the targets which it does not get to. -/
theorem Eval.call_status {called target : TargetRef n} (h : Eval mk env (.call called) s result s')
    (hne : target ≠ called) (hunder : ¬ mk.Under called target) :
    s'.status target = s.status target := by
  have houtside : ¬ (Scope.call mk called).visits target := not_or.mpr ⟨hne, hunder⟩
  exact h.invariant (Scope.call_closed mk called) (stepInvariant_status mk env houtside _)
    (Or.inl rfl) rfl

/-- The events of an evaluation are about targets which it may call on. -/
theorem Eval.trace_grows {task : Task n} (h : Eval mk env task s result s') {scope : Scope n}
    (hclosed : scope.Closed mk) (htask : task.Within mk scope) :
    ∃ events, s'.trace = s.trace ++ events ∧ ∀ e ∈ events, scope.calls e.target :=
  h.invariant hclosed (stepInvariant_trace mk env scope s.trace) htask ⟨[], by simp, by simp⟩

/-- No event of an evaluation is lost. -/
theorem Eval.trace_subset {task : Task n} (h : Eval mk env task s result s')
    (htask : task.Within mk (Scope.all n)) :
    s.trace ⊆ s'.trace := by
  obtain ⟨events, htrace, -⟩ := h.trace_grows (Scope.all_closed mk) htask
  exact htrace ▸ List.subset_append_left s.trace events

end Frame

/-- An evaluation in progress goes on to the body of a call, to the next pass of a loop, or to the
call which a pass makes. -/
inductive StepsTo (mk : Makefile n) (env : Env σ) :
    Task n × BuildState σ n → Task n × BuildState σ n → Prop
  | body {target : TargetRef n} {s : BuildState σ n} :
      StepsTo mk env (.call target, s)
        (.loop target (mk.target target).dependencyNames, beginTarget mk target s)
  | pass {target : TargetRef n} {name : CString} {names : List CString} {s s₁ : BuildState σ n} :
      visitDependency mk env target name s = (none, s₁) →
      StepsTo mk env (.loop target (name :: names), s) (.loop target names, s₁)
  | callee {target : TargetRef n} {name : CString} {names : List CString} {i : Fin n}
    {s s₁ : BuildState σ n} :
      visitDependency mk env target name s = (some i, s₁) →
      StepsTo mk env (.loop target (name :: names), s) (.call (.entry i), s₁)
  | rest {target : TargetRef n} {name : CString} {names : List CString} {i : Fin n}
    {s s₁ s₂ : BuildState σ n}
      {called : ℤ} :
      visitDependency mk env target name s = (some i, s₁) → Eval mk env (.call (.entry i)) s₁ called s₂ →
      called ≠ -1 → StepsTo mk env (.loop target (name :: names), s) (.loop target names, s₂)

/-- An evaluation comes to a task in a state. -/
def LeadsTo (mk : Makefile n) (env : Env σ) : Task n × BuildState σ n → Task n × BuildState σ n → Prop :=
  Relation.ReflTransGen (StepsTo mk env)

/-- A loop whose next pass makes no call. -/
theorem Eval.of_pass {target : TargetRef n} {name : CString} {names : List CString}
    {s s₁ s' : BuildState σ n} {result : ℤ} (h : Eval mk env (.loop target (name :: names)) s result s')
    (hvisit : visitDependency mk env target name s = (none, s₁)) :
    Eval mk env (.loop target names) s₁ result s' := by
  cases h with
  | loop_pass hvisit' hloop =>
    obtain ⟨-, rfl⟩ := Prod.mk.inj (hvisit.symm.trans hvisit')
    exact hloop
  | loop_call hvisit' => exact absurd (Prod.mk.inj (hvisit.symm.trans hvisit')).1 (by simp)
  | loop_fail hvisit' => exact absurd (Prod.mk.inj (hvisit.symm.trans hvisit')).1 (by simp)

/-- A loop whose next pass makes a call. -/
theorem Eval.of_callee {target : TargetRef n} {name : CString} {names : List CString} {i : Fin n}
    {s s₁ s' : BuildState σ n} {result : ℤ} (h : Eval mk env (.loop target (name :: names)) s result s')
    (hvisit : visitDependency mk env target name s = (some i, s₁)) :
    ∃ called s₂, Eval mk env (.call (.entry i)) s₁ called s₂ ∧
      (called ≠ -1 ∧ Eval mk env (.loop target names) s₂ result s' ∨ called = -1 ∧ result = -1 ∧
        s' = s₂) := by
  cases h with
  | loop_pass hvisit' => exact absurd (Prod.mk.inj (hvisit.symm.trans hvisit')).1 (by simp)
  | loop_call hvisit' hcall hcalled hloop =>
    obtain ⟨hi, rfl⟩ := Prod.mk.inj (hvisit.symm.trans hvisit')
    obtain rfl := Option.some.inj hi
    exact ⟨_, _, hcall, Or.inl ⟨hcalled, hloop⟩⟩
  | loop_fail hvisit' hcall =>
    obtain ⟨hi, rfl⟩ := Prod.mk.inj (hvisit.symm.trans hvisit')
    obtain rfl := Option.some.inj hi
    exact ⟨_, _, hcall, Or.inr ⟨rfl, rfl, rfl⟩⟩

/-- `build` is a function: a task has one result and one final state. -/
theorem Eval.unique {task : Task n} {s s₁ s₂ : BuildState σ n} {result₁ result₂ : ℤ}
    (h₁ : Eval mk env task s result₁ s₁) (h₂ : Eval mk env task s result₂ s₂) :
    result₁ = result₂ ∧ s₁ = s₂ := by
  induction h₁ generalizing result₂ s₂ with
  | loop_nil =>
    cases h₂
    exact ⟨rfl, rfl⟩
  | loop_pass hvisit _ ih => exact ih (h₂.of_pass hvisit)
  | loop_call hvisit _ hcalled _ ihcall ihloop =>
    obtain ⟨called, s₃, hcall, hrest⟩ := h₂.of_callee hvisit
    obtain ⟨rfl, rfl⟩ := ihcall hcall
    rcases hrest with ⟨-, hloop⟩ | ⟨hfail, -⟩
    · exact ihloop hloop
    · exact absurd hfail hcalled
  | loop_fail hvisit _ ihcall =>
    obtain ⟨called, s₃, hcall, hrest⟩ := h₂.of_callee hvisit
    obtain ⟨rfl, rfl⟩ := ihcall hcall
    rcases hrest with ⟨hcalled, -⟩ | ⟨-, rfl, rfl⟩
    · exact absurd rfl hcalled
    · exact ⟨rfl, rfl⟩
  | call_finish _ hlooped hfinish ih =>
    cases h₂ with
    | call_finish hloop _ hfinish' =>
      obtain ⟨-, rfl⟩ := ih hloop
      obtain ⟨rfl, rfl⟩ := Prod.mk.inj (hfinish.symm.trans hfinish')
      exact ⟨rfl, rfl⟩
    | call_fail hloop => exact absurd (ih hloop).1 hlooped
  | call_fail _ ih =>
    cases h₂ with
    | call_finish hloop hlooped => exact absurd (ih hloop).1.symm hlooped
    | call_fail hloop =>
      obtain ⟨-, rfl⟩ := ih hloop
      exact ⟨rfl, rfl⟩

/-- What holds in a state which an evaluation comes to, and is preserved by the steps, holds at
its end. -/
theorem LeadsTo.invariant {P : BuildState σ n → Prop} (hP : StepInvariant mk env (Scope.all n) P)
    {first later : Task n × BuildState σ n} (h : LeadsTo mk env first later) {result : ℤ}
    {s' : BuildState σ n} (heval : Eval mk env first.1 first.2 result s')
    (hwithin : first.1.Within mk (Scope.all n)) (hlater : P later.2) :
    P s' := by
  induction h using Relation.ReflTransGen.head_induction_on generalizing result s' with
  | refl => exact heval.invariant (Scope.all_closed mk) hP hwithin hlater
  | head hstep _ ih =>
    cases hstep with
    | @body target s =>
      have hbody : (Task.loop target (mk.target target).dependencyNames).Within mk (Scope.all n) :=
        ⟨trivial, List.Subset.refl _⟩
      cases heval with
      | call_finish hloop _ hfinish =>
        exact hP.leave _ _ trivial (hP.finish trivial hfinish (ih hloop hbody))
      | call_fail hloop => exact hP.leave _ _ trivial (ih hloop hbody)
    | pass hvisit => exact ih (heval.of_pass hvisit) ⟨trivial, (List.cons_subset.mp hwithin.2).2⟩
    | callee hvisit =>
      obtain ⟨called, s₂, hcall, hrest⟩ := heval.of_callee hvisit
      have hcallee := ih hcall trivial
      rcases hrest with ⟨-, hloop⟩ | ⟨-, -, rfl⟩
      · exact hloop.invariant (Scope.all_closed mk) hP
          ⟨trivial, (List.cons_subset.mp hwithin.2).2⟩ hcallee
      · exact hcallee
    | rest hvisit hcall hcalled =>
      obtain ⟨called, s₂, hcall', hrest⟩ := heval.of_callee hvisit
      obtain ⟨rfl, rfl⟩ := hcall.unique hcall'
      rcases hrest with ⟨-, hloop⟩ | ⟨hfail, -⟩
      · exact ih hloop ⟨trivial, (List.cons_subset.mp hwithin.2).2⟩
      · exact absurd hfail hcalled

end Csci4061.Make
