import Csci4061.Make.Target
import Mathlib.Logic.Function.Basic

/-!
# Building a target

`build` goes over the dependencies of a target, calls itself on those which are targets and have
to be visited, and executes the command of the target at the end if it was marked. The recursion
takes a bound on the depth of the calls, which a later module shows to be finite.

`Eval` is the same as a relation without the bound. Facts about all runs are proved by induction
on it, with one case for each way through the loop and through the end of a call.
-/

namespace Csci4061.Make

open Csci4061.Lib

variable {n : ℕ} {σ : Type*}

/-- What an observer of the calls sees: a call on a target, with the statuses and the world at
that time; the execution of its command; the return of the call. -/
inductive Event (σ : Type*) (n : ℕ)
  | entered (target : TargetRef n) (status : TargetRef n → Status) (world : σ)
  | executed (target : TargetRef n)
  | returned (target : TargetRef n)

/-- The statuses, the world around the program and the events so far. -/
structure BuildState (σ : Type*) (n : ℕ) where
  status : TargetRef n → Status
  world : σ
  trace : List (Event σ n)

/-- After the initialisation in `main`. -/
def BuildState.start (world : σ) : BuildState σ n := ⟨fun _ => .unfinished, world, []⟩

/-- `target->Status = status`. -/
def BuildState.setStatus (s : BuildState σ n) (target : TargetRef n) (status : Status) :
    BuildState σ n :=
  { s with status := Function.update s.status target status }

/-- Another world. -/
def BuildState.setWorld (s : BuildState σ n) (world : σ) : BuildState σ n := { s with world := world }

/-- Add an event. -/
def BuildState.record (s : BuildState σ n) (event : Event σ n) : BuildState σ n :=
  { s with trace := s.trace ++ [event] }

/-- Setting a status changes the status of that target only. -/
@[simp] theorem BuildState.setStatus_status (s : BuildState σ n) (target : TargetRef n)
    (status : Status) :
    (s.setStatus target status).status = Function.update s.status target status := rfl

/-- Setting a status keeps the world. -/
@[simp] theorem BuildState.setStatus_world (s : BuildState σ n) (target : TargetRef n)
    (status : Status) :
    (s.setStatus target status).world = s.world := rfl

/-- Setting a status is no event. -/
@[simp] theorem BuildState.setStatus_trace (s : BuildState σ n) (target : TargetRef n)
    (status : Status) :
    (s.setStatus target status).trace = s.trace := rfl

/-- Another world keeps the statuses. -/
@[simp] theorem BuildState.setWorld_status (s : BuildState σ n) (world : σ) :
    (s.setWorld world).status = s.status := rfl

/-- The world which was set. -/
@[simp] theorem BuildState.setWorld_world (s : BuildState σ n) (world : σ) :
    (s.setWorld world).world = world := rfl

/-- Another world is no event. -/
@[simp] theorem BuildState.setWorld_trace (s : BuildState σ n) (world : σ) :
    (s.setWorld world).trace = s.trace := rfl

/-- An event keeps the statuses. -/
@[simp] theorem BuildState.record_status (s : BuildState σ n) (event : Event σ n) :
    (s.record event).status = s.status := rfl

/-- An event keeps the world. -/
@[simp] theorem BuildState.record_world (s : BuildState σ n) (event : Event σ n) :
    (s.record event).world = s.world := rfl

/-- An event is added at the end. -/
@[simp] theorem BuildState.record_trace (s : BuildState σ n) (event : Event σ n) :
    (s.record event).trace = s.trace ++ [event] := rfl

/-- One pass of the loop of `build`: the entry to call `build` on, if there is one. -/
def visitDependency (mk : Makefile n) (env : Env σ) (target : TargetRef n) (name : CString)
    (s : BuildState σ n) :
    Option (Fin n) × BuildState σ n :=
  match findTarget mk.targets name with
  | some dependsOn =>
    if s.status (.entry dependsOn) = .unfinished then
      let (order, world) :=
        env.compareModificationTime s.world (mk.targets dependsOn).targetName
          (mk.target target).targetName
      if order ≠ 2 then (some dependsOn, (s.setWorld world).setStatus target .needsBuilding)
      else (none, s.setWorld world)
    else (none, s)
  | none =>
    if s.status target = .unfinished then
      let (order, world) := env.compareModificationTime s.world name (mk.target target).targetName
      if order ≠ 2 then (none, (s.setWorld world).setStatus target .needsBuilding)
      else (none, s.setWorld world)
    else (none, s)

/-- The loop of `build`, for the recursive calls given: `-1` if one of them failed. -/
def dependencyLoop (mk : Makefile n) (env : Env σ)
    (call : Fin n → BuildState σ n → Option (ℤ × BuildState σ n))
    (target : TargetRef n) : List CString → BuildState σ n → Option (ℤ × BuildState σ n)
  | [], s => some (0, s)
  | name :: names, s =>
    match visitDependency mk env target name s with
    | (some dependsOn, s₁) =>
      (call dependsOn s₁).bind fun (result, s₂) =>
        if result = -1 then some (-1, s₂) else dependencyLoop mk env call target names s₂
    | (none, s₁) => dependencyLoop mk env call target names s₁

/-- The call on a target begins: without dependencies it is marked. -/
def beginTarget (mk : Makefile n) (target : TargetRef n) (s : BuildState σ n) : BuildState σ n :=
  let s := s.record (.entered target s.status s.world)
  if (mk.target target).dependencyNames = [] then s.setStatus target .needsBuilding else s

/-- The end of `build`: the command of a marked target is executed. -/
def finishTarget (mk : Makefile n) (env : Env σ) (target : TargetRef n) (s : BuildState σ n) :
    ℤ × BuildState σ n :=
  if s.status target ≠ .needsBuilding then (0, s.setStatus target .finished)
  else
    match env.fork s.world with
    | (false, world) => (-1, s.setWorld world)
    | (true, world) =>
      let (waited, world) := env.command world (mk.target target).command
      let s := (s.setWorld world).record (.executed target)
      match waited with
      | .exited code => if code ≠ 0 then (-1, s) else (0, s.setStatus target .finished)
      | .signaled => (0, s.setStatus target .finished)

/-- `build`, with a bound on the depth of the calls; `none` if it is exceeded. -/
def build (mk : Makefile n) (env : Env σ) :
    ℕ → TargetRef n → BuildState σ n → Option (ℤ × BuildState σ n)
  | 0, _, _ => none
  | depth + 1, target, s =>
    (dependencyLoop mk env (fun i => build mk env depth (.entry i)) target
      (mk.target target).dependencyNames
      (beginTarget mk target s)).map fun (result, s₁) =>
        let (result, s₂) := if result = -1 then (-1, s₁) else finishTarget mk env target s₁
        (result, s₂.record (.returned target))

/-- The run which `main` starts, on the copy of the requested target. -/
def runMake (mk : Makefile n) (env : Env σ) (depth : ℕ) (world : σ) : Option (ℤ × BuildState σ n) :=
  build mk env depth .initial (.start world)

/-- What is evaluated: a call of `build`, or the rest of its loop. -/
inductive Task (n : ℕ)
  | call (target : TargetRef n)
  | loop (target : TargetRef n) (names : List CString)

/-- Evaluation of a task from a state, with its result and the state afterwards. -/
inductive Eval (mk : Makefile n) (env : Env σ) : Task n → BuildState σ n → ℤ → BuildState σ n → Prop
  | loop_nil {target : TargetRef n} {s : BuildState σ n} : Eval mk env (.loop target []) s 0 s
  | loop_pass {target : TargetRef n} {name : CString} {names : List CString} {s s₁ s' : BuildState σ n}
    {result : ℤ} :
      visitDependency mk env target name s = (none, s₁) → Eval mk env (.loop target names) s₁ result s' →
      Eval mk env (.loop target (name :: names)) s result s'
  | loop_call {target : TargetRef n} {name : CString} {names : List CString} {i : Fin n}
      {s s₁ s₂ s' : BuildState σ n} {called result : ℤ} :
      visitDependency mk env target name s = (some i, s₁) → Eval mk env (.call (.entry i)) s₁ called s₂ →
      called ≠ -1 → Eval mk env (.loop target names) s₂ result s' →
      Eval mk env (.loop target (name :: names)) s result s'
  | loop_fail {target : TargetRef n} {name : CString} {names : List CString} {i : Fin n}
    {s s₁ s₂ : BuildState σ n} :
      visitDependency mk env target name s = (some i, s₁) → Eval mk env (.call (.entry i)) s₁ (-1) s₂ →
      Eval mk env (.loop target (name :: names)) s (-1) s₂
  | call_finish {target : TargetRef n} {s s₁ s₂ : BuildState σ n} {looped result : ℤ} :
      Eval mk env (.loop target (mk.target target).dependencyNames) (beginTarget mk target s) looped s₁ →
      looped ≠ -1 → finishTarget mk env target s₁ = (result, s₂) →
      Eval mk env (.call target) s result (s₂.record (.returned target))
  | call_fail {target : TargetRef n} {s s₁ : BuildState σ n} :
      Eval mk env (.loop target (mk.target target).dependencyNames) (beginTarget mk target s) (-1) s₁ →
      Eval mk env (.call target) s (-1) (s₁.record (.returned target))

/-- A loop whose calls evaluate is an evaluation. -/
theorem dependencyLoop_eval {mk : Makefile n} {env : Env σ}
    {call : Fin n → BuildState σ n → Option (ℤ × BuildState σ n)}
    (hcall : ∀ i s result s', call i s = some (result, s') → Eval mk env (.call (.entry i)) s result s')
    {target : TargetRef n} {names : List CString} {s s' : BuildState σ n} {result : ℤ}
    (h : dependencyLoop mk env call target names s = some (result, s')) :
    Eval mk env (.loop target names) s result s' := by
  induction names generalizing s with
  | nil =>
    obtain ⟨rfl, rfl⟩ := Prod.mk.inj (Option.some.inj h)
    exact .loop_nil
  | cons name names ih =>
    rw [dependencyLoop] at h
    split at h
    · rename_i i s₁ hvisit
      obtain ⟨⟨called, s₂⟩, hcalled, hrest⟩ := Option.bind_eq_some_iff.mp h
      have heval := hcall i s₁ called s₂ hcalled
      by_cases hfail : called = -1
      · simp only [hfail, if_true] at hrest
        obtain ⟨rfl, rfl⟩ := Prod.mk.inj (Option.some.inj hrest)
        exact .loop_fail hvisit (hfail ▸ heval)
      · simp only [hfail, if_false] at hrest
        exact .loop_call hvisit heval hfail (ih hrest)
    · rename_i s₁ hvisit
      exact .loop_pass hvisit (ih h)

/-- A call of `build` which returns is an evaluation. -/
theorem build_eval {mk : Makefile n} {env : Env σ} {depth : ℕ} {target : TargetRef n}
    {s s' : BuildState σ n} {result : ℤ} (h : build mk env depth target s = some (result, s')) :
    Eval mk env (.call target) s result s' := by
  induction depth generalizing target s result s' with
  | zero => exact absurd h (by simp [build])
  | succ depth ih =>
    obtain ⟨⟨looped, s₁⟩, hloop, heq⟩ := Option.map_eq_some_iff.mp h
    have heval := dependencyLoop_eval (fun i s result s' hi => ih hi) hloop
    by_cases hfail : looped = -1
    · subst hfail
      obtain ⟨rfl, rfl⟩ := Prod.mk.inj heq
      exact .call_fail heval
    · simp only [hfail, if_false] at heq
      obtain ⟨rfl, rfl⟩ := Prod.mk.inj heq
      exact .call_finish heval hfail rfl

/-- A pass of the loop which calls `build`: the entry was not visited and is not older, and the
target is marked before the call. -/
theorem visitDependency_some {mk : Makefile n} {env : Env σ} {target : TargetRef n} {name : CString}
    {s s₁ : BuildState σ n} {i : Fin n} (h : visitDependency mk env target name s = (some i, s₁)) :
    findTarget mk.targets name = some i ∧ s.status (.entry i) = .unfinished ∧ ∃ order world,
      env.compareModificationTime s.world (mk.targets i).targetName (mk.target target).targetName =
        (order, world) ∧ order ≠ 2 ∧ s₁ = (s.setWorld world).setStatus target .needsBuilding := by
  unfold visitDependency at h
  split at h
  · rename_i dependsOn hfind
    split at h
    · rename_i hstatus
      split at h
      rename_i order world hcompare
      split at h
      · rename_i horder
        obtain ⟨hi, rfl⟩ := Prod.mk.inj h
        obtain rfl := Option.some.inj hi
        exact ⟨hfind, hstatus, order, world, hcompare, horder, rfl⟩
      · exact absurd (congrArg Prod.fst h) (by simp)
    · exact absurd (congrArg Prod.fst h) (by simp)
  · split at h
    · split at h
      split at h <;> exact absurd (congrArg Prod.fst h) (by simp)
    · exact absurd (congrArg Prod.fst h) (by simp)

/-- A call is made on a direct dependency. -/
theorem visitDependency_edge {mk : Makefile n} {env : Env σ} {target : TargetRef n} {name : CString}
    {s s₁ : BuildState σ n} {i : Fin n} (hname : name ∈ (mk.target target).dependencyNames)
    (h : visitDependency mk env target name s = (some i, s₁)) : mk.Edge (mk.index target) i :=
  ⟨name, hname, (visitDependency_some h).1⟩

/-- Before a call the target is marked. -/
theorem visitDependency_marked {mk : Makefile n} {env : Env σ} {target : TargetRef n} {name : CString}
    {s s₁ : BuildState σ n} {i : Fin n} (h : visitDependency mk env target name s = (some i, s₁)) :
    s₁.status target = .needsBuilding := by
  obtain ⟨-, -, order, world, -, -, rfl⟩ := visitDependency_some h
  simp

/-- A call is made on an entry which was not visited, unless it is the target itself. -/
theorem visitDependency_callee {mk : Makefile n} {env : Env σ} {target : TargetRef n} {name : CString}
    {s s₁ : BuildState σ n} {i : Fin n} (h : visitDependency mk env target name s = (some i, s₁))
    (hne : .entry i ≠ target) : s₁.status (.entry i) = .unfinished := by
  obtain ⟨-, hstatus, order, world, -, -, rfl⟩ := visitDependency_some h
  rw [BuildState.setStatus_status, Function.update_of_ne hne]
  exact hstatus

/-- Any pass of the loop looks at two files or at none, and marks the target or leaves it. -/
theorem visitDependency_cases {mk : Makefile n} {env : Env σ} {target : TargetRef n} {name : CString}
    {s s₁ : BuildState σ n} {dependsOn : Option (Fin n)}
    (h : visitDependency mk env target name s = (dependsOn, s₁)) :
    ∃ world, (world = s.world ∨ ∃ file₁ file₂,
      world = (env.compareModificationTime s.world file₁ file₂).2) ∧
      (s₁ = s.setWorld world ∨ s₁ = (s.setWorld world).setStatus target .needsBuilding) := by
  obtain rfl := congrArg Prod.snd h
  unfold visitDependency
  split
  · split
    · simp only
      split
      · exact ⟨_, Or.inr ⟨_, _, rfl⟩, Or.inr rfl⟩
      · exact ⟨_, Or.inr ⟨_, _, rfl⟩, Or.inl rfl⟩
    · exact ⟨s.world, Or.inl rfl, Or.inl rfl⟩
  · split
    · simp only
      split
      · exact ⟨_, Or.inr ⟨_, _, rfl⟩, Or.inr rfl⟩
      · exact ⟨_, Or.inr ⟨_, _, rfl⟩, Or.inl rfl⟩
    · exact ⟨s.world, Or.inl rfl, Or.inl rfl⟩

/-- The beginning of a call marks the target or leaves it. -/
theorem beginTarget_cases (mk : Makefile n) (target : TargetRef n) (s : BuildState σ n) :
    beginTarget mk target s = s.record (.entered target s.status s.world) ∨
      beginTarget mk target s =
        (s.record (.entered target s.status s.world)).setStatus target .needsBuilding := by
  unfold beginTarget
  split
  · exact Or.inr rfl
  · exact Or.inl rfl

/-- The end of a call: an unmarked target is finished at once. -/
theorem finishTarget_unmarked {mk : Makefile n} {env : Env σ} {target : TargetRef n} {s : BuildState σ n}
    (h : s.status target ≠ .needsBuilding) :
    finishTarget mk env target s = (0, s.setStatus target .finished) :=
  if_pos h

/-- The end of a call: the command of a marked target is executed, unless `fork` fails. A result of
`0` finishes the target. -/
theorem finishTarget_marked {mk : Makefile n} {env : Env σ} {target : TargetRef n}
    {s s₁ : BuildState σ n} {result : ℤ} (hmark : s.status target = .needsBuilding)
    (h : finishTarget mk env target s = (result, s₁)) :
    (result = -1 ∧ s₁ = s.setWorld (env.fork s.world).2) ∨
      ∃ s₂, s₂ = (s.setWorld (env.command (env.fork s.world).2 (mk.target target).command).2).record
        (.executed target) ∧
        (result = -1 ∧ s₁ = s₂ ∨ result = 0 ∧ s₁ = s₂.setStatus target .finished) := by
  unfold finishTarget at h
  rw [if_neg (not_not.mpr hmark)] at h
  split at h
  · rename_i world hfork
    rw [hfork]
    obtain ⟨rfl, rfl⟩ := Prod.mk.inj h
    exact Or.inl ⟨rfl, rfl⟩
  · rename_i world hfork
    rw [hfork]
    refine Or.inr ⟨_, rfl, ?_⟩
    simp only at h
    split at h
    · split at h
      · obtain ⟨rfl, rfl⟩ := Prod.mk.inj h
        exact Or.inl ⟨rfl, rfl⟩
      · obtain ⟨rfl, rfl⟩ := Prod.mk.inj h
        exact Or.inr ⟨rfl, rfl⟩
    · obtain ⟨rfl, rfl⟩ := Prod.mk.inj h
      exact Or.inr ⟨rfl, rfl⟩

/-- The end of a call on a marked target, if `fork` fails. -/
theorem finishTarget_unforked {mk : Makefile n} {env : Env σ} {target : TargetRef n}
    {s : BuildState σ n} {world : σ} (hmark : s.status target = .needsBuilding)
    (hfork : env.fork s.world = (false, world)) :
    finishTarget mk env target s = (-1, s.setWorld world) := by
  simp [finishTarget, hmark, hfork]

/-- `WIFEXITED(status) && (WEXITSTATUS(status) != 0)`. -/
def WaitStatus.reportsFailure : WaitStatus → Bool
  | .exited code => code ≠ 0
  | .signaled => false

/-- The end of a call on a marked target, for the end of its command. -/
theorem finishTarget_ended {mk : Makefile n} {env : Env σ} {target : TargetRef n} {s : BuildState σ n}
    {world world₁ : σ} {waited : WaitStatus} (hmark : s.status target = .needsBuilding)
    (hfork : env.fork s.world = (true, world))
    (hcommand : env.command world (mk.target target).command = (waited, world₁)) :
    finishTarget mk env target s =
      if waited.reportsFailure then (-1, (s.setWorld world₁).record (.executed target))
      else (0, ((s.setWorld world₁).record (.executed target)).setStatus target .finished) := by
  cases waited with
  | exited code => simp [finishTarget, hmark, hfork, hcommand, WaitStatus.reportsFailure]
  | signaled => simp [finishTarget, hmark, hfork, hcommand, WaitStatus.reportsFailure]

/-- A pass of the loop is no event. -/
theorem visitDependency_trace {mk : Makefile n} {env : Env σ} {target : TargetRef n} {name : CString}
    {s s₁ : BuildState σ n} {dependsOn : Option (Fin n)}
    (h : visitDependency mk env target name s = (dependsOn, s₁)) : s₁.trace = s.trace := by
  obtain ⟨world, -, rfl | rfl⟩ := visitDependency_cases h <;> rfl

/-- The beginning of a call is one event. -/
theorem beginTarget_trace (mk : Makefile n) (target : TargetRef n) (s : BuildState σ n) :
    (beginTarget mk target s).trace = s.trace ++ [.entered target s.status s.world] := by
  cases beginTarget_cases mk target s with
  | inl heq => rw [heq, BuildState.record_trace]
  | inr heq => rw [heq, BuildState.setStatus_trace, BuildState.record_trace]

/-- The end of a call executes the command of the target at most once. -/
theorem finishTarget_trace {mk : Makefile n} {env : Env σ} {target : TargetRef n} {s s₁ : BuildState σ n}
    {result : ℤ} (h : finishTarget mk env target s = (result, s₁)) :
    s₁.trace = s.trace ∨ s₁.trace = s.trace ++ [.executed target] := by
  by_cases hmark : s.status target = .needsBuilding
  · rcases finishTarget_marked hmark h with ⟨-, rfl⟩ | ⟨s₂, rfl, ⟨-, rfl⟩ | ⟨-, rfl⟩⟩
    · exact Or.inl rfl
    · exact Or.inr rfl
    · exact Or.inr rfl
  · rw [finishTarget_unmarked hmark] at h
    obtain ⟨-, rfl⟩ := Prod.mk.inj h
    exact Or.inl rfl

/-- The end of a call leaves the target visited. -/
theorem finishTarget_visited {mk : Makefile n} {env : Env σ} {target : TargetRef n}
    {s s₁ : BuildState σ n} {result : ℤ} (h : finishTarget mk env target s = (result, s₁)) :
    s₁.status target ≠ .unfinished := by
  by_cases hmark : s.status target = .needsBuilding
  · rcases finishTarget_marked hmark h with ⟨-, rfl⟩ | ⟨s₂, rfl, ⟨-, rfl⟩ | ⟨-, rfl⟩⟩
    · simp [hmark]
    · simp [hmark]
    · simp
  · rw [finishTarget_unmarked hmark] at h
    obtain ⟨-, rfl⟩ := Prod.mk.inj h
    simp

end Csci4061.Make
