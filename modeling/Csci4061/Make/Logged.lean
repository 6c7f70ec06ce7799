import Csci4061.Make.Build

/-!
# Surroundings which keep a log

`build` sees its surroundings only through what they answer. If the worlds of one environment project to
those of another one which gives the same answers, then the runs project as well.

So an environment may keep a log of the ends of the commands, and the runs are those without the log.
-/

namespace Csci4061.Make

open Csci4061.Lib

variable {n : ℕ} {σ τ : Type*} {mk : Makefile n} {env : Env σ} {detailed : Env τ} {project : τ → σ}

/-- The worlds of an environment project to those of another one, which gives the same answers. -/
structure Env.Projects (detailed : Env τ) (env : Env σ) (project : τ → σ) : Prop where
  stat : ∀ world file, env.stat (project world) file =
    ((detailed.stat world file).1, project (detailed.stat world file).2)
  fork : ∀ world, env.fork (project world) = ((detailed.fork world).1, project (detailed.fork world).2)
  command : ∀ world command, env.command (project world) command =
    ((detailed.command world command).1, project (detailed.command world command).2)

/-- The event with the projected world. -/
def Event.map (project : τ → σ) : Event τ n → Event σ n
  | .entered target status world => .entered target status (project world)
  | .executed target => .executed target
  | .returned target => .returned target

/-- The state with the projected world and events. -/
def BuildState.map (project : τ → σ) (s : BuildState τ n) : BuildState σ n :=
  ⟨s.status, project s.world, s.trace.map (Event.map project)⟩

/-- Projecting keeps the statuses. -/
@[simp] theorem BuildState.map_status (s : BuildState τ n) : (s.map project).status = s.status := rfl

/-- The projected world. -/
@[simp] theorem BuildState.map_world (s : BuildState τ n) : (s.map project).world = project s.world :=
  rfl

/-- The projected events. -/
@[simp] theorem BuildState.map_trace (s : BuildState τ n) :
    (s.map project).trace = s.trace.map (Event.map project) := rfl

/-- Setting a status commutes with projecting. -/
@[simp] theorem BuildState.map_setStatus (s : BuildState τ n) (target : TargetRef n) (status : Status) :
    (s.setStatus target status).map project = (s.map project).setStatus target status := rfl

/-- Another world, projected. -/
@[simp] theorem BuildState.map_setWorld (s : BuildState τ n) (world : τ) :
    (s.setWorld world).map project = (s.map project).setWorld (project world) := rfl

/-- One more event, projected. -/
@[simp] theorem BuildState.map_record (s : BuildState τ n) (event : Event τ n) :
    (s.record event).map project = (s.map project).record (event.map project) := by
  simp [BuildState.map, BuildState.record]

/-- Files compare the same. -/
theorem Env.Projects.compareModificationTime (h : detailed.Projects env project) (world : τ)
    (file₁ file₂ : CString) :
    env.compareModificationTime (project world) file₁ file₂ =
      ((detailed.compareModificationTime world file₁ file₂).1,
        project (detailed.compareModificationTime world file₁ file₂).2) := by
  simp only [Env.compareModificationTime, h.stat]

/-- A pass of the loop, projected. -/
theorem Env.Projects.visitDependency (h : detailed.Projects env project) (target : TargetRef n)
    (name : CString) (s : BuildState τ n) :
    Make.visitDependency mk env target name (s.map project) =
      ((Make.visitDependency mk detailed target name s).1,
        (Make.visitDependency mk detailed target name s).2.map project) := by
  unfold Make.visitDependency
  split
  · simp only [BuildState.map_status, BuildState.map_world, h.compareModificationTime]
    split
    · split <;> rfl
    · rfl
  · simp only [BuildState.map_status, BuildState.map_world, h.compareModificationTime]
    split
    · split <;> rfl
    · rfl

/-- The beginning of a call, projected. -/
theorem beginTarget_map (target : TargetRef n) (s : BuildState τ n) :
    beginTarget mk target (s.map project) = (beginTarget mk target s).map project := by
  unfold beginTarget
  split
  · simp [Event.map]
  · simp [Event.map]

/-- The end of a call, projected. -/
theorem Env.Projects.finishTarget (h : detailed.Projects env project) (target : TargetRef n)
    (s : BuildState τ n) :
    Make.finishTarget mk env target (s.map project) =
      ((Make.finishTarget mk detailed target s).1,
        (Make.finishTarget mk detailed target s).2.map project) := by
  by_cases hmark : s.status target = .needsBuilding
  · rcases hforked : detailed.fork s.world with ⟨created, world⟩
    have hfork : env.fork (s.map project).world = (created, project world) := by
      rw [BuildState.map_world, h.fork, hforked]
    cases created with
    | false =>
      simp [finishTarget_unforked hmark hforked, finishTarget_unforked (s := s.map project) hmark hfork]
    | true =>
      rcases hended : detailed.command world (mk.target target).command with ⟨waited, world₁⟩
      have hcommand : env.command (project world)
          (mk.target target).command = (waited, project world₁) := by
        rw [h.command, hended]
      rw [finishTarget_ended hmark hforked hended,
        finishTarget_ended (s := s.map project) hmark hfork hcommand]
      split
      · simp [Event.map]
      · simp [Event.map]
  · rw [finishTarget_unmarked hmark, finishTarget_unmarked (s := s.map project) hmark,
      BuildState.map_setStatus]

/-- The loop, projected, if the calls are. -/
theorem Env.Projects.dependencyLoop (h : detailed.Projects env project)
    {call : Fin n → BuildState σ n → Option (ℤ × BuildState σ n)}
    {callDetailed : Fin n → BuildState τ n → Option (ℤ × BuildState τ n)}
    (hcall : ∀ i s, call i (s.map project) = (callDetailed i s).map fun run =>
      (run.1, run.2.map project))
    (target : TargetRef n) (names : List CString) (s : BuildState τ n) :
    Make.dependencyLoop mk env call target names (s.map project) =
      (Make.dependencyLoop mk detailed callDetailed target names s).map fun run =>
        (run.1, run.2.map project) := by
  induction names generalizing s with
  | nil => rfl
  | cons name names ih =>
    rw [Make.dependencyLoop, Make.dependencyLoop, h.visitDependency]
    generalize Make.visitDependency mk detailed target name s = visited
    obtain ⟨dependsOn, s₁⟩ := visited
    cases dependsOn with
    | none => exact ih s₁
    | some i =>
      simp only [hcall]
      cases callDetailed i s₁ with
      | none => rfl
      | some run =>
        simp only [Option.map_some, Option.bind_some]
        split
        · rfl
        · exact ih run.2

/-- `build`, projected. -/
theorem Env.Projects.build (h : detailed.Projects env project) (depth : ℕ) (target : TargetRef n)
    (s : BuildState τ n) :
    Make.build mk env depth target (s.map project) =
      (Make.build mk detailed depth target s).map fun run => (run.1, run.2.map project) := by
  induction depth generalizing target s with
  | zero => rfl
  | succ depth ih =>
    rw [Make.build, Make.build, beginTarget_map, h.dependencyLoop fun i s => ih (.entry i) s,
      Option.map_map, Option.map_map]
    congr 1
    funext run
    simp only [Function.comp_apply]
    split
    · simp [Event.map]
    · simp [h.finishTarget, Event.map]

/-- The environment which logs how each command ended. -/
def Env.logged (env : Env σ) : Env (σ × List WaitStatus) where
  stat world file := ((env.stat world.1 file).1, (env.stat world.1 file).2, world.2)
  fork world := ((env.fork world.1).1, (env.fork world.1).2, world.2)
  command world command :=
    let (waited, world₁) := env.command world.1 command
    (waited, world₁, world.2 ++ [waited])

/-- Without the log it is the environment itself. -/
theorem Env.logged_projects (env : Env σ) : env.logged.Projects env Prod.fst :=
  ⟨fun _ _ => rfl, fun _ => rfl, fun _ _ => rfl⟩

/-- The runs with a log are those without it. -/
theorem runMake_logged (mk : Makefile n) (env : Env σ) (depth : ℕ) (world : σ) :
    runMake mk env depth world =
      (runMake mk env.logged depth (world, [])).map fun run => (run.1, run.2.map Prod.fst) :=
  env.logged_projects.build depth .initial (.start (world, []))

end Csci4061.Make
