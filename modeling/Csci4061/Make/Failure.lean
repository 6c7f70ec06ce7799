import Csci4061.Make.Logged
import Csci4061.Make.Order

/-!
# Recipes which fail

A command fails unless it ends by a normal exit with status `0`. When `build` notices it, the calls which
are open return `-1` one after the other, and no status changes any more.

`build` notices a non-zero exit status. The death of a command by a signal is taken for success.
-/

namespace Csci4061.Make

open Csci4061.Lib

variable {n : ℕ} {σ : Type*} {mk : Makefile n} {env : Env σ}

/-- What an event does to the calls which are open, the innermost first. -/
def Event.pend (calls : List (TargetRef n)) : Event σ n → List (TargetRef n)
  | .entered target _ _ => target :: calls
  | .executed _ => calls
  | .returned _ => calls.tail

/-- The targets whose calls have not returned, the innermost first. -/
def pending (trace : List (Event σ n)) : List (TargetRef n) := trace.foldl Event.pend []

/-- The calls which are open after one more event. -/
@[simp] theorem pending_append_singleton (trace : List (Event σ n)) (event : Event σ n) :
    pending (trace ++ [event]) = event.pend (pending trace) := by
  rw [pending, List.foldl_append]
  rfl

/-- How the commands ended which were executed so far. -/
def BuildState.log (s : BuildState (σ × List WaitStatus) n) : List WaitStatus := s.world.2

/-- A command which was executed did not end by a normal exit with status `0`. -/
def FailedAt (s : BuildState (σ × List WaitStatus) n) (before : List (Event (σ × List WaitStatus) n))
    (target : TargetRef n) (after : List (Event (σ × List WaitStatus) n)) : Prop :=
  s.trace = before ++ .executed target :: after ∧
    ∃ waited, s.log[(commands before).length]? = some waited ∧ waited ≠ .exited 0

/-- After a command which failed no other one was executed, and no target whose call was open is
finished. -/
def FailureStops (s : BuildState (σ × List WaitStatus) n) : Prop :=
  ∀ before target after, FailedAt s before target after →
    commands after = [] ∧ ∀ called ∈ pending before, s.status called ≠ .finished

/-- The rule that a failed recipe stops the build: it is the last one which is executed, no target whose
call is open then becomes finished, and the run returns `-1`. A run which returns `0` had no failure. -/
structure FailureRule (mk : Makefile n) (env : Env σ) (world : σ) (result : ℤ)
    (s : BuildState (σ × List WaitStatus) n) : Prop where
  stops : ∀ task s', LeadsTo mk env.logged (.call .initial, .start (world, [])) (task, s') →
    FailureStops s'
  stopsAtEnd : FailureStops s
  fails : (∃ waited ∈ s.log, waited ≠ .exited 0) → result = -1
  succeeds : result = 0 → ∀ waited ∈ s.log, waited = .exited 0

section Marks

/-- All calls which are open, apart from those on one target, are on marked targets. -/
def MarkedExcept (s : BuildState σ n) (calls : List (TargetRef n)) (target : TargetRef n) : Prop :=
  ∀ called ∈ calls, called ≠ target → s.status called = .needsBuilding

/-- Where a task starts, with the calls which are open: a loop belongs to the innermost one. -/
def Task.Opens (calls : List (TargetRef n)) (s : BuildState σ n) : Task n → Prop
  | .call _ => pending s.trace = calls ∧ ∀ called ∈ calls, s.status called = .needsBuilding
  | .loop target _ => pending s.trace = target :: calls ∧ MarkedExcept s calls target

/-- Where a task ends. -/
def Task.Closes (calls : List (TargetRef n)) (s : BuildState σ n) : Task n → Prop
  | .call target => pending s.trace = calls ∧ MarkedExcept s calls target
  | .loop target _ => pending s.trace = target :: calls ∧ MarkedExcept s calls target

/-- The steps of a call on the exempted target keep the others marked. -/
theorem stepInvariant_markedExcept (mk : Makefile n) (env : Env σ) (calls : List (TargetRef n))
    (target : TargetRef n) :
    StepInvariant mk env (Scope.only target) fun s => MarkedExcept s calls target where
  setStatus s changed status hchanged _ hs called hcalled hne := by
    obtain rfl : changed = target := hchanged
    rw [BuildState.setStatus_status, Function.update_of_ne hne]
    exact hs called hcalled hne
  look _ _ _ hs := hs
  fork _ hs := hs
  enter _ _ _ hs := hs
  execute _ _ _ _ hs := hs
  leave _ _ _ hs := hs

/-- A pass of the loop keeps the other targets marked. -/
theorem MarkedExcept.visit {s s₁ : BuildState σ n} {calls : List (TargetRef n)} {target : TargetRef n}
    {name : CString} {dependsOn : Option (Fin n)} (h : MarkedExcept s calls target)
    (hvisit : visitDependency mk env target name s = (dependsOn, s₁)) : MarkedExcept s₁ calls target :=
  (stepInvariant_markedExcept mk env calls target).visit rfl hvisit h

/-- The loop goes on after a pass without a call. -/
theorem Task.Opens.pass {s s₁ : BuildState σ n} {calls : List (TargetRef n)} {target : TargetRef n}
    {name : CString} {names : List CString} (h : (Task.loop target (name :: names)).Opens calls s)
    (hvisit : visitDependency mk env target name s = (none, s₁)) :
    (Task.loop target names).Opens calls s₁ :=
  ⟨visitDependency_trace hvisit ▸ h.1, h.2.visit hvisit⟩

/-- Before a call all targets with open calls are marked. -/
theorem Task.Opens.callee {s s₁ : BuildState σ n} {calls : List (TargetRef n)} {target : TargetRef n}
    {name : CString} {names : List CString} {i : Fin n}
    (h : (Task.loop target (name :: names)).Opens calls s)
    (hvisit : visitDependency mk env target name s = (some i, s₁)) :
    (Task.call (.entry i)).Opens (target :: calls) s₁ := by
  refine ⟨visitDependency_trace hvisit ▸ h.1, List.forall_mem_cons.mpr ⟨visitDependency_marked hvisit,
    ?_⟩⟩
  intro called hcalled
  by_cases heq : called = target
  · exact heq ▸ visitDependency_marked hvisit
  · exact h.2.visit hvisit called hcalled heq

/-- After a call the loop goes on. The callee was unfinished before, so it is none of the others. -/
theorem Task.Opens.rest {s s₁ s₂ : BuildState σ n} {calls : List (TargetRef n)} {target : TargetRef n}
    {name : CString} {names : List CString} {i : Fin n}
    (h : (Task.loop target (name :: names)).Opens calls s)
    (hvisit : visitDependency mk env target name s = (some i, s₁))
    (hcloses : (Task.call (.entry i)).Closes (target :: calls) s₂) :
    (Task.loop target names).Opens calls s₂ := by
  refine ⟨hcloses.1, fun called hcalled hne => hcloses.2 called (List.mem_cons_of_mem _ hcalled) ?_⟩
  rintro rfl
  have hmarked := h.2 _ hcalled hne
  exact absurd (hmarked.symm.trans (visitDependency_some hvisit).2.1) (by decide)

/-- The body of a call starts. -/
theorem Task.Opens.body (env : Env σ) {s : BuildState σ n} {calls : List (TargetRef n)}
    {target : TargetRef n} (h : (Task.call target).Opens calls s) :
    (Task.loop target (mk.target target).dependencyNames).Opens calls (beginTarget mk target s) := by
  obtain ⟨hpending, hmarked⟩ := h
  have hexcept : MarkedExcept s calls target := fun called hcalled _ => hmarked called hcalled
  refine ⟨?_, (stepInvariant_markedExcept mk env calls target).begin rfl hexcept⟩
  rw [beginTarget_trace, pending_append_singleton, hpending]
  rfl

/-- The end of a call opens and closes nothing. -/
theorem finishTarget_pending {target : TargetRef n} {s s₁ : BuildState σ n} {result : ℤ}
    (h : finishTarget mk env target s = (result, s₁)) : pending s₁.trace = pending s.trace := by
  rcases finishTarget_trace h with heq | heq
  · rw [heq]
  · rw [heq, pending_append_singleton]
    rfl

/-- The return of a call closes it. -/
theorem Task.Closes.return {s : BuildState σ n} {calls : List (TargetRef n)} {target : TargetRef n}
    (hpending : pending s.trace = target :: calls) (hmarked : MarkedExcept s calls target) :
    (Task.call target).Closes calls (s.record (.returned target)) := by
  refine ⟨?_, hmarked⟩
  rw [BuildState.record_trace, pending_append_singleton, hpending]
  rfl

/-- Every evaluation closes the calls which it opens and keeps the targets of the others marked. -/
theorem Eval.closes {task : Task n} {s s' : BuildState σ n} {result : ℤ}
    (h : Eval mk env task s result s') {calls : List (TargetRef n)} (hopens : task.Opens calls s) :
    task.Closes calls s' := by
  induction h generalizing calls with
  | loop_nil => exact hopens
  | loop_pass hvisit _ ih => exact ih (hopens.pass hvisit)
  | loop_call hvisit _ _ _ ihcall ihloop =>
    exact ihloop (hopens.rest hvisit (ihcall (hopens.callee hvisit)))
  | @loop_fail target name names i s s₁ s₂ hvisit _ ihcall =>
    have hrest : (Task.loop target names).Opens calls s₂ :=
      hopens.rest hvisit (ihcall (hopens.callee hvisit))
    exact hrest
  | call_finish _ _ hfinish ih =>
    obtain ⟨hpending, hmarked⟩ := ih (hopens.body env)
    have hmarked₁ := (stepInvariant_markedExcept mk env calls _).finish rfl hfinish hmarked
    exact .return ((finishTarget_pending hfinish).trans hpending) hmarked₁
  | call_fail _ ih =>
    obtain ⟨hpending, hmarked⟩ := ih (hopens.body env)
    exact .return hpending hmarked

end Marks

section Log

variable {s s' : BuildState (σ × List WaitStatus) n}

/-- A status which is in the log stays there. -/
theorem stepInvariant_mem_log (mk : Makefile n) (env : Env σ) (scope : Scope n) (waited : WaitStatus) :
    StepInvariant mk env.logged scope fun s => waited ∈ s.log where
  setStatus _ _ _ _ _ hs := hs
  look _ _ _ hs := hs
  fork _ hs := hs
  enter _ _ _ hs := hs
  execute _ _ _ _ hs := List.mem_append_left _ hs
  leave _ _ _ hs := hs

/-- The log has one status for each command which was executed. -/
def Aligned (s : BuildState (σ × List WaitStatus) n) : Prop := (commands s.trace).length = s.log.length

/-- The steps keep the log and the commands aligned. -/
theorem stepInvariant_aligned (mk : Makefile n) (env : Env σ) (scope : Scope n) :
    StepInvariant mk env.logged scope Aligned where
  setStatus _ _ _ _ _ hs := hs
  look _ _ _ hs := hs
  fork _ hs := hs
  enter s target _ hs := by
    rw [Aligned, BuildState.record_trace, commands_append, commands_entered, List.append_nil]
    exact hs
  execute s target _ _ hs := by
    have hlog : ∀ waited : WaitStatus, (s.log ++ [waited]).length = s.log.length + 1 :=
      fun _ => List.length_append
    rw [Aligned, BuildState.record_trace, commands_append, commands_executed, List.length_append]
    exact (congrArg (· + 1) hs).trans (hlog _).symm
  leave s target _ hs := by
    rw [Aligned, BuildState.record_trace, commands_append, commands_returned, List.append_nil]
    exact hs

/-- All commands which were executed ended by a normal exit with status `0`. -/
def Clean (s : BuildState (σ × List WaitStatus) n) : Prop := ∀ waited ∈ s.log, waited = .exited 0

/-- A pass of the loop executes nothing. -/
theorem visitDependency_log {target : TargetRef n} {name : CString} {dependsOn : Option (Fin n)}
    (h : visitDependency mk env.logged target name s = (dependsOn, s')) : s'.log = s.log := by
  obtain ⟨world, rfl | ⟨file₁, file₂, rfl⟩, rfl | rfl⟩ := visitDependency_cases h
  · rfl
  · rfl
  · rfl
  · rfl

/-- The beginning of a call executes nothing. -/
theorem beginTarget_log (mk : Makefile n) (target : TargetRef n)
    (s : BuildState (σ × List WaitStatus) n) :
    (beginTarget mk target s).log = s.log := by
  cases beginTarget_cases mk target s with
  | inl heq => rw [heq]; rfl
  | inr heq => rw [heq]; rfl

/-- Without a failure there is nothing to stop for. -/
theorem Clean.failureStops (h : Clean s) : FailureStops s := by
  rintro before target after ⟨-, waited, hwaited, hfailed⟩
  exact absurd (h waited (List.mem_of_getElem? hwaited)) hfailed

/-- The return of a call is no reason to go on. -/
theorem FailureStops.return (h : FailureStops s) (target : TargetRef n) :
    FailureStops (s.record (.returned target)) := by
  rintro before executed after ⟨htrace, hfailed⟩
  rcases append_eq_append_cons htrace with ⟨middle, heq, rfl⟩ | ⟨middle, -, hreturned⟩
  · obtain ⟨hlast, hstatus⟩ := h before executed middle ⟨heq, hfailed⟩
    exact ⟨by rw [commands_append, hlast]; rfl, hstatus⟩
  · have hmem : Event.executed executed ∈ middle ++ Event.executed executed :: after :=
      List.mem_append_right _ List.mem_cons_self
    rw [← hreturned] at hmem
    exact absurd hmem (by simp)

/-- After a first failure the build has stopped, as all calls which are open are on marked targets. -/
theorem failureStops_executed (target : TargetRef n) (hclean : Clean s) (haligned : Aligned s)
    (hmarked : ∀ called ∈ pending s.trace, s.status called = .needsBuilding)
    (world : σ × List WaitStatus) (hworld : world.2.take s.log.length = s.log) :
    FailureStops ((s.setWorld world).record (.executed target)) := by
  rintro before executed after ⟨htrace, waited, hwaited, hfailed⟩
  rcases append_eq_append_cons htrace with ⟨middle, heq, -⟩ | ⟨middle, hbefore, hlast⟩
  · -- an earlier command, which did not fail
    have hlength : (commands before).length < s.log.length := by
      rw [← haligned, show s.trace = _ from heq, commands_append, List.length_append]
      have : (commands (.executed executed :: middle)).length = (commands middle).length + 1 := rfl
      omega
    have hold : s.log[(commands before).length]? = some waited := by
      rw [← hworld, List.getElem?_take_of_lt hlength]
      exact hwaited
    exact absurd (hclean waited (List.mem_of_getElem? hold)) hfailed
  · cases middle with
    | nil =>
      obtain ⟨-, rfl⟩ := List.cons_eq_cons.mp hlast
      refine ⟨rfl, fun called hcalled => ?_⟩
      rw [hbefore, List.append_nil] at hcalled
      have hstatus : s.status called = .needsBuilding := hmarked called hcalled
      exact fun hfinished => absurd (hstatus.symm.trans hfinished) (by decide)
    | cons e middle =>
      have hnil := (List.cons_eq_cons.mp hlast).2
      exact absurd hnil (by simp)

/-- The end of a call, for a clean log and marked targets: the log stays clean, or the call fails and the
build stops, or the command was ended by a signal and the target is finished. -/
theorem finishTarget_outcome {target : TargetRef n} {result : ℤ} (hclean : Clean s)
    (haligned : Aligned s) {calls : List (TargetRef n)} (hpending : pending s.trace = target :: calls)
    (hexcept : MarkedExcept s calls target) (h : finishTarget mk env.logged target s = (result, s')) :
    Clean s' ∨ (result = -1 ∧ .signaled ∉ s'.log ∧ FailureStops s') ∨
      result = 0 ∧ s'.trace = s.trace ++ [.executed target] ∧ s'.log = s.log ++ [.signaled] ∧
        s'.status target = .finished := by
  by_cases hmark : s.status target = .needsBuilding
  · rcases hfork : env.logged.fork s.world with ⟨created, world⟩
    have hlog : world.2 = s.log := congrArg (fun forked => forked.2.2) hfork.symm
    cases created with
    | false =>
      rw [finishTarget_unforked hmark hfork] at h
      obtain ⟨-, rfl⟩ := Prod.mk.inj h
      refine Or.inl fun waited hmem => hclean waited ?_
      rw [← hlog]
      exact hmem
    | true =>
      rcases hcommand : env.logged.command world (mk.target target).command with ⟨waited, world₁⟩
      have hlog₁ : world₁.2 = s.log ++ [waited] := by
        have hended : (env.logged.command world (mk.target target).command).2.2 =
            world.2 ++ [(env.logged.command world (mk.target target).command).1] := rfl
        rw [hcommand, hlog] at hended
        exact hended
      rw [finishTarget_ended hmark hfork hcommand] at h
      have hmarked : ∀ called ∈ pending s.trace, s.status called = .needsBuilding := by
        rw [hpending]
        refine List.forall_mem_cons.mpr ⟨hmark, fun called hcalled => ?_⟩
        by_cases heq : called = target
        · exact heq ▸ hmark
        · exact hexcept called hcalled heq
      have hstops := failureStops_executed target hclean haligned hmarked world₁ (by simp [hlog₁])
      cases waited with
      | exited code =>
        by_cases hcode : code = 0
        · rw [if_neg (by simp [WaitStatus.reportsFailure, hcode])] at h
          obtain ⟨-, rfl⟩ := Prod.mk.inj h
          have hall : ∀ waited ∈ s.log ++ [.exited code], waited = .exited 0 :=
            List.forall_mem_append.mpr ⟨hclean, List.forall_mem_singleton.mpr (congrArg _ hcode)⟩
          rw [← hlog₁] at hall
          exact Or.inl hall
        · rw [if_pos (by simp [WaitStatus.reportsFailure, hcode])] at h
          obtain ⟨rfl, rfl⟩ := Prod.mk.inj h
          have hnot : .signaled ∉ s.log ++ [.exited code] := by
            rw [List.mem_append, List.mem_singleton]
            rintro (hmem | heq)
            · exact absurd (hclean _ hmem) (by decide)
            · exact absurd heq (by simp)
          rw [← hlog₁] at hnot
          exact Or.inr (Or.inl ⟨rfl, hnot, hstops⟩)
      | signaled =>
        rw [if_neg (by simp [WaitStatus.reportsFailure])] at h
        obtain ⟨rfl, rfl⟩ := Prod.mk.inj h
        exact Or.inr (Or.inr ⟨rfl, rfl, hlog₁, by simp⟩)
  · rw [finishTarget_unmarked hmark] at h
    obtain ⟨-, rfl⟩ := Prod.mk.inj h
    exact Or.inl hclean

/-- A clean log stays clean if nothing is added. -/
theorem Clean.congr (h : Clean s) (hlog : s'.log = s.log) : Clean s' := by
  rw [Clean, hlog]
  exact h

/-- A task starts, and no command failed so far. -/
structure CleanStart (mk : Makefile n) (task : Task n) (s : BuildState (σ × List WaitStatus) n) :
    Prop where
  within : task.Within mk (Scope.all n)
  opens : ∃ calls, task.Opens calls s
  aligned : Aligned s
  clean : Clean s

/-- The loop goes on after a pass without a call. -/
theorem CleanStart.pass {target : TargetRef n} {name : CString} {names : List CString}
    (h : CleanStart mk (.loop target (name :: names)) s)
    (hvisit : visitDependency mk env.logged target name s = (none, s')) :
    CleanStart mk (.loop target names) s' where
  within := ⟨trivial, (List.cons_subset.mp h.within.2).2⟩
  opens := h.opens.imp fun _ hopens => hopens.pass hvisit
  aligned := (stepInvariant_aligned mk env (Scope.all n)).visit trivial hvisit h.aligned
  clean := h.clean.congr (visitDependency_log hvisit)

/-- The loop makes a call. -/
theorem CleanStart.callee {target : TargetRef n} {name : CString} {names : List CString} {i : Fin n}
    (h : CleanStart mk (.loop target (name :: names)) s)
    (hvisit : visitDependency mk env.logged target name s = (some i, s')) :
    CleanStart mk (.call (.entry i)) s' where
  within := trivial
  opens := h.opens.elim fun _ hopens => ⟨_, hopens.callee hvisit⟩
  aligned := (stepInvariant_aligned mk env (Scope.all n)).visit trivial hvisit h.aligned
  clean := h.clean.congr (visitDependency_log hvisit)

/-- The loop goes on after a call in which no command failed. -/
theorem CleanStart.rest {target : TargetRef n} {name : CString} {names : List CString} {i : Fin n}
    {s₂ : BuildState (σ × List WaitStatus) n} {called : ℤ}
    (h : CleanStart mk (.loop target (name :: names)) s)
    (hvisit : visitDependency mk env.logged target name s = (some i, s'))
    (hcall : Eval mk env.logged (.call (.entry i)) s' called s₂) (hclean : Clean s₂) :
    CleanStart mk (.loop target names) s₂ where
  within := ⟨trivial, (List.cons_subset.mp h.within.2).2⟩
  opens := h.opens.imp fun _ hopens => hopens.rest hvisit (hcall.closes (hopens.callee hvisit))
  aligned := hcall.invariant (Scope.all_closed mk) (stepInvariant_aligned mk env _) trivial
    (h.callee hvisit).aligned
  clean := hclean

/-- The body of a call starts. -/
theorem CleanStart.body (env : Env σ) {target : TargetRef n} (h : CleanStart mk (.call target) s) :
    CleanStart mk (.loop target (mk.target target).dependencyNames) (beginTarget mk target s) where
  within := ⟨trivial, List.Subset.refl _⟩
  opens := h.opens.imp fun _ hopens => hopens.body env.logged
  aligned := (stepInvariant_aligned mk env (Scope.all n)).begin trivial h.aligned
  clean := h.clean.congr (beginTarget_log mk target s)

/-- The end of a call after a loop in which no command failed. -/
theorem CleanStart.finish {target : TargetRef n} {s₁ : BuildState (σ × List WaitStatus) n}
    {looped result : ℤ} (h : CleanStart mk (.call target) s)
    (hloop : Eval mk env.logged (.loop target (mk.target target).dependencyNames)
      (beginTarget mk target s) looped s₁)
    (hclean : Clean s₁) (hfinish : finishTarget mk env.logged target s₁ = (result, s')) :
    Clean s' ∨ (result = -1 ∧ .signaled ∉ s'.log ∧ FailureStops s') ∨
      result = 0 ∧ .signaled ∈ s'.log ∧ ¬ FailureStops (s'.record (.returned target)) := by
  obtain ⟨calls, hopens⟩ := h.opens
  obtain ⟨hpending, hexcept⟩ := hloop.closes (hopens.body env.logged)
  have haligned := hloop.invariant (Scope.all_closed mk) (stepInvariant_aligned mk env _)
    ⟨trivial, List.Subset.refl _⟩ (h.body env).aligned
  refine (finishTarget_outcome hclean haligned hpending hexcept hfinish).imp_right (Or.imp_right ?_)
  rintro ⟨hresult, htrace, hlog, hstatus⟩
  refine ⟨hresult, hlog ▸ List.mem_append_right s₁.log List.mem_cons_self, fun hstops => ?_⟩
  -- the command of the target itself was ended by the signal, and its call was open
  have hfailed : FailedAt (s'.record (.returned target)) s₁.trace target [.returned target] := by
    refine ⟨by rw [BuildState.record_trace, htrace, List.append_assoc]; rfl, .signaled, ?_, by decide⟩
    have hentry : (s₁.log ++ [WaitStatus.signaled])[s₁.log.length]? = some .signaled :=
      List.getElem?_concat_length
    rw [← hlog] at hentry
    rw [haligned]
    exact hentry
  exact (hstops _ _ _ hfailed).2 target (hpending ▸ List.mem_cons_self) hstatus

/-- What is in the log after the loop is there after the call. -/
theorem mem_log_of_finish {target : TargetRef n} {result : ℤ} {waited : WaitStatus}
    (hfinish : finishTarget mk env.logged target s = (result, s')) (h : waited ∈ s.log) :
    waited ∈ s'.log :=
  (stepInvariant_mem_log mk env (Scope.all n) waited).finish trivial hfinish h

/-- An evaluation from a clean log, in which no command is ended by a signal: the log stays clean, or the
result is `-1` and the build has stopped. -/
theorem Eval.outcome {task : Task n} {result : ℤ} (h : Eval mk env.logged task s result s')
    (hstart : CleanStart mk task s) (hsignaled : .signaled ∉ s'.log) :
    Clean s' ∨ result = -1 ∧ FailureStops s' := by
  induction h with
  | loop_nil => exact Or.inl hstart.clean
  | loop_pass hvisit hloop ih => exact ih (hstart.pass hvisit) hsignaled
  | loop_call hvisit hcall hcalled hloop ihcall ihloop =>
    have hsignaled₂ := fun hmem => hsignaled (hloop.invariant (Scope.all_closed mk)
      (stepInvariant_mem_log mk env _ .signaled) ⟨trivial, (List.cons_subset.mp hstart.within.2).2⟩ hmem)
    have hclean₂ := (ihcall (hstart.callee hvisit) hsignaled₂).resolve_right fun hfail => hcalled hfail.1
    exact ihloop (hstart.rest hvisit hcall hclean₂) hsignaled
  | loop_fail hvisit _ ihcall => exact ihcall (hstart.callee hvisit) hsignaled
  | @call_finish target s s₁ s₂ looped result hloop hlooped hfinish ih =>
    have hgrows : .signaled ∈ s₁.log → .signaled ∈ s₂.log := mem_log_of_finish hfinish
    have hsignaled₁ : .signaled ∉ s₁.log := fun hmem => hsignaled (hgrows hmem)
    have hclean₁ := (ih (hstart.body env) hsignaled₁).resolve_right fun hfail => hlooped hfail.1
    rcases hstart.finish hloop hclean₁ hfinish with hclean₂ | ⟨hfail, -, hstops⟩ | ⟨-, hmem, -⟩
    · exact Or.inl hclean₂
    · exact Or.inr ⟨hfail, hstops.return target⟩
    · exact absurd hmem hsignaled
  | @call_fail target s s₁ _ ih =>
    rcases ih (hstart.body env) hsignaled with hclean₁ | ⟨-, hstops⟩
    · exact Or.inl hclean₁
    · exact Or.inr ⟨rfl, hstops.return target⟩

/-- Every state which an evaluation comes to has a clean log, as long as no command is ended by a
signal. -/
theorem LeadsTo.cleanStart {first later : Task n × BuildState (σ × List WaitStatus) n}
    (h : LeadsTo mk env.logged first later) (hfirst : CleanStart mk first.1 first.2)
    (hsignaled : .signaled ∉ later.2.log) : CleanStart mk later.1 later.2 := by
  induction h with
  | refl => exact hfirst
  | tail _ hstep ih =>
    cases hstep with
    | @body target s =>
      exact (ih fun hmem => hsignaled ((beginTarget_log mk target s).symm ▸ hmem)).body env
    | pass hvisit =>
      exact (ih fun hmem => hsignaled ((visitDependency_log hvisit).symm ▸ hmem)).pass hvisit
    | callee hvisit =>
      exact (ih fun hmem => hsignaled ((visitDependency_log hvisit).symm ▸ hmem)).callee hvisit
    | rest hvisit hcall hcalled =>
      have hgrows := hcall.invariant (Scope.all_closed mk)
          (stepInvariant_mem_log mk env _ .signaled) trivial
      have hstart := ih fun hmem => hsignaled (hgrows ((visitDependency_log hvisit).symm ▸ hmem))
      have hclean := (hcall.outcome (hstart.callee hvisit) hsignaled).resolve_right fun hfail =>
          hcalled hfail.1
      exact hstart.rest hvisit hcall hclean

/-- An evaluation comes to a state in which the build has not stopped for a failure. -/
def ComesToUnstopped (mk : Makefile n) (env : Env σ)
    (first : Task n × BuildState (σ × List WaitStatus) n) : Prop :=
  ∃ later, LeadsTo mk env.logged first later ∧ ¬ FailureStops later.2

/-- What comes next in an evaluation comes to such a state. -/
theorem ComesToUnstopped.head {first later : Task n × BuildState (σ × List WaitStatus) n}
    (h : ComesToUnstopped mk env later) (hstep : StepsTo mk env.logged first later) :
    ComesToUnstopped mk env first := by
  obtain ⟨last, hlead, hnot⟩ := h
  exact ⟨last, hlead.head hstep, hnot⟩

/-- A task in which a failure does not stop the build, at the latest at the end of a call. -/
def Task.Unstopped (mk : Makefile n) (env : Env σ) (s : BuildState (σ × List WaitStatus) n) (result : ℤ)
    (s' : BuildState (σ × List WaitStatus) n) : Task n → Prop
  | .call target => ComesToUnstopped mk env (.call target, s) ∨ result ≠ -1 ∧ ¬ FailureStops s'
  | .loop target names => ComesToUnstopped mk env (.loop target names, s)

/-- If a command is ended by a signal, the build does not stop. -/
theorem Eval.unstopped {task : Task n} {result : ℤ} (h : Eval mk env.logged task s result s')
    (hstart : CleanStart mk task s) (hsignaled : .signaled ∈ s'.log) :
    task.Unstopped mk env s result s' := by
  induction h with
  | loop_nil => exact absurd (hstart.clean _ hsignaled) (by decide)
  | loop_pass hvisit _ ih => exact (ih (hstart.pass hvisit) hsignaled).head (.pass hvisit)
  | @loop_call target name names i s s₁ s₂ s' called result hvisit hcall hcalled hloop ihcall ihloop =>
    by_cases hsignaled₂ : .signaled ∈ s₂.log
    · rcases ihcall (hstart.callee hvisit) hsignaled₂ with hcomes | ⟨-, hnot⟩
      · exact hcomes.head (.callee hvisit)
      · exact ComesToUnstopped.head ⟨_, .refl, hnot⟩ (.rest hvisit hcall hcalled)
    · have hclean₂ := (hcall.outcome (hstart.callee hvisit) hsignaled₂).resolve_right fun hfail =>
          hcalled hfail.1
      exact (ihloop (hstart.rest hvisit hcall hclean₂) hsignaled).head (.rest hvisit hcall hcalled)
  | loop_fail hvisit _ ihcall =>
    rcases ihcall (hstart.callee hvisit) hsignaled with hcomes | ⟨hresult, -⟩
    · exact hcomes.head (.callee hvisit)
    · exact absurd rfl hresult
  | @call_finish target s s₁ s₂ looped result hloop hlooped hfinish ih =>
    by_cases hsignaled₁ : .signaled ∈ s₁.log
    · exact Or.inl ((ih (hstart.body env) hsignaled₁).head .body)
    · have hclean₁ := (hloop.outcome (hstart.body env) hsignaled₁).resolve_right fun hfail =>
          hlooped hfail.1
      rcases hstart.finish hloop hclean₁ hfinish with hclean₂ | ⟨-, hnone, -⟩ | ⟨hresult, -, hnot⟩
      · exact absurd (hclean₂ _ hsignaled) (by decide)
      · exact absurd hsignaled hnone
      · exact Or.inr ⟨by rw [hresult]; decide, hnot⟩
  | call_fail _ ih => exact Or.inl ((ih (hstart.body env) hsignaled).head .body)

end Log

/-- At the start of a run nothing was executed. -/
theorem cleanStart_start (mk : Makefile n) (world : σ) :
    CleanStart mk (.call .initial)
    (BuildState.start (world, []) : BuildState (σ × List WaitStatus) n) where
  within := trivial
  opens := ⟨[], rfl, fun _ h => absurd h List.not_mem_nil⟩
  aligned := rfl
  clean _ h := absurd h List.not_mem_nil

/-- Every run is one with a log of the ends of its commands. A failed recipe stops the build in the run
exactly if none of its commands is ended by a signal. -/
theorem failureRule_iff_not_signaled (mk : Makefile n) (env : Env σ) {depth : ℕ} {world : σ}
    {s : BuildState σ n} {result : ℤ} (hrun : runMake mk env depth world = some (result, s)) :
    ∃ s', runMake mk env.logged depth (world, []) = some (result, s') ∧ s'.map Prod.fst = s ∧
      (FailureRule mk env world result s' ↔ .signaled ∉ s'.log) := by
  rw [runMake_logged] at hrun
  obtain ⟨⟨result', s'⟩, hlogged, heq⟩ := Option.map_eq_some_iff.mp hrun
  obtain ⟨rfl, rfl⟩ := Prod.mk.inj heq
  refine ⟨s', hlogged, rfl, ?_⟩
  have heval := build_eval hlogged
  have hstart := cleanStart_start mk world
  constructor
  · intro hrule hsignaled
    rcases heval.unstopped hstart hsignaled with ⟨⟨task, later⟩, hlead, hnot⟩ | ⟨-, hnot⟩
    · exact hnot (hrule.stops task later hlead)
    · exact hnot hrule.stopsAtEnd
  · intro hsignaled
    have houtcome := heval.outcome hstart hsignaled
    constructor
    · intro task later hlead
      have hsignaled' : .signaled ∉ later.log := fun hmem => hsignaled
        (hlead.invariant (stepInvariant_mem_log mk env _ .signaled) heval trivial hmem)
      exact (hlead.cleanStart hstart hsignaled').clean.failureStops
    · rcases houtcome with hclean | ⟨-, hstops⟩
      · exact hclean.failureStops
      · exact hstops
    · rintro ⟨waited, hmem, hfailed⟩
      exact (houtcome.resolve_left fun hclean => hfailed (hclean waited hmem)).1
    · intro hresult
      exact houtcome.resolve_right fun hfail => absurd (hfail.1.symm.trans hresult) (by decide)

/-- No file exists, and the command `touch a` exits with status 1. -/
def failing : Env Unit where
  stat _ _ := (none, ())
  fork _ := (true, ())
  command _ command := (.exited (if command = bytes "touch a" then 1 else 0), ())

/-- The command of `a` fails, which stops the build of the chain. -/
theorem failureRule_iff_not_signaled_failed :
    ∃ s, runMake chain failing.logged 9 ((), []) = some (-1, s) ∧
    s.log = [.exited 1] ∧ FailureRule chain failing () (-1) s := by
  have hrun : (runMake chain failing 9 ()).map Prod.fst = some (-1) := by decide +kernel
  have hlog : (runMake chain failing.logged 9 ((), [])).map (fun run => run.2.log) =
      some [.exited 1] := by
    decide +kernel
  obtain ⟨⟨result, s⟩, hmake, rfl⟩ := Option.map_eq_some_iff.mp hrun
  obtain ⟨s', hlogged, -, hiff⟩ := failureRule_iff_not_signaled chain failing hmake
  rw [hlogged] at hlog
  have hended : s'.log = [.exited 1] := Option.some.inj hlog
  refine ⟨s', hlogged, hended, hiff.mpr ?_⟩
  rw [hended]
  decide

/-- No file exists, and the command `touch a` is ended by a signal. -/
def killing : Env Unit where
  stat _ _ := (none, ())
  fork _ := (true, ())
  command _ command := (if command = bytes "touch a" then .signaled else .exited 0, ())

/-- The command of `a` is ended by a signal, and the command of `r` is executed after it. The run returns
`0`. -/
theorem not_failureRule : ∃ s, runMake chain killing.logged 9 ((), []) = some (0, s) ∧
    ¬ FailureRule chain killing () 0 s := by
  have hrun : (runMake chain killing.logged 9 ((), [])).map (fun run => (run.1, run.2.log)) =
      some (0, [.signaled, .exited 0]) := by decide +kernel
  obtain ⟨⟨result, s⟩, hmake, heq⟩ := Option.map_eq_some_iff.mp hrun
  obtain ⟨rfl, hlog⟩ := Prod.mk.inj heq
  refine ⟨s, hmake, fun hrule => ?_⟩
  have hclean := hrule.succeeds rfl .signaled (hlog ▸ List.mem_cons_self)
  exact absurd hclean (by decide)

end Csci4061.Make
