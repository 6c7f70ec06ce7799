import Csci4061.Lib.Bracket
import Csci4061.Make.Termination

/-!
# Which targets are marked

For an acyclic table whose files change only by commands, whether a call executes the command of its
target is decided when `build` is entered: some dependency has to be a file or an entry with the
status `UNFINISHED`, and not older than the target.

The events of a run are nested as the calls are. Every activation is closed by its return, and every
command is executed in an activation of its target.
-/

namespace Csci4061.Make

open Csci4061.Lib

variable {n : ℕ} {σ : Type*} {mk : Makefile n} {files : Files σ}

/-- A dependency marks a target: it is a file or an entry which was not visited, and not older. -/
def Makefile.Marks (mk : Makefile n) (files : Files σ) (target : TargetRef n)
    (status : TargetRef n → Status) (world : σ) (name : CString) : Prop :=
  (∀ i, findTarget mk.targets name = some i → status (.entry i) = .unfinished) ∧
    files.order world name (mk.target target).targetName ≠ 2

/-- A target is marked from the start: without dependencies, or by one of them. -/
def Makefile.Marked (mk : Makefile n) (files : Files σ) (target : TargetRef n)
    (status : TargetRef n → Status) (world : σ) : Prop :=
  (mk.target target).dependencyNames = [] ∨
    ∃ name ∈ (mk.target target).dependencyNames, mk.Marks files target status world name

/-- Whether a dependency marks a target depends on the times only. -/
theorem Makefile.marks_congr {target : TargetRef n} {status : TargetRef n → Status} {world world' : σ}
    (h : files.SameTimes world world') {name : CString} :
    mk.Marks files target status world' name ↔ mk.Marks files target status world name := by
  rw [Marks, Marks, h.order]

/-- The pass of the loop for a dependency which marks the target. -/
theorem visitDependency_of_marks {target : TargetRef n} {name : CString} {s s₁ : BuildState σ n}
    {dependsOn : Option (Fin n)} (hmarks : mk.Marks files target s.status s.world name)
    (hstatus : s.status target = .unfinished)
    (h : visitDependency mk files.toEnv target name s = (dependsOn, s₁)) :
    s₁.status target = .needsBuilding := by
  obtain ⟨hunfinished, horder⟩ := hmarks
  rw [← files.compareModificationTime_fst] at horder
  obtain rfl := congrArg Prod.snd h
  unfold visitDependency
  split
  · rename_i i hfind
    rw [if_pos (hunfinished i hfind), findTarget_name hfind]
    simp only [if_pos horder]
    simp
  · rw [if_pos hstatus]
    simp only [if_pos horder]
    simp

/-- An entry which marks the target is called on. -/
theorem visitDependency_calls {target : TargetRef n} {name : CString} {s s₁ : BuildState σ n}
    {dependsOn : Option (Fin n)} {i : Fin n} (hmarks : mk.Marks files target s.status s.world name)
    (hfind : findTarget mk.targets name = some i)
    (h : visitDependency mk files.toEnv target name s = (dependsOn, s₁)) : dependsOn = some i := by
  obtain ⟨hunfinished, horder⟩ := hmarks
  rw [← files.compareModificationTime_fst] at horder
  obtain rfl := congrArg Prod.fst h
  unfold visitDependency
  rw [hfind]
  simp only [if_pos (hunfinished i hfind), findTarget_name hfind, if_pos horder]

/-- The pass of the loop for a dependency which does not mark the target. -/
theorem visitDependency_of_not_marks {target : TargetRef n} {name : CString} {s s₁ : BuildState σ n}
    {dependsOn : Option (Fin n)} (hmarks : ¬ mk.Marks files target s.status s.world name)
    (h : visitDependency mk files.toEnv target name s = (dependsOn, s₁)) :
    dependsOn = none ∧ ∃ world, files.SameTimes s.world world ∧ s₁ = s.setWorld world := by
  have hsame := files.sameTimes_look s.world name (mk.target target).targetName
  have hnone : (∀ i, findTarget mk.targets name = some i → s.status (.entry i) = .unfinished) →
      ¬ (files.compareModificationTime s.world name (mk.target target).targetName).1 ≠ 2 := by
    rw [files.compareModificationTime_fst]
    exact fun hunfinished horder => hmarks ⟨hunfinished, horder⟩
  unfold visitDependency at h
  split at h
  · rename_i i hfind
    by_cases hi : s.status (.entry i) = .unfinished
    · have horder := hnone fun j hj => Option.some.inj (hfind.symm.trans hj) ▸ hi
      rw [if_pos hi, findTarget_name hfind] at h
      simp only [if_neg horder] at h
      obtain ⟨rfl, rfl⟩ := Prod.mk.inj h
      exact ⟨rfl, _, hsame, rfl⟩
    · rw [if_neg hi] at h
      obtain ⟨rfl, rfl⟩ := Prod.mk.inj h
      exact ⟨rfl, s.world, fun _ => rfl, rfl⟩
  · rename_i hfind
    have horder := hnone fun i hi => absurd (hfind.symm.trans hi) (by simp)
    split at h
    · simp only [if_neg horder] at h
      obtain ⟨rfl, rfl⟩ := Prod.mk.inj h
      exact ⟨rfl, _, hsame, rfl⟩
    · obtain ⟨rfl, rfl⟩ := Prod.mk.inj h
      exact ⟨rfl, s.world, fun _ => rfl, rfl⟩

/-- A call made by the loop keeps the status of the target. -/
theorem Eval.callee_status (hacyclic : mk.Acyclic) {env : Env σ} {target : TargetRef n} {name : CString}
    {i : Fin n} {s s₁ s₂ : BuildState σ n} {called : ℤ}
    (hname : name ∈ (mk.target target).dependencyNames)
    (hvisit : visitDependency mk env target name s = (some i, s₁))
    (h : Eval mk env (.call (.entry i)) s₁ called s₂) :
    s₂.status target = s₁.status target := by
  have hedge := visitDependency_edge hname hvisit
  apply h.call_status
  · rintro rfl
    exact hacyclic i (.single hedge)
  · rintro ⟨j, rfl, hbelow⟩
    exact hacyclic.not_below hedge hbelow

/-- A call made by the loop is made on an entry which was not visited. -/
theorem visitDependency_unfinished (hacyclic : mk.Acyclic) {env : Env σ} {target : TargetRef n}
    {name : CString} {i : Fin n} {s s₁ : BuildState σ n}
    (hname : name ∈ (mk.target target).dependencyNames)
    (hvisit : visitDependency mk env target name s = (some i, s₁)) :
    s₁.status (.entry i) = .unfinished := by
  apply visitDependency_callee hvisit
  rintro rfl
  exact hacyclic i (.single (visitDependency_edge hname hvisit))

/-- A pass of the loop leaves a marked target marked. -/
theorem visitDependency_keeps_marked {env : Env σ} {target : TargetRef n} {name : CString}
    {s s₁ : BuildState σ n} {dependsOn : Option (Fin n)}
    (h : visitDependency mk env target name s = (dependsOn, s₁))
    (hstatus : s.status target = .needsBuilding) : s₁.status target = .needsBuilding := by
  obtain ⟨world, -, rfl | rfl⟩ := visitDependency_cases h
  · exact hstatus
  · simp

/-- A marked target stays marked through its loop. -/
theorem Eval.loop_marked (hacyclic : mk.Acyclic) {env : Env σ} {target : TargetRef n}
    {names : List CString} (hnames : names ⊆ (mk.target target).dependencyNames) {s s' : BuildState σ n}
    {result : ℤ} (h : Eval mk env (.loop target names) s result s')
    (hstatus : s.status target = .needsBuilding) :
    s'.status target = .needsBuilding := by
  induction names generalizing s with
  | nil =>
    cases h
    exact hstatus
  | cons name names ih =>
    obtain ⟨hname, hrest⟩ := List.cons_subset.mp hnames
    cases h with
    | loop_pass hvisit hloop => exact ih hrest hloop (visitDependency_keeps_marked hvisit hstatus)
    | loop_call hvisit hcall _ hloop =>
      have hkeeps := hcall.callee_status hacyclic hname hvisit
      exact ih hrest hloop (hkeeps.trans (visitDependency_keeps_marked hvisit hstatus))
    | loop_fail hvisit hcall =>
      have hkeeps := hcall.callee_status hacyclic hname hvisit
      exact hkeeps.trans (visitDependency_keeps_marked hvisit hstatus)

/-- The loop of an unfinished target marks it exactly if one of the names did so at the start. If
not, it calls on nothing. -/
theorem Eval.loop_marks (hacyclic : mk.Acyclic) {target : TargetRef n} {names : List CString}
    (hnames : names ⊆ (mk.target target).dependencyNames) {s s' : BuildState σ n} {result : ℤ}
    (h : Eval mk files.toEnv (.loop target names) s result s')
    (hstatus : s.status target = .unfinished) :
    (s'.status target = .needsBuilding ∧ ∃ name ∈ names, mk.Marks files target s.status s.world name) ∨
      (s'.status target = .unfinished ∧ (∀ name ∈ names, ¬ mk.Marks files target s.status s.world name) ∧
        s'.trace = s.trace) := by
  induction names generalizing s with
  | nil =>
    cases h
    exact Or.inr ⟨hstatus, fun _ hname => absurd hname List.not_mem_nil, rfl⟩
  | cons name names ih =>
    obtain ⟨hname, hrest⟩ := List.cons_subset.mp hnames
    by_cases hmarks : mk.Marks files target s.status s.world name
    · refine Or.inl ⟨?_, name, List.mem_cons_self, hmarks⟩
      cases h with
      | loop_pass hvisit hloop =>
        exact hloop.loop_marked hacyclic hrest (visitDependency_of_marks hmarks hstatus hvisit)
      | loop_call hvisit hcall _ hloop =>
        have hkeeps := hcall.callee_status hacyclic hname hvisit
        exact hloop.loop_marked hacyclic hrest
          (hkeeps.trans (visitDependency_of_marks hmarks hstatus hvisit))
      | loop_fail hvisit hcall =>
        have hkeeps := hcall.callee_status hacyclic hname hvisit
        exact hkeeps.trans (visitDependency_of_marks hmarks hstatus hvisit)
    · cases h with
      | loop_pass hvisit hloop =>
        obtain ⟨-, world, hsame, rfl⟩ := visitDependency_of_not_marks hmarks hvisit
        rcases ih hrest hloop hstatus with ⟨hmarked, other, hother, hotherMarks⟩ |
          ⟨hunmarked, hnone, htrace⟩
        · exact Or.inl ⟨hmarked, other, List.mem_cons_of_mem name hother,
            (Makefile.marks_congr hsame).mp hotherMarks⟩
        · refine Or.inr ⟨hunmarked, List.forall_mem_cons.mpr ⟨hmarks, fun other hother => ?_⟩, htrace⟩
          exact fun hotherMarks => hnone other hother ((Makefile.marks_congr hsame).mpr hotherMarks)
      | loop_call hvisit _ _ _ => exact absurd (visitDependency_of_not_marks hmarks hvisit).1 (by simp)
      | loop_fail hvisit _ => exact absurd (visitDependency_of_not_marks hmarks hvisit).1 (by simp)

/-- The body of a call ends with the target marked exactly if it was marked from the start. If not,
it calls on nothing. -/
theorem Eval.body_marks (hacyclic : mk.Acyclic) {target : TargetRef n} {s s₁ : BuildState σ n}
    {looped : ℤ}
    (h : Eval mk files.toEnv (.loop target (mk.target target).dependencyNames)
      (beginTarget mk target s) looped s₁)
    (hstatus : s.status target = .unfinished) :
    (s₁.status target = .needsBuilding ∧ mk.Marked files target s.status s.world) ∨
      (s₁.status target ≠ .needsBuilding ∧ ¬ mk.Marked files target s.status s.world ∧
        s₁.trace = (beginTarget mk target s).trace) := by
  by_cases hnil : (mk.target target).dependencyNames = []
  · rw [beginTarget, if_pos hnil] at h
    exact Or.inl ⟨h.loop_marked hacyclic (List.Subset.refl _) (by simp), Or.inl hnil⟩
  · have hbegin : beginTarget mk target s = s.record (.entered target s.status s.world) := if_neg hnil
    rw [hbegin] at h ⊢
    rcases h.loop_marks hacyclic (List.Subset.refl _) hstatus with ⟨hmarked, hmarks⟩ |
      ⟨hunmarked, hnone, htrace⟩
    · exact Or.inl ⟨hmarked, Or.inr hmarks⟩
    · refine Or.inr ⟨by simp [hunmarked], ?_, htrace⟩
      rintro (hdependencies | ⟨name, hname, hmarks⟩)
      · exact hnil hdependencies
      · exact hnone name hname hmarks

/-- The return which closes the activation of a call. -/
def Event.closing : Event σ n → Option (Event σ n)
  | .entered target _ _ => some (.returned target)
  | _ => none

/-- In the activation of a call the command of its target is executed exactly if it was marked from
the start, and it is executed if anything happens at all. -/
def Makefile.Decided (mk : Makefile n) (files : Files σ) : Event σ n → List (Event σ n) → Prop
  | .entered target status world, body =>
    (.executed target ∈ body ↔ mk.Marked files target status world) ∧
      (body ≠ [] → .executed target ∈ body)
  | _, _ => True

/-- The event at the end of a call which does not fail, for the status of its target. -/
def commandEvents (σ : Type*) (target : TargetRef n) (status : Status) : List (Event σ n) :=
  if status = .needsBuilding then [.executed target] else []

/-- At most the command of the target is executed. -/
theorem eq_of_mem_commandEvents {target : TargetRef n} {status : Status} {e : Event σ n}
    (h : e ∈ commandEvents σ target status) : e = .executed target := by
  unfold commandEvents at h
  split at h
  · exact List.mem_singleton.mp h
  · exact absurd h List.not_mem_nil

/-- The end of a call which does not fail executes the command of a marked target. -/
theorem finishTarget_of_ne {env : Env σ} {target : TargetRef n} {s s₁ : BuildState σ n} {result : ℤ}
    (h : finishTarget mk env target s = (result, s₁)) (hresult : result ≠ -1) :
    s₁.trace = s.trace ++ commandEvents σ target (s.status target) := by
  by_cases hmark : s.status target = .needsBuilding
  · rw [commandEvents, if_pos hmark]
    rcases finishTarget_marked hmark h with ⟨hfail, -⟩ | ⟨s₂, rfl, ⟨hfail, -⟩ | ⟨-, rfl⟩⟩
    · exact absurd hfail hresult
    · exact absurd hfail hresult
    · rfl
  · rw [finishTarget_unmarked hmark] at h
    obtain ⟨-, rfl⟩ := Prod.mk.inj h
    rw [commandEvents, if_neg hmark, List.append_nil, BuildState.setStatus_trace]

/-- A call on an unfinished target, and a loop over dependencies. -/
def Task.Ready (mk : Makefile n) (s : BuildState σ n) : Task n → Prop
  | .call target => s.status target = .unfinished
  | .loop target names => names ⊆ (mk.target target).dependencyNames

/-- The activation of a call is decided by the status at the end of its body. -/
theorem decided_of_body {target : TargetRef n} {status : TargetRef n → Status} {world : σ}
    {body : List (Event σ n)} {final : Status} (hbody : .executed target ∉ body)
    (h : (final = .needsBuilding ∧ mk.Marked files target status world) ∨
      (final ≠ .needsBuilding ∧ ¬ mk.Marked files target status world ∧ body = [])) :
    mk.Decided files (.entered target status world) (body ++ commandEvents σ target final) := by
  rcases h with ⟨hfinal, hmarked⟩ | ⟨hfinal, hunmarked, rfl⟩
  · have hmem : Event.executed target ∈ body ++ commandEvents σ target final := by
      rw [commandEvents, if_pos hfinal]
      exact List.mem_append_right body List.mem_cons_self
    exact ⟨iff_of_true hmem hmarked, fun _ => hmem⟩
  · rw [commandEvents, if_neg hfinal]
    exact ⟨iff_of_false List.not_mem_nil hunmarked, fun hnil => absurd rfl hnil⟩

/-- A call in a trace, with the events before it and the events until it returns. -/
def IsActivation (trace before : List (Event σ n)) (target : TargetRef n)
    (status : TargetRef n → Status) (world : σ) (body : List (Event σ n)) : Prop :=
  (∃ after, trace = before ++ .entered target status world :: (body ++ .returned target :: after)) ∧
    .returned target ∉ body

/-- The events of an activation are in the trace. -/
theorem IsActivation.subset {trace before body : List (Event σ n)} {target : TargetRef n}
    {status : TargetRef n → Status} {world : σ}
    (h : IsActivation trace before target status world body) :
    body ⊆ trace := by
  obtain ⟨⟨after, heq⟩, -⟩ := h
  intro e he
  rw [heq]
  exact List.mem_append_right before (List.mem_cons_of_mem _ (List.mem_append_left _ he))

/-- An activation in a part of a trace. -/
theorem IsActivation.append {trace before body : List (Event σ n)} {target : TargetRef n}
    {status : TargetRef n → Status} {world : σ} (h : IsActivation trace before target status world body)
    (first last : List (Event σ n)) :
    IsActivation (first ++ (trace ++ last)) (first ++ before) target status world body := by
  obtain ⟨⟨after, heq⟩, hnot⟩ := h
  refine ⟨⟨after ++ last, ?_⟩, hnot⟩
  rw [heq]
  simp

/-- The events of calls which do not fail: every activation is closed and decided, and every command
is executed in an activation of its target. -/
structure WellNested (mk : Makefile n) (files : Files σ) (events : List (Event σ n)) : Prop where
  bracketed : Bracketed Event.closing (mk.Decided files) events
  owned : ∀ target, .executed target ∈ events → ∃ before status world body,
    IsActivation events before target status world body ∧ .executed target ∈ body

/-- No events. -/
theorem wellNested_nil (mk : Makefile n) (files : Files σ) :
    WellNested mk files ([] : List (Event σ n)) :=
  ⟨bracketed_of_no_opening (by simp), fun _ hmem => absurd hmem List.not_mem_nil⟩

/-- The events of calls one after the other. -/
theorem WellNested.append {events₁ events₂ : List (Event σ n)} (h₁ : WellNested mk files events₁)
    (h₂ : WellNested mk files events₂) : WellNested mk files (events₁ ++ events₂) := by
  refine ⟨h₁.bracketed.append h₂.bracketed, fun target hmem => ?_⟩
  rcases List.mem_append.mp hmem with hmem | hmem
  · obtain ⟨before, status, world, body, hactivation, hbody⟩ := h₁.owned target hmem
    exact ⟨_, status, world, body, hactivation.append [] events₂, hbody⟩
  · obtain ⟨before, status, world, body, hactivation, hbody⟩ := h₂.owned target hmem
    have hlast := hactivation.append events₁ []
    rw [List.append_nil] at hlast
    exact ⟨_, status, world, body, hlast, hbody⟩

/-- The events of a call, around those of the calls in its loop. -/
theorem WellNested.call {target : TargetRef n} {status : TargetRef n → Status} {world : σ}
    {body : List (Event σ n)} {final : Status} (h : WellNested mk files body)
    (hother : ∀ e ∈ body, e.target ≠ target)
    (hdecided : mk.Decided files (.entered target status world) (body ++ commandEvents σ target final)) :
    WellNested mk files
      (.entered target status world ::
        (body ++ commandEvents σ target final ++ [.returned target])) := by
  have hnot : Event.returned target ∉ body ++ commandEvents σ target final := by
    intro hmem
    rcases List.mem_append.mp hmem with hmem | hmem
    · exact hother _ hmem rfl
    · exact absurd (eq_of_mem_commandEvents hmem) (by simp)
  constructor
  · refine Bracketed.enclose (h.bracketed.append (bracketed_of_no_opening ?_)) rfl rfl hnot hdecided
    intro e he
    rw [eq_of_mem_commandEvents he]
    rfl
  · intro executed hmem
    have hinner : Event.executed executed ∈ body ++ commandEvents σ target final := by
      simpa using hmem
    rcases List.mem_append.mp hinner with hmem | hmem
    · obtain ⟨before, status', world', body', hactivation, hbody⟩ := h.owned executed hmem
      have houter := hactivation.append [.entered target status world]
        (commandEvents σ target final ++ [.returned target])
      rw [← List.append_assoc body] at houter
      exact ⟨_, status', world', body', houter, hbody⟩
    · obtain rfl := Event.executed.inj (eq_of_mem_commandEvents hmem)
      exact ⟨[], status, world, _, ⟨⟨[], rfl⟩, hnot⟩, List.mem_append_right body hmem⟩

/-- The events of an evaluation which does not fail are well nested. -/
theorem Eval.wellNested (hacyclic : mk.Acyclic) {task : Task n} {s s' : BuildState σ n} {result : ℤ}
    (h : Eval mk files.toEnv task s result s') (hresult : result ≠ -1) (hready : task.Ready mk s) :
    ∃ events, s'.trace = s.trace ++ events ∧ WellNested mk files events := by
  induction h with
  | loop_nil => exact ⟨[], (List.append_nil _).symm, wellNested_nil mk files⟩
  | loop_pass hvisit _ ih =>
    rw [← visitDependency_trace hvisit]
    exact ih hresult (List.cons_subset.mp hready).2
  | loop_call hvisit _ hcalled _ ihcall ihloop =>
    obtain ⟨hname, hrest⟩ := List.cons_subset.mp hready
    have hcallee := visitDependency_unfinished hacyclic hname hvisit
    obtain ⟨events₁, htrace₁, hevents₁⟩ := ihcall hcalled hcallee
    obtain ⟨events₂, htrace₂, hevents₂⟩ := ihloop hresult hrest
    refine ⟨events₁ ++ events₂, ?_, hevents₁.append hevents₂⟩
    rw [htrace₂, htrace₁, visitDependency_trace hvisit, List.append_assoc]
  | loop_fail => exact absurd rfl hresult
  | @call_finish target s s₁ s₂ looped result hloop hlooped hfinish ih =>
    obtain ⟨body, htrace, hbody⟩ := ih hlooped (List.Subset.refl _)
    obtain ⟨body', htrace', hunder⟩ := hloop.trace_grows (Scope.loop_closed mk target)
        ⟨Or.inl rfl, List.Subset.refl _⟩
    obtain rfl : body = body' := List.append_cancel_left (htrace.symm.trans htrace')
    have hother : ∀ e ∈ body, e.target ≠ target := fun e he => hacyclic.ne_of_under (hunder e he)
    have hdecided : mk.Decided files (.entered target s.status s.world)
        (body ++ commandEvents σ target (s₁.status target)) :=
      decided_of_body (fun hmem => hother _ hmem rfl)
      ((hloop.body_marks hacyclic hready).imp_right fun ⟨hfinal, hunmarked, hsame⟩ =>
        ⟨hfinal, hunmarked, List.append_right_eq_self.mp (htrace.symm.trans hsame)⟩)
    refine ⟨_, ?_, hbody.call hother hdecided⟩
    rw [BuildState.record_trace, finishTarget_of_ne hfinish hresult, htrace, beginTarget_trace]
    simp
  | call_fail => exact absurd rfl hresult

/-- A target which is entered at most once has one activation. -/
theorem IsActivation.unique {trace before before' body body' : List (Event σ n)} {target : TargetRef n}
    {status status' : TargetRef n → Status} {world world' : σ}
    (hcount : trace.countP (Event.isEntered target) ≤ 1)
    (h : IsActivation trace before target status world body)
    (h' : IsActivation trace before' target status' world' body') : body = body' := by
  obtain ⟨⟨after, heq⟩, hnot⟩ := h
  obtain ⟨⟨after', heq'⟩, hnot'⟩ := h'
  have hentered : ∀ (status : TargetRef n → Status) (world : σ),
      Event.isEntered target (.entered target status world) = true := fun _ _ => decide_eq_true rfl
  rcases append_eq_append_cons (heq.symm.trans heq') with ⟨middle, hbefore, -⟩ |
    ⟨middle, hbefore, hmiddle⟩
  · rw [heq, hbefore] at hcount
    simp [List.countP_append, List.countP_cons, hentered] at hcount
    omega
  · cases middle with
    | nil =>
      obtain ⟨-, htails⟩ := List.cons_eq_cons.mp hmiddle
      exact append_cons_left_unique htails hnot hnot'
    | cons e middle =>
      obtain ⟨rfl, -⟩ := List.cons_eq_cons.mp hmiddle
      rw [heq', hbefore] at hcount
      simp [List.countP_append, List.countP_cons, hentered] at hcount
      omega

/-- The events of a run which does not fail are well nested. -/
theorem runMake_wellNested (hacyclic : mk.Acyclic) {depth : ℕ} {world : σ} {s : BuildState σ n}
    {result : ℤ} (h : runMake mk files.toEnv depth world = some (result, s)) (hresult : result ≠ -1) :
    WellNested mk files s.trace := by
  obtain ⟨events, htrace, hevents⟩ := (build_eval h).wellNested hacyclic hresult rfl
  exact htrace ▸ hevents

/-- The activation of a call in a run which does not fail is decided. -/
theorem IsActivation.decided {trace before body : List (Event σ n)} {target : TargetRef n}
    {status : TargetRef n → Status} {world : σ} (h : IsActivation trace before target status world body)
    (htrace : WellNested mk files trace) :
    (.executed target ∈ body ↔ mk.Marked files target status world) ∧
    (body ≠ [] → .executed target ∈ body) := by
  obtain ⟨⟨after, heq⟩, hnot⟩ := h
  exact htrace.bracketed.body rfl heq hnot

end Csci4061.Make
