import Csci4061.Make.Rebuild

/-!
# Targets which are out of date

`build` descends into a dependency only if it is not older than its dependent. For an acyclic table
whose commands leave alone the files on the way, every target which is reached from the requested one
over such dependencies is entered, and the files still have the times from before the run then.

A target which is reached so is executed if it has a newer dependency, unless that dependency was
visited through another target before.
-/

namespace Csci4061.Make

open Csci4061.Lib

variable {n : ℕ} {σ : Type*} {mk : Makefile n} {files : Files σ} {start : σ}

/-- A file whose time is changed by no command but that of its own target. -/
def Makefile.Keeps (mk : Makefile n) (files : Files σ) (file : CString) : Prop :=
  ∀ i world, (mk.targets i).targetName ≠ file →
    files.time (files.command world (mk.targets i).command).2 file = files.time world file

/-- What a run of `build` keeps, for its starting world: the times of files whose commands were not
executed, and that commands are executed for visited entries below the requested target only. -/
structure Recorded (mk : Makefile n) (files : Files σ) (start : σ) (s : BuildState σ n) : Prop where
  kept : ∀ file, mk.Keeps files file →
    (∀ target, .executed target ∈ s.trace → (mk.target target).targetName ≠ file) →
    files.time s.world file = files.time start file
  visited : ∀ target, .executed target ∈ s.trace → s.status target ≠ .unfinished
  under : ∀ target, .executed target ∈ s.trace → mk.Under .initial target

/-- Another world with the same times. -/
theorem Recorded.setWorld {s : BuildState σ n} (h : Recorded mk files start s) {world : σ}
    (hsame : files.SameTimes s.world world) : Recorded mk files start (s.setWorld world) where
  kept file hkeeps hother := (hsame file).trans (h.kept file hkeeps hother)
  visited := h.visited
  under := h.under

/-- Another status, unless it is that of an unfinished target. -/
theorem Recorded.setStatus {s : BuildState σ n} (h : Recorded mk files start s) (target : TargetRef n)
    {status : Status} (hstatus : status ≠ .unfinished) :
    Recorded mk files start (s.setStatus target status) where
  kept := h.kept
  visited other hmem :=
    (stepInvariant_visited mk files.toEnv (Scope.all n) other).setStatus s target status trivial hstatus
      (h.visited other hmem)
  under := h.under

/-- An event which is no execution. -/
theorem Recorded.record {s : BuildState σ n} (h : Recorded mk files start s) {event : Event σ n}
    (hevent : ∀ target, event ≠ .executed target) : Recorded mk files start (s.record event) := by
  have hold : ∀ {target}, Event.executed target ∈ (s.record event).trace →
      Event.executed target ∈ s.trace :=
    fun {target} hmem => (List.mem_append.mp hmem).resolve_right fun hnew =>
      hevent target (List.mem_singleton.mp hnew).symm
  exact {
    kept := fun file hkeeps hother => h.kept file hkeeps fun target hmem =>
      hother target (List.mem_append_left _ hmem)
    visited := fun target hmem => h.visited target (hold hmem)
    under := fun target hmem => h.under target (hold hmem) }

/-- The command of a marked target below the requested one. -/
theorem Recorded.execute {s : BuildState σ n} (h : Recorded mk files start s) {target : TargetRef n}
    (hunder : mk.Under .initial target) (hmark : s.status target = .needsBuilding) :
    Recorded mk files start
      ((s.setWorld (files.command s.world (mk.target target).command).2).record (.executed target)) := by
  have hcases : ∀ {other}, Event.executed other ∈ s.trace ++ [.executed target] →
      Event.executed other ∈ s.trace ∨ other = target := by
    intro other hmem
    refine (List.mem_append.mp hmem).imp_right fun hnew => ?_
    exact Event.executed.inj (List.mem_singleton.mp hnew)
  constructor
  · intro file hkeeps hother
    have hown := hother target (List.mem_append_right _ List.mem_cons_self)
    refine (hkeeps _ s.world hown).trans (h.kept file hkeeps fun other hmem => ?_)
    exact hother other (List.mem_append_left _ hmem)
  · intro other hmem
    rcases hcases hmem with hold | rfl
    · exact h.visited other hold
    · exact fun hunfinished => absurd (hmark.symm.trans hunfinished) (by decide)
  · intro other hmem
    rcases hcases hmem with hold | rfl
    · exact h.under other hold
    · exact hunder

/-- The steps on targets below the requested one keep what a run keeps. -/
theorem stepInvariant_recorded (mk : Makefile n) (files : Files σ) (start : σ) {scope : Scope n}
    (hscope : ∀ target, scope.calls target → mk.Under .initial target) :
    StepInvariant mk files.toEnv scope (Recorded mk files start) where
  setStatus _ target _ _ hstatus hs := hs.setStatus target hstatus
  look s file₁ file₂ hs := hs.setWorld (files.sameTimes_look s.world file₁ file₂)
  fork s hs := hs.setWorld (files.stat_fork s.world)
  enter _ _ _ hs := hs.record (by simp)
  execute _ target htarget hmark hs := hs.execute (hscope target htarget) hmark
  leave _ _ _ hs := hs.record (by simp)

/-- The time of a file which is no visited entry is the one from before the run. -/
theorem Recorded.time_eq {s : BuildState σ n} (h : Recorded mk files start s) {file : CString}
    (hkeeps : mk.Keeps files file)
    (hunfinished : ∀ i, findTarget mk.targets file = some i → s.status (.entry i) = .unfinished) :
    files.time s.world file = files.time start file := by
  apply h.kept file hkeeps
  rintro target hmem rfl
  obtain ⟨i, rfl, hbelow⟩ := h.under target hmem
  exact h.visited _ hmem (hunfinished i hbelow.found)

/-- `build` was entered on a target. -/
def BuildState.Entered (s : BuildState σ n) (target : TargetRef n) : Prop :=
  ∃ status world, .entered target status world ∈ s.trace

/-- Every visited entry was entered. -/
def BuildState.VisitedEntered (s : BuildState σ n) : Prop :=
  ∀ i, s.status (.entry i) ≠ .unfinished → s.Entered (.entry i)

/-- A target which was entered stays entered. -/
theorem BuildState.Entered.mono {s s' : BuildState σ n} {target : TargetRef n} (h : s.Entered target)
    (htrace : s.trace ⊆ s'.trace) : s'.Entered target := by
  obtain ⟨status, world, hmem⟩ := h
  exact ⟨status, world, htrace hmem⟩

/-- The status of a target which was entered may change. -/
theorem BuildState.VisitedEntered.setStatus {s : BuildState σ n} (h : s.VisitedEntered)
    {target : TargetRef n} (htarget : s.Entered target) (status : Status) :
    (s.setStatus target status).VisitedEntered := by
  intro i hi
  by_cases heq : TargetRef.entry i = target
  · exact heq ▸ htarget
  · rw [BuildState.setStatus_status, Function.update_of_ne heq] at hi
    exact h i hi

/-- More events keep the visited entries entered. -/
theorem BuildState.VisitedEntered.mono {s s' : BuildState σ n} (h : s.VisitedEntered)
    (hstatus : s'.status = s.status) (htrace : s.trace ⊆ s'.trace) : s'.VisitedEntered := by
  intro i hi
  rw [hstatus] at hi
  exact (h i hi).mono htrace

/-- A call begins by entering its target. -/
theorem beginTarget_entered (mk : Makefile n) (target : TargetRef n) (s : BuildState σ n) :
    (beginTarget mk target s).Entered target := by
  refine ⟨s.status, s.world, ?_⟩
  rw [beginTarget_trace]
  exact List.mem_append_right _ List.mem_cons_self

/-- The beginning of a call keeps the visited entries entered. -/
theorem BuildState.VisitedEntered.begin {s : BuildState σ n} (h : s.VisitedEntered) (mk : Makefile n)
    (target : TargetRef n) : (beginTarget mk target s).VisitedEntered := by
  have hrecord : (s.record (.entered target s.status s.world)).VisitedEntered :=
    h.mono rfl (List.subset_append_left _ _)
  cases beginTarget_cases mk target s with
  | inl heq => exact heq ▸ hrecord
  | inr heq =>
    rw [heq]
    exact hrecord.setStatus ⟨s.status, s.world, List.mem_append_right _ List.mem_cons_self⟩ _

/-- The steps of a call on a target which was entered keep the visited entries entered. -/
theorem stepInvariant_visitedEntered (mk : Makefile n) (env : Env σ) (target : TargetRef n) :
    StepInvariant mk env (Scope.only target) fun s => s.VisitedEntered ∧ s.Entered target where
  setStatus s changed status hchanged _ hs := by
    obtain rfl : changed = target := hchanged
    exact ⟨hs.1.setStatus hs.2 status, hs.2⟩
  look _ _ _ hs := hs
  fork _ hs := hs
  enter _ _ _ hs := ⟨hs.1.mono rfl (List.subset_append_left _ _),
    hs.2.mono (List.subset_append_left _ _)⟩
  execute _ _ _ _ hs := ⟨hs.1.mono rfl (List.subset_append_left _ _),
    hs.2.mono (List.subset_append_left _ _)⟩
  leave _ _ _ hs := ⟨hs.1.mono rfl (List.subset_append_left _ _),
    hs.2.mono (List.subset_append_left _ _)⟩

/-- A pass of the loop keeps the visited entries entered. -/
theorem BuildState.VisitedEntered.visit {env : Env σ} {target : TargetRef n} {name : CString}
    {s s₁ : BuildState σ n} {dependsOn : Option (Fin n)} (h : s.VisitedEntered)
    (htarget : s.Entered target) (hvisit : visitDependency mk env target name s = (dependsOn, s₁)) :
    s₁.VisitedEntered :=
  ((stepInvariant_visitedEntered mk env target).visit rfl hvisit ⟨h, htarget⟩).1

/-- The end of a call keeps the visited entries entered. -/
theorem BuildState.VisitedEntered.finish {env : Env σ} {target : TargetRef n} {s s₁ : BuildState σ n}
    {result : ℤ} (h : s.VisitedEntered) (htarget : s.Entered target)
    (hfinish : finishTarget mk env target s = (result, s₁)) :
    s₁.VisitedEntered :=
  ((stepInvariant_visitedEntered mk env target).finish rfl hfinish ⟨h, htarget⟩).1

/-- A state in which a call on a target is made. -/
structure CallReady (mk : Makefile n) (files : Files σ) (start : σ) (target : TargetRef n)
    (s : BuildState σ n) :
    Prop where
  recorded : Recorded mk files start s
  visitedEntered : s.VisitedEntered
  unfinished : s.status target = .unfinished ∧ s.status (.entry (mk.index target)) = .unfinished
  found : findTarget mk.targets (mk.target target).targetName = some (mk.index target)
  under : ∀ other, mk.Under target other → mk.Under .initial other

/-- A state in the loop of a target. -/
structure LoopReady (mk : Makefile n) (files : Files σ) (start : σ) (target : TargetRef n)
    (s : BuildState σ n) :
    Prop where
  recorded : Recorded mk files start s
  visitedEntered : s.VisitedEntered
  entered : s.Entered target
  unexecuted : ∀ i, .executed (.entry i) ∈ s.trace → i ≠ mk.index target
  found : findTarget mk.targets (mk.target target).targetName = some (mk.index target)
  under : ∀ other, mk.Under target other → mk.Under .initial other

/-- The time of the target does not change in its loop. -/
theorem LoopReady.time_target {target : TargetRef n} {s : BuildState σ n}
    (h : LoopReady mk files start target s) (hkeeps : mk.Keeps files (mk.target target).targetName) :
    files.time s.world (mk.target target).targetName = files.time start
    (mk.target target).targetName := by
  apply h.recorded.kept _ hkeeps
  intro other hmem hname
  obtain ⟨i, rfl, hbelow⟩ := h.recorded.under other hmem
  exact h.unexecuted i hmem (findTarget_injective hbelow.found h.found hname)

/-- The loop of a call starts in such a state. -/
theorem CallReady.loopReady {target : TargetRef n} {s : BuildState σ n}
    (h : CallReady mk files start target s) :
    LoopReady mk files start target (beginTarget mk target s) where
  recorded := by
    have hrecord : Recorded mk files start (s.record (.entered target s.status s.world)) :=
      h.recorded.record (by simp)
    cases beginTarget_cases mk target s with
    | inl heq => exact heq ▸ hrecord
    | inr heq => exact heq ▸ hrecord.setStatus target (by decide)
  visitedEntered := h.visitedEntered.begin mk target
  entered := beginTarget_entered mk target s
  unexecuted i hmem := by
    rintro rfl
    rw [beginTarget_trace] at hmem
    have hold := (List.mem_append.mp hmem).resolve_right (by simp)
    exact h.recorded.visited _ hold h.unfinished.2
  found := h.found
  under := h.under

/-- A pass of the loop leads to such a state. -/
theorem LoopReady.visit {target : TargetRef n} {name : CString} {s s₁ : BuildState σ n}
    {dependsOn : Option (Fin n)} (h : LoopReady mk files start target s)
    (hvisit : visitDependency mk files.toEnv target name s = (dependsOn, s₁)) :
    LoopReady mk files start target s₁ where
  recorded := by
    have hsteps : StepInvariant mk files.toEnv (Scope.loop mk target) (Recorded mk files start) :=
      stepInvariant_recorded mk files start h.under
    exact hsteps.visit (Or.inl rfl) hvisit h.recorded
  visitedEntered := h.visitedEntered.visit h.entered hvisit
  entered := by
    apply h.entered.mono
    rw [visitDependency_trace hvisit]
    exact List.Subset.refl _
  unexecuted i hmem := h.unexecuted i (visitDependency_trace hvisit ▸ hmem)
  found := h.found
  under := h.under

/-- What is below a direct dependency is below the target. -/
theorem Makefile.Under.of_edge {target other : TargetRef n} {i : Fin n}
    (hedge : mk.Edge (mk.index target) i) (h : other = .entry i ∨ mk.Under (.entry i) other) :
    mk.Under target other := by
  rcases h with rfl | ⟨j, rfl, hbelow⟩
  · exact ⟨i, rfl, .single hedge⟩
  · exact ⟨j, rfl, .head hedge hbelow⟩

/-- A call made by the loop is made in a state for calls. -/
theorem LoopReady.callReady (hacyclic : mk.Acyclic) {target : TargetRef n} {name : CString}
    {s s₁ : BuildState σ n} {i : Fin n} (h : LoopReady mk files start target s)
    (hname : name ∈ (mk.target target).dependencyNames)
    (hvisit : visitDependency mk files.toEnv target name s = (some i, s₁)) :
    CallReady mk files start (.entry i) s₁ := by
  have hedge := visitDependency_edge hname hvisit
  have hunfinished := visitDependency_unfinished hacyclic hname hvisit
  exact {
    recorded := (h.visit hvisit).recorded
    visitedEntered := (h.visit hvisit).visitedEntered
    unfinished := ⟨hunfinished, hunfinished⟩
    found := findTarget_self (visitDependency_some hvisit).1
    under := fun other hother => h.under other (Makefile.Under.of_edge hedge (Or.inr hother)) }

/-- A call made by the loop returns to such a state. -/
theorem LoopReady.call (hacyclic : mk.Acyclic) {target : TargetRef n} {i : Fin n}
    {s s₁ : BuildState σ n} {result : ℤ} (h : LoopReady mk files start target s)
    (hedge : mk.Edge (mk.index target) i) (hcall : Eval mk files.toEnv (.call (.entry i)) s result s₁)
    (hentered : s₁.VisitedEntered) :
    LoopReady mk files start target s₁ where
  recorded := by
    have hscope : ∀ other, (Scope.call mk (.entry i)).calls other → mk.Under .initial other :=
      fun other hother =>
      h.under other (Makefile.Under.of_edge hedge hother)
    exact hcall.invariant (Scope.call_closed mk _) (stepInvariant_recorded mk files start hscope)
      (Or.inl rfl) h.recorded
  visitedEntered := hentered
  entered := h.entered.mono (hcall.trace_subset trivial)
  unexecuted j hmem := by
    obtain ⟨events, htrace, hevents⟩ := hcall.trace_grows (Scope.call_closed mk _) (Or.inl rfl)
    rw [htrace] at hmem
    rcases List.mem_append.mp hmem with hold | hnew
    · exact h.unexecuted j hold
    · obtain ⟨k, heq, hbelow⟩ := Makefile.Under.of_edge hedge (hevents _ hnew)
      rintro rfl
      exact hacyclic _ (TargetRef.entry.inj heq ▸ hbelow)
  found := h.found
  under := h.under

/-- An entry which is not older than the target was entered before, or is called on. -/
theorem LoopReady.visit_calls {target : TargetRef n} {name : CString} {s s₁ : BuildState σ n}
    {dependsOn : Option (Fin n)} {i : Fin n} (h : LoopReady mk files start target s)
    (hvisit : visitDependency mk files.toEnv target name s = (dependsOn, s₁))
    (hfind : findTarget mk.targets name = some i) (hname : mk.Keeps files name)
    (htarget : mk.Keeps files (mk.target target).targetName)
    (horder : files.order start name (mk.target target).targetName ≠ 2) :
    s.Entered (.entry i) ∨ dependsOn = some i := by
  by_cases hi : s.status (.entry i) = .unfinished
  · have hunfinished : ∀ j, findTarget mk.targets name = some j → s.status (.entry j) = .unfinished :=
      fun j hj => Option.some.inj (hfind.symm.trans hj) ▸ hi
    refine Or.inr (visitDependency_calls ⟨hunfinished, ?_⟩ hfind hvisit)
    rw [Files.order, h.recorded.time_eq hname hunfinished, h.time_target htarget]
    exact horder
  · exact Or.inl (h.visitedEntered i hi)

/-- The dependencies of a target which are not older before the run are entered in a trace. -/
def Makefile.Descends (mk : Makefile n) (files : Files σ) (start : σ) (target : TargetRef n)
    (names : List CString) (trace : List (Event σ n)) : Prop :=
  ∀ name ∈ names, ∀ i, findTarget mk.targets name = some i → mk.Keeps files name →
    mk.Keeps files (mk.target target).targetName →
      files.order start name (mk.target target).targetName ≠ 2 →
    ∃ status world, .entered (.entry i) status world ∈ trace

/-- What is known of a call: files which are no visited entries have the times from before the run,
the target itself was not visited, and `build` descends into its dependencies. -/
structure EntryFacts (mk : Makefile n) (files : Files σ) (start : σ) (target : TargetRef n)
    (status : TargetRef n → Status) (world : σ) (trace : List (Event σ n)) : Prop where
  times : ∀ file, mk.Keeps files file →
    (∀ i, findTarget mk.targets file = some i → status (.entry i) = .unfinished) →
    files.time world file = files.time start file
  unvisited : ∀ i, findTarget mk.targets (mk.target target).targetName = some i →
    status (.entry i) = .unfinished
  descends : mk.Descends files start target (mk.target target).dependencyNames trace

/-- The calls between two states are known. -/
def NewEntries (mk : Makefile n) (files : Files σ) (start : σ) (s s' : BuildState σ n) : Prop :=
  ∀ target status world, .entered target status world ∈ s'.trace →
    .entered target status world ∈ s.trace ∨ EntryFacts mk files start target status world s'.trace

/-- The dependencies stay entered in a longer trace. -/
theorem Makefile.Descends.mono {target : TargetRef n} {names : List CString}
    {trace trace' : List (Event σ n)} (h : mk.Descends files start target names trace)
    (hsubset : trace ⊆ trace') :
    mk.Descends files start target names trace' := by
  intro name hname i hfind hkeeps htarget horder
  obtain ⟨status, world, hmem⟩ := h name hname i hfind hkeeps htarget horder
  exact ⟨status, world, hsubset hmem⟩

/-- What is known of a call stays true of a longer trace. -/
theorem EntryFacts.mono {target : TargetRef n} {status : TargetRef n → Status} {world : σ}
    {trace trace' : List (Event σ n)} (h : EntryFacts mk files start target status world trace)
    (hsubset : trace ⊆ trace') : EntryFacts mk files start target status world trace' :=
  ⟨h.times, h.unvisited, h.descends.mono hsubset⟩

/-- The calls between two states and then a third one. -/
theorem NewEntries.trans {s s₁ s' : BuildState σ n} (h₁ : NewEntries mk files start s s₁)
    (h₂ : NewEntries mk files start s₁ s') (hsubset : s₁.trace ⊆ s'.trace) :
    NewEntries mk files start s s' := by
  intro target status world hmem
  rcases h₂ target status world hmem with hmem₁ | hfacts
  · exact (h₁ target status world hmem₁).imp_right fun hfacts => hfacts.mono hsubset
  · exact Or.inr hfacts

/-- The end of a call and its return enter nothing. -/
theorem finishTarget_returned {env : Env σ} {target : TargetRef n} {s s₁ : BuildState σ n} {result : ℤ}
    (h : finishTarget mk env target s = (result, s₁)) :
    ∃ last, (s₁.record (.returned target)).trace = s.trace ++ last ∧
      ∀ entered status world, Event.entered entered status world ∉ last := by
  rcases finishTarget_trace h with heq | heq
  · exact ⟨[.returned target], by rw [BuildState.record_trace, heq], by simp⟩
  · exact ⟨[.executed target, .returned target], by
      rw [BuildState.record_trace, heq, List.append_assoc]; rfl, by simp⟩

/-- A call which returns entered its target. -/
theorem Eval.call_entered {env : Env σ} {target : TargetRef n} {s s' : BuildState σ n} {result : ℤ}
    (h : Eval mk env (.call target) s result s') : s'.Entered target := by
  have hbody : ∀ {looped} {s₁ : BuildState σ n},
      Eval mk env (.loop target (mk.target target).dependencyNames) (beginTarget mk target s) looped s₁ →
      s₁.Entered target := fun hloop =>
    (beginTarget_entered mk target s).mono (hloop.trace_subset ⟨trivial, List.Subset.refl _⟩)
  cases h with
  | call_finish hloop _ hfinish =>
    obtain ⟨last, htrace, -⟩ := finishTarget_returned hfinish
    exact (hbody hloop).mono (htrace ▸ List.subset_append_left _ last)
  | call_fail hloop => exact (hbody hloop).mono (List.subset_append_left _ _)

/-- A state from which a task is evaluated. -/
def Task.ReadyFrom (mk : Makefile n) (files : Files σ) (start : σ) (s : BuildState σ n) : Task n → Prop
  | .call target => CallReady mk files start target s
  | .loop target names => LoopReady mk files start target s ∧ names ⊆ (mk.target target).dependencyNames

/-- After a task its names are entered if they are not older before the run. -/
def Task.Descends (mk : Makefile n) (files : Files σ) (start : σ) (trace : List (Event σ n)) :
    Task n → Prop
  | .call _ => True
  | .loop target names => mk.Descends files start target names trace

/-- Every call of an evaluation which does not fail is known, and visited entries were entered. -/
theorem Eval.newEntries (hacyclic : mk.Acyclic) {task : Task n} {s s' : BuildState σ n} {result : ℤ}
    (h : Eval mk files.toEnv task s result s') (hresult : result ≠ -1)
    (hready : task.ReadyFrom mk files start s) :
    s'.VisitedEntered ∧ NewEntries mk files start s s' ∧ task.Descends mk files start s'.trace := by
  induction h with
  | loop_nil =>
    exact ⟨hready.1.visitedEntered, fun _ _ _ => Or.inl, fun _ hname => absurd hname List.not_mem_nil⟩
  | loop_pass hvisit hloop ih =>
    obtain ⟨hready, hnames⟩ := hready
    obtain ⟨-, hrest⟩ := List.cons_subset.mp hnames
    obtain ⟨hvisited, hnew, hdescends⟩ := ih hresult ⟨hready.visit hvisit, hrest⟩
    have htrace := visitDependency_trace hvisit
    refine ⟨hvisited, fun target status world hmem => htrace ▸ hnew target status world hmem, ?_⟩
    refine List.forall_mem_cons.mpr ⟨fun i hfind hname htarget horder => ?_, hdescends⟩
    have hentered := (hready.visit_calls hvisit hfind hname htarget horder).resolve_right (by simp)
    exact hentered.mono (htrace ▸ hloop.trace_subset ⟨trivial, hrest⟩)
  | loop_call hvisit hcall hcalled hloop ihcall ihloop =>
    obtain ⟨hready, hnames⟩ := hready
    obtain ⟨hname, hrest⟩ := List.cons_subset.mp hnames
    have htrace := visitDependency_trace hvisit
    obtain ⟨hvisited₂, hnew₂, -⟩ := ihcall hcalled (hready.callReady hacyclic hname hvisit)
    have hready₂ := (hready.visit hvisit).call hacyclic
        (visitDependency_edge hname hvisit) hcall hvisited₂
    obtain ⟨hvisited, hnew, hdescends⟩ := ihloop hresult ⟨hready₂, hrest⟩
    have hsubset := hloop.trace_subset ⟨trivial, hrest⟩
    refine ⟨hvisited, ?_, ?_⟩
    · refine NewEntries.trans (fun target status world hmem => ?_) hnew hsubset
      exact htrace ▸ hnew₂ target status world hmem
    · refine List.forall_mem_cons.mpr ⟨fun i hfind hkeeps htarget horder => ?_, hdescends⟩
      rcases hready.visit_calls hvisit hfind hkeeps htarget horder with hentered | hcalls
      · exact (hentered.mono (htrace ▸ hcall.trace_subset trivial)).mono hsubset
      · exact Option.some.inj hcalls ▸ hcall.call_entered.mono hsubset
  | loop_fail => exact absurd rfl hresult
  | @call_finish target s s₁ s₂ looped result hloop hlooped hfinish ih =>
    obtain ⟨hvisited, hnew, hdescends⟩ := ih hlooped ⟨hready.loopReady, List.Subset.refl _⟩
    obtain ⟨last, hlast, hnone⟩ := finishTarget_returned hfinish
    have hsubset : s₁.trace ⊆ (s₂.record (.returned target)).trace :=
      hlast ▸ List.subset_append_left _ last
    have hentered : s₁.Entered target :=
      (beginTarget_entered mk target s).mono (hloop.trace_subset ⟨trivial, List.Subset.refl _⟩)
    refine ⟨(hvisited.finish hentered hfinish).mono rfl (List.subset_append_left _ _), ?_, trivial⟩
    intro called status world hmem
    have hmem₁ := (List.mem_append.mp (hlast ▸ hmem)).resolve_right (hnone called status world)
    rcases hnew called status world hmem₁ with hbegin | hfacts
    · rw [beginTarget_trace] at hbegin
      refine (List.mem_append.mp hbegin).imp_right fun hown => ?_
      obtain ⟨rfl, rfl, rfl⟩ := Event.entered.inj (List.mem_singleton.mp hown)
      exact {
        times := fun file hkeeps hunfinished => hready.recorded.time_eq hkeeps hunfinished
        unvisited := fun i hi => Option.some.inj (hready.found.symm.trans hi) ▸ hready.unfinished.2
        descends := hdescends.mono hsubset }
    · exact Or.inr (hfacts.mono hsubset)
  | call_fail => exact absurd rfl hresult

/-- At the start of a run nothing was executed or visited. -/
theorem callReady_start (mk : Makefile n) (files : Files σ) (start : σ) :
    CallReady mk files start .initial (BuildState.start start) where
  recorded := ⟨fun _ _ _ => rfl, fun _ h => absurd h List.not_mem_nil,
    fun _ h => absurd h List.not_mem_nil⟩
  visitedEntered _ h := absurd rfl h
  unfinished := ⟨rfl, rfl⟩
  found := mk.found
  under _ := id

/-- Every call of a run which returns `0` is known. -/
theorem runMake_entryFacts (hacyclic : mk.Acyclic) {depth : ℕ} {s : BuildState σ n}
    (h : runMake mk files.toEnv depth start = some (0, s)) {target : TargetRef n}
    {status : TargetRef n → Status} {world : σ} (hmem : .entered target status world ∈ s.trace) :
    EntryFacts mk files start target status world s.trace := by
  obtain ⟨-, hnew, -⟩ := (build_eval h).newEntries hacyclic (by decide) (callReady_start mk files start)
  exact (hnew target status world hmem).resolve_left List.not_mem_nil

/-- The requested target, and every target which is reached from it over dependencies which are not
older than their dependents, by commands which leave alone the files on the way. -/
inductive Makefile.Live (mk : Makefile n) (files : Files σ) (start : σ) : TargetRef n → Prop
  | initial : mk.Keeps files (mk.targets mk.requested).targetName → Live mk files start .initial
  | dependency {target : TargetRef n} {name : CString} {i : Fin n} :
      Live mk files start target → name ∈ (mk.target target).dependencyNames →
        findTarget mk.targets name = some i →
      files.order start name (mk.target target).targetName ≠ 2 → mk.Keeps files name →
      Live mk files start (.entry i)

/-- The commands leave alone the file of a live target. -/
theorem Makefile.Live.keeps {target : TargetRef n} (h : mk.Live files start target) :
    mk.Keeps files (mk.target target).targetName := by
  induction h with
  | initial hkeeps => exact hkeeps
  | dependency _ _ hfind _ hkeeps _ =>
    have hname := findTarget_name hfind
    rw [← hname] at hkeeps
    exact hkeeps

/-- Every live target is entered. -/
theorem Makefile.Live.entered (hacyclic : mk.Acyclic) {depth : ℕ} {s : BuildState σ n}
    (hrun : runMake mk files.toEnv depth start = some (0, s)) {target : TargetRef n}
    (h : mk.Live files start target) :
    s.Entered target := by
  induction h with
  | initial => exact (build_eval hrun).call_entered
  | dependency hlive hname hfind horder hkeeps ih =>
    obtain ⟨status, world, hmem⟩ := ih
    exact (runMake_entryFacts hacyclic hrun hmem).descends _ hname _ hfind hkeeps hlive.keeps horder

/-- In a run which returns `0` on an acyclic table, every live target is entered. If it has a newer
dependency which is a file or an entry that was not visited then, its command is executed. -/
theorem live_executed (hacyclic : mk.Acyclic) {depth : ℕ} {s : BuildState σ n}
    (hrun : runMake mk files.toEnv depth start = some (0, s)) {target : TargetRef n}
    (hlive : mk.Live files start target) :
    s.Entered target ∧ ∀ name ∈ (mk.target target).dependencyNames, mk.Keeps files name →
      files.order start name (mk.target target).targetName = 1 →
      ∀ status world, .entered target status world ∈ s.trace →
        (∀ i, findTarget mk.targets name = some i → status (.entry i) = .unfinished) →
        .executed target ∈ s.trace := by
  refine ⟨hlive.entered hacyclic hrun, ?_⟩
  intro name hname hkeeps hnewer status world hmem hunfinished
  have hfacts := runMake_entryFacts hacyclic hrun hmem
  have horder : files.order world name (mk.target target).targetName = 1 := by
    rw [Files.order, hfacts.times name hkeeps hunfinished, hfacts.times _ hlive.keeps hfacts.unvisited]
    exact hnewer
  have hmarked : mk.Marked files target status world :=
    Or.inr ⟨name, hname, hunfinished, by rw [horder]; decide⟩
  obtain ⟨before, after, heq⟩ := List.append_of_mem hmem
  have htrace := runMake_wellNested hacyclic hrun (by decide)
  obtain ⟨body, rest, hbody, hnot, hdecided⟩ := htrace.bracketed before _ after _ heq rfl
  have hactivation : IsActivation s.trace before target status world body := ⟨⟨rest, hbody ▸ heq⟩, hnot⟩
  exact hactivation.subset (hdecided.1.mpr hmarked)

/-- The expectation that no target below the requested one stays older than a direct dependency. -/
def Makefile.NoStale (mk : Makefile n) (files : Files σ) (start : σ) (trace : List (Event σ n)) : Prop :=
  ∀ target, target = .initial ∨ mk.Under .initial target → ∀ name ∈ (mk.target target).dependencyNames,
    files.order start name (mk.target target).targetName = 1 → .executed target ∈ trace

/-- All files which a table names exist. -/
def Makefile.FilesExist (mk : Makefile n) (files : Files σ) (world : σ) : Prop :=
  ∀ i, (files.time world (mk.targets i).targetName).isSome ∧
    ∀ name ∈ (mk.targets i).dependencyNames, (files.time world name).isSome

/-- The entry `r` depends on `a`, which depends on the file `b`. -/
def chain : Makefile 2 where
  targets i := [⟨bytes "r", [bytes "a"], bytes "touch r"⟩,
    ⟨bytes "a", [bytes "b"], bytes "touch a"⟩].getD i ⟨[], [], []⟩
  requested := ⟨0, Nat.zero_lt_two⟩
  found := by decide

/-- The command of `a` touches the file of `d`, which is another dependency of `r`. -/
def foreignCommand : Makefile 3 where
  targets i := [⟨bytes "r", [bytes "a", bytes "d"], bytes "touch r"⟩,
    ⟨bytes "a", [bytes "f"], bytes "touch d"⟩,
    ⟨bytes "d", [bytes "e"], bytes "touch d"⟩].getD i ⟨[], [], []⟩
  requested := 0
  found := by decide

/-- Touching another file keeps the time of a file. -/
theorem touchFiles_time_cons {world : List CString} {file other : CString} (hne : other ≠ file) :
    touchFiles.time (other :: world) file = touchFiles.time world file := by
  have hmem : file ∈ other :: world ↔ file ∈ world := by simp [hne.symm]
  simp only [Files.time, touchFiles, hmem, List.idxOf_cons_ne world hne, List.length_cons,
    Nat.succ_eq_add_one, Nat.add_sub_add_right]

/-- Commands which touch the files of their targets leave alone all other files. -/
theorem touchFiles_keeps (h : ∀ i, (mk.targets i).command.drop 6 = (mk.targets i).targetName)
    (file : CString) :
    mk.Keeps touchFiles file := by
  intro i world hne
  rw [← h i] at hne
  exact touchFiles_time_cons hne

/-- With `b` newer than `a` and `a` newer than `r`, the command of `a` is executed. -/
theorem live_executed_chain : ∃ s,
    runMake chain touchFiles.toEnv 9 [bytes "b", bytes "a", bytes "r"] = some (0, s) ∧
      s.Entered (.entry 1) ∧ .executed (.entry 1) ∈ s.trace := by
  have hacyclic : chain.Acyclic := Makefile.acyclic_of_lt (by decide +kernel)
  have hkeeps : ∀ file, chain.Keeps touchFiles file := touchFiles_keeps (by decide +kernel)
  have hlive : chain.Live touchFiles [bytes "b", bytes "a", bytes "r"] (.entry 1) := by
    apply Makefile.Live.dependency (.initial (hkeeps _))
    · exact List.mem_singleton.mpr rfl
    · decide +kernel
    · decide +kernel
    · exact hkeeps _
  have hrun :
      (runMake chain touchFiles.toEnv 9 [bytes "b", bytes "a", bytes "r"]).map Prod.fst = some 0 := by
    decide +kernel
  obtain ⟨⟨result, s⟩, hmake, rfl⟩ := Option.map_eq_some_iff.mp hrun
  obtain ⟨hentered, hexecuted⟩ := live_executed hacyclic hmake hlive
  obtain ⟨status, world, hmem⟩ := hentered
  -- `b` is a plain file
  have hplain : findTarget chain.targets (bytes "b") = none := by decide +kernel
  refine ⟨s, hmake, ⟨status, world, hmem⟩, ?_⟩
  refine hexecuted (bytes "b") (List.mem_singleton.mpr rfl) (hkeeps _)
    (by decide +kernel) status world hmem ?_
  intro i hi
  exact absurd (hplain.symm.trans hi) (by simp)

/-- A direct dependency of the requested target which stays older than a file it depends on. -/
theorem not_noStale {s : BuildState σ n} {i : Fin n} {name : CString} (hedge : mk.Edge mk.requested i)
    (hname : name ∈ (mk.targets i).dependencyNames)
    (hnewer : files.order start name (mk.targets i).targetName = 1)
    (hcount : s.executedCount (.entry i) = 0) : ¬ mk.NoStale files start s.trace := by
  intro h
  have hexecuted := h (.entry i) (Or.inr ⟨i, rfl, .single hedge⟩) name hname hnewer
  exact List.countP_eq_zero.mp hcount _ hexecuted (by simp [Event.isExecuted])

/-- With `r` newer than `b` and `b` newer than `a`, `build` does not descend into `a`, which stays
older than `b`. With a command which touches the file of another target, that target is taken for up
to date. -/
theorem stale_not_executed :
    (∃ s, chain.Acyclic ∧ chain.FilesExist touchFiles [bytes "r", bytes "b", bytes "a"] ∧
      runMake chain touchFiles.toEnv 9 [bytes "r", bytes "b", bytes "a"] = some (0, s) ∧
      ¬ chain.NoStale touchFiles [bytes "r", bytes "b", bytes "a"] s.trace) ∧
    ∃ s, foreignCommand.Acyclic ∧
      foreignCommand.FilesExist touchFiles [bytes "e", bytes "f", bytes "d", bytes "a", bytes "r"] ∧
      runMake foreignCommand touchFiles.toEnv 9 [bytes "e", bytes "f", bytes "d", bytes "a",
        bytes "r"] = some (0, s) ∧
      ¬ foreignCommand.NoStale touchFiles [bytes "e", bytes "f", bytes "d", bytes "a",
        bytes "r"] s.trace := by
  constructor
  · have hrun : (runMake chain touchFiles.toEnv 9 [bytes "r", bytes "b", bytes "a"]).map
        (fun run => (run.1, run.2.executedCount (.entry 1))) = some (0, 0) := by decide +kernel
    obtain ⟨⟨result, s⟩, hmake, heq⟩ := Option.map_eq_some_iff.mp hrun
    obtain ⟨rfl, hcount⟩ := Prod.mk.inj heq
    have hexist : chain.FilesExist touchFiles [bytes "r", bytes "b", bytes "a"] := by
      unfold Makefile.FilesExist
      decide +kernel
    refine ⟨s, Makefile.acyclic_of_lt (by decide +kernel), hexist, hmake, ?_⟩
    exact not_noStale (by decide +kernel) (List.mem_singleton.mpr rfl) (by decide +kernel) hcount
  · have hrun : (runMake foreignCommand touchFiles.toEnv 9
        [bytes "e", bytes "f", bytes "d", bytes "a", bytes "r"]).map
        (fun run => (run.1, run.2.executedCount (.entry 2))) = some (0, 0) := by decide +kernel
    obtain ⟨⟨result, s⟩, hmake, heq⟩ := Option.map_eq_some_iff.mp hrun
    obtain ⟨rfl, hcount⟩ := Prod.mk.inj heq
    have hexist : foreignCommand.FilesExist touchFiles [bytes "e", bytes "f", bytes "d", bytes "a",
        bytes "r"] := by
      unfold Makefile.FilesExist
      decide +kernel
    refine ⟨s, Makefile.acyclic_of_lt (by decide +kernel), hexist, hmake, ?_⟩
    exact not_noStale (by decide +kernel) (List.mem_singleton.mpr rfl) (by decide +kernel) hcount

end Csci4061.Make
