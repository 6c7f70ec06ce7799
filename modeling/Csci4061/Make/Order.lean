import Csci4061.Lib.History
import Csci4061.Make.Stale

/-!
# The order of commands

The command of a target is executed at the end of its call, and by then the loop came to all direct
dependencies. An entry which was visited is never called on again. So a dependency can only be executed
later if the loop came to it while it was `UNFINISHED` and passed over it as older.

Such a dependency stays `UNFINISHED`, and another target which shares it may build it later.
-/

namespace Csci4061.Make

open Csci4061.Lib

variable {n : ℕ} {σ : Type*} {mk : Makefile n} {env : Env σ} {files : Files σ}

/-- The target of a command which is executed. -/
def Event.command : Event σ n → Option (TargetRef n)
  | .executed target => some target
  | _ => none

/-- The targets whose commands are executed, in their order. -/
def commands (trace : List (Event σ n)) : List (TargetRef n) := trace.filterMap Event.command

/-- The loop of a target comes to an unfinished entry among its dependencies, which is reported older
than the target. -/
def SkippedAsOlder (mk : Makefile n) (env : Env σ) (start : Task n × BuildState σ n)
    (target : TargetRef n) (i : Fin n) : Prop :=
  ∃ name names s, LeadsTo mk env start (.loop target (name :: names), s) ∧
    findTarget mk.targets name = some i ∧ s.status (.entry i) = .unfinished ∧
    (env.compareModificationTime s.world (mk.targets i).targetName (mk.target target).targetName).1 = 2

/-- The commands of events one after the other. -/
@[simp] theorem commands_append (events₁ events₂ : List (Event σ n)) :
    commands (events₁ ++ events₂) = commands events₁ ++ commands events₂ :=
  List.filterMap_append

/-- A call executes nothing by itself. -/
@[simp] theorem commands_entered (target : TargetRef n) (status : TargetRef n → Status) (world : σ) :
    commands [.entered target status world] = [] := rfl

/-- The return of a call executes nothing. -/
@[simp] theorem commands_returned (target : TargetRef n) :
    commands [(.returned target : Event σ n)] = [] := rfl

/-- An execution is a command. -/
@[simp] theorem commands_executed (target : TargetRef n) :
    commands [(.executed target : Event σ n)] = [target] := rfl

/-- The commands are those of the executions. -/
@[simp] theorem mem_commands {events : List (Event σ n)} {target : TargetRef n} :
    target ∈ commands events ↔ .executed target ∈ events := by
  rw [commands, List.mem_filterMap]
  constructor
  · rintro ⟨event, hmem, heq⟩
    cases event with
    | executed other => exact Option.some.inj heq ▸ hmem
    | entered other status world => exact absurd heq (by simp [Event.command])
    | returned other => exact absurd heq (by simp [Event.command])
  · exact fun hmem => ⟨_, hmem, rfl⟩

/-- What is visited before an evaluation is visited after it. -/
theorem Eval.visitedLe {task : Task n} {s s' : BuildState σ n} {result : ℤ}
    (h : Eval mk env task s result s') (htask : task.Within mk (Scope.all n)) :
    s.VisitedLe s' := fun target =>
  h.invariant (Scope.all_closed mk) (stepInvariant_visited mk env _ target) htask

/-- A pass of the loop keeps what was visited. -/
theorem visitDependency_visitedLe {target : TargetRef n} {name : CString} {s s₁ : BuildState σ n}
    {dependsOn : Option (Fin n)} (h : visitDependency mk env target name s = (dependsOn, s₁)) :
    s.VisitedLe s₁ :=
  fun visited => (stepInvariant_visited mk env (Scope.all n) visited).visit trivial h

/-- What was visited over two evaluations. -/
theorem BuildState.VisitedLe.trans {s s₁ s' : BuildState σ n} (h₁ : s.VisitedLe s₁)
    (h₂ : s₁.VisitedLe s') :
    s.VisitedLe s' := fun target hvisited => h₂ target (h₁ target hvisited)

/-- What is unfinished afterwards was unfinished before. -/
theorem BuildState.VisitedLe.unfinished {s s' : BuildState σ n} (h : s.VisitedLe s')
    {target : TargetRef n} (htarget : s'.status target = .unfinished) :
    s.status target = .unfinished := by
  by_contra hvisited
  exact h target hvisited htarget

/-- The beginning of a call keeps what was visited. -/
theorem beginTarget_visitedLe (mk : Makefile n) (target : TargetRef n) (s : BuildState σ n) :
    s.VisitedLe (beginTarget mk target s) := by
  intro visited hvisited
  unfold beginTarget
  split
  · by_cases heq : visited = target
    · simp [heq]
    · simpa [Function.update_of_ne heq] using hvisited
  · exact hvisited

/-- A call which does not fail leaves its target visited. -/
theorem Eval.call_self_visited {target : TargetRef n} {s s' : BuildState σ n} {result : ℤ}
    (h : Eval mk env (.call target) s result s') (hresult : result ≠ -1) :
    s'.status target ≠ .unfinished := by
  cases h with
  | call_finish _ _ hfinish =>
    rw [BuildState.record_status]
    exact finishTarget_visited hfinish
  | call_fail => exact absurd rfl hresult

/-- When the loop comes to an entry, the entry was visited, or it is called on, or it is unfinished and
reported older than the target. -/
theorem visitDependency_settles {target : TargetRef n} {name : CString} {s s₁ : BuildState σ n}
    {dependsOn : Option (Fin n)} {i : Fin n} (h : visitDependency mk env target name s = (dependsOn, s₁))
    (hfind : findTarget mk.targets name = some i) :
    s.status (.entry i) ≠ .unfinished ∨ dependsOn = some i ∨ s.status (.entry i) = .unfinished ∧
      (env.compareModificationTime s.world
        (mk.targets i).targetName (mk.target target).targetName).1 = 2 := by
  by_cases hstatus : s.status (.entry i) = .unfinished
  · refine Or.inr ?_
    obtain rfl := congrArg Prod.fst h
    simp only [visitDependency, hfind, if_pos hstatus]
    split
    · exact Or.inl rfl
    · rename_i horder
      exact Or.inr ⟨hstatus, not_not.mp horder⟩
  · exact Or.inl hstatus

section Ordered

variable {start : Task n × BuildState σ n}

/-- The dependencies of a target were visited, apart from those which were passed over as older. -/
def Settled (mk : Makefile n) (env : Env σ) (start : Task n × BuildState σ n) (s : BuildState σ n)
    (target : TargetRef n) : Prop :=
  ∀ i, mk.Edge (mk.index target) i → s.status (.entry i) ≠ .unfinished ∨
    SkippedAsOlder mk env start target i

/-- What is settled stays settled. -/
theorem Settled.mono {s s' : BuildState σ n} {target : TargetRef n} (h : Settled mk env start s target)
    (hle : s.VisitedLe s') :
    Settled mk env start s' target := fun i hedge => (h i hedge).imp_left (hle _)

/-- Commands which are executed between two states: their targets were unfinished before and are settled
afterwards, and a dependency comes after its dependent only if it was passed over as older. -/
structure Ordered (mk : Makefile n) (env : Env σ) (start : Task n × BuildState σ n) (s : BuildState σ n)
    (order : List (TargetRef n)) (s' : BuildState σ n) : Prop where
  fresh : ∀ target ∈ order, s.status target = .unfinished
  settled : ∀ target ∈ order, Settled mk env start s' target
  ordered : order.Pairwise fun first later => ∀ i, later = .entry i → mk.Edge (mk.index first) i →
    SkippedAsOlder mk env start first i

/-- No commands. -/
theorem Ordered.nil (s s' : BuildState σ n) : Ordered mk env start s [] s' :=
  ⟨fun _ h => absurd h List.not_mem_nil, fun _ h => absurd h List.not_mem_nil, .nil⟩

/-- Commands over a longer time. -/
theorem Ordered.widen {s₀ s s₁ s' : BuildState σ n} {order : List (TargetRef n)}
    (h : Ordered mk env start s order s₁) (hbefore : s₀.VisitedLe s) (hafter : s₁.VisitedLe s') :
    Ordered mk env start s₀ order s' where
  fresh target hmem := hbefore.unfinished (h.fresh target hmem)
  settled target hmem := (h.settled target hmem).mono hafter
  ordered := h.ordered

/-- Commands one after the other. A dependency which is settled is not executed later. -/
theorem Ordered.append {s s₁ s' : BuildState σ n} {order₁ order₂ : List (TargetRef n)}
    (h₁ : Ordered mk env start s order₁ s₁) (h₂ : Ordered mk env start s₁ order₂ s')
    (hle₁ : s.VisitedLe s₁)
    (hle₂ : s₁.VisitedLe s') : Ordered mk env start s (order₁ ++ order₂) s' := by
  have hfirst := h₁.widen (fun _ => id) hle₂
  have hsecond := h₂.widen hle₁ (fun _ => id)
  constructor
  · exact List.forall_mem_append.mpr ⟨hfirst.fresh, hsecond.fresh⟩
  · exact List.forall_mem_append.mpr ⟨hfirst.settled, hsecond.settled⟩
  · refine List.pairwise_append.mpr ⟨h₁.ordered, h₂.ordered, ?_⟩
    rintro first hfirst _ hlater i rfl hedge
    exact (h₁.settled first hfirst i hedge).resolve_left fun hvisited => hvisited (h₂.fresh _ hlater)

/-- The command of a settled target after those of targets below it. -/
theorem Ordered.own (hacyclic : mk.Acyclic) {target : TargetRef n} {s s' : BuildState σ n}
    {order : List (TargetRef n)} (h : Ordered mk env start s order s')
    (hunder : ∀ first ∈ order, mk.Under target first) (hfresh : s.status target = .unfinished)
    (hsettled : Settled mk env start s' target) :
    Ordered mk env start s (order ++ [target]) s' := by
  constructor
  · exact List.forall_mem_append.mpr ⟨h.fresh, List.forall_mem_singleton.mpr hfresh⟩
  · exact List.forall_mem_append.mpr ⟨h.settled, List.forall_mem_singleton.mpr hsettled⟩
  · refine List.pairwise_append.mpr ⟨h.ordered, List.pairwise_singleton _ _, ?_⟩
    intro first hfirst later hlater i heq hedge
    -- a target below this one has no edge to it
    obtain ⟨j, rfl, hbelow⟩ := hunder first hfirst
    obtain rfl := List.mem_singleton.mp hlater
    subst heq
    exact absurd (hbelow.tail hedge) (hacyclic i)

/-- After a loop which does not fail, the names which it went over are settled. -/
theorem Eval.loop_settles {target : TargetRef n} {names : List CString}
    (hnames : names ⊆ (mk.target target).dependencyNames) {s s' : BuildState σ n} {result : ℤ}
    (h : Eval mk env (.loop target names) s result s') (hresult : result ≠ -1)
    (hlead : LeadsTo mk env start (.loop target names, s)) :
    ∀ name ∈ names, ∀ i, findTarget mk.targets name = some i →
      s'.status (.entry i) ≠ .unfinished ∨ SkippedAsOlder mk env start target i := by
  induction names generalizing s with
  | nil => exact fun name hname => absurd hname List.not_mem_nil
  | cons name names ih =>
    obtain ⟨-, hrest⟩ := List.cons_subset.mp hnames
    have hvisited := h.visitedLe ⟨trivial, hnames⟩
    cases h with
    | loop_pass hvisit hloop =>
      refine List.forall_mem_cons.mpr ⟨fun i hfind => ?_, ih hrest hloop (hlead.tail (.pass hvisit))⟩
      rcases visitDependency_settles hvisit hfind with hstatus | hcalled | ⟨hstatus, horder⟩
      · exact Or.inl (hvisited _ hstatus)
      · exact absurd hcalled (by simp)
      · exact Or.inr ⟨name, names, s, hlead, hfind, hstatus, horder⟩
    | loop_call hvisit hcall hcalled hloop =>
      refine List.forall_mem_cons.mpr ⟨fun i hfind => ?_,
        ih hrest hloop (hlead.tail (.rest hvisit hcall hcalled))⟩
      rcases visitDependency_settles hvisit hfind with hstatus | hcallee | ⟨hstatus, horder⟩
      · exact Or.inl (hvisited _ hstatus)
      · obtain rfl := Option.some.inj hcallee
        exact Or.inl (hloop.visitedLe ⟨trivial, hrest⟩ _ (hcall.call_self_visited hcalled))
      · exact Or.inr ⟨name, names, s, hlead, hfind, hstatus, horder⟩
    | loop_fail => exact absurd rfl hresult

/-- The commands which a loop executes are those of targets below its own. -/
theorem Eval.loop_under {target : TargetRef n} {s s' : BuildState σ n} {result : ℤ}
    (h : Eval mk env (.loop target (mk.target target).dependencyNames) s result s')
    {order : List (TargetRef n)} (horder : commands s'.trace = commands s.trace ++ order) :
    ∀ executed ∈ order, mk.Under target executed := by
  obtain ⟨events, htrace, hunder⟩ := h.trace_grows (Scope.loop_closed mk target)
      ⟨Or.inl rfl, List.Subset.refl _⟩
  rw [htrace, commands_append] at horder
  obtain rfl := List.append_cancel_left horder
  exact fun executed hmem => hunder _ (mem_commands.mp hmem)

/-- The commands of an evaluation are ordered. -/
theorem Eval.ordered (hacyclic : mk.Acyclic) {task : Task n} {s s' : BuildState σ n} {result : ℤ}
    (h : Eval mk env task s result s') (hready : task.Ready mk s)
    (hlead : LeadsTo mk env start (task, s)) :
    ∃ order, commands s'.trace = commands s.trace ++ order ∧ Ordered mk env start s order s' := by
  induction h with
  | @loop_nil target s => exact ⟨[], (List.append_nil _).symm, .nil s s⟩
  | loop_pass hvisit _ ih =>
    obtain ⟨order, horder, hordered⟩ := ih (List.cons_subset.mp hready).2 (hlead.tail (.pass hvisit))
    rw [visitDependency_trace hvisit] at horder
    exact ⟨order, horder, hordered.widen (visitDependency_visitedLe hvisit) fun _ => id⟩
  | loop_call hvisit hcall hcalled hloop ihcall ihloop =>
    obtain ⟨hname, hrest⟩ := List.cons_subset.mp hready
    have hcallee := visitDependency_unfinished hacyclic hname hvisit
    obtain ⟨order₁, horder₁, hordered₁⟩ := ihcall hcallee (hlead.tail (.callee hvisit))
    obtain ⟨order₂, horder₂, hordered₂⟩ := ihloop hrest (hlead.tail (.rest hvisit hcall hcalled))
    have hvisited := visitDependency_visitedLe hvisit
    have hfirst := hordered₁.widen hvisited fun _ => id
    refine ⟨order₁ ++ order₂, ?_, hfirst.append hordered₂ (hvisited.trans (hcall.visitedLe trivial))
      (hloop.visitedLe ⟨trivial, hrest⟩)⟩
    rw [horder₂, horder₁, visitDependency_trace hvisit, List.append_assoc]
  | loop_fail hvisit hcall ihcall =>
    have hname := (List.cons_subset.mp hready).1
    have hcallee := visitDependency_unfinished hacyclic hname hvisit
    obtain ⟨order, horder, hordered⟩ := ihcall hcallee (hlead.tail (.callee hvisit))
    rw [visitDependency_trace hvisit] at horder
    exact ⟨order, horder, hordered.widen (visitDependency_visitedLe hvisit) fun _ => id⟩
  | @call_finish target s s₁ s₂ looped result hloop hlooped hfinish ih =>
    have hbody := hlead.tail .body
    obtain ⟨order, horder, hordered⟩ := ih (List.Subset.refl _) hbody
    have hunder := hloop.loop_under horder
    rw [beginTarget_trace, commands_append, commands_entered, List.append_nil] at horder
    have hfinished : s₁.VisitedLe s₂ := fun visited hvisited =>
      (stepInvariant_visited mk env (Scope.all n) visited).finish trivial hfinish hvisited
    have hwide : Ordered mk env start s order (s₂.record (.returned target)) :=
      hordered.widen (beginTarget_visitedLe mk target s) hfinished
    have hsettled : Settled mk env start (s₂.record (.returned target)) target := by
      rintro i ⟨name, hname, hfind⟩
      have hsettles := hloop.loop_settles (List.Subset.refl _) hlooped hbody name hname i hfind
      exact hsettles.imp_left (hfinished _)
    rcases finishTarget_trace hfinish with heq | heq
    · refine ⟨order, ?_, hwide⟩
      rw [BuildState.record_trace, commands_append, commands_returned, List.append_nil, heq, horder]
    · refine ⟨order ++ [target], ?_, hwide.own hacyclic hunder hready hsettled⟩
      rw [BuildState.record_trace, commands_append, commands_returned, List.append_nil, heq,
        commands_append, commands_executed, horder, List.append_assoc]
  | @call_fail target s s₁ hloop ih =>
    obtain ⟨order, horder, hordered⟩ := ih (List.Subset.refl _) (hlead.tail .body)
    rw [beginTarget_trace, commands_append, commands_entered, List.append_nil] at horder
    refine ⟨order, ?_, hordered.widen (beginTarget_visitedLe mk target s) fun _ => id⟩
    rw [BuildState.record_trace, commands_append, commands_returned, List.append_nil, horder]

end Ordered

/-- Every loop which a run comes to has the files of the targets below it as they were before the run. -/
theorem LeadsTo.readyFrom (hacyclic : mk.Acyclic) {start : σ} {first later : Task n × BuildState σ n}
    (h : LeadsTo mk files.toEnv first later) (hfirst : first.1.ReadyFrom mk files start first.2) :
    later.1.ReadyFrom mk files start later.2 := by
  induction h with
  | refl => exact hfirst
  | tail _ hstep ih =>
    cases hstep with
    | body => exact ⟨ih.loopReady, List.Subset.refl _⟩
    | pass hvisit => exact ⟨ih.1.visit hvisit, (List.cons_subset.mp ih.2).2⟩
    | callee hvisit => exact ih.1.callReady hacyclic (List.cons_subset.mp ih.2).1 hvisit
    | rest hvisit hcall hcalled =>
      obtain ⟨hready, hnames⟩ := ih
      obtain ⟨hname, hrest⟩ := List.cons_subset.mp hnames
      obtain ⟨hvisited, -⟩ := hcall.newEntries hacyclic hcalled (hready.callReady hacyclic hname hvisit)
      exact ⟨(hready.visit hvisit).call hacyclic (visitDependency_edge hname hvisit) hcall hvisited,
        hrest⟩

/-- A dependency which is not older before the run is not passed over as older, if no other commands
change its file or that of the target. -/
theorem not_skippedAsOlder (hacyclic : mk.Acyclic) {start : σ} {target : TargetRef n} {i : Fin n}
    (hdependency : mk.Keeps files (mk.targets i).targetName)
    (htarget : mk.Keeps files (mk.target target).targetName)
    (horder : files.order start (mk.targets i).targetName (mk.target target).targetName ≠ 2) :
    ¬ SkippedAsOlder mk files.toEnv (.call .initial, .start start) target i := by
  rintro ⟨name, names, s, hlead, hfind, hstatus, holder⟩
  obtain ⟨hready, -⟩ := hlead.readyFrom hacyclic (callReady_start mk files start)
  have hunfinished : ∀ j, findTarget mk.targets (mk.targets i).targetName = some j →
      s.status (.entry j) = .unfinished := fun j hj =>
    Option.some.inj ((findTarget_self hfind).symm.trans hj) ▸ hstatus
  rw [files.compareModificationTime_fst, Files.order, hready.recorded.time_eq hdependency hunfinished,
    hready.time_target htarget] at holder
  exact horder holder

/-- The rule that commands run in dependency order: of a target and a direct dependency which are both
executed, the dependency is executed before the target. -/
def Makefile.InDependencyOrder (mk : Makefile n) (order : List (TargetRef n)) : Prop :=
  ∀ target i, mk.Edge (mk.index target) i → target ∈ order → .entry i ∈ order →
    Before (.entry i) target order

/-- In a run on an acyclic table, of a target and a direct dependency which are both executed the
dependency is executed before the target, unless `build` came to it in the loop of the target while it
was `UNFINISHED` and passed over it as older. -/
theorem dependency_executed_before (hacyclic : mk.Acyclic) {depth : ℕ} {world : σ} {s : BuildState σ n}
    {result : ℤ} (hrun : runMake mk env depth world = some (result, s)) {target : TargetRef n}
    {i : Fin n} (hedge : mk.Edge (mk.index target) i) (htarget : target ∈ commands s.trace)
    (hdependency : .entry i ∈ commands s.trace)
    (hskipped : ¬ SkippedAsOlder mk env (.call .initial, .start world) target i) :
    Before (.entry i) target (commands s.trace) := by
  obtain ⟨order, horder, hordered⟩ := (build_eval hrun).ordered hacyclic rfl .refl
  obtain rfl : commands s.trace = order := horder
  have hnot : ¬ [target, .entry i].Sublist (commands s.trace) := fun hsublist =>
    hskipped (List.pairwise_iff_forall_sublist.mp hordered.ordered hsublist i rfl hedge)
  have hne : TargetRef.entry i ≠ target := by
    rintro rfl
    exact hacyclic i (.single hedge)
  exact before_of_not_sublist hdependency htarget hne hnot

/-- With no files at all, `c` is executed before `a` in the diamond. -/
theorem dependency_executed_before_diamond : ∃ s, runMake diamond touchFiles.toEnv 9 [] = some (0, s) ∧
    Before (.entry (Fin.last 3)) (.entry 1) (commands s.trace) := by
  have hacyclic : diamond.Acyclic := Makefile.acyclic_of_lt (by decide +kernel)
  have hkeeps : ∀ file, diamond.Keeps touchFiles file := touchFiles_keeps (by decide +kernel)
  have hrun : (runMake diamond touchFiles.toEnv 9 []).map (fun run => (run.1, commands run.2.trace)) =
      some (0, [.entry (Fin.last 3), .entry 1, .initial]) := by decide +kernel
  obtain ⟨⟨result, s⟩, hmake, heq⟩ := Option.map_eq_some_iff.mp hrun
  obtain ⟨rfl, hcommands⟩ := Prod.mk.inj heq
  simp only at hcommands
  have hskipped : ¬ SkippedAsOlder diamond touchFiles.toEnv (.call .initial, .start []) (.entry 1)
      (Fin.last 3) :=
    not_skippedAsOlder hacyclic (hkeeps _) (hkeeps _) (by decide +kernel)
  refine ⟨s, hmake, dependency_executed_before hacyclic hmake (by decide +kernel) ?_ ?_ hskipped⟩
  · simp [hcommands]
  · simp [hcommands]

/-- The entry `r` depends on `t` and `u`, and both depend on `d`; `t` depends on the file `f` as well. -/
def sharedOlder : Makefile 4 where
  targets i := [⟨bytes "r", [bytes "t", bytes "u"], bytes "touch r"⟩,
    ⟨bytes "t", [bytes "d", bytes "f"], bytes "touch t"⟩, ⟨bytes "u", [bytes "d"], bytes "touch u"⟩,
    ⟨bytes "d", [], bytes "touch d"⟩].getD i ⟨[], [], []⟩
  requested := ⟨0, Nat.zero_lt_succ 3⟩
  found := by decide

/-- With `f` newer than `t` and `t` newer than `d`, and `r` and `u` missing, `t` is executed first, and
then `d` for `u`. -/
theorem dependency_executed_after : ∃ s, sharedOlder.Acyclic ∧
    runMake sharedOlder touchFiles.toEnv 9 [bytes "f", bytes "t", bytes "d"] = some (0, s) ∧
      ¬ sharedOlder.InDependencyOrder (commands s.trace) := by
  have hrun : (runMake sharedOlder touchFiles.toEnv 9 [bytes "f", bytes "t", bytes "d"]).map
      (fun run => (run.1, commands run.2.trace)) =
        some (0, [.entry 1, .entry (Fin.last 3), .entry 2, .initial]) := by decide +kernel
  obtain ⟨⟨result, s⟩, hmake, heq⟩ := Option.map_eq_some_iff.mp hrun
  obtain ⟨rfl, hcommands⟩ := Prod.mk.inj heq
  simp only at hcommands
  refine ⟨s, Makefile.acyclic_of_lt (by decide +kernel), hmake, fun h => ?_⟩
  rw [hcommands] at h
  exact absurd (h (.entry 1) (Fin.last 3) (by decide +kernel) (by decide) (by decide)) (by decide)

end Csci4061.Make
