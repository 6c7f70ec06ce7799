import Csci4061.Make.Marking

/-!
# Shared dependencies

A dependency which was built through another target does not mark the target any more. So the rule
that a target is rebuilt if its file is missing, or if a direct dependency was rebuilt, holds of a run
exactly under a condition on the calls: a target which is due has to be marked by some dependency when
`build` is entered on it.

In a diamond, where two targets share a dependency, the second one is not rebuilt.
-/

namespace Csci4061.Make

open Csci4061.Lib

variable {n : ℕ} {σ : Type*} {mk : Makefile n} {files : Files σ}

/-- The command of a direct dependency is among some events. -/
def Makefile.DependencyExecuted (mk : Makefile n) (target : TargetRef n) (events : List (Event σ n)) :
    Prop :=
  ∃ i, mk.Edge (mk.index target) i ∧ .executed (.entry i) ∈ events

/-- Shared dependencies do not suppress a rebuild: the command of a target with dependencies is
executed if its file is missing when `build` is entered on it, or if the command of a direct
dependency was executed before the call returns. -/
def Makefile.RebuildsShared (mk : Makefile n) (files : Files σ) (trace : List (Event σ n)) : Prop :=
  ∀ before target status world body, IsActivation trace before target status world body →
    (mk.target target).dependencyNames ≠ [] →
    files.time world (mk.target target).targetName = none ∨ mk.DependencyExecuted target
      (before ++ body) →
    .executed target ∈ trace

/-- Whenever the file of a target with dependencies is missing or the command of a direct dependency
was executed before, some dependency marks the target at the call. -/
def Makefile.MarkedWhenDue (mk : Makefile n) (files : Files σ) (trace : List (Event σ n)) : Prop :=
  ∀ before target status world after, trace = before ++ .entered target status world :: after →
    (mk.target target).dependencyNames ≠ [] →
    files.time world (mk.target target).targetName = none ∨ mk.DependencyExecuted target before →
    ∃ name ∈ (mk.target target).dependencyNames, mk.Marks files target status world name

/-- A call on an acyclic table enters its own target once. -/
theorem Eval.call_enteredCount (hacyclic : mk.Acyclic) {env : Env σ} {target : TargetRef n}
    {s s' : BuildState σ n} {result : ℤ} (h : Eval mk env (.call target) s result s') :
    s'.enteredCount target = s.enteredCount target + 1 := by
  have hbody : ∀ {looped} {s₁ : BuildState σ n},
      Eval mk env (.loop target (mk.target target).dependencyNames) (beginTarget mk target s) looped s₁ →
      s₁.enteredCount target = s.enteredCount target + 1 := by
    intro looped s₁ hloop
    obtain ⟨events, htrace, hunder⟩ := hloop.trace_grows (Scope.loop_closed mk target)
        ⟨Or.inl rfl, List.Subset.refl _⟩
    have hnone : events.countP (Event.isEntered target) = 0 := by
      refine List.countP_eq_zero.mpr fun e he hentered => hacyclic.ne_of_under (hunder e he) ?_
      cases e with
      | entered called status world => exact of_decide_eq_true hentered
      | executed called => exact absurd hentered (by simp [Event.isEntered])
      | returned called => exact absurd hentered (by simp [Event.isEntered])
    have hbegin := beginTarget_enteredCount mk target target s
    rw [if_pos rfl] at hbegin
    rw [BuildState.enteredCount, htrace, List.countP_append, hnone]
    exact hbegin
  cases h with
  | call_finish hloop _ hfinish =>
    rw [BuildState.enteredCount_returned, finishTarget_enteredCount hfinish]
    exact hbody hloop
  | call_fail hloop =>
    rw [BuildState.enteredCount_returned]
    exact hbody hloop

/-- A run on an acyclic table enters every target at most once. -/
theorem runMake_enteredCount (hacyclic : mk.Acyclic) {env : Env σ} {depth : ℕ} {world : σ}
    {s : BuildState σ n} {result : ℤ} (h : runMake mk env depth world = some (result, s))
    {target : TargetRef n} {status : TargetRef n → Status} {entryWorld : σ}
    (hmem : .entered target status entryWorld ∈ s.trace) :
    s.enteredCount target ≤ 1 := by
  have heval := build_eval h
  obtain ⟨events, htrace, hevents⟩ := heval.trace_grows (Scope.call_closed mk .initial) (Or.inl rfl)
  rw [htrace] at hmem
  have hreached := hevents _ ((List.mem_append.mp hmem).resolve_left List.not_mem_nil)
  rcases hreached with rfl | ⟨i, rfl, hbelow⟩
  · exact (heval.call_enteredCount hacyclic).le
  · -- an entry below the requested one cannot list itself
    have hself : (mk.targets i).targetName ∉ (mk.targets i).dependencyNames := fun hname =>
      hacyclic i (.single ⟨_, hname, hbelow.found⟩)
    have hpotential := heval.keepsPotential hself fun heq => absurd heq (by simp)
    exact (s.enteredCount_le_potential i).trans hpotential

/-- In a run which returns `0` on an acyclic table, shared dependencies do not suppress a rebuild
exactly if every target which is due is marked by a dependency when `build` is entered on it. -/
theorem rebuildsShared_iff_markedWhenDue (hacyclic : mk.Acyclic) {depth : ℕ} {world : σ}
    {s : BuildState σ n} (hrun : runMake mk files.toEnv depth world = some (0, s)) :
    mk.RebuildsShared files s.trace ↔ mk.MarkedWhenDue files s.trace := by
  have htrace := runMake_wellNested hacyclic hrun (by decide)
  constructor
  · intro hrule before target status world after heq hdependencies hdue
    obtain ⟨body, rest, rfl, hnot, hdecided, -⟩ := htrace.bracketed before _ after _ heq rfl
    have hactivation : IsActivation s.trace before target status world body := ⟨⟨rest, heq⟩, hnot⟩
    have hexecuted := hrule before target status world body hactivation hdependencies
      (hdue.imp_right fun ⟨i, hedge, hmem⟩ => ⟨i, hedge, List.mem_append_left body hmem⟩)
    -- the activation in which the command is executed is this one
    obtain ⟨before', status', world', body', hactivation', hbody'⟩ := htrace.owned target hexecuted
    have hmem : .entered target status world ∈ s.trace :=
      heq ▸ List.mem_append_right before List.mem_cons_self
    have hsame := hactivation.unique (runMake_enteredCount hacyclic hrun hmem) hactivation'
    exact (hdecided.mp (hsame ▸ hbody')).resolve_left hdependencies
  · intro hdue before target status world body hactivation hdependencies hcause
    obtain ⟨hexecuted, hnonempty⟩ := hactivation.decided htrace
    apply hactivation.subset
    by_cases hmissing :
      files.time world (mk.target target).targetName = none ∨ mk.DependencyExecuted target before
    · obtain ⟨⟨after, heq⟩, -⟩ := hactivation
      have hmarks := hdue before target status world _ heq hdependencies hmissing
      exact hexecuted.mpr (Or.inr hmarks)
    · -- otherwise the dependency was executed within the call
      obtain ⟨hpresent, hbefore⟩ := not_or.mp hmissing
      obtain ⟨i, hedge, hmem⟩ := hcause.resolve_left hpresent
      have hbody : Event.executed (.entry i) ∈ body :=
        (List.mem_append.mp hmem).resolve_left fun hmem => hbefore ⟨i, hedge, hmem⟩
      exact hnonempty (List.ne_nil_of_mem hbody)

/-- Files which are created in order: the newest first. A command is `touch` and the name of a file. -/
def touchFiles : Files (List CString) where
  stat world file := (if file ∈ world then some ((world.length - world.idxOf file : ℕ) : ℤ) else none,
    world)
  fork world := (true, world)
  command world command := (.exited 0, command.drop 6 :: world)
  stat_stat _ _ _ := rfl
  stat_fork _ _ := rfl

/-- A table whose entries depend on later ones only is acyclic. -/
theorem Makefile.acyclic_of_lt (h : ∀ i j, mk.Edge i j → i < j) : mk.Acyclic := by
  have hlt : ∀ {i j}, mk.Below i j → i < j := fun hbelow => by
    induction hbelow with
    | single hedge => exact h _ _ hedge
    | tail _ hedge ih => exact ih.trans (h _ _ hedge)
  exact fun i hbelow => absurd (hlt hbelow) (lt_irrefl i)

/-- Direct dependencies are found by looking up the names. -/
instance (mk : Makefile n) (i j : Fin n) : Decidable (mk.Edge i j) :=
  inferInstanceAs (Decidable (∃ name ∈ (mk.targets i).dependencyNames,
    findTarget mk.targets name = some j))

/-- Whether a dependency marks a target is a comparison. -/
instance (mk : Makefile n) (files : Files σ) (target : TargetRef n) (status : TargetRef n → Status)
    (world : σ) (name : CString) : Decidable (mk.Marks files target status world name) :=
  inferInstanceAs (Decidable
    ((∀ i, findTarget mk.targets name = some i → status (.entry i) = .unfinished) ∧
    files.order world name (mk.target target).targetName ≠ 2))

/-- Whether an event is a call on a target with dependencies and without a file whose command is
not in the trace. -/
def Event.isSuppressed (mk : Makefile n) (files : Files σ) (trace : List (Event σ n)) : Event σ n → Bool
  | .entered target _ world => (mk.target target).dependencyNames ≠ [] ∧
    files.time world (mk.target target).targetName = none ∧ trace.countP (Event.isExecuted target) = 0
  | _ => false

/-- Whether a target is marked from the start is decided by its dependencies. -/
instance (mk : Makefile n) (files : Files σ) (target : TargetRef n) (status : TargetRef n → Status)
    (world : σ) :
    Decidable (mk.Marked files target status world) :=
  inferInstanceAs (Decidable ((mk.target target).dependencyNames = [] ∨
    ∃ name ∈ (mk.target target).dependencyNames, mk.Marks files target status world name))

/-- Whether an event is no call, or a call on a target which is marked from the start. -/
def Event.isMarked (mk : Makefile n) (files : Files σ) : Event σ n → Bool
  | .entered target status world => mk.Marked files target status world
  | _ => true

/-- The entry `r` depends on `a` and `b`, and both depend on `c`. -/
def diamond : Makefile 4 where
  targets i := [⟨bytes "r", [bytes "a", bytes "b"], bytes "touch r"⟩,
    ⟨bytes "a", [bytes "c"], bytes "touch a"⟩,
    ⟨bytes "b", [bytes "c"], bytes "touch b"⟩, ⟨bytes "c", [], bytes "touch c"⟩].getD i ⟨[], [], []⟩
  requested := 0
  found := by decide

/-- A suppressed call breaks the rule for shared dependencies. -/
theorem not_rebuildsShared_of_suppressed {trace : List (Event σ n)} (htrace : WellNested mk files trace)
    {e : Event σ n} (he : e ∈ trace)
    (hsuppressed : e.isSuppressed mk files trace = true) : ¬ mk.RebuildsShared files trace := by
  intro hrule
  cases e with
  | entered target status world =>
    obtain ⟨hdependencies, hmissing, hcount⟩ := of_decide_eq_true hsuppressed
    obtain ⟨before, after, heq⟩ := List.append_of_mem he
    obtain ⟨body, rest, rfl, hnot, -⟩ := htrace.bracketed before _ after _ heq rfl
    have hexecuted := hrule before target status world body ⟨⟨rest, heq⟩, hnot⟩ hdependencies
        (Or.inl hmissing)
    exact List.countP_eq_zero.mp hcount _ hexecuted (decide_eq_true rfl)
  | executed target => exact absurd hsuppressed (by simp [Event.isSuppressed])
  | returned target => exact absurd hsuppressed (by simp [Event.isSuppressed])

/-- If every call marks its target from the start, those which are due are marked. -/
theorem markedWhenDue_of_isMarked {trace : List (Event σ n)}
    (h : ∀ e ∈ trace, e.isMarked mk files = true) :
    mk.MarkedWhenDue files trace := by
  intro before target status world after heq hdependencies _
  have hmarked := h (.entered target status world)
      (heq ▸ List.mem_append_right before List.mem_cons_self)
  exact (of_decide_eq_true hmarked).resolve_left hdependencies

/-- With `r` newer than `a`, and `b` and `c` missing, the rule holds of the diamond. -/
theorem rebuildsShared_iff_markedWhenDue_diamond : ∃ s,
    runMake diamond touchFiles.toEnv 9 [bytes "r", bytes "a"] = some (0, s) ∧
      diamond.RebuildsShared touchFiles s.trace := by
  have hacyclic : diamond.Acyclic := Makefile.acyclic_of_lt (by decide +kernel)
  have hrun : (runMake diamond touchFiles.toEnv 9 [bytes "r", bytes "a"]).map
      (fun run => (run.1, run.2.trace.all (Event.isMarked diamond touchFiles))) = some (0, true) := by
    decide +kernel
  obtain ⟨⟨result, s⟩, hmake, heq⟩ := Option.map_eq_some_iff.mp hrun
  obtain ⟨rfl, hall⟩ := Prod.mk.inj heq
  have hdue := markedWhenDue_of_isMarked (List.all_eq_true.mp hall)
  exact ⟨s, hmake, (rebuildsShared_iff_markedWhenDue hacyclic hmake).mpr hdue⟩

/-- With no files at all, `c` is built for `a` first. Then `b` is entered without its file, and its
command is not executed. -/
theorem sharedDependency_suppresses : ∃ s, diamond.Acyclic ∧
    runMake diamond touchFiles.toEnv 9 [] = some (0, s) ∧
    ¬ diamond.RebuildsShared touchFiles s.trace := by
  have hacyclic : diamond.Acyclic := Makefile.acyclic_of_lt (by decide +kernel)
  have hrun : (runMake diamond touchFiles.toEnv 9 []).map
      (fun run => (run.1, run.2.trace.any (Event.isSuppressed diamond touchFiles run.2.trace))) = some
      (0, true) := by
    decide +kernel
  obtain ⟨⟨result, s⟩, hmake, heq⟩ := Option.map_eq_some_iff.mp hrun
  obtain ⟨rfl, hany⟩ := Prod.mk.inj heq
  obtain ⟨e, he, hsuppressed⟩ := List.any_eq_true.mp hany
  have htrace := runMake_wellNested hacyclic hmake (by decide)
  exact ⟨s, hacyclic, hmake, not_rebuildsShared_of_suppressed htrace he hsuppressed⟩

end Csci4061.Make
