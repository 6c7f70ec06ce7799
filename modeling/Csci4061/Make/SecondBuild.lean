import Csci4061.Make.Order
import Csci4061.Make.Timestamps

/-!
# Building twice

A build executes nothing exactly if every direct dependency of the requested target is reported older
than it. After a build which executed something, the command of the requested target was the last one,
so that its file is the newest: a second build finds it up to date exactly if the times on both sides
are comparable as `int`s.
-/

namespace Csci4061.Make

open Csci4061.Lib

variable {n : ℕ} {σ : Type*} {mk : Makefile n} {files : Files σ}

/-- One file is created or touched, with a time greater than all times present. -/
structure Files.Touches (files : Files σ) (world world' : σ) (file : CString) : Prop where
  newest : ∃ time, files.time world' file = some time ∧
    ∀ other present, files.time world other = some present → present < time
  others : ∀ other, other ≠ file → files.time world' other = files.time world other

/-- Every command which a run executes touches the file of its own target. -/
def Makefile.TouchesOwn (mk : Makefile n) (files : Files σ) (world : σ) : Prop :=
  ∀ target s, LeadsTo mk files.toEnv (.call .initial, .start world) (.loop target [], s) →
    s.status target = .needsBuilding → (files.fork s.world).1 = true →
    files.Touches (files.fork s.world).2
      (files.command (files.fork s.world).2 (mk.target target).command).2
      (mk.target target).targetName

/-- An invocation executes no command and returns `0`. -/
def Makefile.DoesNothing (mk : Makefile n) (env : Env σ) (world : σ) : Prop :=
  ∃ s, (∀ depth, 2 * n + 1 ≤ depth → runMake mk env depth world = some (0, s)) ∧ commands s.trace = []

/-- Every direct dependency of the requested target is reported older than it. -/
def Makefile.UpToDate (mk : Makefile n) (files : Files σ) (world : σ) : Prop :=
  ∀ name ∈ (mk.target .initial).dependencyNames,
    files.order world name (mk.target .initial).targetName = 2

/-- Steps which execute no command leave the times as they were. -/
theorem stepInvariant_sameTimes (mk : Makefile n) (files : Files σ) (scope : Scope n) (start : σ) :
    StepInvariant mk files.toEnv scope fun s => commands s.trace = [] →
    files.SameTimes start s.world where
  setStatus _ _ _ _ _ hs := hs
  look s file₁ file₂ hs hnone file := (files.sameTimes_look s.world file₁ file₂ file).trans
    (hs hnone file)
  fork s hs hnone file := (files.stat_fork s.world file).trans (hs hnone file)
  enter s target _ hs hnone := hs (List.append_eq_nil_iff.mp (commands_append s.trace _ ▸ hnone)).1
  execute s target _ _ _ hnone := by
    rw [BuildState.record_trace, commands_append] at hnone
    exact absurd (List.append_eq_nil_iff.mp hnone).2 (by simp [commands, Event.command])
  leave s target _ hs hnone := hs (List.append_eq_nil_iff.mp (commands_append s.trace _ ▸ hnone)).1

/-- A loop goes on to its end if no call fails. -/
theorem Eval.leadsTo_nil {env : Env σ} {target : TargetRef n} {names : List CString}
    {s s' : BuildState σ n} {result : ℤ} (h : Eval mk env (.loop target names) s result s')
    (hresult : result ≠ -1) :
    LeadsTo mk env (.loop target names, s) (.loop target [], s') := by
  induction names generalizing s with
  | nil =>
    cases h
    exact .refl
  | cons name names ih =>
    cases h with
    | loop_pass hvisit hloop => exact .head (.pass hvisit) (ih hloop)
    | loop_call hvisit hcall hcalled hloop => exact .head (.rest hvisit hcall hcalled) (ih hloop)
    | loop_fail => exact absurd rfl hresult

/-- A loop in which a call fails leaves the target marked. -/
theorem Eval.loop_failed_marked (hacyclic : mk.Acyclic) {env : Env σ} {target : TargetRef n}
    {names : List CString} (hnames : names ⊆ (mk.target target).dependencyNames) {s s' : BuildState σ n}
    (h : Eval mk env (.loop target names) s (-1) s') : s'.status target = .needsBuilding := by
  induction names generalizing s with
  | nil => nomatch h
  | cons name names ih =>
    obtain ⟨hname, hrest⟩ := List.cons_subset.mp hnames
    cases h with
    | loop_pass _ hloop => exact ih hrest hloop
    | loop_call _ _ _ hloop => exact ih hrest hloop
    | loop_fail hvisit hcall =>
      exact (hcall.callee_status hacyclic hname hvisit).trans (visitDependency_marked hvisit)

/-- At the start of a run the requested target is marked by its dependencies exactly if it is not up to
date. -/
theorem Makefile.marked_start_iff (hdependencies : (mk.target .initial).dependencyNames ≠ [])
    (world : σ) :
    mk.Marked files .initial (BuildState.start world : BuildState σ n).status world ↔
    ¬ mk.UpToDate files world := by
  simp only [Marked, hdependencies, false_or, Marks, UpToDate, BuildState.start, implies_true, true_and,
    not_forall, exists_prop, ne_eq]

/-- An invocation does nothing exactly if the requested target is up to date. -/
theorem Makefile.doesNothing_iff_upToDate (hacyclic : mk.Acyclic)
    (hdependencies : (mk.target .initial).dependencyNames ≠ []) (world : σ) :
    mk.DoesNothing files.toEnv world ↔ mk.UpToDate files world := by
  obtain ⟨result, s, hrun, -⟩ := build_terminates mk files.toEnv world
  have hmarked := @Makefile.marked_start_iff n σ mk files hdependencies world
  have hbegin :
      commands (beginTarget mk .initial (BuildState.start world : BuildState σ n)).trace = [] := by
    rw [beginTarget_trace]
    rfl
  constructor
  · rintro ⟨s', hrun', hnone⟩
    by_contra hout
    have heval := build_eval (hrun' _ le_rfl)
    cases heval with
    | call_finish hloop hlooped hfinish =>
      rcases hloop.body_marks hacyclic rfl with ⟨hmark, -⟩ | ⟨-, hunmarked, -⟩
      · have hcommand := finishTarget_of_ne hfinish (by decide)
        rw [BuildState.record_trace, commands_append, hcommand, commands_append, commandEvents,
          if_pos hmark] at hnone
        simp [commands, Event.command] at hnone
      · exact hunmarked (hmarked.mpr hout)
  · intro huptodate
    have heval := build_eval (hrun _ le_rfl)
    have hunmarked : ¬ mk.Marked files .initial (BuildState.start world : BuildState σ n).status world :=
      fun hmark => hmarked.mp hmark huptodate
    cases heval with
    | @call_finish _ _ s₁ s₂ looped _ hloop hlooped hfinish =>
      obtain ⟨-, hmark⟩ | ⟨hmark, -, htrace⟩ := hloop.body_marks hacyclic rfl
      · exact absurd hmark hunmarked
      · rw [finishTarget_unmarked hmark] at hfinish
        obtain ⟨rfl, rfl⟩ := Prod.mk.inj hfinish
        refine ⟨_, hrun, ?_⟩
        rw [BuildState.record_trace, BuildState.setStatus_trace, commands_append, htrace, hbegin]
        rfl
    | call_fail hloop =>
      -- a call which fails is made for a marked target only
      have hmark := hloop.loop_failed_marked hacyclic (List.Subset.refl _)
      rcases hloop.body_marks hacyclic rfl with ⟨-, hmarks⟩ | ⟨hnot, -⟩
      · exact absurd hmarks hunmarked
      · exact absurd hmark hnot

/-- A run which returns `0` finds the requested target up to date and leaves the times, or it ends with
the command of the requested target. -/
theorem runMake_upToDate_or_touches (hacyclic : mk.Acyclic)
    (hdependencies : (mk.target .initial).dependencyNames ≠ []) {depth : ℕ} {world : σ}
    {s : BuildState σ n} (hrun : runMake mk files.toEnv depth world = some (0, s))
    (htouches : mk.TouchesOwn files world) :
    (mk.UpToDate files world ∧ files.SameTimes world s.world) ∨
      (¬ mk.UpToDate files world ∧ ∃ before, files.Touches before s.world
        (mk.target .initial).targetName) := by
  have hmarked := @Makefile.marked_start_iff n σ mk files hdependencies world
  have heval := build_eval hrun
  have hkept := heval.invariant (Scope.all_closed mk) (stepInvariant_sameTimes mk files _ world) trivial
    fun _ _ => rfl
  cases heval with
  | @call_finish _ _ s₁ s₂ looped _ hloop hlooped hfinish =>
    rcases hloop.body_marks hacyclic rfl with ⟨hmark, hmarks⟩ | ⟨hmark, hunmarked, htrace⟩
    · right
      refine ⟨hmarked.mp hmarks, (files.fork s₁.world).2, ?_⟩
      have hlead : LeadsTo mk files.toEnv (.call .initial, .start world) (.loop .initial [], s₁) :=
        .head .body (hloop.leadsTo_nil hlooped)
      have hforked : (files.fork s₁.world).1 = true := by
        by_contra hfork
        rw [finishTarget_unforked hmark (Prod.ext (Bool.eq_false_iff.mpr hfork) rfl)] at hfinish
        exact absurd (Prod.mk.inj hfinish).1 (by decide)
      have htouched := htouches .initial s₁ hlead hmark hforked
      rcases finishTarget_marked hmark hfinish with ⟨hfail, -⟩ | ⟨s₃, rfl, ⟨hfail, -⟩ | ⟨-, rfl⟩⟩
      · exact absurd hfail (by decide)
      · exact absurd hfail (by decide)
      · exact htouched
    · left
      refine ⟨not_not.mp fun hout => hunmarked (hmarked.mpr hout), hkept ?_⟩
      rw [finishTarget_unmarked hmark] at hfinish
      obtain ⟨-, rfl⟩ := Prod.mk.inj hfinish
      rw [BuildState.record_trace, BuildState.setStatus_trace, commands_append, htrace,
        beginTarget_trace]
      rfl

/-- In an acyclic table the requested target is no dependency of itself. -/
theorem Makefile.Acyclic.ne_requested (hacyclic : mk.Acyclic) {name : CString}
    (hname : name ∈ (mk.target .initial).dependencyNames) : name ≠ (mk.target .initial).targetName := by
  rintro rfl
  exact hacyclic mk.requested (.single ⟨_, hname, mk.found⟩)

/-- Of two files which exist, the older one is reported as such exactly if the times are comparable. -/
theorem Files.order_eq_two_iff {world : σ} {file₁ file₂ : CString} {time₁ time₂ : ℤ}
    (h₁ : files.time world file₁ = some time₁) (h₂ : files.time world file₂ = some time₂)
    (hlt : time₁ < time₂) :
    files.order world file₁ file₂ = 2 ↔ files.Comparable world file₁ file₂ := by
  have horder : files.order world file₁ file₂ = compareTimes (fileTime (some time₁))
      (fileTime (some time₂)) := by
    rw [order, h₁, h₂]
  constructor
  · intro holder
    rw [horder, compareTimes_place] at holder
    have hmissing : ¬ (place time₁ = missingPlace ∨ place time₂ = missingPlace) := fun hmissing => by
      simp [hmissing] at holder
    rw [if_neg hmissing] at holder
    have hplaces : place time₁ < place time₂ := by split_ifs at holder <;> omega
    obtain ⟨hfirst, hsecond⟩ := not_or.mp hmissing
    intro time₁' time₂' h₁' h₂'
    obtain rfl := Option.some.inj (h₁.symm.trans h₁')
    obtain rfl := Option.some.inj (h₂.symm.trans h₂')
    apply comparable_of_lt_iff hfirst hsecond <;> omega
  · intro hcomparable
    rw [horder, (hcomparable time₁ time₂ h₁ h₂).compareTimes]
    split_ifs <;> omega

/-- After a run which returns `0`, whose commands touched the files of their targets and which left all
direct dependencies of the requested target, a second one executes nothing and returns `0`, exactly if
the target was up to date before or the times of its dependencies are comparable with its own. -/
theorem doesNothing_iff_comparable (hacyclic : mk.Acyclic)
    (hdependencies : (mk.target .initial).dependencyNames ≠ []) {depth : ℕ} {world : σ}
    {s : BuildState σ n} (hrun : runMake mk files.toEnv depth world = some (0, s))
    (htouches : mk.TouchesOwn files world)
    (hexists : ∀ name ∈ (mk.target .initial).dependencyNames, files.time s.world name ≠ none) :
    mk.DoesNothing files.toEnv s.world ↔
      mk.UpToDate files world ∨
        ∀ name ∈ (mk.target .initial).dependencyNames,
          files.Comparable s.world name (mk.target .initial).targetName := by
  rw [Makefile.doesNothing_iff_upToDate hacyclic hdependencies]
  rcases runMake_upToDate_or_touches hacyclic hdependencies hrun htouches with
    ⟨huptodate, hsame⟩ | ⟨hout, before, htouched⟩
  · refine iff_of_true (fun name hname => ?_) (Or.inl huptodate)
    rw [hsame.order]
    exact huptodate name hname
  · have hcompare : ∀ name ∈ (mk.target .initial).dependencyNames,
        (files.order s.world name (mk.target .initial).targetName = 2 ↔
          files.Comparable s.world name (mk.target .initial).targetName) := by
      intro name hname
      obtain ⟨present, hpresent⟩ := Option.ne_none_iff_exists'.mp (hexists name hname)
      obtain ⟨time, htime, hnewest⟩ := htouched.newest
      have hbefore := (htouched.others name (hacyclic.ne_requested hname)).symm.trans hpresent
      exact Files.order_eq_two_iff hpresent htime (hnewest name present hbefore)
    rw [or_iff_right hout]
    exact forall₂_congr hcompare

/-- Files which are created in order, the newest first, with times from some base on. A command is
`touch` and the name of a file. -/
def touchFilesFrom (base : ℤ) : Files (List CString) where
  stat world file := ((touchFiles.time world file).map fun time => base + time, world)
  fork := touchFiles.fork
  command := touchFiles.command
  stat_stat _ _ _ := rfl
  stat_fork _ _ := rfl

/-- The command touches the file. -/
theorem touchFilesFrom_touches (base : ℤ) (world : List CString) (file : CString) :
    (touchFilesFrom base).Touches world (file :: world) file := by
  constructor
  · refine ⟨base + (world.length + 1 : ℕ), by simp [touchFilesFrom, touchFiles, Files.time], ?_⟩
    intro other present hpresent
    by_cases hother : other ∈ world
    · obtain rfl : base + (world.length - world.idxOf other : ℕ) = present := by
        simpa [touchFilesFrom, touchFiles, Files.time, hother] using hpresent
      omega
    · simp [touchFilesFrom, touchFiles, Files.time, hother] at hpresent
  · intro other hne
    simp only [touchFilesFrom, touchFiles, Files.time, List.mem_cons, hne, false_or, List.length_cons,
      List.idxOf_cons_ne _ hne.symm, Nat.succ_eq_add_one, Nat.add_sub_add_right]

/-- If the command of every target touches its file, a run touches the files of its own targets. -/
theorem touchesOwn_touchFilesFrom (base : ℤ)
    (h : ∀ i, (mk.targets i).command.drop 6 = (mk.targets i).targetName)
    (world : List CString) : mk.TouchesOwn (touchFilesFrom base) world := by
  intro target s _ _ _
  have hown : (mk.target target).command.drop 6 = (mk.target target).targetName := h (mk.index target)
  change (touchFilesFrom base).Touches s.world ((mk.target target).command.drop 6 :: s.world) _
  rw [hown]
  exact touchFilesFrom_touches base s.world _

/-- The entry `r` depends on a file. -/
def singleRule : Makefile 1 where
  targets _ := ⟨bytes "r", [bytes "f"], bytes "touch r"⟩
  requested := Fin.last 0
  found := by decide

/-- It is acyclic. -/
theorem singleRule_acyclic : singleRule.Acyclic := Makefile.acyclic_of_lt (by decide)

/-- With small times the second build of the rule does nothing. -/
theorem doesNothing_iff_comparable_singleRule : ∃ s,
    runMake singleRule (touchFilesFrom 0).toEnv 3 [bytes "f"] = some (0, s) ∧
      singleRule.DoesNothing (touchFilesFrom 0).toEnv s.world := by
  have hrun : (runMake singleRule (touchFilesFrom 0).toEnv 3 [bytes "f"]).map
      (fun run => (run.1, run.2.world)) =
      some (0, [bytes "r", bytes "f"]) := by decide +kernel
  obtain ⟨⟨result, s⟩, hmake, heq⟩ := Option.map_eq_some_iff.mp hrun
  obtain ⟨rfl, hworld⟩ := Prod.mk.inj heq
  have hexists : ∀ name ∈ (singleRule.target .initial).dependencyNames,
      (touchFilesFrom 0).time s.world name ≠ none := by
    rw [show s.world = _ from hworld]
    decide +kernel
  refine ⟨s, hmake, ?_⟩
  refine (doesNothing_iff_comparable singleRule_acyclic (by decide) hmake
    (touchesOwn_touchFilesFrom 0 (by decide) _) hexists).mpr (Or.inr ?_)
  intro name hname time₁ time₂ h₁ h₂
  obtain rfl : name = bytes "f" := List.mem_singleton.mp hname
  rw [show s.world = _ from hworld] at h₁ h₂
  obtain rfl : 1 = time₁ := Option.some.inj h₁
  obtain rfl : 2 = time₂ := Option.some.inj h₂
  exact ⟨by decide, by decide, Or.inl (by decide)⟩

/-- A file from the last second which fits an `int`, and a target which is built in the next one: the
second build executes the command again. -/
theorem secondBuild_repeats :
    ∃ s, singleRule.Acyclic ∧ (singleRule.target .initial).dependencyNames ≠ [] ∧
    runMake singleRule (touchFilesFrom (2 ^ 31 - 2)).toEnv 3 [bytes "f"] = some (0, s) ∧
      singleRule.TouchesOwn (touchFilesFrom (2 ^ 31 - 2)) [bytes "f"] ∧
      (∀ name ∈ (singleRule.target .initial).dependencyNames,
        (touchFilesFrom (2 ^ 31 - 2)).time s.world name ≠ none) ∧
      ¬ singleRule.DoesNothing (touchFilesFrom (2 ^ 31 - 2)).toEnv s.world := by
  have hrun : (runMake singleRule (touchFilesFrom (2 ^ 31 - 2)).toEnv 3 [bytes "f"]).map
      (fun run => (run.1, run.2.world)) = some (0, [bytes "r", bytes "f"]) := by decide +kernel
  obtain ⟨⟨result, s⟩, hmake, heq⟩ := Option.map_eq_some_iff.mp hrun
  obtain ⟨rfl, hworld⟩ := Prod.mk.inj heq
  refine ⟨s, singleRule_acyclic, by decide, hmake, touchesOwn_touchFilesFrom _ (by decide) _, ?_⟩
  rw [show s.world = _ from hworld, Makefile.doesNothing_iff_upToDate singleRule_acyclic (by decide)]
  refine ⟨by decide +kernel, fun huptodate => ?_⟩
  exact absurd (huptodate (bytes "f") (by decide)) (by decide +kernel)

end Csci4061.Make
