import Csci4061.Make.Resume
import Csci4061.Make.SecondBuild

/-!
# Builds between edits

Sources are edited between the invocations, and files are removed. What `make4061` goes by is that the
times of files tell the truth: a file which is reported newer than all its dependencies is what its
command makes of them. Every edit, every removal and every command of a run keeps this, whatever fails
on the way.

So after an invocation which returns `0` the file of the requested target is what its command makes of
its direct dependencies as they are then. Nothing like that holds of the dependencies themselves, into
which `build` does not descend if they are older.
-/

namespace Csci4061.Make

open Csci4061.Lib

variable {n : ℕ} {σ κ : Type*} {mk : Makefile n} {ws : Workspace σ κ}

/-- One file is written, at a time which is not before that of any file. -/
structure Workspace.Written (ws : Workspace σ κ) (world world' : σ) (file : CString) : Prop where
  newest : ∃ time, ws.time world' file = some time ∧
    ∀ other present, ws.time world other = some present → present ≤ time
  others : ∀ other, other ≠ file → ws.time world' other = ws.time world other ∧
    ws.content world' other = ws.content world other

/-- One file is removed. -/
structure Workspace.Removed (ws : Workspace σ κ) (world world' : σ) (file : CString) : Prop where
  missing : ws.time world' file = none
  others : ∀ other, other ≠ file → ws.time world' other = ws.time world other ∧
    ws.content world' other = ws.content world other

/-- All times fit an `int`, and a command dates the file which it writes. -/
structure Makefile.Dated (mk : Makefile n) (ws : Workspace σ κ) : Prop where
  fits : ∀ world file time, ws.time world file = some time → 0 ≤ time ∧ time < 2 ^ 31
  writes : ∀ world target, (ws.command world (mk.target target).command).1 = .exited 0 →
    ws.Written world (ws.command world (mk.target target).command).2 (mk.target target).targetName
  fails : ∀ world target code, (ws.command world (mk.target target).command).1 = .exited code →
    code ≠ 0 → ws.SameTimes world (ws.command world (mk.target target).command).2

/-- The file of an entry is what its command makes of the dependencies. -/
def Makefile.Current (mk : Makefile n) (ws : Workspace σ κ) (world : σ) (i : Fin n) : Prop :=
  ws.content world (mk.targets i).targetName =
    some (ws.makes (mk.targets i).command ((mk.targets i).dependencyNames.map (ws.content world)))

/-- A file which is newer than all its dependencies is what its command makes of them. -/
def Makefile.Truthful (mk : Makefile n) (ws : Workspace σ κ) (world : σ) : Prop :=
  ∀ i, findTarget mk.targets (mk.targets i).targetName = some i →
    (∀ name ∈ (mk.targets i).dependencyNames, ws.order world name (mk.targets i).targetName = 2) →
    ws.content world (mk.targets i).targetName ≠ none → mk.Current ws world i

/-- A file is not reported older than one whose time is not greater. -/
theorem Makefile.Dated.order_ne_two (hdated : mk.Dated ws) {world : σ} {file other : CString} {time : ℤ}
    (htime : ws.time world file = some time)
    (hnewest : ∀ present, ws.time world other = some present → present ≤ time) :
    ws.order world file other ≠ 2 := by
  rw [Files.order, htime]
  cases hother : ws.time world other with
  | none => simp [compareTimes, fileTime]
  | some present =>
    have hle := hnewest present hother
    obtain ⟨hpos, hlt⟩ := hdated.fits world file time htime
    obtain ⟨hpos', hlt'⟩ := hdated.fits world other present hother
    rw [fileTime, fileTime, toInt_of_lt hpos hlt, toInt_of_lt hpos' hlt', compareTimes]
    split_ifs <;> omega

/-- A file which was written is not reported older than another one. -/
theorem Workspace.Written.order_ne_two {world world' : σ} {file : CString}
    (h : ws.Written world world' file) (hdated : mk.Dated ws) (other : CString) :
    ws.order world' file other ≠ 2 := by
  obtain ⟨time, htime, hnewest⟩ := h.newest
  refine hdated.order_ne_two htime fun present hpresent => ?_
  by_cases heq : other = file
  · subst heq
    exact (Option.some.inj (hpresent.symm.trans htime)).le
  · exact hnewest other present ((h.others other heq).1.symm.trans hpresent)

/-- A file which is missing is not reported older. -/
theorem Files.order_ne_two_of_missing {files : Files σ} {world : σ} {file other : CString}
    (hmissing : files.time world file = none) : files.order world file other ≠ 2 :=
  fun holder => (Files.exist_of_order holder).1 hmissing

/-- The same contents and times. -/
theorem Makefile.Truthful.congr (h : mk.Truthful ws world) {world' : σ}
    (hcontent : ws.content world' = ws.content world)
    (hsame : ws.SameTimes world world') : mk.Truthful ws world' := by
  intro i hfound holder hexists
  rw [Current, hcontent]
  rw [hcontent] at hexists
  exact h i hfound (fun name hname => hsame.order name _ ▸ holder name hname) hexists

/-- After the change of one file the times tell the truth, if the file is not reported older than any
other, and if it is current, should it be the file of a target. -/
theorem Makefile.Truthful.change {world : σ} (h : mk.Truthful ws world) {world' : σ} {file : CString}
    (hothers : ∀ other, other ≠ file → ws.time world' other = ws.time world other ∧
      ws.content world' other = ws.content world other)
    (horder : ∀ other, ws.order world' file other ≠ 2)
    (hown : ∀ i, findTarget mk.targets (mk.targets i).targetName = some i →
      (mk.targets i).targetName = file →
      ws.content world' file ≠ none → mk.Current ws world' i) : mk.Truthful ws world' := by
  intro i hfound holder hexists
  by_cases hname : (mk.targets i).targetName = file
  · exact hown i hfound hname (hname ▸ hexists)
  · have hdependency : ∀ name ∈ (mk.targets i).dependencyNames, name ≠ file := by
      rintro name hmem rfl
      exact horder _ (holder name hmem)
    have hcontents : (mk.targets i).dependencyNames.map (ws.content world') =
        (mk.targets i).dependencyNames.map (ws.content world) :=
      List.map_congr_left fun name hmem => (hothers name (hdependency name hmem)).2
    have hkept := (hothers _ hname).2
    rw [Current, hcontents, hkept]
    refine h i hfound (fun name hmem => ?_) (hkept ▸ hexists)
    rw [← holder name hmem, Files.order, Files.order, (hothers _ hname).1,
      (hothers name (hdependency name hmem)).1]

/-- An edit of a source. -/
theorem Makefile.Truthful.edit {world : σ} (h : mk.Truthful ws world) (hdated : mk.Dated ws) {world' : σ}
    {file : CString}
    (hsource : findTarget mk.targets file = none) (hwritten : ws.Written world world' file) :
    mk.Truthful ws world' := by
  refine h.change hwritten.others (hwritten.order_ne_two hdated) fun i hfound hname => ?_
  rw [← hname, hfound] at hsource
  exact absurd hsource (Option.some_ne_none i)

/-- The removal of a file. -/
theorem Makefile.Truthful.remove {world : σ} (h : mk.Truthful ws world) {world' : σ} {file : CString}
    (hremoved : ws.Removed world world' file) : mk.Truthful ws world' := by
  refine h.change hremoved.others
    (fun _ => Files.order_ne_two_of_missing hremoved.missing) fun _ _ _ hexists => ?_
  exact absurd ((ws.content_none _ _).mpr hremoved.missing) hexists

/-- A command leaves the file of its target current. -/
theorem Makefile.Hermetic.current (hhermetic : mk.Hermetic ws) {world : σ} {target : TargetRef n}
    (hself : (mk.target target).targetName ∉ (mk.target target).dependencyNames)
    (hexited : (ws.command world (mk.target target).command).1 = .exited 0) :
    mk.Current ws (ws.command world (mk.target target).command).2 (mk.index target) := by
  have hdependencies (name : CString) (hname : name ∈ (mk.target target).dependencyNames) :
      ws.content (ws.command world (mk.target target).command).2 name = ws.content world name := by
    rw [hhermetic.makes world target hexited, Function.update_of_ne]
    rintro rfl
    exact hself hname
  have hcontents : (mk.target target).dependencyNames.map
      (ws.content (ws.command world (mk.target target).command).2) =
        (mk.target target).dependencyNames.map (ws.content world) := List.map_congr_left hdependencies
  change ws.content _ (mk.target target).targetName = some
    (ws.makes _ ((mk.target target).dependencyNames.map _))
  rw [hcontents, hhermetic.makes world target hexited, Function.update_self]
  rfl

/-- An entry which is found does not depend on itself. -/
theorem Makefile.Acyclic.not_mem_own (hacyclic : mk.Acyclic) {i : Fin n}
    (hfound : findTarget mk.targets (mk.targets i).targetName = some i) :
    (mk.targets i).targetName ∉ (mk.targets i).dependencyNames :=
  fun hmem => hacyclic i (.single ⟨_, hmem, hfound⟩)

/-- Calls on entries which are found. -/
def Scope.found (mk : Makefile n) : Scope n where
  visits target := findTarget mk.targets (mk.target target).targetName = some (mk.index target)
  calls target := findTarget mk.targets (mk.target target).targetName = some (mk.index target)
  visits_of_calls _ := id

/-- Dependencies are found. -/
theorem Scope.found_closed (mk : Makefile n) : (Scope.found mk).Closed mk := by
  rintro target i - ⟨name, -, hfind⟩
  exact findTarget_self hfind

/-- The steps of `build` leave the times truthful. -/
theorem stepInvariant_truthful (hacyclic : mk.Acyclic) (hhermetic : mk.Hermetic ws)
    (hdated : mk.Dated ws) :
    StepInvariant mk ws.toEnv (Scope.found mk) fun s => mk.Truthful ws s.world where
  setStatus _ _ _ _ _ hs := hs
  look s file₁ file₂ hs := hs.congr (ws.content_look s.world file₁ file₂)
    (ws.sameTimes_look s.world file₁ file₂)
  fork s hs := hs.congr (ws.content_fork s.world) (ws.stat_fork s.world)
  enter _ _ _ hs := hs
  execute s target hfound _ hs := by
    change mk.Truthful ws (ws.command s.world (mk.target target).command).2
    cases hcommand : (ws.command s.world (mk.target target).command).1 with
    | signaled => exact absurd hcommand (hhermetic.ends _ _)
    | exited code =>
      by_cases hcode : code = 0
      · have hexited := hcode ▸ hcommand
        have hwritten := hdated.writes s.world target hexited
        refine hs.change hwritten.others (hwritten.order_ne_two hdated) fun i hi hname _ => ?_
        obtain rfl : i = mk.index target := findTarget_injective hi hfound hname
        exact hhermetic.current (hacyclic.not_mem_own hfound) hexited
      · exact hs.congr (hhermetic.fails _ _ code hcommand hcode) (hdated.fails _ _ code hcommand hcode)
  leave _ _ _ hs := hs

/-- The end of a call which returns `0` on a marked target leaves its file current. -/
theorem finishTarget_current (hhermetic : mk.Hermetic ws) {target : TargetRef n} {s s₁ : BuildState σ n}
    (hself : (mk.target target).targetName ∉ (mk.target target).dependencyNames)
    (hmark : s.status target = .needsBuilding) (h : finishTarget mk ws.toEnv target s = (0, s₁)) :
    mk.Current ws s₁.world (mk.index target) := by
  obtain ⟨⟨forked, world⟩, hfork⟩ : ∃ forked, ws.fork s.world = forked := ⟨_, rfl⟩
  obtain ⟨⟨waited, world₁⟩, hcommand⟩ :
      ∃ ended, ws.command world (mk.target target).command = ended := ⟨_, rfl⟩
  cases forked with
  | false =>
    rw [finishTarget_unforked hmark hfork] at h
    exact absurd (Prod.mk.inj h).1 (by decide)
  | true =>
    rw [finishTarget_ended hmark hfork hcommand] at h
    cases waited with
    | signaled => exact absurd (congrArg Prod.fst hcommand) (hhermetic.ends world target)
    | exited code =>
      by_cases hcode : code = 0
      · subst hcode
        obtain ⟨-, rfl⟩ := Prod.mk.inj h
        have hcurrent := hhermetic.current hself (congrArg Prod.fst hcommand)
        rwa [hcommand] at hcurrent
      · rw [if_pos (by simp [WaitStatus.reportsFailure, hcode])] at h
        exact absurd (Prod.mk.inj h).1 (by decide)

/-- After a run which returns `0`, from a world whose times tell the truth, the requested target is
current. -/
theorem runMake_current (hacyclic : mk.Acyclic) (hhermetic : mk.Hermetic ws) (hdated : mk.Dated ws)
    {depth : ℕ} {world : σ}
    {s : BuildState σ n} (hrun : runMake mk ws.toEnv depth world = some (0, s))
    (htruthful : mk.Truthful ws world) :
    mk.Current ws s.world mk.requested := by
  have heval := build_eval hrun
  have hself : (mk.target .initial).targetName ∉ (mk.target .initial).dependencyNames :=
    hacyclic.not_mem_own mk.found
  have hafter : mk.Truthful ws s.world :=
    heval.invariant (Scope.found_closed mk)
      (stepInvariant_truthful hacyclic hhermetic hdated) mk.found htruthful
  have hkept := heval.invariant (Scope.all_closed mk)
      (stepInvariant_sameTimes mk ws.toFiles _ world) trivial
    fun _ _ => rfl
  cases heval with
  | @call_finish _ _ s₁ s₂ looped _ hloop hlooped hfinish =>
    rcases hloop.body_marks hacyclic rfl with ⟨hmark, -⟩ | ⟨hunmarked, hnone, htrace⟩
    · have hcurrent := finishTarget_current hhermetic hself hmark hfinish
      exact hcurrent
    · -- nothing was executed, and every dependency is older than the file
      rw [finishTarget_unmarked hunmarked] at hfinish
      obtain ⟨-, rfl⟩ := Prod.mk.inj hfinish
      have hsame := hkept (by
        rw [BuildState.record_trace, BuildState.setStatus_trace, commands_append, htrace,
          beginTarget_trace]
        rfl)
      obtain ⟨hdependencies, hnot⟩ := not_or.mp hnone
      have holder : ∀ name ∈ (mk.targets mk.requested).dependencyNames,
          ws.order world name (mk.targets mk.requested).targetName = 2 := by
        intro name hname
        by_contra hne
        exact hnot ⟨name, hname, fun _ _ => rfl, hne⟩
      have holder' : ∀ name ∈ (mk.targets mk.requested).dependencyNames,
          ws.order s₁.world name (mk.targets mk.requested).targetName = 2 := fun name hname =>
        (hsame.order name _).trans (holder name hname)
      refine hafter mk.requested mk.found holder' fun hmissing => ?_
      obtain ⟨name, hname⟩ := List.exists_mem_of_ne_nil _ hdependencies
      exact (Files.exist_of_order (holder' name hname)).2 ((ws.content_none _ _).mp hmissing)

/-- What happens between two looks at the files: an edit of a source, a removal, or an invocation of
`make4061`. -/
inductive WorkStep (n : ℕ)
  | edit (file : CString)
  | remove (file : CString)
  | invoke (requested : Fin n) (result : ℤ)

/-- Edits, removals and invocations in any order, which begin when no file of a target is there. -/
def workSystem (mk : Makefile n) (ws : Workspace σ κ) : TransitionSystem σ (WorkStep n) where
  init world := ∀ i, ws.content world (mk.targets i).targetName = none
  step world label world' := match label with
    | .edit file => findTarget mk.targets file = none ∧ ws.Written world world' file
    | .remove file => ws.Removed world world' file
    | .invoke requested result => ∃ hfound s,
        runMake (mk.requesting requested hfound) ws.toEnv (2 * n + 1) world = some (result, s) ∧
          s.world = world'

/-- Whoever is requested, the commands date the same files. -/
theorem Makefile.Dated.requesting (h : mk.Dated ws) (i : Fin n)
    (hfound : findTarget mk.targets (mk.targets i).targetName = some i) :
    (mk.requesting i hfound).Dated ws where
  fits := h.fits
  writes world target := h.writes world (.entry ((mk.requesting i hfound).index target))
  fails world target := h.fails world (.entry ((mk.requesting i hfound).index target))

/-- Over any edits, removals and invocations, failed ones among them, a file which is newer than all its
dependencies is what its command makes of them, and after an invocation which returns `0` the file of
the requested target is what its command makes of its direct dependencies as they are then. -/
theorem requested_current (hacyclic : mk.Acyclic) (hhermetic : mk.Hermetic ws) (hdated : mk.Dated ws)
    {world : σ} (hreached : (workSystem mk ws).Reachable world) :
    (∀ i, findTarget mk.targets (mk.targets i).targetName = some i →
      (∀ name ∈ (mk.targets i).dependencyNames, ws.order world name (mk.targets i).targetName = 2) →
      ws.content world (mk.targets i).targetName ≠ none → mk.Current ws world i) ∧
    ∀ i world', (workSystem mk ws).step world (.invoke i 0) world' → mk.Current ws world' i := by
  have hinit (start : σ) (hstart : (workSystem mk ws).init start) : mk.Truthful ws start :=
    fun i _ _ hexists => absurd (hstart i) hexists
  have htruthful : mk.Truthful ws world := by
    refine hreached.invariant hinit ?_
    intro s label s' hs hstep
    cases label with
    | edit file => exact hs.edit hdated hstep.1 hstep.2
    | remove file => exact hs.remove hstep
    | invoke requested result =>
      obtain ⟨hfound, final, hmake, rfl⟩ := hstep
      have hsteps := @stepInvariant_truthful n σ κ (mk.requesting requested hfound) ws hacyclic
        (hhermetic.requesting requested hfound) (hdated.requesting requested hfound)
      exact (build_eval hmake).invariant (Scope.found_closed _) hsteps hfound hs
  refine ⟨htruthful, fun i world' hstep => ?_⟩
  obtain ⟨hfound, s, hmake, rfl⟩ := hstep
  exact @runMake_current n σ κ (mk.requesting i hfound) ws hacyclic (hhermetic.requesting i hfound)
    (hdated.requesting i hfound) _ _ _ hmake htruthful

/-- No file is newer than the next one to be written. -/
theorem ToyFiles.age_le {files : List (CString × CString)} {file : CString} {age : ℕ}
    (h : ToyFiles.age files file = some age) : age ≤ min files.length (2 ^ 31 - 1) := by
  induction files with
  | nil => exact absurd h (by simp [ToyFiles.age])
  | cons entry older ih =>
    rw [ToyFiles.age] at h
    rw [List.length_cons]
    split_ifs at h with hname
    · have hage := Option.some.inj h
      omega
    · have hle := ih h
      omega

/-- A file which is put in front of the others is the newest. -/
theorem ToyFiles.written_cons (mk : Makefile n) (world : ToyFiles) (file content : CString)
    (forks : List Bool) :
    mk.concatenating.Written world ⟨(file, content) :: world.files, forks⟩ file := by
  refine ⟨⟨(min world.files.length (2 ^ 31 - 1) : ℕ),
    by simp [Files.time, Makefile.concatenating, ToyFiles.age], ?_⟩, ?_⟩
  · intro other present hpresent
    obtain ⟨age, hage, rfl⟩ := Option.map_eq_some_iff.mp hpresent
    exact_mod_cast ToyFiles.age_le hage
  · intro other hne
    constructor
    · simp [Files.time, Makefile.concatenating, ToyFiles.age, hne.symm]
    · exact (List.lookup_cons).trans (by rw [beq_false_of_ne hne]; rfl)

/-- The commands which concatenate date their files. -/
theorem Makefile.dated_concatenating (mk : Makefile n)
    (hcommands : ∀ i j, (mk.targets i).command = (mk.targets j).command → i = j) :
    mk.Dated mk.concatenating where
  fits world file time htime := by
    obtain ⟨age, hage, rfl⟩ := Option.map_eq_some_iff.mp htime
    have hle := ToyFiles.age_le hage
    omega
  writes world target _ := by
    rw [concatenating_command mk hcommands]
    exact ToyFiles.written_cons mk world _ _ _
  fails world target code hcode hne := by
    rw [concatenating_command mk hcommands] at hcode
    exact absurd (WaitStatus.exited.inj hcode).symm hne

/-- An invocation whose run was computed. -/
theorem workSystem_invoke {world world' : σ} {i : Fin n} {result : ℤ}
    (hfound : findTarget mk.targets (mk.targets i).targetName = some i)
    (h : (runMake (mk.requesting i hfound) ws.toEnv (2 * n + 1) world).map
      (fun run => (run.1, run.2.world)) =
      some (result, world')) : (workSystem mk ws).step world (.invoke i result) world' := by
  obtain ⟨⟨returned, s⟩, hmake, heq⟩ := Option.map_eq_some_iff.mp h
  obtain ⟨rfl, hworld⟩ := Prod.mk.inj heq
  exact ⟨hfound, s, hmake, hworld⟩

/-- After both targets were built and the source was edited, `m` is built again. -/
theorem requested_current_edited :
    ∃ world world', (workSystem twoSteps twoSteps.concatenating).Reachable world ∧
    (workSystem twoSteps twoSteps.concatenating).step world (.invoke 1 0) world' ∧ world'.files =
      [(bytes "m", [8]), (bytes "f", [8]), (bytes "r", [7]), (bytes "m", [7]), (bytes "f", [7])] ∧
    twoSteps.Current twoSteps.concatenating world' 1 := by
  have hacyclic : twoSteps.Acyclic := Makefile.acyclic_of_lt (by decide)
  have hcommands : ∀ i j, (twoSteps.targets i).command = (twoSteps.targets j).command → i = j := by
    decide
  have hstart : (workSystem twoSteps twoSteps.concatenating).Reachable ⟨[(bytes "f", [7])], []⟩ :=
    .of_init (by decide :
      ∀ i, List.lookup (twoSteps.targets i).targetName [(bytes "f", ([7] : CString))] = none)
  have hbuilt : (workSystem twoSteps twoSteps.concatenating).step ⟨[(bytes "f", [7])], []⟩ (.invoke 0 0)
      ⟨[(bytes "r", [7]), (bytes "m", [7]), (bytes "f", [7])], []⟩ := workSystem_invoke (by decide)
      (by decide +kernel)
  have hedited : (workSystem twoSteps twoSteps.concatenating).step
      ⟨[(bytes "r", [7]), (bytes "m", [7]), (bytes "f", [7])], []⟩ (.edit (bytes "f"))
      ⟨[(bytes "f", [8]), (bytes "r", [7]), (bytes "m", [7]), (bytes "f", [7])], []⟩ :=
    ⟨by decide, ToyFiles.written_cons twoSteps ⟨_, []⟩ (bytes "f") [8] []⟩
  have hagain : (workSystem twoSteps twoSteps.concatenating).step
      ⟨[(bytes "f", [8]), (bytes "r", [7]), (bytes "m", [7]), (bytes "f", [7])], []⟩ (.invoke 1 0)
      ⟨[(bytes "m", [8]), (bytes "f", [8]), (bytes "r", [7]), (bytes "m", [7]), (bytes "f", [7])], []⟩ :=
    workSystem_invoke (by decide) (by decide +kernel)
  have hreached := (hstart.snoc hbuilt).snoc hedited
  have hcurrent := requested_current hacyclic (twoSteps.hermetic_concatenating hcommands)
    (twoSteps.dated_concatenating hcommands) hreached
  exact ⟨_, _, hreached, hagain, rfl, hcurrent.2 1 _ hagain⟩

end Csci4061.Make
