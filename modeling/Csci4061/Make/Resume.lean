import Csci4061.Lib.Rules
import Csci4061.Lib.Transition
import Csci4061.Make.Order
import Mathlib.Data.Fintype.Card

/-!
# Interrupted builds

A command which exits with `0` makes the content of the file of its target from the contents of the
dependencies, and a command which fails leaves the files as they are. Then what an acyclic table is for
can be said without `build`: every rule has one value, which the contents of the sources determine.

Starting without any files of targets, and over any number of invocations, failed ones among them, no
file of a target ever holds anything else than this value, as long as `build` passes over no missing
target: one whose dependencies were all finished through others. An invocation which returns `0`
completes its target and everything below it.
-/

namespace Csci4061.Make

open Csci4061.Lib

variable {n : ℕ} {σ κ : Type*} {mk : Makefile n}

/-- Surroundings in which files have contents, and what a command line makes of the contents of the
dependencies. -/
structure Workspace (σ κ : Type*) extends Files σ where
  content : σ → CString → Option κ
  makes : CString → List (Option κ) → κ
  content_none : ∀ world file, content world file = none ↔ (stat world file).1 = none
  content_stat : ∀ world file, content (stat world file).2 = content world
  content_fork : ∀ world, content (fork world).2 = content world

/-- The commands of the table write the files of their own targets, from nothing but the dependencies,
and only if they succeed. None of them is ended by a signal. -/
structure Makefile.Hermetic (mk : Makefile n) (ws : Workspace σ κ) : Prop where
  makes : ∀ world target, (ws.command world (mk.target target).command).1 = .exited 0 →
    ws.content (ws.command world (mk.target target).command).2 =
      Function.update (ws.content world) (mk.target target).targetName
        (some (ws.makes (mk.target target).command
          ((mk.target target).dependencyNames.map (ws.content world))))
  fails : ∀ world target code, (ws.command world (mk.target target).command).1 = .exited code →
    code ≠ 0 → ws.content (ws.command world (mk.target target).command).2 = ws.content world
  ends : ∀ world target, (ws.command world (mk.target target).command).1 ≠ .signaled

/-- The rules of a table. -/
def Makefile.rules (mk : Makefile n) (makes : CString → List (Option κ) → κ) (name : CString) :
    Option (Rule CString κ) :=
  (findTarget mk.targets name).map fun i =>
    ⟨(mk.targets i).dependencyNames, makes (mk.targets i).command⟩

section Rules

variable {makes : CString → List (Option κ) → κ}

/-- The rule of an entry which is found. -/
theorem Makefile.rules_of_found {name : CString} {i : Fin n} (h : findTarget mk.targets name = some i) :
    mk.rules makes name = some ⟨(mk.targets i).dependencyNames, makes (mk.targets i).command⟩ := by
  rw [rules, h, Option.map_some]

/-- A name without an entry has no rule. -/
theorem Makefile.rules_eq_none {name : CString} :
    mk.rules makes name = none ↔ findTarget mk.targets name = none := by
  rw [rules, Option.map_eq_none_iff]

/-- What the rule of an entry needs. -/
theorem Makefile.needs_iff {name needed : CString} :
    Needs (mk.rules makes) needed name ↔
      ∃ i, findTarget mk.targets name = some i ∧ needed ∈ (mk.targets i).dependencyNames := by
  constructor
  · rintro ⟨rule, hrule, hmem⟩
    obtain ⟨i, hfind, rfl⟩ := Option.map_eq_some_iff.mp hrule
    exact ⟨i, hfind, hmem⟩
  · rintro ⟨i, hfind, hmem⟩
    exact ⟨_, rules_of_found hfind, hmem⟩

/-- In an acyclic table no chain of dependencies goes on forever. -/
theorem Makefile.Acyclic.wellFounded_below (hacyclic : mk.Acyclic) : WellFounded (flip mk.Below) := by
  have hfinite : Finite (Fin n) := .intro (Equiv.refl _)
  have htrans : IsTrans (Fin n) (flip mk.Below) := ⟨fun _ _ _ hab hbc => hbc.trans hab⟩
  have hirrefl : Std.Irrefl (flip mk.Below) := ⟨hacyclic⟩
  exact Finite.wellFounded_of_trans_of_irrefl _

/-- The rules of an acyclic table have values. -/
theorem Makefile.Acyclic.wellFounded_needs (hacyclic : mk.Acyclic) :
    WellFounded (Needs (mk.rules makes)) := by
  have hentry : ∀ i name, findTarget mk.targets name = some i → Acc (Needs (mk.rules makes)) name := by
    intro i
    induction i using hacyclic.wellFounded_below.induction with
    | _ i ih =>
      refine fun name hname => .intro name fun needed hneeds => ?_
      obtain ⟨i', hfind, hmem⟩ := Makefile.needs_iff.mp hneeds
      obtain rfl := Option.some.inj (hname.symm.trans hfind)
      cases hneeded : findTarget mk.targets needed with
      | some j => exact ih j (.single ⟨needed, hmem, hneeded⟩) needed hneeded
      | none => exact .intro needed fun _ h => absurd (Makefile.rules_eq_none.mpr hneeded) h.rule_ne_none
  refine ⟨fun name => ?_⟩
  cases hname : findTarget mk.targets name with
  | some i => exact hentry i name hname
  | none => exact .intro name fun _ h => absurd (Makefile.rules_eq_none.mpr hname) h.rule_ne_none

/-- What is below an entry is needed for it, directly or through others. -/
theorem Makefile.Below.needed {i j : Fin n} (h : mk.Below i j)
    (hfound : findTarget mk.targets (mk.targets i).targetName = some i) :
    Relation.ReflTransGen (Needs (mk.rules makes))
    (mk.targets j).targetName (mk.targets i).targetName := by
  induction h with
  | single hedge =>
    obtain ⟨name, hname, hfind⟩ := hedge
    exact .single (Makefile.needs_iff.mpr ⟨i, hfound, findTarget_name hfind ▸ hname⟩)
  | tail hbelow hedge ih =>
    obtain ⟨name, hname, hfind⟩ := hedge
    have hmiddle := Makefile.Below.found hbelow
    exact .head (Makefile.needs_iff.mpr ⟨_, hmiddle, findTarget_name hfind ▸ hname⟩) ih

end Rules

/-- `build` is entered on a target whose file is missing and whose dependencies are all entries which
were visited before. -/
def Makefile.PassedOver (mk : Makefile n) (files : Files σ) : Event σ n → Prop
  | .entered target status world =>
    files.time world (mk.target target).targetName = none ∧ (mk.target target).dependencyNames ≠ [] ∧
      ∀ name ∈ (mk.target target).dependencyNames,
        ∃ i, findTarget mk.targets name = some i ∧ status (.entry i) ≠ .unfinished
  | _ => False

/-- Whether a call passes over its target can be computed. -/
instance (mk : Makefile n) (files : Files σ) : DecidablePred (mk.PassedOver files)
  | .entered target status world => inferInstanceAs (Decidable
      (files.time world (mk.target target).targetName = none ∧ (mk.target target).dependencyNames ≠ [] ∧
        ∀ name ∈ (mk.target target).dependencyNames,
          ∃ i, findTarget mk.targets name = some i ∧ status (.entry i) ≠ .unfinished))
  | .executed _ => isFalse id
  | .returned _ => isFalse id

/-- A missing target which is not passed over is marked. -/
theorem Makefile.marked_of_not_passedOver {files : Files σ} {target : TargetRef n}
    {status : TargetRef n → Status} {world : σ}
    (hmissing : files.time world (mk.target target).targetName = none)
    (hnot : ¬ mk.PassedOver files (.entered target status world)) :
    mk.Marked files target status world := by
  by_contra hunmarked
  obtain ⟨hdependencies, hnone⟩ := not_or.mp hunmarked
  refine hnot ⟨hmissing, hdependencies, fun name hname => ?_⟩
  by_contra hnotfound
  refine hnone ⟨name, hname, fun i hfind => ?_, ?_⟩
  · by_contra hvisited
    exact hnotfound ⟨i, hfind, hvisited⟩
  · rw [Files.order, hmissing]
    simp [compareTimes, fileTime]

/-- Files of which one is reported older exist. -/
theorem Files.exist_of_order {files : Files σ} {world : σ} {file₁ file₂ : CString}
    (h : files.order world file₁ file₂ = 2) :
    files.time world file₁ ≠ none ∧ files.time world file₂ ≠ none := by
  constructor
  · intro hnone
    rw [Files.order, hnone] at h
    simp [compareTimes, fileTime] at h
  · intro hnone
    rw [Files.order, hnone] at h
    simp [compareTimes, fileTime] at h

/-- The entries in progress are the target and entries above it. -/
def BuildState.OpenAbove (mk : Makefile n) (target : TargetRef n) (s : BuildState σ n) : Prop :=
  ∀ i, s.status (.entry i) = .needsBuilding → i = mk.index target ∨ mk.Below i (mk.index target)

section Fill

variable {ws : Workspace σ κ} {value : CString → Option κ}

/-- The file of a name is there, if it is the name of a target. -/
def Workspace.Present (ws : Workspace σ κ) (mk : Makefile n) (world : σ) (name : CString) : Prop :=
  Lib.Present (mk.rules ws.makes) (ws.content world) name

/-- The files hold the values of the rules as far as they are there, and those of finished entries
are. -/
structure Sound (mk : Makefile n) (ws : Workspace σ κ) (value : CString → Option κ)
    (s : BuildState σ n) : Prop where
  filled : Filled (mk.rules ws.makes) value (ws.content s.world)
  finished : ∀ i, s.status (.entry i) = .finished → ws.Present mk s.world (mk.targets i).targetName

/-- Looking at two files leaves the contents. -/
theorem Workspace.content_look (ws : Workspace σ κ) (world : σ) (file₁ file₂ : CString) :
    ws.content (ws.compareModificationTime world file₁ file₂).2 = ws.content world :=
  (ws.content_stat _ file₂).trans (ws.content_stat world file₁)

/-- A file which is there stays there. -/
theorem stepInvariant_present (hhermetic : mk.Hermetic ws) (scope : Scope n) (name : CString) :
    StepInvariant mk ws.toEnv scope fun s => ws.Present mk s.world name where
  setStatus _ _ _ _ _ hs := hs
  look s file₁ file₂ hs := by
    rw [Workspace.Present, BuildState.setWorld_world, ws.content_look]
    exact hs
  fork s hs := by
    rw [Workspace.Present, BuildState.setWorld_world, ws.content_fork]
    exact hs
  enter _ _ _ hs := hs
  execute s target _ _ hs := by
    rw [Workspace.Present, BuildState.record_world, BuildState.setWorld_world]
    cases hcommand : (ws.command s.world (mk.target target).command).1 with
    | signaled => exact absurd hcommand (hhermetic.ends _ _)
    | exited code =>
      by_cases hcode : code = 0
      · rw [hhermetic.makes _ _ (hcode ▸ hcommand)]
        exact Lib.Present.update hs _ _
      · rw [hhermetic.fails _ _ code hcommand hcode]
        exact hs
  leave _ _ _ hs := hs

/-- Another world with the same contents. -/
theorem Sound.setWorld {s : BuildState σ n} (h : Sound mk ws value s) {world : σ}
    (hcontent : ws.content world = ws.content s.world) : Sound mk ws value (s.setWorld world) where
  filled := hcontent ▸ h.filled
  finished i hi := by
    rw [Workspace.Present, BuildState.setWorld_world, hcontent]
    exact h.finished i hi

/-- A target is marked. -/
theorem Sound.mark {s : BuildState σ n} (h : Sound mk ws value s) (target : TargetRef n) :
    Sound mk ws value (s.setStatus target .needsBuilding) where
  filled := h.filled
  finished i hi := by
    by_cases heq : TargetRef.entry i = target
    · rw [heq, BuildState.setStatus_status, Function.update_self] at hi
      exact absurd hi (by decide)
    · rw [BuildState.setStatus_status, Function.update_of_ne heq] at hi
      exact h.finished i hi

/-- A target is finished when its file is there. -/
theorem Sound.finish {s : BuildState σ n} (h : Sound mk ws value s) {target : TargetRef n}
    (hpresent : ws.Present mk s.world (mk.target target).targetName) :
    Sound mk ws value (s.setStatus target .finished) where
  filled := h.filled
  finished i hi := by
    by_cases heq : TargetRef.entry i = target
    · exact heq ▸ hpresent
    · rw [BuildState.setStatus_status, Function.update_of_ne heq] at hi
      exact h.finished i hi

/-- An event. -/
theorem Sound.record {s : BuildState σ n} (h : Sound mk ws value s) (event : Event σ n) :
    Sound mk ws value (s.record event) := ⟨h.filled, h.finished⟩

/-- A pass of the loop leaves the contents. -/
theorem visitDependency_content {target : TargetRef n} {name : CString} {s s₁ : BuildState σ n}
    {dependsOn : Option (Fin n)} (h : visitDependency mk ws.toEnv target name s = (dependsOn, s₁)) :
    ws.content s₁.world = ws.content s.world := by
  obtain ⟨world, hworld, hs₁⟩ := visitDependency_cases h
  have hcontent : ws.content world = ws.content s.world := by
    rcases hworld with rfl | ⟨file₁, file₂, rfl⟩
    · rfl
    · exact ws.content_look s.world file₁ file₂
  rcases hs₁ with rfl | rfl <;> exact hcontent

/-- A pass of the loop marks no other target. -/
theorem visitDependency_status_ne {env : Env σ} {target other : TargetRef n} {name : CString}
    {s s₁ : BuildState σ n} {dependsOn : Option (Fin n)}
    (h : visitDependency mk env target name s = (dependsOn, s₁)) (hne : other ≠ target) :
    s₁.status other = s.status other := by
  obtain ⟨world, -, rfl | rfl⟩ := visitDependency_cases h
  · rfl
  · rw [BuildState.setStatus_status, Function.update_of_ne hne]
    rfl

/-- A pass of the loop keeps the files sound. -/
theorem Sound.visit {target : TargetRef n} {name : CString} {s s₁ : BuildState σ n}
    {dependsOn : Option (Fin n)} (hs : Sound mk ws value s)
    (h : visitDependency mk ws.toEnv target name s = (dependsOn, s₁)) :
    Sound mk ws value s₁ := by
  have hcontent := visitDependency_content h
  obtain ⟨world, -, rfl | rfl⟩ := visitDependency_cases h
  · exact hs.setWorld hcontent
  · exact (hs.setWorld hcontent).mark target

/-- The name which a pass of the loop leaves without a call is there: it is a source, or its entry was
finished before, or its file exists because it is reported older. -/
theorem Sound.present_of_pass (hacyclic : mk.Acyclic) {target : TargetRef n} {name : CString}
    {s s₁ : BuildState σ n} (hs : Sound mk ws value s) (hopen : s.OpenAbove mk target)
    (hname : name ∈ (mk.target target).dependencyNames)
    (h : visitDependency mk ws.toEnv target name s = (none, s₁)) : ws.Present mk s.world name := by
  cases hfind : findTarget mk.targets name with
  | none => exact Or.inl (Makefile.rules_eq_none.mpr hfind)
  | some i =>
    have hi := findTarget_name hfind
    have hedge : mk.Edge (mk.index target) i := ⟨name, hname, hfind⟩
    rcases visitDependency_settles h hfind with hvisited | hcalled | ⟨-, holder⟩
    · cases hstatus : s.status (.entry i) with
      | unfinished => exact absurd hstatus hvisited
      | finished => exact hi ▸ hs.finished i hstatus
      | needsBuilding =>
        -- an entry in progress is above the target, so it is no dependency
        rcases hopen i hstatus with rfl | habove
        · exact absurd (.single hedge) (hacyclic _)
        · exact absurd habove (hacyclic.not_below hedge)
    · exact absurd hcalled (by simp)
    · rw [ws.compareModificationTime_fst, hi] at holder
      exact Or.inr fun hnone => (Files.exist_of_order holder).1 ((ws.content_none _ _).mp hnone)

/-- The entries in progress after a pass of the loop. -/
theorem BuildState.OpenAbove.visit {env : Env σ} {target : TargetRef n} {name : CString}
    {s s₁ : BuildState σ n} {dependsOn : Option (Fin n)} (hopen : s.OpenAbove mk target)
    (h : visitDependency mk env target name s = (dependsOn, s₁)) : s₁.OpenAbove mk target := by
  intro i hi
  by_cases heq : TargetRef.entry i = target
  · exact Or.inl (congrArg mk.index heq)
  · exact hopen i ((visitDependency_status_ne h heq).symm.trans hi)

/-- The entries in progress, seen from a direct dependency. -/
theorem BuildState.OpenAbove.callee {target : TargetRef n} {s : BuildState σ n} {i : Fin n}
    (hopen : s.OpenAbove mk target) (hedge : mk.Edge (mk.index target) i) :
    s.OpenAbove mk (.entry i) := by
  intro j hj
  rcases hopen j hj with rfl | habove
  · exact Or.inr (.single hedge)
  · exact Or.inr (habove.tail hedge)

/-- The entries in progress when the loop of a target begins. -/
theorem BuildState.OpenAbove.begin {target : TargetRef n} {s : BuildState σ n}
    (hopen : s.OpenAbove mk target) :
    (beginTarget mk target s).OpenAbove mk target := by
  intro i hi
  by_cases heq : TargetRef.entry i = target
  · exact Or.inl (congrArg mk.index heq)
  · refine hopen i ?_
    cases beginTarget_cases mk target s with
    | inl hbegin => rwa [hbegin] at hi
    | inr hbegin => rwa [hbegin, BuildState.setStatus_status, Function.update_of_ne heq] at hi

/-- The files are sound when the loop of a target begins. -/
theorem Sound.begin {s : BuildState σ n} (h : Sound mk ws value s) (target : TargetRef n) :
    Sound mk ws value (beginTarget mk target s) := by
  cases beginTarget_cases mk target s with
  | inl hbegin => exact hbegin ▸ h.record _
  | inr hbegin => exact hbegin ▸ (h.record _).mark target

/-- What a call leaves behind if it does not fail: nothing more is in progress than before, and not its
target, whose file is there. -/
structure Completes (mk : Makefile n) (ws : Workspace σ κ) (value : CString → Option κ)
    (target : TargetRef n) (s s' : BuildState σ n) : Prop where
  sound : Sound mk ws value s'
  progress : ∀ i, s'.status (.entry i) = .needsBuilding → s.status (.entry i) = .needsBuilding ∧
    .entry i ≠ target
  present : ws.Present mk s'.world (mk.target target).targetName

/-- The command of a target whose dependencies are there writes the value of its rule. -/
theorem Sound.execute (hhermetic : mk.Hermetic ws)
    (hvalue : ∀ name rule, mk.rules ws.makes name = some rule →
      value name = some (rule.makes (rule.needs.map value)))
    {target : TargetRef n}
    (hfound : findTarget mk.targets (mk.target target).targetName = some (mk.index target))
    {s : BuildState σ n} {world : σ} (hs : Sound mk ws value s)
    (hdependencies : ∀ name ∈ (mk.target target).dependencyNames, ws.Present mk s.world name)
    (hcommand : ws.command s.world (mk.target target).command = (.exited 0, world)) :
    Sound mk ws value ((s.setWorld world).record (.executed target)) ∧
      ws.Present mk world (mk.target target).targetName := by
  have hwritten := hhermetic.makes s.world target (congrArg Prod.fst hcommand)
  rw [hcommand] at hwritten
  refine ⟨⟨?_, fun i hi => ?_⟩, Or.inr ?_⟩
  · rw [BuildState.record_world, BuildState.setWorld_world, hwritten]
    exact hs.filled.update hvalue (Makefile.rules_of_found hfound) hdependencies
  · rw [Workspace.Present, BuildState.record_world, BuildState.setWorld_world, hwritten]
    exact Lib.Present.update (hs.finished i hi) _ _
  · rw [hwritten, Function.update_self]
    exact Option.some_ne_none _

/-- The end of a call whose dependencies are there. -/
theorem Sound.finishTarget (hhermetic : mk.Hermetic ws)
    (hvalue : ∀ name rule, mk.rules ws.makes name = some rule →
      value name = some (rule.makes (rule.needs.map value)))
    {target : TargetRef n}
    (hfound : findTarget mk.targets (mk.target target).targetName = some (mk.index target))
    {s s₁ : BuildState σ n} {result : ℤ} (hs : Sound mk ws value s)
    (hdependencies : ∀ name ∈ (mk.target target).dependencyNames, ws.Present mk s.world name)
    (hpresent : s.status target ≠ .needsBuilding → ws.Present mk s.world (mk.target target).targetName)
    (h : finishTarget mk ws.toEnv target s = (result, s₁)) :
    Filled (mk.rules ws.makes) value (ws.content s₁.world) ∧
      (result ≠ -1 → Sound mk ws value s₁ ∧ ws.Present mk s₁.world (mk.target target).targetName ∧
        s₁.status = Function.update s.status target .finished) := by
  by_cases hmark : s.status target = .needsBuilding
  · obtain ⟨⟨forked, world⟩, hfork⟩ : ∃ forked, ws.fork s.world = forked := ⟨_, rfl⟩
    obtain ⟨⟨waited, world₁⟩, hcommand⟩ :
        ∃ ended, ws.command world (mk.target target).command = ended := ⟨_, rfl⟩
    have hcontent : ws.content world = ws.content s.world := by
      have hkeeps := ws.content_fork s.world
      rwa [hfork] at hkeeps
    have hforked := hs.setWorld hcontent
    cases forked with
    | false =>
      rw [finishTarget_unforked hmark hfork] at h
      obtain ⟨rfl, rfl⟩ := Prod.mk.inj h
      exact ⟨hforked.filled, fun hne => absurd rfl hne⟩
    | true =>
      rw [finishTarget_ended hmark hfork hcommand] at h
      cases waited with
      | signaled => exact absurd (congrArg Prod.fst hcommand) (hhermetic.ends world target)
      | exited code =>
        by_cases hcode : code = 0
        · subst hcode
          obtain ⟨rfl, rfl⟩ := Prod.mk.inj h
          have hdependencies' :
              ∀ name ∈ (mk.target target).dependencyNames, ws.Present mk world name := by
            simp only [Workspace.Present, hcontent]
            exact hdependencies
          obtain ⟨hsound, hown⟩ := hforked.execute hhermetic hvalue hfound hdependencies' hcommand
          exact ⟨hsound.filled, fun _ => ⟨hsound.finish hown, hown, rfl⟩⟩
        · rw [if_pos (by simp [WaitStatus.reportsFailure, hcode])] at h
          obtain ⟨rfl, rfl⟩ := Prod.mk.inj h
          have hkept := hhermetic.fails world target code (congrArg Prod.fst hcommand) hcode
          rw [hcommand] at hkept
          exact ⟨(hs.setWorld (hkept.trans hcontent)).filled, fun hne => absurd rfl hne⟩
  · rw [finishTarget_unmarked hmark] at h
    obtain ⟨rfl, rfl⟩ := Prod.mk.inj h
    exact ⟨hs.filled, fun _ => ⟨hs.finish (hpresent hmark), hpresent hmark, rfl⟩⟩

/-- What a task starts from, apart from sound files. -/
def Task.Prepared (mk : Makefile n) (s : BuildState σ n) : Task n → Prop
  | .call target => s.OpenAbove mk target ∧ s.status target = .unfinished ∧
      findTarget mk.targets (mk.target target).targetName = some (mk.index target)
  | .loop target names => s.OpenAbove mk target ∧ names ⊆ (mk.target target).dependencyNames

/-- What a task which does not fail leaves behind. A loop leaves nothing more in progress than its
target, and the names which it went over are there. -/
def Task.Completes (mk : Makefile n) (ws : Workspace σ κ) (value : CString → Option κ)
    (s s' : BuildState σ n) :
    Task n → Prop
  | .call target => Make.Completes mk ws value target s s'
  | .loop target names => Sound mk ws value s' ∧ s'.OpenAbove mk target ∧
      (∀ i, s'.status (.entry i) = .needsBuilding → s.status (.entry i) = .needsBuilding ∨
        .entry i = target) ∧
      ∀ name ∈ names, ws.Present mk s'.world name

/-- No missing target is passed over. -/
def Makefile.PassesOverNone (mk : Makefile n) (files : Files σ) (trace : List (Event σ n)) : Prop :=
  ∀ event ∈ trace, ¬ mk.PassedOver files event

/-- After a call on a direct dependency the entries in progress are those from before. -/
theorem Completes.openAbove {target : TargetRef n} {i : Fin n} {s s' : BuildState σ n}
    (h : Completes mk ws value (.entry i) s s') (hopen : s.OpenAbove mk target) :
    s'.OpenAbove mk target :=
  fun j hj => hopen j (h.progress j hj).1

/-- A pass of the loop brings at most its target into progress. -/
theorem visit_progress {env : Env σ} {target : TargetRef n} {name : CString} {s s₁ : BuildState σ n}
    {dependsOn : Option (Fin n)} (h : visitDependency mk env target name s = (dependsOn, s₁)) (i : Fin n)
    (hi : s₁.status (.entry i) = .needsBuilding) :
    s.status (.entry i) = .needsBuilding ∨ .entry i = target := by
  by_cases heq : TargetRef.entry i = target
  · exact Or.inr heq
  · exact Or.inl ((visitDependency_status_ne h heq).symm.trans hi)

/-- The beginning of a call brings at most its target into progress. -/
theorem begin_progress {target other : TargetRef n} {s : BuildState σ n}
    (hi : (beginTarget mk target s).status other = .needsBuilding) (hne : other ≠ target) :
    s.status other = .needsBuilding := by
  cases beginTarget_cases mk target s with
  | inl hbegin => rwa [hbegin] at hi
  | inr hbegin => rwa [hbegin, BuildState.setStatus_status, Function.update_of_ne hne] at hi

/-- A target which its loop does not mark was there already. -/
theorem Eval.present_of_unmarked (hacyclic : mk.Acyclic) (hhermetic : mk.Hermetic ws)
    {target : TargetRef n} {s s₁ : BuildState σ n} {looped : ℤ}
    (h : Eval mk ws.toEnv (.loop target (mk.target target).dependencyNames)
      (beginTarget mk target s) looped s₁)
    (hunfinished : s.status target = .unfinished) (hnone : mk.PassesOverNone ws.toFiles s₁.trace)
    (hunmarked : s₁.status target ≠ .needsBuilding) :
    ws.Present mk s₁.world (mk.target target).targetName := by
  have hmarked := (h.body_marks hacyclic hunfinished).resolve_left fun hmarks => hunmarked hmarks.1
  have hentered : .entered target s.status s.world ∈ s₁.trace := by
    apply h.trace_subset ⟨trivial, List.Subset.refl _⟩
    rw [beginTarget_trace]
    exact List.mem_append_right _ List.mem_cons_self
  have hbefore : ws.Present mk s.world (mk.target target).targetName := by
    refine Or.inr fun hmissing => hmarked.2.1 ?_
    exact Makefile.marked_of_not_passedOver ((ws.content_none _ _).mp hmissing) (hnone _ hentered)
  have hkeeps := stepInvariant_present hhermetic (Scope.all n) (mk.target target).targetName
  exact h.invariant (Scope.all_closed mk) hkeeps ⟨trivial, List.Subset.refl _⟩
    (hkeeps.begin trivial hbefore)

/-- Every evaluation leaves files which hold the values of the rules as far as they are there, and one
which does not fail completes its task. -/
theorem Eval.fills (hacyclic : mk.Acyclic) (hhermetic : mk.Hermetic ws)
    (hvalue : ∀ name rule, mk.rules ws.makes name = some rule →
      value name = some (rule.makes (rule.needs.map value)))
    {task : Task n} {s s' : BuildState σ n} {result : ℤ} (h : Eval mk ws.toEnv task s result s')
    (hs : Sound mk ws value s) (hprepared : task.Prepared mk s)
    (hnone : mk.PassesOverNone ws.toFiles s'.trace) :
    Filled (mk.rules ws.makes) value (ws.content s'.world) ∧
    (result ≠ -1 → task.Completes mk ws value s s') := by
  induction h with
  | loop_nil =>
    exact ⟨hs.filled, fun _ => ⟨hs, hprepared.1, fun _ => Or.inl, fun name hname =>
      absurd hname List.not_mem_nil⟩⟩
  | @loop_pass target name names s s₁ s' result hvisit hloop ih =>
    obtain ⟨hopen, hnames⟩ := hprepared
    obtain ⟨hname, hrest⟩ := List.cons_subset.mp hnames
    obtain ⟨hfilled, hcompletes⟩ := ih (hs.visit hvisit) ⟨hopen.visit hvisit, hrest⟩ hnone
    refine ⟨hfilled, fun hresult => ?_⟩
    obtain ⟨hsound, hopen', hprogress, hpresent⟩ := hcompletes hresult
    refine ⟨hsound, hopen', fun i hi => ?_, List.forall_mem_cons.mpr ⟨?_, hpresent⟩⟩
    · exact (hprogress i hi).elim (visit_progress hvisit i) Or.inr
    · have hpass := hs.present_of_pass hacyclic hopen hname hvisit
      have hkeeps := stepInvariant_present hhermetic (Scope.all n) name
      exact hloop.invariant (Scope.all_closed mk) hkeeps ⟨trivial, hrest⟩
        (hkeeps.visit trivial hvisit hpass)
  | @loop_call target name names i s s₁ s₂ s' called result hvisit hcall hcalled hloop ihcall ihloop =>
    obtain ⟨hopen, hnames⟩ := hprepared
    obtain ⟨hname, hrest⟩ := List.cons_subset.mp hnames
    have hedge := visitDependency_edge hname hvisit
    have hfound := findTarget_self (visitDependency_some hvisit).1
    have hcallee := (hopen.visit hvisit).callee hedge
    have hquiet : mk.PassesOverNone ws.toFiles s₂.trace := fun event hmem =>
      hnone event (hloop.trace_subset ⟨trivial, hrest⟩ hmem)
    obtain ⟨-, hcompleted⟩ := ihcall (hs.visit hvisit)
      ⟨hcallee, visitDependency_unfinished hacyclic hname hvisit, hfound⟩ hquiet
    have hcompletes := hcompleted hcalled
    obtain ⟨hfilled, hrestCompletes⟩ := ihloop hcompletes.sound
        ⟨hcompletes.openAbove (hopen.visit hvisit), hrest⟩ hnone
    refine ⟨hfilled, fun hresult => ?_⟩
    obtain ⟨hsound, hopen', hprogress, hpresent⟩ := hrestCompletes hresult
    refine ⟨hsound, hopen', fun j hj => ?_, List.forall_mem_cons.mpr ⟨?_, hpresent⟩⟩
    · exact (hprogress j hj).elim
        (fun hbefore => visit_progress hvisit j (hcompletes.progress j hbefore).1) Or.inr
    · have hbuilt : ws.Present mk s₂.world name := findTarget_name (visitDependency_some hvisit).1 ▸
          hcompletes.present
      exact hloop.invariant (Scope.all_closed mk) (stepInvariant_present hhermetic (Scope.all n) name)
        ⟨trivial, hrest⟩
        hbuilt
  | loop_fail hvisit hcall ihcall =>
    obtain ⟨hopen, hnames⟩ := hprepared
    have hname := (List.cons_subset.mp hnames).1
    have hcallee := (hopen.visit hvisit).callee (visitDependency_edge hname hvisit)
    have hfound := findTarget_self (visitDependency_some hvisit).1
    exact ⟨(ihcall (hs.visit hvisit) ⟨hcallee, visitDependency_unfinished hacyclic hname hvisit,
      hfound⟩ hnone).1, fun hresult => absurd rfl hresult⟩
  | @call_finish target s s₁ s₂ looped result hloop hlooped hfinish ih =>
    obtain ⟨hopen, hunfinished, hfound⟩ := hprepared
    have htrace : s₁.trace ⊆ (s₂.record (.returned target)).trace := by
      intro event hmem
      refine List.mem_append_left _ ?_
      rcases finishTarget_trace hfinish with heq | heq
      · exact heq ▸ hmem
      · exact heq ▸ List.mem_append_left _ hmem
    have hquiet : mk.PassesOverNone ws.toFiles s₁.trace := fun event hmem => hnone event (htrace hmem)
    obtain ⟨-, hlooped'⟩ := ih (hs.begin target) ⟨hopen.begin, List.Subset.refl _⟩ hquiet
    obtain ⟨hsound, -, hprogress, hpresent⟩ := hlooped' hlooped
    have hown : s₁.status target ≠ .needsBuilding →
        ws.Present mk s₁.world (mk.target target).targetName :=
      fun hunmarked => hloop.present_of_unmarked hacyclic hhermetic hunfinished hquiet hunmarked
    obtain ⟨hfilled, hfinished⟩ := hsound.finishTarget hhermetic hvalue hfound hpresent hown hfinish
    refine ⟨hfilled, fun hresult => ?_⟩
    obtain ⟨hsound', hpresent', hstatus⟩ := hfinished hresult
    refine ⟨hsound'.record _, fun i hi => ?_, hpresent'⟩
    have hne : TargetRef.entry i ≠ target := by
      rintro rfl
      rw [BuildState.record_status, hstatus, Function.update_self] at hi
      exact absurd hi (by decide)
    rw [BuildState.record_status, hstatus, Function.update_of_ne hne] at hi
    exact ⟨begin_progress (((hprogress i hi).resolve_right hne)) hne, hne⟩
  | @call_fail target s s₁ hloop ih =>
    have hquiet : mk.PassesOverNone ws.toFiles s₁.trace := fun event hmem =>
      hnone event (List.mem_append_left _ hmem)
    exact ⟨(ih (hs.begin target) ⟨hprepared.1.begin, List.Subset.refl _⟩ hquiet).1, fun hresult =>
      absurd rfl hresult⟩

/-- After a run from sound files they are sound, and if it returns `0` the requested target is there. -/
theorem runMake_fills (hacyclic : mk.Acyclic) (hhermetic : mk.Hermetic ws)
    (hvalue : ∀ name rule, mk.rules ws.makes name = some rule →
      value name = some (rule.makes (rule.needs.map value)))
    {depth : ℕ} {world : σ} {s : BuildState σ n} {result : ℤ}
    (hrun : runMake mk ws.toEnv depth world = some (result, s))
    (hnone : mk.PassesOverNone ws.toFiles s.trace)
    (hfilled : Filled (mk.rules ws.makes) value (ws.content world)) :
    Filled (mk.rules ws.makes) value (ws.content s.world) ∧
      (result = 0 → ws.Present mk s.world (mk.target .initial).targetName) := by
  have hstart : Sound mk ws value (.start world) :=
    ⟨hfilled, fun _ hfinished => absurd hfinished (by simp [BuildState.start])⟩
  have hopen : (BuildState.start world : BuildState σ n).OpenAbove mk .initial := fun _ hmark =>
    absurd hmark (by simp [BuildState.start])
  obtain ⟨hfilled', hcompletes⟩ := (build_eval hrun).fills hacyclic hhermetic hvalue hstart
      ⟨hopen, rfl, mk.found⟩ hnone
  refine ⟨hfilled', fun hresult => ?_⟩
  subst hresult
  exact (hcompletes (by decide)).present

end Fill

/-- The same table with another requested target. -/
def Makefile.requesting (mk : Makefile n) (i : Fin n)
    (hfound : findTarget mk.targets (mk.targets i).targetName = some i) : Makefile n :=
  { mk with requested := i, found := hfound }

/-- An invocation of `make4061`, with what `build` returned. -/
structure Invocation (n : ℕ) where
  requested : Fin n
  result : ℤ

/-- Invocations one after the other, which begin when no file of a target is there and do not pass over
missing targets. -/
def sessionSystem (mk : Makefile n) (ws : Workspace σ κ) : TransitionSystem σ (Invocation n) where
  init world := ∀ i, ws.content world (mk.targets i).targetName = none
  step world invocation world' :=
    ∃ hfound s, runMake (mk.requesting invocation.requested hfound) ws.toEnv (2 * n + 1) world =
        some (invocation.result, s) ∧ s.world = world' ∧
      (mk.requesting invocation.requested hfound).PassesOverNone ws.toFiles s.trace

/-- The content which an acyclic table gives to every file, for the contents of its sources. -/
noncomputable def Makefile.denotation (mk : Makefile n) (hacyclic : mk.Acyclic)
    (makes : CString → List (Option κ) → κ) (source : CString → Option κ) : CString → Option κ :=
  ruleValue (mk.rules makes) hacyclic.wellFounded_needs source

/-- The commands of a table are the same whatever is requested. -/
theorem Makefile.Hermetic.requesting {ws : Workspace σ κ} (h : mk.Hermetic ws) (i : Fin n)
    (hfound : findTarget mk.targets (mk.targets i).targetName = some i) :
    (mk.requesting i hfound).Hermetic ws where
  makes world target := h.makes world (.entry ((mk.requesting i hfound).index target))
  fails world target := h.fails world (.entry ((mk.requesting i hfound).index target))
  ends world target := h.ends world (.entry ((mk.requesting i hfound).index target))

/-- Over any invocations, failed ones among them, a file holds nothing else than the content which the
table gives to it, for the contents which the sources had at the start. What an invocation which
returned `0` was requested to build is there, with everything below it. -/
theorem invocations_denote (hacyclic : mk.Acyclic) {ws : Workspace σ κ} (hhermetic : mk.Hermetic ws)
    {start world : σ} {invocations : List (Invocation n)} (hstart : (sessionSystem mk ws).init start)
    (hrun : (sessionSystem mk ws).Run start invocations world) :
    (∀ name, ws.content world name = none ∨
      ws.content world name = mk.denotation hacyclic ws.makes (ws.content start) name) ∧
    ∀ invocation ∈ invocations, invocation.result = 0 → ∀ i, i = invocation.requested ∨
    mk.Below invocation.requested i →
      ws.content world (mk.targets i).targetName ≠ none ∧ ws.content world (mk.targets i).targetName =
        mk.denotation hacyclic ws.makes (ws.content start) (mk.targets i).targetName := by
  let value := mk.denotation hacyclic ws.makes (ws.content start)
  have hvalue : ∀ name rule, mk.rules ws.makes name = some rule →
      value name = some (rule.makes (rule.needs.map value)) :=
    fun _ _ hrule => ruleValue_rule hrule
  have hinvariant : Filled (mk.rules ws.makes) value (ws.content world) ∧ ∀ invocation ∈ invocations,
      invocation.result = 0 → findTarget mk.targets (mk.targets invocation.requested).targetName =
        some invocation.requested ∧
          ws.Present mk world (mk.targets invocation.requested).targetName := by
    induction hrun with
    | nil =>
      refine ⟨filled_sources hacyclic.wellFounded_needs fun name hname => ?_,
        fun _ h => absurd h List.not_mem_nil⟩
      obtain ⟨i, hfind⟩ := Option.ne_none_iff_exists'.mp (mt Makefile.rules_eq_none.mpr hname)
      exact findTarget_name hfind ▸ hstart i
    | @snoc invocations world world' last _ hlast ih =>
      obtain ⟨hfilled, hdone⟩ := ih
      obtain ⟨hfound, s, hmake, rfl, hnone⟩ := hlast
      have hhermetic' := hhermetic.requesting last.requested hfound
      obtain ⟨hfilled', hpresent⟩ := @runMake_fills n σ κ
          (mk.requesting last.requested hfound) ws value hacyclic
        hhermetic' hvalue _ _ _ _ hmake hnone hfilled
      refine ⟨hfilled', List.forall_mem_append.mpr ⟨fun invocation hmem hresult => ?_, ?_⟩⟩
      · obtain ⟨hfound', hbefore⟩ := hdone invocation hmem hresult
        have hkeeps := stepInvariant_present hhermetic' (Scope.all n)
            (mk.targets invocation.requested).targetName
        exact ⟨hfound', (build_eval hmake).invariant (Scope.all_closed _) hkeeps trivial hbefore⟩
      · exact List.forall_mem_singleton.mpr fun hresult => ⟨hfound, hpresent hresult⟩
  obtain ⟨hfilled, hdone⟩ := hinvariant
  refine ⟨fun name => ?_, fun invocation hmem hresult i hi => ?_⟩
  · by_cases hname : ws.content world name = none
    · exact Or.inl hname
    · exact Or.inr (hfilled.value_of_present name (Or.inr hname))
  · obtain ⟨hfound, hpresent⟩ := hdone invocation hmem hresult
    have hthere : ws.Present mk world (mk.targets i).targetName := by
      rcases hi with rfl | hbelow
      · exact hpresent
      · exact hfilled.present_of_below (hbelow.needed hfound) hpresent
    have hself : findTarget mk.targets (mk.targets i).targetName = some i := by
      rcases hi with rfl | hbelow
      · exact hfound
      · exact hbelow.found
    exact ⟨hthere.resolve_left fun hrule => absurd (hself.symm.trans (Makefile.rules_eq_none.mp hrule))
      (by simp), hfilled.value_of_present _ hthere⟩

/-- Files with their contents, the newest first, and the outcomes of `fork` to come. -/
structure ToyFiles where
  files : List (CString × CString)
  forks : List Bool
  deriving DecidableEq

/-- The number of files which are older than a file, up to the greatest `int`. -/
def ToyFiles.age : List (CString × CString) → CString → Option ℕ
  | [], _ => none
  | (name, _) :: older, file =>
    if name = file then some (min older.length (2 ^ 31 - 1)) else age older file

/-- A file which has an age is one which can be looked up. -/
theorem ToyFiles.age_eq_none (files : List (CString × CString)) (file : CString) :
    List.lookup file files = none ↔ age files file = none := by
  induction files with
  | nil => exact iff_of_true rfl rfl
  | cons entry older ih =>
    obtain ⟨name, content⟩ := entry
    by_cases heq : file = name
    · simp [age, heq]
    · rw [age, if_neg (Ne.symm heq), ← ih, List.lookup_cons, beq_false_of_ne heq]

/-- The commands of a table concatenate the files which their targets depend on. -/
def Makefile.concatenating (mk : Makefile n) : Workspace ToyFiles CString where
  stat world file := ((ToyFiles.age world.files file).map Nat.cast, world)
  fork world := (world.forks.headD true, { world with forks := world.forks.tail })
  command world command :=
    match (List.finRange n).find? fun i => (mk.targets i).command = command with
    | some i =>
      let content := (mk.targets i).dependencyNames.flatMap fun name =>
          (List.lookup name world.files).getD []
      (.exited 0, { world with files := ((mk.targets i).targetName, content) :: world.files })
    | none => (.exited 127, world)
  stat_stat _ _ _ := rfl
  stat_fork _ _ := rfl
  content world file := List.lookup file world.files
  makes _ contents := contents.flatMap fun content => content.getD []
  content_none world file := (ToyFiles.age_eq_none world.files file).trans Option.map_eq_none_iff.symm
  content_stat _ _ := rfl
  content_fork _ := rfl

/-- If the command lines differ, each of them writes the file of its own target. -/
theorem Makefile.concatenating_command (mk : Makefile n)
    (hcommands : ∀ i j, (mk.targets i).command = (mk.targets j).command → i = j) (world : ToyFiles)
    (target : TargetRef n) : mk.concatenating.command world (mk.target target).command =
      (.exited 0, { world with
        files := ((mk.target target).targetName, (mk.target target).dependencyNames.flatMap
          fun name => (List.lookup name world.files).getD []) :: world.files }) := by
  have hfind : (List.finRange n).find? (fun j => (mk.targets j).command = (mk.target target).command) =
      some (mk.index target) := by
    cases hfound : (List.finRange n).find? fun j =>
      (mk.targets j).command = (mk.target target).command with
    | none =>
      have hnot := List.find?_eq_none.mp hfound (mk.index target) (List.mem_finRange _)
      exact absurd rfl (of_decide_eq_false (Bool.eq_false_iff.mpr hnot))
    | some j =>
      have hsame : (mk.targets j).command = (mk.target target).command := by
        simpa using List.find?_some hfound
      exact congrArg some (hcommands j _ hsame)
  simp only [concatenating, hfind]
  rfl

/-- If the command lines differ, the commands are hermetic. -/
theorem Makefile.hermetic_concatenating (mk : Makefile n)
    (hcommands : ∀ i j, (mk.targets i).command = (mk.targets j).command → i = j) :
    mk.Hermetic mk.concatenating where
  makes world target _ := by
    rw [concatenating_command mk hcommands]
    funext file
    by_cases heq : file = (mk.target target).targetName
    · rw [heq, Function.update_self]
      refine List.lookup_cons_self.trans (congrArg some ?_)
      simp only [concatenating, List.flatMap_map]
    · rw [Function.update_of_ne heq]
      exact List.lookup_cons.trans (by rw [beq_false_of_ne heq]; rfl)
  fails world target code hcode hne := by
    rw [concatenating_command mk hcommands] at hcode
    exact absurd (WaitStatus.exited.inj hcode).symm hne
  ends world target := by
    rw [concatenating_command mk hcommands]
    exact WaitStatus.noConfusion

/-- A target which is made from another one, which is made from a file. -/
def twoSteps : Makefile 2 where
  targets i := [⟨bytes "r", [bytes "m"], bytes "cat m"⟩, ⟨bytes "m", [bytes "f"], bytes "cat f"⟩].getD i
    ⟨[], [], []⟩
  requested := ⟨0, Nat.zero_lt_two⟩
  found := by decide

/-- An invocation whose run was computed. -/
theorem sessionSystem_step {ws : Workspace σ κ} {world world' : σ} {i : Fin n} {result : ℤ}
    (hfound : findTarget mk.targets (mk.targets i).targetName = some i)
    (h : (runMake (mk.requesting i hfound) ws.toEnv (2 * n + 1) world).map
      (fun run => (run.1, run.2.world,
      decide (∀ event ∈ run.2.trace, ¬ (mk.requesting i hfound).PassedOver ws.toFiles event))) =
        some (result, world', true)) : (sessionSystem mk ws).step world ⟨i, result⟩ world' := by
  obtain ⟨⟨returned, s⟩, hmake, heq⟩ := Option.map_eq_some_iff.mp h
  obtain ⟨rfl, hrest⟩ := Prod.mk.inj heq
  obtain ⟨hworld, hnone⟩ := Prod.mk.inj hrest
  have hall : ∀ event ∈ s.trace, ¬ (mk.requesting i hfound).PassedOver ws.toFiles event :=
    of_decide_eq_true hnone
  exact ⟨hfound, s, hmake, hworld, hall⟩

/-- The first invocation makes `m` and fails, the second one makes `r`. -/
theorem invocations_denote_interrupted : ∃ world, ∃ hacyclic : twoSteps.Acyclic,
    (sessionSystem twoSteps twoSteps.concatenating).Run ⟨[(bytes "f", [7])], [true, false]⟩ [⟨0, -1⟩,
      ⟨0, 0⟩] world ∧
    List.lookup (bytes "r") world.files ≠ none ∧ List.lookup (bytes "r") world.files =
      twoSteps.denotation hacyclic twoSteps.concatenating.makes
        (fun file => List.lookup file [(bytes "f", [7])])
        (bytes "r") := by
  have hacyclic : twoSteps.Acyclic := Makefile.acyclic_of_lt (by decide)
  have hhermetic := twoSteps.hermetic_concatenating (by decide)
  have hfirst : (sessionSystem twoSteps twoSteps.concatenating).step
      ⟨[(bytes "f", [7])], [true, false]⟩ ⟨0, -1⟩ ⟨[(bytes "m", [7]), (bytes "f", [7])], []⟩ := sessionSystem_step (by decide) (by decide +kernel)
  have hsecond : (sessionSystem twoSteps twoSteps.concatenating).step
      ⟨[(bytes "m", [7]), (bytes "f", [7])], []⟩ ⟨0, 0⟩
      ⟨[(bytes "r", [7]), (bytes "m", [7]), (bytes "f", [7])], []⟩ :=
    sessionSystem_step (by decide) (by decide +kernel)
  have hrun := (TransitionSystem.Run.nil.snoc hfirst).snoc hsecond
  have hstart :
      (sessionSystem twoSteps twoSteps.concatenating).init ⟨[(bytes "f", [7])], [true, false]⟩ :=
    (by decide : ∀ i, List.lookup (twoSteps.targets i).targetName [(bytes "f", ([7] : CString))] = none)
  have hdenotes := invocations_denote hacyclic hhermetic hstart hrun
  exact ⟨_, hacyclic, hrun, hdenotes.2 ⟨0, 0⟩ (by simp) rfl 0 (Or.inl rfl)⟩

end Csci4061.Make
