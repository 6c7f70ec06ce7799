import Csci4061.Make.Evaluation
import Mathlib.Data.Fintype.Card

/-!
# Termination of build

There is no set of visited targets, so termination rests on the statuses. A call on an entry is
made while the entry is `UNFINISHED`, and before any call the calling target is marked. So either
fewer entries are `UNFINISHED` below a call, or it is made on behalf of a target which was visited
before, and then the next call is not.

An entry which does not list itself is never entered while it is being built: the number of times
it was entered, and one more if it is `UNFINISHED`, never grows.
-/

namespace Csci4061.Make

open Csci4061.Lib

variable {n : ℕ} {σ : Type*} {mk : Makefile n} {env : Env σ}

/-- The entries with the status `UNFINISHED`. -/
def BuildState.unfinished (s : BuildState σ n) : Finset (Fin n) :=
  Finset.univ.filter fun i => s.status (.entry i) = .unfinished

/-- Membership in the set of unfinished entries. -/
@[simp] theorem BuildState.mem_unfinished {s : BuildState σ n} {i : Fin n} :
    i ∈ s.unfinished ↔ s.status (.entry i) = .unfinished := by
  simp [BuildState.unfinished]

/-- What was visited in one state is visited in another. -/
def BuildState.VisitedLe (s s' : BuildState σ n) : Prop :=
  ∀ target, s.status target ≠ .unfinished → s'.status target ≠ .unfinished

/-- With more visited targets there are fewer unfinished entries. -/
theorem BuildState.VisitedLe.subset {s s' : BuildState σ n} (h : s.VisitedLe s') :
    s'.unfinished ⊆ s.unfinished := by
  intro i hi
  rw [mem_unfinished] at hi ⊢
  by_contra hvisited
  exact h _ hvisited hi

/-- With more visited targets and one entry among them which was not, there is one less. -/
theorem BuildState.VisitedLe.card_lt {s s' : BuildState σ n} (h : s.VisitedLe s') {i : Fin n}
    (hi : s.status (.entry i) = .unfinished) (hi' : s'.status (.entry i) ≠ .unfinished) :
    s'.unfinished.card < s.unfinished.card := by
  apply Finset.card_lt_card
  apply Finset.ssubset_iff_subset_ne.mpr
  refine ⟨h.subset, fun heq => hi' ?_⟩
  exact mem_unfinished.mp (heq ▸ mem_unfinished.mpr hi)

/-- A loop returns if each of its calls does, from the states which it can be in. -/
theorem dependencyLoop_isSome {call : Fin n → BuildState σ n → Option (ℤ × BuildState σ n)}
    {target : TargetRef n} {P : BuildState σ n → Prop}
    (hpass : ∀ name s o s₁, visitDependency mk env target name s = (o, s₁) → P s → P s₁)
    (hcall : ∀ name s i s₁, visitDependency mk env target name s = (some i, s₁) → P s →
      ∃ result s₂, call i s₁ = some (result, s₂) ∧ P s₂)
    (names : List CString) {s : BuildState σ n} (hs : P s) :
    ∃ result s', dependencyLoop mk env call target names s = some (result, s') := by
  induction names generalizing s with
  | nil => exact ⟨0, s, rfl⟩
  | cons name names ih =>
    rw [dependencyLoop]
    split
    · rename_i i s₁ hvisit
      obtain ⟨called, s₂, hcalled, hs₂⟩ := hcall name s i s₁ hvisit hs
      rw [hcalled, Option.bind_some]
      by_cases hfail : called = -1
      · exact ⟨-1, s₂, if_pos hfail⟩
      · simp only [hfail, if_false]
        exact ih hs₂
    · rename_i s₁ hvisit
      exact ih (hpass name s none s₁ hvisit hs)

/-- Depth for a call: twice the number of unfinished entries if the target is one of them, and one
more in any case. -/
def DepthSuffices (depth : ℕ) (target : TargetRef n) (s : BuildState σ n) : Prop :=
  2 * s.unfinished.card + 1 ≤ depth ∨
    ∃ i, target = .entry i ∧ s.status target = .unfinished ∧ 2 * s.unfinished.card ≤ depth

/-- A call made by the loop has enough depth. -/
theorem DepthSuffices.callee {depth : ℕ} {target : TargetRef n} {s s₁ s₂ : BuildState σ n}
    {name : CString} {i : Fin n} (hdepth : DepthSuffices (depth + 1) target s)
    (hvisited : s.VisitedLe s₁) (hvisit : visitDependency mk env target name s₁ = (some i, s₂)) :
    DepthSuffices depth (.entry i) s₂ := by
  have hstatus := (visitDependency_some hvisit).2.1
  have hle : s.VisitedLe s₂ := fun u hu =>
    (stepInvariant_visited mk env (Scope.all n) u).visit trivial hvisit (hvisited u hu)
  by_cases htarget : ∃ j, target = .entry j ∧ s.status target = .unfinished
  · -- the target was unfinished, and is marked before the call
    obtain ⟨j, rfl, hj⟩ := htarget
    have hlt := hle.card_lt hj (by simp [visitDependency_marked hvisit])
    rcases hdepth with hdepth | ⟨-, -, -, hdepth⟩
    · exact Or.inl (by omega)
    · exact Or.inl (by omega)
  · have hdepth : 2 * s.unfinished.card + 1 ≤ depth + 1 := by
      rcases hdepth with hdepth | ⟨j, hj, hunfinished, -⟩
      · exact hdepth
      · exact absurd ⟨j, hj, hunfinished⟩ htarget
    have hi : s.status (.entry i) = .unfinished := by
      by_contra hi
      exact hvisited _ hi hstatus
    have hne : TargetRef.entry i ≠ target := fun heq => htarget ⟨i, heq.symm, heq ▸ hi⟩
    have hcard := Finset.card_le_card hle.subset
    exact Or.inr ⟨i, rfl, visitDependency_callee hvisit hne, by omega⟩

/-- A call of `build` with enough depth returns. -/
theorem build_isSome {depth : ℕ} {target : TargetRef n} {s : BuildState σ n}
    (hdepth : DepthSuffices depth target s) :
    ∃ result s', build mk env depth target s = some (result, s') := by
  induction depth generalizing target s with
  | zero =>
    rcases hdepth with hdepth | ⟨i, rfl, hi, hdepth⟩
    · omega
    · have hpos : 0 < s.unfinished.card := Finset.card_pos.mpr ⟨i, BuildState.mem_unfinished.mpr hi⟩
      omega
  | succ depth ih =>
    have hbegin : s.VisitedLe (beginTarget mk target s) := fun u hu =>
      (stepInvariant_visited mk env (Scope.all n) u).begin trivial hu
    have hpass : ∀ name s₁ o s₂, visitDependency mk env target name s₁ = (o, s₂) → s.VisitedLe s₁ →
        s.VisitedLe s₂ :=
      fun name s₁ o s₂ hvisit hs₁ u hu =>
        (stepInvariant_visited mk env (Scope.all n) u).visit trivial hvisit (hs₁ u hu)
    have hcall : ∀ name s₁ i s₂, visitDependency mk env target name s₁ = (some i, s₂) → s.VisitedLe s₁ →
        ∃ result s₃, build mk env depth (.entry i) s₂ = some (result, s₃) ∧ s.VisitedLe s₃ := by
      intro name s₁ i s₂ hvisit hs₁
      obtain ⟨result, s₃, hbuild⟩ := ih (hdepth.callee hs₁ hvisit)
      have hs₂ := hpass name s₁ (some i) s₂ hvisit hs₁
      exact ⟨result, s₃, hbuild, fun u hu => (build_eval hbuild).call_visited (hs₂ u hu)⟩
    obtain ⟨looped, s₁, hloop⟩ := dependencyLoop_isSome hpass hcall
        (mk.target target).dependencyNames hbegin
    rw [build, hloop]
    exact ⟨_, _, rfl⟩

/-- A loop returns the same with calls which return at least as often. -/
theorem dependencyLoop_mono {call call' : Fin n → BuildState σ n → Option (ℤ × BuildState σ n)}
    (hcall : ∀ i s result, call i s = some result → call' i s = some result) {target : TargetRef n}
    {names : List CString} {s : BuildState σ n} {result : ℤ × BuildState σ n}
    (h : dependencyLoop mk env call target names s = some result) :
    dependencyLoop mk env call' target names s = some result := by
  induction names generalizing s with
  | nil => exact h
  | cons name names ih =>
    rw [dependencyLoop] at h ⊢
    split at h
    · rename_i i s₁ hvisit
      obtain ⟨⟨called, s₂⟩, hcalled, hrest⟩ := Option.bind_eq_some_iff.mp h
      rw [hcall i s₁ _ hcalled, Option.bind_some]
      by_cases hfail : called = -1
      · simp only [hfail, if_true] at hrest ⊢
        exact hrest
      · simp only [hfail, if_false] at hrest ⊢
        exact ih hrest
    · exact ih h

/-- A call which returns gives the same with more depth. -/
theorem build_mono {depth depth' : ℕ} (hle : depth ≤ depth') {target : TargetRef n} {s : BuildState σ n}
    {result : ℤ × BuildState σ n} (h : build mk env depth target s = some result) :
    build mk env depth' target s = some result := by
  induction depth generalizing depth' target s result with
  | zero => exact absurd h (by simp [build])
  | succ depth ih =>
    obtain ⟨depth', rfl⟩ := Nat.exists_eq_succ_of_ne_zero (Nat.ne_zero_of_lt hle)
    obtain ⟨looped, hloop, rfl⟩ := Option.map_eq_some_iff.mp h
    have hloop' := dependencyLoop_mono (fun i s result hi => ih (Nat.le_of_succ_le_succ hle) hi) hloop
    rw [build, hloop', Option.map_some]

/-- Whether an event is a call on a target. -/
def Event.isEntered (target : TargetRef n) : Event σ n → Bool
  | .entered called _ _ => called = target
  | _ => false

/-- Whether an event is the execution of the command of a target. -/
def Event.isExecuted (target : TargetRef n) : Event σ n → Bool
  | .executed called => called = target
  | _ => false

/-- How often `build` was entered on a target. -/
def BuildState.enteredCount (s : BuildState σ n) (target : TargetRef n) : ℕ :=
  s.trace.countP (Event.isEntered target)

/-- How often the command of a target was executed. -/
def BuildState.executedCount (s : BuildState σ n) (target : TargetRef n) : ℕ :=
  s.trace.countP (Event.isExecuted target)

/-- How often an entry was entered, and one more if it is unfinished. -/
def BuildState.potential (s : BuildState σ n) (i : Fin n) : ℕ :=
  s.enteredCount (.entry i) + if s.status (.entry i) = .unfinished then 1 else 0

/-- The potential is at least the number of calls. -/
theorem BuildState.enteredCount_le_potential (s : BuildState σ n) (i : Fin n) :
    s.enteredCount (.entry i) ≤ s.potential i :=
  Nat.le_add_right _ _

/-- The potential of a visited entry is the number of calls. -/
theorem BuildState.potential_of_visited {s : BuildState σ n} {i : Fin n}
    (h : s.status (.entry i) ≠ .unfinished) :
    s.potential i = s.enteredCount (.entry i) := by
  rw [potential, if_neg h, Nat.add_zero]

/-- All targets may be visited, and those other than one entry may be called on. -/
def Scope.except (i : Fin n) : Scope n where
  visits _ := True
  calls target := target ≠ .entry i
  visits_of_calls _ _ := trivial

/-- Calls on other targets do not increase the potential of an entry. -/
theorem stepInvariant_potential (mk : Makefile n) (env : Env σ) (i : Fin n) (bound : ℕ) :
    StepInvariant mk env (Scope.except i) fun s => s.potential i ≤ bound where
  setStatus s target status _ hstatus hs := by
    by_cases heq : TargetRef.entry i = target
    · have hvisited : (s.setStatus target status).status (.entry i) ≠ .unfinished := by
        rw [heq, BuildState.setStatus_status, Function.update_self]
        exact hstatus
      rw [BuildState.potential_of_visited hvisited]
      exact (s.enteredCount_le_potential i).trans hs
    · rw [BuildState.potential, BuildState.setStatus_status, Function.update_of_ne heq]
      exact hs
  look _ _ _ hs := hs
  fork _ hs := hs
  enter s target htarget hs := by
    have hevent : Event.isEntered (.entry i) (Event.entered target s.status s.world) = false :=
      decide_eq_false htarget
    rw [BuildState.potential, BuildState.enteredCount, BuildState.record_trace, List.countP_append,
      List.countP_singleton, hevent]
    exact hs
  execute s target _ _ hs := by
    rw [BuildState.potential, BuildState.enteredCount, BuildState.record_trace, List.countP_append]
    exact hs
  leave s target _ hs := by
    rw [BuildState.potential, BuildState.enteredCount, BuildState.record_trace, List.countP_append]
    exact hs

/-- The end of a call is no call. -/
theorem finishTarget_enteredCount {target : TargetRef n} {s s₁ : BuildState σ n} {result : ℤ}
    (h : finishTarget mk env target s = (result, s₁)) (called : TargetRef n) :
    s₁.enteredCount called = s.enteredCount called := by
  unfold BuildState.enteredCount
  cases finishTarget_trace h with
  | inl heq => rw [heq]
  | inr heq =>
    rw [heq, List.countP_append]
    rfl

/-- An entry which does not list itself is not among the calls of its own loop. -/
theorem visitDependency_ne_self {i j : Fin n} {name : CString} {s s₁ : BuildState σ n}
    (hself : (mk.targets i).targetName ∉ (mk.targets i).dependencyNames)
    (hname : name ∈ (mk.targets i).dependencyNames)
    (h : visitDependency mk env (.entry i) name s = (some j, s₁)) : j ≠ i := by
  rintro rfl
  have hfind := findTarget_name (visitDependency_some h).1
  exact hself (hfind ▸ hname)

/-- What a task does to the potential of an entry. A loop of the entry itself starts after the call
was counted. -/
def Task.KeepsPotential (mk : Makefile n) (i : Fin n) (s s' : BuildState σ n) (result : ℤ) :
    Task n → Prop
  | .call target => (target = .entry i → s.status target = .unfinished) → s'.potential i ≤ s.potential i
  | .loop target names => names ⊆ (mk.target target).dependencyNames →
    (target ≠ .entry i → s'.potential i ≤ s.potential i) ∧
    (target = .entry i → s'.enteredCount target ≤ s.enteredCount target ∧
      (result = -1 → s'.status target ≠ .unfinished))

/-- A pass of the loop does not increase the potential. -/
theorem visitDependency_potential {i : Fin n} {target : TargetRef n} {name : CString}
    {s s₁ : BuildState σ n} {dependsOn : Option (Fin n)}
    (h : visitDependency mk env target name s = (dependsOn, s₁)) :
    s₁.potential i ≤ s.potential i :=
  (stepInvariant_potential mk env i _).visit trivial h le_rfl

/-- A pass of the loop is no call. -/
theorem visitDependency_enteredCount {target : TargetRef n} {name : CString} {s s₁ : BuildState σ n}
    {dependsOn : Option (Fin n)} (h : visitDependency mk env target name s = (dependsOn, s₁))
    (called : TargetRef n) :
    s₁.enteredCount called = s.enteredCount called :=
  congrArg (List.countP _) (visitDependency_trace h)

/-- A pass of the loop and the call which it makes keep the potential of another entry, and the
number of calls on the target itself. -/
theorem visitDependency_keepsPotential {i j : Fin n} {target : TargetRef n} {name : CString}
    {s s₁ s₂ : BuildState σ n} {called : ℤ}
    (hself : (mk.targets i).targetName ∉ (mk.targets i).dependencyNames)
    (hname : name ∈ (mk.target target).dependencyNames)
    (hvisit : visitDependency mk env target name s = (some j, s₁))
    (hcall : (Task.call (.entry j)).KeepsPotential mk i s₁ s₂ called) :
    (target ≠ .entry i → s₂.potential i ≤ s.potential i) ∧
      (target = .entry i → s₂.enteredCount target ≤ s.enteredCount target) := by
  constructor
  · intro hne
    have hcallee : TargetRef.entry j = .entry i → s₁.status (.entry j) = .unfinished := fun heq =>
      visitDependency_callee hvisit (heq ▸ hne.symm)
    exact (hcall hcallee).trans (visitDependency_potential hvisit)
  · rintro rfl
    have hcallee : TargetRef.entry j = .entry i → s₁.status (.entry j) = .unfinished := fun heq =>
      absurd (TargetRef.entry.inj heq) (visitDependency_ne_self hself hname hvisit)
    have hmarked : s₁.status (.entry i) ≠ .unfinished := by simp [visitDependency_marked hvisit]
    calc s₂.enteredCount (.entry i) ≤ s₂.potential i := s₂.enteredCount_le_potential i
      _ ≤ s₁.potential i := hcall hcallee
      _ = s₁.enteredCount (.entry i) := BuildState.potential_of_visited hmarked
      _ = s.enteredCount (.entry i) := visitDependency_enteredCount hvisit _

/-- The return of a call is no call. -/
theorem BuildState.enteredCount_returned (s : BuildState σ n) (target called : TargetRef n) :
    (s.record (.returned target)).enteredCount called = s.enteredCount called := by
  rw [enteredCount, record_trace, List.countP_append]
  rfl

/-- The return of a call keeps the potential. -/
theorem BuildState.potential_returned (s : BuildState σ n) (target : TargetRef n) (i : Fin n) :
    (s.record (.returned target)).potential i = s.potential i := by
  rw [potential, enteredCount_returned]
  rfl

/-- A call counts once for its target. -/
theorem beginTarget_enteredCount (mk : Makefile n) (target called : TargetRef n) (s : BuildState σ n) :
    (beginTarget mk target s).enteredCount called =
      s.enteredCount called + if target = called then 1 else 0 := by
  rw [BuildState.enteredCount, beginTarget_trace, List.countP_append, List.countP_singleton]
  simp [BuildState.enteredCount, Event.isEntered]

/-- The beginning of a call executes nothing. -/
theorem beginTarget_executedCount (mk : Makefile n) (target called : TargetRef n) (s : BuildState σ n) :
    (beginTarget mk target s).executedCount called = s.executedCount called := by
  rw [BuildState.executedCount, beginTarget_trace, List.countP_append]
  rfl

/-- The end of a call executes at most the command of its target. -/
theorem finishTarget_executedCount {target : TargetRef n} {s s₁ : BuildState σ n} {result : ℤ}
    (h : finishTarget mk env target s = (result, s₁)) (called : TargetRef n) :
    s₁.executedCount called ≤ s.executedCount called + if target = called then 1 else 0 := by
  unfold BuildState.executedCount
  cases finishTarget_trace h with
  | inl heq =>
    rw [heq]
    exact Nat.le_add_right _ _
  | inr heq =>
    rw [heq, List.countP_append, List.countP_singleton]
    simp [Event.isExecuted]

/-- A call keeps the potential if its loop does, and if its end leaves the target visited. -/
theorem keepsPotential_call (env : Env σ) {i : Fin n} {target : TargetRef n} {s s₁ s₂ : BuildState σ n}
    {looped result : ℤ}
    (hloop : (Task.loop target (mk.target target).dependencyNames).KeepsPotential mk i
      (beginTarget mk target s) s₁ looped)
    (hother : target ≠ .entry i → s₂.potential i ≤ s₁.potential i)
    (hown : target = .entry i → s₂.enteredCount target = s₁.enteredCount target ∧
      s₂.status target ≠ .unfinished) :
    (Task.call target).KeepsPotential mk i s (s₂.record (.returned target)) result := by
  intro hunfinished
  rw [BuildState.potential_returned]
  obtain ⟨hloopOther, hloopOwn⟩ := hloop (List.Subset.refl _)
  by_cases heq : target = .entry i
  · subst heq
    obtain ⟨hcount, hvisited⟩ := hown rfl
    calc s₂.potential i = s₂.enteredCount (.entry i) := BuildState.potential_of_visited hvisited
      _ = s₁.enteredCount (.entry i) := hcount
      _ ≤ (beginTarget mk (.entry i) s).enteredCount (.entry i) := (hloopOwn rfl).1
      _ = s.enteredCount (.entry i) + 1 := by rw [beginTarget_enteredCount, if_pos rfl]
      _ = s.potential i := by rw [BuildState.potential, if_pos (hunfinished rfl)]
  · have hbegin : (beginTarget mk target s).potential i ≤ s.potential i :=
      (stepInvariant_potential mk env i _).begin heq le_rfl
    exact (hother heq).trans ((hloopOther heq).trans hbegin)

/-- An entry which does not list itself is entered only while it is unfinished. -/
theorem Eval.keepsPotential {i : Fin n}
    (hself : (mk.targets i).targetName ∉ (mk.targets i).dependencyNames)
    {task : Task n} {s s' : BuildState σ n} {result : ℤ} (h : Eval mk env task s result s') :
    task.KeepsPotential mk i s s' result := by
  induction h with
  | loop_nil =>
    exact fun _ => ⟨fun _ => le_rfl, fun _ => ⟨le_rfl, fun hfail => absurd hfail (by decide)⟩⟩
  | loop_pass hvisit _ ih =>
    intro hnames
    obtain ⟨hother, hown⟩ := ih (List.cons_subset.mp hnames).2
    constructor
    · intro hne
      exact (hother hne).trans (visitDependency_potential hvisit)
    · intro heq
      exact ⟨(hown heq).1.trans (visitDependency_enteredCount hvisit _).le, (hown heq).2⟩
  | loop_call hvisit _ _ _ ihcall ihloop =>
    intro hnames
    obtain ⟨hname, hrest⟩ := List.cons_subset.mp hnames
    obtain ⟨hother, hown⟩ := ihloop hrest
    obtain ⟨hcallOther, hcallOwn⟩ := visitDependency_keepsPotential hself hname hvisit ihcall
    constructor
    · intro hne
      exact (hother hne).trans (hcallOther hne)
    · intro heq
      exact ⟨(hown heq).1.trans (hcallOwn heq), (hown heq).2⟩
  | loop_fail hvisit hcall ihcall =>
    intro hnames
    obtain ⟨hother, hown⟩ := visitDependency_keepsPotential hself
        (List.cons_subset.mp hnames).1 hvisit ihcall
    refine ⟨hother, fun heq => ⟨hown heq, fun _ => hcall.call_visited ?_⟩⟩
    simp [visitDependency_marked hvisit]
  | call_finish _ _ hfinish ih =>
    apply keepsPotential_call env ih
    · intro hne
      exact (stepInvariant_potential mk env i _).finish hne hfinish le_rfl
    · intro _
      exact ⟨finishTarget_enteredCount hfinish _, finishTarget_visited hfinish⟩
  | call_fail _ ih =>
    apply keepsPotential_call env ih
    · intro _
      exact le_rfl
    · intro heq
      exact ⟨rfl, ((ih (List.Subset.refl _)).2 heq).2 rfl⟩

/-- A command is executed at most once for each call. -/
theorem Eval.executed_le_entered (called : TargetRef n) {task : Task n} {s s' : BuildState σ n}
    {result : ℤ} (h : Eval mk env task s result s') :
    s'.executedCount called + s.enteredCount called ≤ s.executedCount called +
    s'.enteredCount called := by
  have hvisit : ∀ {target name o} {s s₁ : BuildState σ n},
      visitDependency mk env target name s = (o, s₁) →
      s₁.executedCount called = s.executedCount called := fun h => congrArg (List.countP _)
      (visitDependency_trace h)
  have hreturned : ∀ (s : BuildState σ n) (target : TargetRef n),
      (s.record (.returned target)).executedCount called = s.executedCount called := fun s target =>
    List.countP_append
  induction h with
  | loop_nil => exact le_rfl
  | loop_pass h _ ih =>
    rw [← visitDependency_enteredCount h, ← hvisit h]
    exact ih
  | loop_call h _ _ _ ihcall ihloop =>
    rw [← visitDependency_enteredCount h, ← hvisit h]
    omega
  | loop_fail h _ ihcall =>
    rw [← visitDependency_enteredCount h, ← hvisit h]
    exact ihcall
  | @call_finish target s s₁ s₂ looped result _ _ hfinish ih =>
    have hexecuted := finishTarget_executedCount hfinish called
    have hentered := finishTarget_enteredCount hfinish called
    rw [beginTarget_enteredCount, beginTarget_executedCount] at ih
    rw [hreturned, BuildState.enteredCount_returned]
    omega
  | @call_fail target s s₁ _ ih =>
    rw [beginTarget_enteredCount, beginTarget_executedCount] at ih
    rw [hreturned, BuildState.enteredCount_returned]
    omega

/-- `build` terminates on every table, whatever the files, `fork` and the commands do: from some
depth on the bound does not matter. It is entered at most once on every entry which does not list
itself, and the command of the entry is executed at most once. -/
theorem build_terminates (mk : Makefile n) (env : Env σ) (world : σ) :
    ∃ result s, (∀ depth, 2 * n + 1 ≤ depth → runMake mk env depth world = some (result, s)) ∧
      ∀ i, (mk.targets i).targetName ∉ (mk.targets i).dependencyNames →
        s.enteredCount (.entry i) ≤ 1 ∧ s.executedCount (.entry i) ≤ 1 := by
  have hdepth : DepthSuffices (2 * n + 1) .initial (BuildState.start world : BuildState σ n) := by
    refine Or.inl (Nat.add_le_add_right (Nat.mul_le_mul_left 2 ?_) 1)
    exact card_finset_fin_le _
  obtain ⟨result, s, hbuild⟩ := @build_isSome n σ mk env _ _ _ hdepth
  refine ⟨result, s, fun depth hle => build_mono hle hbuild, fun i hself => ?_⟩
  have heval := build_eval hbuild
  have hpotential := heval.keepsPotential hself (fun h => absurd h (by simp))
  have hentered : s.enteredCount (.entry i) ≤ 1 := (s.enteredCount_le_potential i).trans hpotential
  have hexecuted := heval.executed_le_entered (.entry i)
  refine ⟨hentered, ?_⟩
  calc s.executedCount (.entry i) ≤ s.executedCount (.entry i) + 0 := Nat.le_add_right _ _
    _ ≤ 0 + s.enteredCount (.entry i) := hexecuted
    _ ≤ 1 := by rw [Nat.zero_add]; exact hentered

end Csci4061.Make
