import Csci4061.Make.Blanks
import Csci4061.Make.Order

/-!
# From a makefile to a run

`main` parses the makefile, takes the name of the requested target from the command line or from the
first entry of the table, and copies the entry at the index which `find_target` returns. It does not
look whether that index is `-1`, so it stays among the entries in use, and executes only what the
requested target needs, exactly if the requested name is the name of a target.
-/

namespace Csci4061.Make

open Csci4061.Lib

variable {n : ℕ} {σ : Type*}

/-- What `find_target` returns: the index of the first entry with a name, or `-1`. -/
def findTargetIndex (targets : Fin n → Target) (name : CString) : ℤ :=
  match findTarget targets name with
  | some i => i
  | none => -1

/-- What is seen of `main`: the indices at which it reads the table of targets, apart from the search in
`find_target`, and the commands which are executed. -/
structure MainRun where
  reads : List ℤ
  commands : List CString

/-- The name in `argv[optind]`, or the one in the first entry of the table. -/
def requestedName (result : ParseResult maxNodes) : Option (List UInt8) → CString
  | some argument => cString argument
  | none => (result.targets ⟨0, Nat.zero_lt_succ 9⟩).targetName.string

/-- The index which the default for the name is read at. -/
def defaultReads : Option (List UInt8) → List ℤ
  | some _ => []
  | none => [0]

/-- The index of an entry which is found. -/
theorem findTargetIndex_of_found {targets : Fin n → Target} {name : CString} {i : Fin n}
    (h : findTarget targets name = some i) : findTargetIndex targets name = i := by
  rw [findTargetIndex, h]

/-- The commands of the run on the entry which is found for a name. Without one it is not defined. -/
def buildEntry (env : Env σ) (depth : ℕ) (targets : Fin n → Target) (name : CString) (world : σ) :
    Option (List CString) :=
  match h : findTarget targets name with
  | some requested =>
    let mk : Makefile n := ⟨targets, requested, findTarget_self h⟩
    (runMake mk env depth world).map fun run =>
      (commands run.2.trace).map fun target => (mk.target target).command
  | none => none

/-- The size of `TargetName` is not zero. -/
theorem neZero_targetName : NeZero 64 := ⟨by decide⟩

/-- `main`, on the content of the makefile and the argument for the target, if there is one; `none`
where it is not defined: if `parse` leaves its table, if the name does not fit `TargetName`, or if the
entry at the index `-1` is copied. -/
def runMain (env : Env σ) (depth : ℕ) (content : List UInt8) (argument : Option (List UInt8))
    (world : σ) :
    Option MainRun := do
  let result ← parse content (zeroedTable : Fin maxNodes → TargetEntry)
  if result.ret = -1 then some ⟨[], []⟩
  else
    let name ← (@StringBuffer.zeroed 64 neZero_targetName).strcpy (requestedName result argument)
    let executed ← buildEntry env depth result.parsed.get name.string world
    some ⟨defaultReads argument ++ [findTargetIndex result.parsed.get name.string], executed⟩

/-- An entry has another one as a direct dependency. -/
def DependsOn (targets : Fin n → Target) (i j : Fin n) : Prop :=
  ∃ name ∈ (targets i).dependencyNames, findTarget targets name = some j

/-- The entry which is found for a name needs another one: it is the entry itself, or is reached from it
through dependencies. -/
def NeededFor (targets : Fin n → Target) (name : CString) (i : Fin n) : Prop :=
  ∃ requested, findTarget targets name = some requested ∧
    Relation.ReflTransGen (DependsOn targets) requested i

/-- `main` reads the entries in use, returns, and executes only commands of targets which are needed for
the requested name, so none at all if this is no target. -/
def OnlyNeeded (env : Env σ) (content : List UInt8) (result : ParseResult maxNodes)
    (argument : Option (List UInt8)) (world : σ) : Prop :=
  ∃ run, (∀ depth, 2 * maxNodes + 1 ≤ depth → runMain env depth content argument world = some run) ∧
    (∀ i ∈ run.reads, 0 ≤ i ∧ i < result.ret) ∧
    ∀ command ∈ run.commands, ∃ i, NeededFor result.parsed.get (requestedName result argument) i ∧
      (result.parsed.get i).command = command

/-- The number of entries in use is within the table. -/
theorem ParseResult.length_parsed (result : ParseResult n) :
    result.parsed.length = min result.ret.toNat n := by
  simp [ParseResult.parsed]

/-- What is executed on an entry which is found is needed for it. -/
theorem buildEntry_needed (env : Env σ) {targets : Fin n → Target} {name : CString}
    (hfound : ∃ requested, findTarget targets name = some requested) (world : σ) :
    ∃ executed, (∀ depth, 2 * n + 1 ≤ depth → buildEntry env depth targets name world = some executed) ∧
      ∀ command ∈ executed, ∃ i, NeededFor targets name i ∧ (targets i).command = command := by
  obtain ⟨requested, hfind⟩ := hfound
  let mk : Makefile n := ⟨targets, requested, findTarget_self hfind⟩
  obtain ⟨result, s, hrun, -⟩ := build_terminates mk env world
  refine ⟨(commands s.trace).map fun target => (mk.target target).command, fun depth hdepth => ?_, ?_⟩
  · unfold buildEntry
    split
    · rename_i requested' hfind'
      obtain rfl := Option.some.inj (hfind.symm.trans hfind')
      exact congrArg (Option.map _) (hrun depth hdepth)
    · rename_i hnone
      exact absurd (hfind.symm.trans hnone) (by simp)
  · intro command hcommand
    obtain ⟨target, hexecuted, rfl⟩ := List.mem_map.mp hcommand
    obtain ⟨events, htrace, hreached⟩ :=
      (build_eval (hrun _ le_rfl)).trace_grows (Scope.call_closed mk .initial) (Or.inl rfl)
    have hmem : Event.executed target ∈ events := by
      have hall := mem_commands.mp hexecuted
      rw [htrace] at hall
      exact (List.mem_append.mp hall).resolve_left List.not_mem_nil
    refine ⟨mk.index target, ⟨requested, hfind, ?_⟩, rfl⟩
    rcases hreached _ hmem with heq | ⟨i, heq, hbelow⟩
    · rw [show target = .initial from heq]
      exact .refl
    · rw [show target = .entry i from heq]
      exact hbelow.to_reflTransGen

/-- A string which is stored in a buffer of the same size fits. -/
theorem requestedName_fits {result : ParseResult maxNodes} {argument : Option (List UInt8)}
    (hfound : ∃ requested, findTarget result.parsed.get (requestedName result argument) =
      some requested) :
    (requestedName result argument).length < 64 := by
  obtain ⟨requested, hfind⟩ := hfound
  have hmem : result.parsed.get requested ∈ result.parsed := List.get_mem _ _
  obtain ⟨i, -, hi⟩ := List.mem_map.mp hmem
  rw [← findTarget_name hfind, ← hi]
  exact (result.targets i).targetName.length_string_lt

/-- The requested name has no NUL. -/
theorem zero_not_mem_requestedName (result : ParseResult maxNodes) (argument : Option (List UInt8)) :
    0 ∉ requestedName result argument := by
  cases argument with
  | none => exact zero_not_mem_cString _
  | some argument => exact zero_not_mem_cString argument

/-- On a makefile which `parse` accepts, `main` stays among the entries in use and executes only what the
requested target needs exactly if the requested name is the name of a target. -/
theorem onlyNeeded_iff_found (env : Env σ) {content : List UInt8} {result : ParseResult maxNodes}
    (hparse : parse content zeroedTable = some result) (haccepted : result.ret ≠ -1)
    (argument : Option (List UInt8)) (world : σ) :
    OnlyNeeded env content result argument world ↔
      ∃ target ∈ result.parsed, target.targetName = requestedName result argument := by
  rw [List.exists_mem_iff_get, ← exists_findTarget_iff]
  constructor
  · rintro ⟨run, hrun, -⟩
    have hmain := hrun _ le_rfl
    rw [runMain, hparse] at hmain
    simp only [Option.bind_eq_bind, Option.bind_some, if_neg haccepted] at hmain
    obtain ⟨name, hname, hmain⟩ := Option.bind_eq_some_iff.mp hmain
    obtain ⟨executed, hexecuted, -⟩ := Option.bind_eq_some_iff.mp hmain
    have hstring := StringBuffer.string_of_strcpy (zero_not_mem_requestedName result argument) hname
    rw [hstring, buildEntry] at hexecuted
    split at hexecuted
    · rename_i requested hfind
      exact ⟨requested, hfind⟩
    · exact absurd hexecuted (by simp)
  · intro hfound
    obtain ⟨name, hname, hstring⟩ := (@StringBuffer.zeroed 64 neZero_targetName).strcpy_of_lt
      (zero_not_mem_requestedName result argument) (requestedName_fits hfound)
    obtain ⟨executed, hexecuted, hneeded⟩ := buildEntry_needed env hfound world
    obtain ⟨requested, hfind⟩ := hfound
    have hlength : (result.parsed.length : ℤ) ≤ result.ret := by
      have hpos : 0 < result.parsed.length := Nat.zero_lt_of_lt requested.isLt
      rw [ParseResult.length_parsed] at hpos ⊢
      omega
    have hlt : (requested : ℤ) < result.ret := lt_of_lt_of_le (by exact_mod_cast requested.isLt) hlength
    refine ⟨⟨defaultReads argument ++ [findTargetIndex result.parsed.get name.string], executed⟩, ?_,
      ?_, hneeded⟩
    · intro depth hdepth
      have hdepth' : 2 * result.parsed.length + 1 ≤ depth := by
        rw [ParseResult.length_parsed]
        omega
      rw [runMain, hparse]
      simp only [Option.bind_eq_bind, Option.bind_some, if_neg haccepted, hname, hstring,
        hexecuted depth hdepth']
    · intro i hi
      rw [hstring, findTargetIndex_of_found hfind] at hi
      rcases List.mem_append.mp hi with hdefault | hindex
      · cases argument with
        | none =>
          obtain rfl := List.mem_singleton.mp hdefault
          omega
        | some argument => exact absurd hdefault List.not_mem_nil
      · obtain rfl := List.mem_singleton.mp hindex
        omega

/-- The default target of a makefile with one rule is found. -/
theorem onlyNeeded_iff_found_oneRule : ∃ result :
    ParseResult maxNodes, parse oneRule zeroedTable = some result ∧
    OnlyNeeded touchFiles.toEnv oneRule result none [] := by
  have hparsed : (parse oneRule (zeroedTable : Fin maxNodes → TargetEntry)).map (fun result =>
      (result.ret, result.parsed.map Target.targetName, requestedName result none)) =
      some (1, [bytes "all"], bytes "all") := by decide +kernel
  obtain ⟨result, hparse, heq⟩ := Option.map_eq_some_iff.mp hparsed
  obtain ⟨hret, hnames, hname⟩ : result.ret = 1 ∧ result.parsed.map Target.targetName = [bytes "all"] ∧
      requestedName result none = bytes "all" := by simpa using heq
  have haccepted : result.ret ≠ -1 := by
    rw [hret]
    decide
  have hmem : bytes "all" ∈ result.parsed.map Target.targetName := hnames ▸ List.mem_singleton_self _
  refine ⟨result, hparse, (onlyNeeded_iff_found touchFiles.toEnv hparse haccepted none []).mpr ?_⟩
  rw [hname]
  exact List.mem_map.mp hmem

/-- If `main` is not defined with enough depth, it does not stay among the entries in use. -/
theorem not_onlyNeeded_of_isNone {env : Env σ} {content : List UInt8} {result : ParseResult maxNodes}
    {argument : Option (List UInt8)} {world : σ}
    (h : (runMain env (2 * maxNodes + 1) content argument world).isNone = true) :
    ¬ OnlyNeeded env content result argument world := by
  rintro ⟨run, hrun, -⟩
  exact absurd ((Option.isNone_iff_eq_none.mp h).symm.trans (hrun _ le_rfl)) (by simp)

/-- With a name which is no target, and with a makefile without rules, `main` copies the entry at the
index `-1`. -/
theorem not_onlyNeeded_unknown :
    (∃ result : ParseResult maxNodes, parse oneRule zeroedTable = some result ∧ result.ret ≠ -1 ∧
      ¬ OnlyNeeded touchFiles.toEnv oneRule result (some (bytes "install")) []) ∧
    ∃ result : ParseResult maxNodes, parse [] zeroedTable = some result ∧ result.ret ≠ -1 ∧
      ¬ OnlyNeeded touchFiles.toEnv [] result none [] := by
  have hrule : (parse oneRule (zeroedTable : Fin maxNodes → TargetEntry)).map ParseResult.ret = some 1 ∧
      (runMain touchFiles.toEnv 21 oneRule (some (bytes "install")) []).isNone = true := by
    decide +kernel
  have hempty : (parse [] (zeroedTable : Fin maxNodes → TargetEntry)).map ParseResult.ret = some 0 ∧
      (runMain touchFiles.toEnv 21 [] none []).isNone = true := by decide +kernel
  constructor
  · obtain ⟨result, hparse, hret⟩ := Option.map_eq_some_iff.mp hrule.1
    exact ⟨result, hparse, by omega, not_onlyNeeded_of_isNone hrule.2⟩
  · obtain ⟨result, hparse, hret⟩ := Option.map_eq_some_iff.mp hempty.1
    exact ⟨result, hparse, by omega, not_onlyNeeded_of_isNone hempty.2⟩

end Csci4061.Make
