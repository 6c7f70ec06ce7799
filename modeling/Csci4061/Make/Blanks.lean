import Csci4061.Make.Recognition
import Mathlib.Data.List.DropRight

/-!
# Blanks around names

A makefile may have any mix of spaces and tabs around its names. The parser takes everything up
to the colon for the name of a rule, and separates the dependencies at spaces only, so the names
which it stores are the written ones exactly when no blank stands before the colon and no tab
behind it.
-/

namespace Csci4061.Make

open Csci4061.Lib

/-- A space or a tab. -/
def isBlank (c : UInt8) : Bool := c = space || c = tab

/-- The string has no blanks. -/
def NoBlanks (s : CString) : Prop := ∀ c ∈ s, isBlank c = false

/-- The rules among the lines which reach the loop. -/
def ruleLines (content : List UInt8) : List CString :=
  ((fileLines 1024 content).map cString).filter fun line => (lineOf line).isRule

/-- The name which a rule is written for, without the blanks around it. -/
def writtenName (line : CString) : CString := ((ruleName line).dropWhile isBlank).rdropWhile isBlank

/-- The dependencies which a rule is written with, whatever the blanks between them. -/
def writtenDependencies (line : CString) : List CString := tokens isBlank (ruleTail line)

/-- The entries in use. -/
def ParseResult.parsed {n : ℕ} (result : ParseResult n) : List Target :=
  ((List.finRange n).take result.ret.toNat).map fun i => (result.targets i).target

/-- The rule with an index is the only one which is written for a name. -/
def OnlyRule (rules : List CString) (i : ℕ) (name : CString) : Prop :=
  ∀ j, rules[j]?.map writtenName = some name ↔ j = i

/-- The stored names have no blanks, and a name is found wherever it is written. -/
structure NamesResolve (rules : List CString) (parsed : List Target) : Prop where
  names : ∀ target ∈ parsed, NoBlanks target.targetName
  dependencies : ∀ target ∈ parsed, ∀ name ∈ target.dependencyNames, NoBlanks name
  rule : ∀ (i : Fin parsed.length) name, NoBlanks name → OnlyRule rules i name →
    findTarget parsed.get name = some i
  occurrence : ∀ (i : Fin parsed.length) name, NoBlanks name → OnlyRule rules i name →
    ∀ (j : Fin parsed.length) line (k : ℕ), rules[j.val]? = some line →
      (writtenDependencies line)[k]? = some name →
      ∃ stored, (parsed.get j).dependencyNames[k]? = some stored ∧ findTarget parsed.get stored = some i

variable {n : ℕ}

/-- The entries in use are the rules which the table holds. -/
theorem Holds.parsed {targets : Fin n → TargetEntry} {rules : List Target} (h : Holds targets rules)
    (error : Option ParseError) : ParseResult.parsed ⟨rules.length, targets, error⟩ = rules := by
  apply List.ext_getElem?
  intro i
  rw [ParseResult.parsed, Int.toNat_natCast, List.getElem?_map]
  by_cases hi : i < rules.length
  · have hn : i < n := lt_of_lt_of_le hi h.length_le
    rw [List.getElem?_take_of_lt hi, List.getElem?_eq_getElem (by simpa using hn)]
    simpa using (h.stored ⟨i, hn⟩ hi).symm
  · rw [List.getElem?_eq_none (by rw [List.length_take]; omega),
      List.getElem?_eq_none (Nat.le_of_not_lt hi)]
    rfl

/-- The entries of an accepted makefile are the targets of its lines. -/
theorem parsed_eq {content : List UInt8} {result : ParseResult n}
    (h : parse content zeroedTable = some result) (hret : result.ret ≠ -1) :
    result.parsed = targetsOf (makefileLines content) := by
  have hrefines := @parse_refines n content
  cases hrun : Parsed.run n (makefileLines content) .empty with
  | overrun =>
    rw [hrun] at hrefines
    exact absurd (h.symm.trans hrefines) (Option.some_ne_none result)
  | rejected =>
    rw [hrun] at hrefines
    obtain ⟨targets, error, hparse⟩ := hrefines
    obtain rfl := Option.some.inj (h.symm.trans hparse)
    exact absurd rfl hret
  | accepted p =>
    rw [hrun] at hrefines
    obtain ⟨targets, hparse, hholds⟩ := hrefines
    obtain rfl := Option.some.inj (h.symm.trans hparse)
    rw [hholds.parsed, run_rules (by simp [Parsed.empty]) hrun]
    simp [Parsed.empty]

/-- A rule has the name and the dependencies which are cut from its line. -/
theorem lineOf_of_isRule {line : CString} (h : (lineOf line).isRule) :
    lineOf line = .rule (ruleName line) (tokens (· = space) (ruleTail line)) := by
  rw [lineOf] at h ⊢
  split_ifs at h ⊢ <;> first | rfl | exact absurd h Bool.false_ne_true

/-- The targets have the names and dependencies of the rules, in order. -/
theorem targetsOf_map_lineOf (lines : List CString) :
    (targetsOf (lines.map lineOf)).map (fun target => (target.targetName, target.dependencyNames)) =
      (lines.filter fun line => (lineOf line).isRule).map
        fun line => (ruleName line, tokens (· = space) (ruleTail line)) := by
  induction lines with
  | nil => rfl
  | cons line lines ih =>
    by_cases hrule : (lineOf line).isRule
    · rw [List.filter_cons, if_pos hrule, List.map_cons, lineOf_of_isRule hrule, targetsOf,
        List.map_cons, ih, List.map_cons]
    · rw [List.filter_cons, if_neg hrule, ← ih, List.map_cons]
      cases hline : lineOf line with
      | rule name dependencies => exact absurd (by rw [hline]; rfl) hrule
      | skipped => rfl
      | command text => rfl
      | malformed => rfl

/-- Without blanks a name is written as it is stored. -/
theorem writtenName_of_noBlanks {line : CString} (h : NoBlanks (ruleName line)) :
    writtenName line = ruleName line := by
  have hdrop : (ruleName line).dropWhile isBlank = ruleName line := by
    rw [List.dropWhile_eq_self_iff]
    intro hlength
    rw [h _ (List.getElem_mem hlength)]
    exact Bool.false_ne_true
  rw [writtenName, hdrop, List.rdropWhile_eq_self_iff]
  intro hne
  rw [h _ (List.getLast_mem hne)]
  exact Bool.false_ne_true

/-- Without tabs the words between blanks are those between spaces. -/
theorem writtenDependencies_of_not_mem {line : CString} (h : tab ∉ ruleTail line) :
    writtenDependencies line = tokens (· = space) (ruleTail line) := by
  apply tokens_congr
  intro c hc
  have hne : c ≠ tab := ne_of_mem_of_not_mem hc h
  simp [isBlank, hne]

section Entries

variable {rules : List CString} {parsed : List Target}

/-- An entry in use belongs to a rule of the file. -/
theorem exists_rule
    (h : parsed.map (fun target => (target.targetName, target.dependencyNames)) =
      rules.map fun line => (ruleName line, tokens (· = space) (ruleTail line))) (i :
        Fin parsed.length) :
    ∃ line, rules[i.val]? = some line ∧ (parsed.get i).targetName = ruleName line ∧
      (parsed.get i).dependencyNames = tokens (· = space) (ruleTail line) := by
  have hi := congrArg (fun entries => entries[i.val]?) h
  simp only [List.getElem?_map, List.getElem?_eq_getElem i.isLt, Option.map_some] at hi
  obtain ⟨line, hline, heq⟩ := Option.map_eq_some_iff.mp hi.symm
  obtain ⟨hname, hdependencies⟩ := Prod.mk.inj heq
  exact ⟨line, hline, hname.symm, hdependencies.symm⟩

/-- If the names have no blanks, the only rule of a name is found. -/
theorem findTarget_of_onlyRule
    (h : parsed.map (fun target => (target.targetName, target.dependencyNames)) =
      rules.map fun line => (ruleName line, tokens (· = space) (ruleTail line)))
    (hplain : ∀ line ∈ rules, NoBlanks (ruleName line)) {i : Fin parsed.length} {name : CString}
    (honly : OnlyRule rules i name) : findTarget parsed.get name = some i := by
  apply findTarget_of_unique
  · obtain ⟨line, hline, hname, -⟩ := exists_rule h i
    have hwritten := (honly i).mpr rfl
    rw [hline, Option.map_some, Option.some.injEq] at hwritten
    rw [hname, ← writtenName_of_noBlanks (hplain line (List.mem_of_getElem? hline)), hwritten]
  · intro j hj
    obtain ⟨line, hline, hname, -⟩ := exists_rule h j
    apply Fin.ext
    apply (honly j).mp
    rw [hline, Option.map_some, writtenName_of_noBlanks (hplain line (List.mem_of_getElem? hline)),
      ← hname, hj]

/-- Where all names resolve, no blank stands before a colon and no tab behind it. -/
theorem NamesResolve.plain (hresolve : NamesResolve rules parsed)
    (h : parsed.map (fun target => (target.targetName, target.dependencyNames)) =
      rules.map fun line => (ruleName line, tokens (· = space) (ruleTail line))) {line :
        CString} (hline : line ∈ rules) :
    NoBlanks (ruleName line) ∧ tab ∉ ruleTail line := by
  have hlength : parsed.length = rules.length := by simpa using congrArg List.length h
  obtain ⟨i, hi, rfl⟩ := List.mem_iff_getElem.mp hline
  obtain ⟨line, hline, hname, hdependencies⟩ := exists_rule h ⟨i, by omega⟩
  rw [List.getElem?_eq_getElem hi, Option.some.injEq] at hline
  rw [hline]
  have hmem : parsed.get ⟨i, by omega⟩ ∈ parsed := List.get_mem _ _
  constructor
  · rw [← hname]
    exact hresolve.names _ hmem
  · intro htab
    obtain ⟨name, hname, htab'⟩ := exists_mem_tokens (p := fun c => decide (c = space)) htab (by decide)
    rw [← hdependencies] at hname
    have hblank := hresolve.dependencies _ hmem name hname tab htab'
    exact absurd hblank (by decide)

/-- Where no blank stands before a colon and no tab behind it, all names resolve. -/
theorem namesResolve_of_plain
    (h : parsed.map (fun target => (target.targetName, target.dependencyNames)) =
      rules.map fun line => (ruleName line, tokens (· = space) (ruleTail line)))
    (hplain : ∀ line ∈ rules, NoBlanks (ruleName line) ∧ tab ∉ ruleTail line) :
    NamesResolve rules parsed := by
  have hfind (i : Fin parsed.length) (name : CString) (honly : OnlyRule rules i name) :
      findTarget parsed.get name = some i := findTarget_of_onlyRule h
      (fun line hline => (hplain line hline).1) honly
  constructor
  · intro target hmem
    obtain ⟨i, rfl⟩ := List.get_of_mem hmem
    obtain ⟨line, hline, hname, -⟩ := exists_rule h i
    rw [hname]
    exact (hplain line (List.mem_of_getElem? hline)).1
  · intro target hmem name hname c hc
    obtain ⟨i, rfl⟩ := List.get_of_mem hmem
    obtain ⟨line, hline, -, hdependencies⟩ := exists_rule h i
    rw [hdependencies] at hname
    obtain ⟨-, hspaces, hwithin⟩ := mem_tokens hname
    have htab : c ≠ tab := ne_of_mem_of_not_mem (hwithin.subset hc)
        (hplain line (List.mem_of_getElem? hline)).2
    have hspace : c ≠ space := by simpa using hspaces c hc
    simp [isBlank, hspace, htab]
  · exact fun i name _ honly => hfind i name honly
  · intro i name _ honly j line k hline hk
    obtain ⟨line', hline', -, hdependencies⟩ := exists_rule h j
    obtain rfl := Option.some.inj (hline.symm.trans hline')
    rw [writtenDependencies_of_not_mem (hplain line (List.mem_of_getElem? hline)).2,
      ← hdependencies] at hk
    exact ⟨name, hk, hfind i name honly⟩

end Entries

/-- The names of an accepted makefile resolve whatever the blanks around them exactly when no blank
stands before the colon of a rule, apart from the leading spaces, and no tab behind it. -/
theorem namesResolve_iff {content : List UInt8} {result : ParseResult maxNodes}
    (h : parse content zeroedTable = some result) (hret : result.ret ≠ -1) :
    NamesResolve (ruleLines content) result.parsed ↔
      ∀ line ∈ ruleLines content, NoBlanks (ruleName line) ∧ tab ∉ ruleTail line := by
  have hentries : result.parsed.map (fun target => (target.targetName, target.dependencyNames)) =
      (ruleLines content).map fun line => (ruleName line, tokens (· = space) (ruleTail line)) := by
    have hlines : makefileLines content = ((fileLines 1024 content).map cString).map lineOf := by
      rw [makefileLines, List.map_map]
      rfl
    rw [parsed_eq h hret, hlines, targetsOf_map_lineOf, ruleLines]
  constructor
  · intro hresolve line hline
    exact hresolve.plain hentries hline
  · exact namesResolve_of_plain hentries

/-- A makefile with a space between a name and its colon. -/
def spacedRule : List UInt8 := bytes "all : a\n"

/-- It is accepted, and the name is stored with the space. -/
theorem not_namesResolve_spacedRule :
    ∃ result : ParseResult maxNodes, parse spacedRule zeroedTable = some result ∧ result.ret ≠ -1 ∧
      ¬ NamesResolve (ruleLines spacedRule) result.parsed := by
  have hname : (parse spacedRule (zeroedTable : Fin maxNodes → TargetEntry)).map
      (fun result => (result.ret, result.parsed.map Target.targetName)) = some (1, [bytes "all "]) := by
    decide +kernel
  obtain ⟨result, hparse, hresult⟩ := Option.map_eq_some_iff.mp hname
  obtain ⟨hret, hnames⟩ := Prod.mk.inj hresult
  refine ⟨result, hparse, by rw [hret]; decide, ?_⟩
  intro hresolve
  obtain ⟨target, hmem, htarget⟩ := List.mem_map.mp (hnames ▸ List.mem_singleton_self _ :
      bytes "all " ∈ _)
  have hblank := hresolve.names target hmem space (by rw [htarget]; decide)
  exact absurd hblank (by decide)

/-- The names of a makefile without further blanks resolve. -/
theorem namesResolve_iff_oneRule :
    ∃ result : ParseResult maxNodes, parse oneRule zeroedTable = some result ∧ result.ret ≠ -1 ∧
      NamesResolve (ruleLines oneRule) result.parsed := by
  have hret : (parse oneRule (zeroedTable : Fin maxNodes → TargetEntry)).map (·.ret) = some 1 := by
    decide +kernel
  obtain ⟨result, hparse, hone⟩ := Option.map_eq_some_iff.mp hret
  have hne : result.ret ≠ -1 := by
    rw [hone]
    decide
  have hplain : ∀ line ∈ ruleLines oneRule, NoBlanks (ruleName line) ∧ tab ∉ ruleTail line := by
    unfold NoBlanks
    decide +kernel
  exact ⟨result, hparse, hne, (namesResolve_iff hparse hne).mpr hplain⟩

end Csci4061.Make
