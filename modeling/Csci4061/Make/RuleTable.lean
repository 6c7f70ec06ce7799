import Csci4061.Make.Grammar

/-!
# The rules of a makefile and their table

The abstract parser keeps the rules found so far as a list. The last of them is apart from the
others as long as it may still get its command: in terms of the source, `pTarget` points to it
exactly when the flag is set, and to the first free entry otherwise. A line is stored, is
rejected, or overruns the table.

The table of the source holds the rules in order, and its other entries are still zero. This is
what detects a misplaced command, by the empty name of the free entry which it looks at.
`parse_refines` relates the two parsers for all files.
-/

namespace Csci4061.Make

open Csci4061.Lib

/-- The rules up to some line: those which are complete, and the one which may get a command. -/
structure Parsed where
  complete : List Target
  current : Option Target

/-- All the rules, in order. -/
def Parsed.rules (p : Parsed) : List Target := p.complete ++ p.current.toList

/-- Before the first line there are no rules. -/
def Parsed.empty : Parsed := ⟨[], none⟩

/-- What comes out of a part of a makefile. -/
inductive Outcome
  | overrun
  | rejected
  | accepted (p : Parsed)

/-- The strings of a rule fit the fields of an entry. -/
def RuleFits (name : CString) (dependencies : List CString) : Prop :=
  name.length < 64 ∧ dependencies.length ≤ 10 ∧ ∀ dependency ∈ dependencies, dependency.length < 64

instance (name : CString) (dependencies : List CString) : Decidable (RuleFits name dependencies) :=
  inferInstanceAs (Decidable (_ ∧ _ ∧ _))

/-- One line, for a table of `n` entries. -/
def Parsed.step (n : ℕ) (p : Parsed) : Line → Outcome
  | .skipped => .accepted p
  | .command text =>
    match p.current with
    | some rule =>
      if text.length < 256 then .accepted ⟨p.complete ++ [{ rule with command := text }], none⟩
        else .overrun
    | none => if p.rules.length < n then .rejected else .overrun
  | .rule name dependencies =>
    if p.rules.length < n ∧ RuleFits name dependencies
      then .accepted ⟨p.rules, some ⟨name, dependencies, []⟩⟩
    else .overrun
  | .malformed => .rejected

/-- The lines one after the other. -/
def Parsed.run (n : ℕ) : List Line → Parsed → Outcome
  | [], p => .accepted p
  | line :: lines, p =>
    match p.step n line with
    | .accepted p' => Parsed.run n lines p'
    | .rejected => .rejected
    | .overrun => .overrun

/-- The strings of a line have no NUL, and a rule has a name. -/
def Line.Clean : Line → Prop
  | .command text => 0 ∉ text
  | .rule name dependencies => name ≠ [] ∧ 0 ∉ name ∧ ∀ dependency ∈ dependencies, 0 ∉ dependency
  | _ => True

variable {n : ℕ}

/-- The first entries of the table are the rules, and the others are zero. -/
structure Holds (targets : Fin n → TargetEntry) (rules : List Target) : Prop where
  length_le : rules.length ≤ n
  stored : ∀ i : Fin n, i < rules.length → rules[i.val]? = some (targets i).target
  untouched : ∀ i : Fin n, rules.length ≤ i → targets i = .zeroed

/-- The variables of `parse` after some lines. -/
structure Represents (s : ParseState n) (p : Parsed) : Prop where
  holds : Holds s.targets p.rules
  pointer : s.pTarget = p.complete.length
  flag : s.nPreviousTarget = p.current.isSome
  count : s.nTargetCount = p.rules.length
  named : ∀ rule ∈ p.current, rule.targetName ≠ []

/-- A step of the source does what a step of the abstract parser says. -/
def StepRefines (result : Option (Except ParseError (ParseState n))) : Outcome → Prop
  | .overrun => result = none
  | .rejected => ∃ error, result = some (.error error)
  | .accepted p => ∃ s, result = some (.ok s) ∧ Represents s p

/-- `parse` does what the abstract parser says. -/
def ResultRefines (result : Option (ParseResult n)) : Outcome → Prop
  | .overrun => result = none
  | .rejected => ∃ targets error, result = some ⟨-1, targets, some error⟩
  | .accepted p => ∃ targets, result = some ⟨p.rules.length, targets, none⟩ ∧ Holds targets p.rules

/-- A dependency is stored behind those in use, when there is room for it. -/
theorem storeDependency_of_fits {target : TargetEntry} {name : CString} (hzero : 0 ∉ name)
    (hcount : target.dependencyCount < 10) (hname : name.length < 64) :
    ∃ target', storeDependency target name = some target' ∧
      target'.dependencyCount = target.dependencyCount + 1 ∧
        target'.dependencies = target.dependencies ++ [name] ∧
      target'.targetName = target.targetName ∧ target'.command = target.command := by
  obtain ⟨cell, hcopied, hcell⟩ := (target.dependencyNames ⟨_, hcount⟩).strcpy_of_lt hzero hname
  refine ⟨{ target with
      dependencyNames := Function.update target.dependencyNames ⟨_, hcount⟩ cell
      dependencyCount := target.dependencyCount + 1 }, ?_, rfl, ?_, rfl, rfl⟩
  · simp only [storeDependency, readCell_of_lt _ hcount, hcopied, writeCell_of_lt _ _ hcount,
      Option.bind_eq_bind, Option.bind_some]
  · have hlength : target.dependencyCount < (List.finRange 10).length := by simpa using hcount
    rw [TargetEntry.dependencies, List.take_succ_eq_append_getElem hlength, List.map_append,
      TargetEntry.dependencies]
    congr 1
    · apply List.map_congr_left
      intro i hi
      have hlt : i.val < target.dependencyCount := by
        obtain ⟨j, hj, rfl⟩ := List.mem_iff_getElem.mp hi
        rw [List.length_take] at hj
        simp only [List.getElem_take, List.getElem_finRange, Fin.val_cast]
        omega
      have hne : i ≠ ⟨target.dependencyCount, hcount⟩ := by
        rintro rfl
        exact Nat.lt_irrefl _ hlt
      simp only [Function.update_of_ne hne]
    · simp [hcell]

/-- Otherwise it leaves the entry. -/
theorem storeDependency_overrun {target : TargetEntry} {name : CString}
    (h : ¬ (target.dependencyCount < 10 ∧ name.length < 64)) : storeDependency target name = none := by
  by_cases hcount : target.dependencyCount < 10
  · have hname : 64 ≤ name.length := Nat.le_of_not_lt fun hlt => h ⟨hcount, hlt⟩
    simp only [storeDependency, readCell_of_lt _ hcount, StringBuffer.strcpy_of_le _ hname,
      Option.bind_eq_bind, Option.bind_some, Option.bind_none]
  · simp only [storeDependency, readCell_of_le _ (Nat.le_of_not_lt hcount), Option.bind_eq_bind,
      Option.bind_none]

/-- The dependencies are stored in order, when there is room for all of them. -/
theorem storeNames_of_fits {names : List CString} {target : TargetEntry}
    (hzero : ∀ name ∈ names, 0 ∉ name) (hcount : target.dependencyCount + names.length ≤ 10)
    (hnames : ∀ name ∈ names, name.length < 64) :
    ∃ target', storeNames names target = some target' ∧
      target'.dependencies = target.dependencies ++ names ∧
      target'.targetName = target.targetName ∧ target'.command = target.command := by
  induction names generalizing target with
  | nil => exact ⟨target, rfl, (List.append_nil _).symm, rfl, rfl⟩
  | cons name names ih =>
    rw [List.forall_mem_cons] at hzero hnames
    rw [List.length_cons] at hcount
    obtain ⟨target₁, hstored, hcount₁, hdeps₁, hname₁, hcommand₁⟩ :=
      storeDependency_of_fits hzero.1 (by omega : target.dependencyCount < 10) hnames.1
    obtain ⟨target₂, hrest, hdeps₂, hname₂, hcommand₂⟩ :=
      ih hzero.2 (by omega : target₁.dependencyCount + _ ≤ 10) hnames.2
    refine ⟨target₂, ?_, ?_, hname₂.trans hname₁, hcommand₂.trans hcommand₁⟩
    · simp only [storeNames, hstored, Option.bind_eq_bind, Option.bind_some, hrest]
    · rw [hdeps₂, hdeps₁, List.append_assoc, List.singleton_append]

/-- Otherwise one of them leaves the entry. -/
theorem storeNames_overrun {names : List CString} {target : TargetEntry}
    (hzero : ∀ name ∈ names, 0 ∉ name) (hle : target.dependencyCount ≤ 10)
    (h : ¬ (target.dependencyCount + names.length ≤ 10 ∧ ∀ name ∈ names, name.length < 64)) :
    storeNames names target = none := by
  induction names generalizing target with
  | nil => exact absurd ⟨hle, by simp⟩ h
  | cons name names ih =>
    rw [List.forall_mem_cons] at hzero
    by_cases hfirst : target.dependencyCount < 10 ∧ name.length < 64
    · obtain ⟨target₁, hstored, hcount₁, -⟩ := storeDependency_of_fits hzero.1 hfirst.1 hfirst.2
      simp only [storeNames, hstored, Option.bind_eq_bind, Option.bind_some]
      apply ih hzero.2 (by omega)
      rintro ⟨hcount, hnames⟩
      apply h
      rw [List.length_cons, List.forall_mem_cons]
      exact ⟨by omega, hfirst.2, hnames⟩
    · simp only [storeNames, storeDependency_overrun hfirst, Option.bind_eq_bind, Option.bind_none]

/-- Writing the first free entry adds a rule, and writing the last entry in use replaces one. -/
theorem Holds.write {targets : Fin n → TargetEntry} {rules last : List Target}
    (h : Holds targets (rules ++ last)) (hlast : last.length ≤ 1) (hlength : rules.length < n)
    (entry : TargetEntry) :
    Holds (Function.update targets ⟨rules.length, hlength⟩ entry) (rules ++ [entry.target]) where
  length_le := by
    rw [List.length_append, List.length_singleton]
    exact hlength
  stored := by
    intro i hi
    rw [List.length_append, List.length_singleton] at hi
    by_cases heq : i.val = rules.length
    · obtain rfl : i = ⟨rules.length, hlength⟩ := Fin.ext heq
      rw [Function.update_self, List.getElem?_concat_length]
    · have hlt : i.val < rules.length := by omega
      have hne : i ≠ ⟨rules.length, hlength⟩ := fun hi => heq (congrArg Fin.val hi)
      have hold := h.stored i (by rw [List.length_append]; omega)
      rw [List.getElem?_append_left hlt] at hold ⊢
      rw [Function.update_of_ne hne, hold]
  untouched := by
    intro i hi
    rw [List.length_append, List.length_singleton] at hi
    have hne : i ≠ ⟨rules.length, hlength⟩ := by
      rintro rfl
      exact absurd hi (Nat.not_succ_le_self _)
    rw [Function.update_of_ne hne]
    exact h.untouched i (by rw [List.length_append]; omega)

/-- The zeroed table holds no rules. -/
theorem holds_zeroedTable : Holds (zeroedTable : Fin n → TargetEntry) [] where
  length_le := Nat.zero_le n
  stored := by
    intro i hi
    exact absurd hi (Nat.not_lt_zero _)
  untouched := fun _ _ => rfl

/-- A zeroed entry has no name. -/
theorem zeroed_targetName : TargetEntry.zeroed.targetName.string = [] := StringBuffer.string_zeroed 64

/-- Without a current rule all rules are complete. -/
theorem Parsed.rules_of_none {p : Parsed} (h : p.current = none) : p.rules = p.complete := by
  rw [Parsed.rules, h]
  exact List.append_nil _

/-- The current rule is the last one. -/
theorem Parsed.rules_of_some {p : Parsed} {rule : Target} (h : p.current = some rule) :
    p.rules = p.complete ++ [rule] := by
  rw [Parsed.rules, h]
  rfl

/-- The entry of the current rule, where the pointer is. -/
theorem Represents.current_target {s : ParseState n} {p : Parsed} (h : Represents s p) {rule : Target}
    (hrule : p.current = some rule) :
    ∃ hlength : p.complete.length < n, (s.targets ⟨p.complete.length, hlength⟩).target = rule := by
  have hrules := Parsed.rules_of_some hrule
  have hlength : p.complete.length < n := by
    have hle := h.holds.length_le
    rw [hrules, List.length_append, List.length_singleton] at hle
    exact hle
  have hstored := h.holds.stored ⟨p.complete.length, hlength⟩ (by simp [hrules])
  simp only [hrules, List.getElem?_concat_length] at hstored
  exact ⟨hlength, (Option.some.inj hstored).symm⟩

/-- Counting a line changes nothing which the rules depend on. -/
theorem Represents.nextLine {s : ParseState n} {p : Parsed} (h : Represents s p) :
    Represents { s with nLine := s.nLine + 1 } p := ⟨h.holds, h.pointer, h.flag, h.count, h.named⟩

/-- A command which no rule waits for is rejected by the empty name of the free entry, if there is
one. -/
theorem parseCommand_refines_none {s : ParseState n} {p : Parsed} (h : Represents s p)
    (hcurrent : p.current = none) (text : CString) :
    StepRefines (parseCommand s text) (p.step n (.command text)) := by
  have hrules := Parsed.rules_of_none hcurrent
  simp only [Parsed.step, hcurrent, hrules]
  by_cases hlength : p.complete.length < n
  · rw [if_pos hlength]
    have hentry : s.targets ⟨p.complete.length, hlength⟩ = .zeroed :=
      h.holds.untouched _ (by rw [hrules])
    refine ⟨multipleCommands s.nLine, ?_⟩
    simp only [parseCommand, h.pointer, readCell_of_lt _ hlength, hentry, zeroed_targetName,
      Option.bind_eq_bind, Option.bind_some, List.length_nil, if_true]
  · rw [if_neg hlength]
    simp only [StepRefines, parseCommand, h.pointer, readCell_of_le _ (Nat.le_of_not_lt hlength),
      Option.bind_eq_bind, Option.bind_none]

/-- The command of the current rule is stored in its entry, if it fits. -/
theorem parseCommand_refines_some {s : ParseState n} {p : Parsed} (h : Represents s p) {rule : Target}
    (hcurrent : p.current = some rule) {text : CString} (hzero : 0 ∉ text) :
    StepRefines (parseCommand s text) (p.step n (.command text)) := by
  obtain ⟨hpointer, hentry⟩ := h.current_target hcurrent
  have hrules := Parsed.rules_of_some hcurrent
  have hname : (s.targets ⟨p.complete.length, hpointer⟩).targetName.string.length ≠ 0 := by
    have hne := h.named rule hcurrent
    rw [← hentry] at hne
    exact fun hlength => hne (List.length_eq_zero_iff.mp hlength)
  simp only [Parsed.step, hcurrent]
  by_cases hlength : text.length < 256
  · rw [if_pos hlength]
    obtain ⟨command, hcopied, hcommand⟩ :=
      (s.targets ⟨p.complete.length, hpointer⟩).command.strcpy_of_lt hzero hlength
    have hwritten := h.holds
    rw [hrules] at hwritten
    refine ⟨{ s with
      targets := Function.update s.targets ⟨p.complete.length, hpointer⟩
        { s.targets ⟨p.complete.length, hpointer⟩ with command }
      nPreviousTarget := false
      pTarget := s.pTarget + 1 }, ?_, ?_, ?_, rfl, ?_, by simp⟩
    · simp only [parseCommand, h.pointer, readCell_of_lt _ hpointer, if_neg hname, hcopied,
        writeCell_of_lt _ _ hpointer, Option.bind_eq_bind, Option.bind_some]
    · have hnew := hwritten.write
          (Nat.le_refl 1) hpointer { s.targets ⟨p.complete.length, hpointer⟩ with command }
      have htarget : TargetEntry.target { s.targets ⟨p.complete.length, hpointer⟩ with command } =
          { rule with command := text } := by
        rw [← hentry, ← hcommand]
        rfl
      rw [htarget] at hnew
      simpa [Parsed.rules] using hnew
    · simp [h.pointer]
    · rw [h.count, hrules]
      simp [Parsed.rules]
  · rw [if_neg hlength]
    simp only [StepRefines, parseCommand, h.pointer, readCell_of_lt _ hpointer, if_neg hname,
      StringBuffer.strcpy_of_le _ (Nat.le_of_not_lt hlength), Option.bind_eq_bind, Option.bind_some,
        Option.bind_none]

/-- A command is stored for the current rule, or rejected. -/
theorem parseCommand_refines {s : ParseState n} {p : Parsed} (h : Represents s p) {text : CString}
    (hzero : 0 ∉ text) :
    StepRefines (parseCommand s text) (p.step n (.command text)) := by
  cases hcurrent : p.current with
  | none => exact parseCommand_refines_none h hcurrent text
  | some rule => exact parseCommand_refines_some h hcurrent hzero

/-- A rule is stored in the first free entry, if its strings fit. -/
theorem storeRule_refines {s : ParseState n} {p : Parsed} (h : Represents s p) {name : CString}
    {dependencies : List CString} (hname : name ≠ []) (hzero : 0 ∉ name)
    (hzeros : ∀ d ∈ dependencies, 0 ∉ d) :
    StepRefines (storeRule s name dependencies) (p.step n (.rule name dependencies)) := by
  have hpointer : (if s.nPreviousTarget then s.pTarget + 1 else s.pTarget) = p.rules.length := by
    rw [h.flag, h.pointer, Parsed.rules, List.length_append]
    cases p.current <;> simp
  simp only [Parsed.step, storeRule, hpointer]
  by_cases hlength : p.rules.length < n
  · have hentry : s.targets ⟨p.rules.length, hlength⟩ = .zeroed := h.holds.untouched _ (Nat.le_refl _)
    simp only [readCell_of_lt _ hlength, hentry, Option.bind_eq_bind, Option.bind_some]
    by_cases hlong : name.length < 64
    · obtain ⟨targetName, hcopied, hstring⟩ := TargetEntry.zeroed.targetName.strcpy_of_lt hzero hlong
      have hcount : TargetEntry.dependencyCount { TargetEntry.zeroed with targetName } = 0 := rfl
      by_cases hfits : dependencies.length ≤ 10 ∧ ∀ d ∈ dependencies, d.length < 64
      · have hroom : TargetEntry.dependencyCount { TargetEntry.zeroed with targetName } +
            dependencies.length ≤ 10 := by
          rw [hcount, Nat.zero_add]
          exact hfits.1
        obtain ⟨target, hstored, hdependencies, hkeptName, hkeptCommand⟩ :=
          storeNames_of_fits hzeros hroom hfits.2
        rw [if_pos ⟨hlength, hlong, hfits⟩]
        simp only [hcopied, hstored, writeCell_of_lt _ _ hlength, Option.bind_some]
        refine ⟨_, rfl, ?_, rfl, rfl, ?_, ?_⟩
        · have hold := h.holds
          rw [← List.append_nil p.rules] at hold
          have hnew := hold.write (Nat.zero_le 1) hlength target
          have htarget : target.target = ⟨name, dependencies, []⟩ := by
            rw [TargetEntry.target, hdependencies, hkeptName, hkeptCommand, hstring]
            congr 1
          rw [htarget] at hnew
          exact hnew
        · simp [h.count, Parsed.rules, Nat.add_assoc]
        · simpa using hname
      · have hover : ¬ (TargetEntry.dependencyCount { TargetEntry.zeroed with targetName } +
            dependencies.length ≤ 10 ∧ ∀ d ∈ dependencies, d.length < 64) := by
          rw [hcount, Nat.zero_add]
          exact hfits
        rw [if_neg fun hall => hfits hall.2.2]
        simp only [StepRefines, hcopied, storeNames_overrun hzeros (hcount ▸ Nat.zero_le 10) hover,
          Option.bind_some, Option.bind_none]
    · rw [if_neg fun hall => hlong hall.2.1]
      simp only [StepRefines, StringBuffer.strcpy_of_le _ (Nat.le_of_not_lt hlong), Option.bind_none]
  · rw [if_neg fun hall => hlength hall.1]
    simp only [StepRefines, readCell_of_le _ (Nat.le_of_not_lt hlength), Option.bind_eq_bind,
      Option.bind_none]

/-- The body of the loop does what the abstract step says. -/
theorem parseStep_refines {s : ParseState n} {p : Parsed} (h : Represents s p) {line : Line}
    (hclean : line.Clean) :
    StepRefines (parseStep s line) (p.step n line) := by
  cases line with
  | skipped => exact ⟨_, rfl, h.nextLine⟩
  | command text => exact parseCommand_refines h.nextLine hclean
  | rule name dependencies => exact storeRule_refines h.nextLine hclean.1 hclean.2.1 hclean.2.2
  | malformed => exact ⟨_, rfl⟩

/-- The loop does what the abstract run says. -/
theorem runLines_refines {lines : List Line} (hclean : ∀ line ∈ lines, line.Clean) {s : ParseState n}
    {p : Parsed} (h : Represents s p) : ResultRefines (runLines lines s) (Parsed.run n lines p) := by
  induction lines generalizing s p with
  | nil => exact ⟨s.targets, by rw [runLines, h.count], h.holds⟩
  | cons line lines ih =>
    rw [List.forall_mem_cons] at hclean
    have hstep := parseStep_refines h hclean.1
    rw [runLines, Parsed.run]
    cases houtcome : p.step n line with
    | overrun =>
      rw [houtcome] at hstep
      rw [show parseStep s line = none from hstep]
      rfl
    | rejected =>
      rw [houtcome] at hstep
      obtain ⟨error, herror⟩ := hstep
      exact ⟨s.targets, error, by rw [herror]; rfl⟩
    | accepted p' =>
      rw [houtcome] at hstep
      obtain ⟨s', hs', hrepresents⟩ := hstep
      rw [hs']
      exact ih hclean.2 hrepresents

/-- A name which starts is not empty. -/
theorem ruleName_ne_nil {line : CString} (h : ruleText line ≠ []) : ruleName line ≠ [] := by
  obtain ⟨c, cs, hc⟩ := List.exists_cons_of_ne_nil h
  have hhead := List.head?_dropWhile_not (· = colon) (lineText line)
  rw [← ruleText, hc] at hhead
  have hcolon : c ≠ colon := by simpa using hhead
  rw [ruleName, hc, List.takeWhile_cons_of_pos (by simpa using hcolon)]
  exact List.cons_ne_nil _ _

/-- The kind of a line is clean. -/
theorem lineOf_clean {line : CString} (hzero : 0 ∉ line) : (lineOf line).Clean := by
  have htext : 0 ∉ lineText line := fun hmem => hzero ((List.dropWhile_sublist _).subset hmem)
  have hrule : 0 ∉ ruleText line := fun hmem => htext ((List.dropWhile_sublist _).subset hmem)
  rw [lineOf]
  split
  · trivial
  · split
    · exact fun hmem => htext (List.mem_of_mem_tail hmem)
    · split
      · trivial
      · rename_i hnamed
        rw [not_or, not_not, ← dropWhile_colon_eq_nil] at hnamed
        refine ⟨ruleName_ne_nil hnamed.2, fun hmem => hrule ((List.takeWhile_sublist _).subset hmem), ?_⟩
        intro d hd hmem
        have htail : 0 ∈ ruleTail line := (mem_tokens hd).2.2.subset hmem
        exact hrule ((List.dropWhile_sublist _).subset (List.mem_of_mem_tail htail))

/-- `parse` on a zeroed table does what the abstract run says. -/
theorem parse_refines (content : List UInt8) :
    ResultRefines (parse content (zeroedTable : Fin n → TargetEntry))
      (Parsed.run n (makefileLines content) .empty) := by
  rw [parse_eq]
  apply runLines_refines
  · intro line hline
    obtain ⟨piece, -, rfl⟩ := List.mem_map.mp hline
    exact lineOf_clean (zero_not_mem_cString piece)
  · exact ⟨holds_zeroedTable, rfl, rfl, rfl, by simp [Parsed.empty]⟩

end Csci4061.Make
