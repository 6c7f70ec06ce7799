import Csci4061.Lib.Bracket
import Csci4061.Make.RuleTable
import Mathlib.Data.List.Induction

/-!
# What the parser recognises

The grammar of makefiles says which lines are not allowed where they stand, and which targets
the rules of a file are. A run of the abstract parser stops at the first line which is not
allowed or does not fit, and otherwise ends with these targets.
-/

namespace Csci4061.Make

open Csci4061.Lib

/-- The line is a rule. -/
def Line.isRule : Line → Bool
  | .rule _ _ => true
  | _ => false

/-- The number of rules. -/
def ruleCount (lines : List Line) : ℕ := lines.countP Line.isRule

/-- The next command is the first one after some rule. -/
def AwaitsCommand (lines : List Line) : Prop :=
  ∃ before name dependencies after, lines = before ++ .rule name dependencies :: after ∧
    ∀ text, .command text ∉ after

/-- The line is not allowed behind other lines. -/
def Misplaced (before : List Line) : Line → Prop
  | .malformed => True
  | .command _ => ¬ AwaitsCommand before
  | _ => False

/-- Some line is not allowed where it stands. -/
def Malformed (lines : List Line) : Prop :=
  ∃ before line after, lines = before ++ line :: after ∧ Misplaced before line

/-- The command before the next rule, or the empty string. -/
def commandOf : List Line → CString
  | [] => []
  | .command text :: _ => text
  | .rule _ _ :: _ => []
  | _ :: lines => commandOf lines

/-- The targets of the rules, in order. -/
def targetsOf : List Line → List Target
  | [] => []
  | .rule name dependencies :: lines => ⟨name, dependencies, commandOf lines⟩ :: targetsOf lines
  | _ :: lines => targetsOf lines

/-- A line which is looked at behind other lines stays inside a table of `n` entries. -/
def Fits (n : ℕ) (before : List Line) : Line → Prop
  | .command text =>
    (AwaitsCommand before → text.length < 256) ∧ (¬ AwaitsCommand before → ruleCount before < n)
  | .rule name dependencies => ruleCount before < n ∧ RuleFits name dependencies
  | _ => True

/-- All lines are allowed where they stand, and fit. -/
def Stored (n : ℕ) (lines : List Line) : Prop :=
  ∀ before line after, lines = before ++ line :: after → Fits n before line ∧ ¬ Misplaced before line

variable {n : ℕ}

/-- The rules of the abstract parser after some lines. -/
structure Parsed.After (p : Parsed) (lines : List Line) : Prop where
  awaits : p.current.isSome ↔ AwaitsCommand lines
  count : p.rules.length = ruleCount lines

/-- Which rule awaits a command depends on the last line, unless this is skipped. -/
theorem awaitsCommand_concat (lines : List Line) (line : Line) :
    AwaitsCommand (lines ++ [line]) ↔ line.isRule ∨ (∀ text, line ≠ .command text) ∧
    AwaitsCommand lines := by
  constructor
  · rintro ⟨before, name, dependencies, after, heq, hnone⟩
    rcases concat_eq_append_cons heq with ⟨-, hline, -⟩ | ⟨middle, rfl, rfl⟩
    · rw [← hline]
      exact Or.inl rfl
    · right
      constructor
      · rintro text rfl
        exact hnone text (by simp)
      · exact ⟨before, name, dependencies, middle, rfl, fun text hmem => hnone text (by simp [hmem])⟩
  · rintro (hrule | ⟨hcommand, before, name, dependencies, after, rfl, hnone⟩)
    · cases line with
      | rule name dependencies => exact ⟨lines, name, dependencies, [], rfl, by simp⟩
      | skipped => exact absurd hrule Bool.false_ne_true
      | command text => exact absurd hrule Bool.false_ne_true
      | malformed => exact absurd hrule Bool.false_ne_true
    · refine ⟨before, name, dependencies, after ++ [line], by simp, ?_⟩
      intro text hmem
      rcases List.mem_append.mp hmem with hmem | hmem
      · exact hnone text hmem
      · exact hcommand text (List.mem_singleton.mp hmem).symm

/-- One more line counts if it is a rule. -/
theorem ruleCount_concat (lines : List Line) (line : Line) :
    ruleCount (lines ++ [line]) = ruleCount lines + if line.isRule then 1 else 0 := by
  rw [ruleCount, List.countP_append, List.countP_singleton]
  rfl

/-- What a step does to a line, in terms of the lines before it. -/
theorem Parsed.After.step {p : Parsed} {before : List Line} (h : p.After before) (line : Line) :
    (p.step n line = .overrun ∧ ¬ Fits n before line) ∨
    (p.step n line = .rejected ∧ Fits n before line ∧ Misplaced before line) ∨
    ∃ p', p.step n line = .accepted p' ∧ Fits n before line ∧ ¬ Misplaced before line ∧
      p'.After (before ++ [line]) := by
  cases line with
  | skipped =>
    refine Or.inr (Or.inr ⟨p, rfl, trivial, not_false, ?_, ?_⟩)
    · rw [awaitsCommand_concat, h.awaits]
      simp [Line.isRule]
    · rw [ruleCount_concat, h.count]
      rfl
  | malformed => exact Or.inr (Or.inl ⟨rfl, trivial, trivial⟩)
  | command text =>
    cases hcurrent : p.current with
    | none =>
      have hawaits : ¬ AwaitsCommand before := by
        rw [← h.awaits, hcurrent]
        exact Bool.false_ne_true
      simp only [Parsed.step, hcurrent, Fits, hawaits, not_false_eq_true, forall_true_left,
        false_imp_iff, true_and, Misplaced, h.count]
      by_cases hlength : ruleCount before < n
      · exact Or.inr (Or.inl ⟨if_pos hlength, hlength, trivial⟩)
      · exact Or.inl ⟨if_neg hlength, hlength⟩
    | some rule =>
      have hawaits : AwaitsCommand before := by
        rw [← h.awaits, hcurrent]
        rfl
      simp only [Parsed.step, hcurrent, Fits, hawaits, not_true_eq_false, forall_true_left,
        false_imp_iff, and_true, Misplaced, not_false_eq_true, true_and]
      by_cases hlength : text.length < 256
      · refine Or.inr (Or.inr ⟨_, if_pos hlength, hlength, ?_, ?_⟩)
        · rw [awaitsCommand_concat]
          simp [Line.isRule]
        · rw [ruleCount_concat, ← h.count]
          simp [Parsed.rules, hcurrent, Line.isRule]
      · exact Or.inl ⟨if_neg hlength, hlength⟩
  | rule name dependencies =>
    simp only [Parsed.step, Fits, h.count, Misplaced]
    by_cases hfits : ruleCount before < n ∧ RuleFits name dependencies
    · refine Or.inr (Or.inr ⟨_, if_pos hfits, hfits, not_false, ?_, ?_⟩)
      · rw [awaitsCommand_concat]
        simp [Line.isRule]
      · rw [ruleCount_concat, ← h.count]
        simp [Parsed.rules, Line.isRule, Nat.add_assoc]
    · exact Or.inl ⟨if_neg hfits, hfits⟩

/-- The lines of a file are processed in order. -/
theorem Parsed.run_append (before lines : List Line) (p : Parsed) :
    Parsed.run n (before ++ lines) p =
      match Parsed.run n before p with
      | .accepted p' => Parsed.run n lines p'
      | .rejected => .rejected
      | .overrun => .overrun := by
  induction before generalizing p with
  | nil => rfl
  | cons line before ih =>
    rw [List.cons_append, Parsed.run, Parsed.run]
    cases p.step n line with
    | accepted p' => exact ih p'
    | rejected => rfl
    | overrun => rfl

/-- Lines which are all stored are well formed. -/
theorem Stored.not_malformed {lines : List Line} (h : Stored n lines) : ¬ Malformed lines := by
  rintro ⟨before, line, after, heq, hmisplaced⟩
  exact (h before line after heq).2 hmisplaced

/-- One more line is stored behind stored ones. -/
theorem Stored.concat {lines : List Line} {last : Line} (h : Stored n lines) (hfits : Fits n lines last)
    (hplaced : ¬ Misplaced lines last) : Stored n (lines ++ [last]) := by
  intro before line after heq
  rcases concat_eq_append_cons heq with ⟨rfl, rfl, -⟩ | ⟨middle, -, hlines⟩
  · exact ⟨hfits, hplaced⟩
  · exact h before line middle hlines

/-- Where a run ends: after all lines, which are allowed and fit, or at the first line which is not
allowed or does not fit. -/
theorem run_cases (lines : List Line) :
    (∃ p, Parsed.run n lines .empty = .accepted p ∧ p.After lines ∧ Stored n lines) ∨
    ∃ before line after, lines = before ++ line :: after ∧ Stored n before ∧
      (Parsed.run n lines .empty = .overrun ∧ ¬ Fits n before line ∨
        Parsed.run n lines .empty = .rejected ∧ Fits n before line ∧ Misplaced before line) := by
  induction lines using List.reverseRecOn with
  | nil =>
    left
    refine ⟨.empty, rfl, ⟨?_, rfl⟩, fun before line after heq => by simp at heq⟩
    simp [Parsed.empty, AwaitsCommand]
  | append_singleton lines last ih =>
    rw [Parsed.run_append]
    rcases ih with ⟨p, hrun, hafter, hstored⟩ | ⟨before, line, after, rfl, hstored, hend⟩
    · rw [hrun]
      simp only [Parsed.run]
      rcases hafter.step (n := n) last with ⟨hstep, hfits⟩ | ⟨hstep, hfits, hmisplaced⟩ |
        ⟨p', hstep, hfits, hplaced, hafter'⟩
      · exact Or.inr ⟨lines, last, [], rfl, hstored, Or.inl ⟨by rw [hstep], hfits⟩⟩
      · exact Or.inr ⟨lines, last, [], rfl, hstored, Or.inr ⟨by rw [hstep], hfits, hmisplaced⟩⟩
      · exact Or.inl ⟨p', by rw [hstep], hafter', hstored.concat hfits hplaced⟩
    · refine Or.inr ⟨before, line, after ++ [last], by simp, hstored, ?_⟩
      rcases hend with ⟨hrun, hfits⟩ | ⟨hrun, hfits, hmisplaced⟩
      · exact Or.inl ⟨by rw [hrun], hfits⟩
      · exact Or.inr ⟨by rw [hrun], hfits, hmisplaced⟩

/-- The rules of a run are the targets of its lines. -/
theorem run_rules {lines : List Line} {p p' : Parsed} (hfresh : ∀ rule ∈ p.current, rule.command = [])
    (h : Parsed.run n lines p = .accepted p') :
    p'.rules = p.complete ++
    (p.current.map fun rule => { rule with command := commandOf lines }).toList ++
      targetsOf lines := by
  induction lines generalizing p with
  | nil =>
    obtain rfl : p = p' := by simpa [Parsed.run] using h
    cases hcurrent : p.current with
    | none => simp [Parsed.rules, hcurrent, targetsOf]
    | some rule =>
      have hcommand : rule.command = [] := hfresh rule hcurrent
      simp [Parsed.rules, hcurrent, targetsOf, commandOf, ← hcommand]
  | cons line lines ih =>
    rw [Parsed.run] at h
    cases line with
    | skipped => exact ih hfresh h
    | malformed => exact absurd h (by simp [Parsed.step])
    | command text =>
      cases hcurrent : p.current with
      | none =>
        simp only [Parsed.step, hcurrent] at h
        split_ifs at h
      | some rule =>
        simp only [Parsed.step, hcurrent] at h
        split_ifs at h
        rw [ih (by simp) h]
        simp [commandOf, targetsOf]
    | rule name dependencies =>
      simp only [Parsed.step] at h
      split_ifs at h
      rw [ih (by simp) h]
      cases hcurrent : p.current with
      | none => simp [Parsed.rules, hcurrent, targetsOf]
      | some rule =>
        have hcommand : rule.command = [] := hfresh rule hcurrent
        simp [Parsed.rules, hcurrent, commandOf, targetsOf, ← hcommand]

/-- The strings of a makefile fit the fields of the entries. -/
structure WithinLimits (lines : List Line) : Prop where
  rules : ∀ name dependencies, .rule name dependencies ∈ lines → RuleFits name dependencies
  commands : ∀ text, .command text ∈ lines → text.length < 256

/-- The kinds of the lines of a text. -/
def textLines (content : List UInt8) : List Line := (content.splitOn newline).map lineOf

/-- The lines of a text without long lines reach the loop as they are. -/
theorem makefileLines_eq {content : List UInt8} (hzero : 0 ∉ content)
    (hshort : ∀ line ∈ content.splitOn newline, line.length ≤ 1022) :
    makefileLines content = textLines content := by
  rw [makefileLines, textLines, fileLines_of_short fun line hline =>
    Nat.lt_succ_of_le (hshort line hline)]
  apply List.map_congr_left
  intro line hline
  rw [cString_of_not_mem fun hmem => hzero (subset_of_mem_splitOn hline hmem)]

/-- Within the limits every line fits. -/
theorem WithinLimits.fits {before after : List Line} {line : Line}
    (h : WithinLimits (before ++ line :: after)) (hcount : ruleCount (before ++ line :: after) < n) :
    Fits n before line := by
  have hle : ruleCount before ≤ ruleCount (before ++ line :: after) := by
    rw [ruleCount, ruleCount, List.countP_append]
    exact Nat.le_add_right _ _
  cases line with
  | command text => exact ⟨fun _ => h.commands text (by simp), fun _ => lt_of_le_of_lt hle hcount⟩
  | rule name dependencies => exact ⟨lt_of_le_of_lt hle hcount, h.rules name dependencies (by simp)⟩
  | skipped => trivial
  | malformed => trivial

/-- The parser rejects exactly the malformed makefiles, and stores the targets of the others. -/
theorem parse_recognises {content : List UInt8} (hzero : 0 ∉ content)
    (hshort : ∀ line ∈ content.splitOn newline, line.length ≤ 1022)
    (hcount : ruleCount (textLines content) < maxNodes) (hlimits : WithinLimits (textLines content)) :
    ∃ result : ParseResult maxNodes, parse content zeroedTable = some result ∧
      (result.ret = -1 ↔ Malformed (textLines content)) ∧
      (¬ Malformed (textLines content) → result.ret = ruleCount (textLines content) ∧
        ∀ i : Fin maxNodes, i < ruleCount (textLines content) →
          (targetsOf (textLines content))[i.val]? = some (result.targets i).target) := by
  have hrefines := @parse_refines maxNodes content
  rw [makefileLines_eq hzero hshort] at hrefines
  generalize textLines content = lines at *
  rcases run_cases (n := maxNodes) lines with ⟨p, hrun, hafter, hstored⟩ |
    ⟨before, line, after, rfl, -, hend⟩
  · rw [hrun] at hrefines
    obtain ⟨targets, hparse, hholds⟩ := hrefines
    have hrules : p.rules = targetsOf lines := by
      rw [run_rules (by simp [Parsed.empty]) hrun]
      simp [Parsed.empty]
    refine ⟨_, hparse, ?_, ?_⟩
    · simp only [hstored.not_malformed, iff_false]
      omega
    · rw [← hafter.count]
      refine fun _ => ⟨rfl, ?_⟩
      intro i hi
      rw [← hrules]
      exact hholds.stored i hi
  · rcases hend with ⟨-, hfits⟩ | ⟨hrun, -, hmisplaced⟩
    · exact absurd (hlimits.fits hcount) hfits
    · rw [hrun] at hrefines
      obtain ⟨targets, error, hparse⟩ := hrefines
      have hmalformed : Malformed (before ++ line :: after) := ⟨before, line, after, rfl, hmisplaced⟩
      exact ⟨_, hparse, by simp [hmalformed], fun hformed => absurd hmalformed hformed⟩

/-- A makefile with one rule. -/
def oneRule : List UInt8 := bytes "all: a\n\techo\n"

/-- Its lines. -/
theorem textLines_oneRule :
    textLines oneRule = [.rule (bytes "all") [bytes "a"], .command (bytes "echo"), .skipped] := by
  decide +kernel

/-- The strings of the rule fit. -/
theorem withinLimits_oneRule : WithinLimits (textLines oneRule) := by
  rw [textLines_oneRule]
  constructor
  · intro name dependencies hmem
    obtain ⟨rfl, rfl⟩ : name = bytes "all" ∧ dependencies = [bytes "a"] := by simpa using hmem
    decide
  · intro text hmem
    obtain rfl : text = bytes "echo" := by simpa using hmem
    decide

/-- The parser recognises the rule. -/
theorem parse_recognises_oneRule :
    ∃ result : ParseResult maxNodes, parse oneRule zeroedTable = some result ∧
      (result.ret = -1 ↔ Malformed (textLines oneRule)) ∧
      (¬ Malformed (textLines oneRule) → result.ret = ruleCount (textLines oneRule) ∧
        ∀ i : Fin maxNodes, i < ruleCount (textLines oneRule) →
          (targetsOf (textLines oneRule))[i.val]? = some (result.targets i).target) :=
  parse_recognises (by decide) (by decide +kernel) (by decide +kernel) withinLimits_oneRule

end Csci4061.Make
