import Csci4061.Make.Comments

/-!
# Writing a table down

Every table of rules which fits can be written down as a makefile from which `parse` makes this table
again. The name of a rule is put behind a colon, which the parser skips, so that a name may begin with a
space, a tab or `#`; a command gets a line of its own even if it is empty.

The rules which can be written down are those which `parse` can find in any makefile: so what is
accepted is well formed, and writing the table of a makefile down is a normal form of it. The text of
the makefile itself is not recovered.
-/

namespace Csci4061.Make

open Csci4061.Lib

variable {n : ℕ}

/-- The strings of a rule fit its entry and have none of the characters which end them. -/
structure Target.Writable (rule : Target) : Prop where
  named : rule.targetName ≠ []
  name : ∀ c ∈ rule.targetName, c ≠ 0 ∧ c ≠ newline ∧ c ≠ colon
  dependencies : ∀ dependency ∈ rule.dependencyNames, dependency ≠ [] ∧ ∀ c ∈ dependency, c ≠ 0 ∧
    c ≠ newline ∧ c ≠ space
  command : ∀ c ∈ rule.command, c ≠ 0 ∧ c ≠ newline
  fits : RuleFits rule.targetName rule.dependencyNames
  short : rule.command.length < 256

/-- The line of a rule. -/
def ruleLine (rule : Target) : CString :=
  colon :: (rule.targetName ++ colon :: rule.dependencyNames.flatMap (List.cons space))

/-- The line of the command of a rule. -/
def commandLine (rule : Target) : CString := tab :: rule.command

/-- The makefile of a table of rules. -/
def writeRules (rules : List Target) : List UInt8 :=
  joinLines (rules.flatMap fun rule => [ruleLine rule, commandLine rule])

/-- A makefile gives a table of rules. -/
def Gives (n : ℕ) (content : List UInt8) (rules : List Target) : Prop :=
  ∃ targets : Fin n → TargetEntry, parse content zeroedTable = some ⟨rules.length, targets, none⟩ ∧
    Holds targets rules

/-- The words behind the colon of a rule are the dependencies. -/
theorem tokens_dependencies {dependencies : List CString}
    (h : ∀ dependency ∈ dependencies, dependency ≠ [] ∧ ∀ c ∈ dependency, c ≠ space) :
    tokens (· = space) (dependencies.flatMap (List.cons space)) = dependencies := by
  induction dependencies with
  | nil => rfl
  | cons dependency dependencies ih =>
    obtain ⟨⟨hne, hword⟩, hrest⟩ := List.forall_mem_cons.mp h
    have hnext : ∀ c ∈ (dependencies.flatMap (List.cons space)).head?, decide (c = space) = true := by
      cases dependencies with
      | nil => simp
      | cons other others => simp
    rw [List.flatMap_cons, List.cons_append, tokens_cons (by simp),
      tokens_word_append hne (by simpa using hword) hnext, ih hrest]

/-- What the parser makes of the line of a rule. -/
theorem lineOf_ruleLine {rule : Target} (h : rule.Writable) :
    lineOf (ruleLine rule) = .rule rule.targetName rule.dependencyNames := by
  have hcolon : ∀ c ∈ rule.targetName, c ≠ colon := fun c hc => (h.name c hc).2.2
  have hlineText : lineText (ruleLine rule) = ruleLine rule := List.dropWhile_cons_of_neg (by decide)
  have hruleText : ruleText (ruleLine rule) =
      rule.targetName ++ colon :: rule.dependencyNames.flatMap (List.cons space) := by
    obtain ⟨c, cs, hname⟩ := List.exists_cons_of_ne_nil h.named
    have hfirst : c ≠ colon := hcolon c (hname ▸ List.mem_cons_self)
    rw [ruleText, hlineText, ruleLine, List.dropWhile_cons_of_pos (by simp), hname, List.cons_append,
      List.dropWhile_cons_of_neg (by simpa using hfirst)]
  have hpass : ∀ c ∈ rule.targetName, decide (c ≠ colon) = true := by simpa using hcolon
  have hname : ruleName (ruleLine rule) = rule.targetName := by
    rw [ruleName, hruleText, List.takeWhile_append_of_pos hpass, List.takeWhile_cons_of_neg (by simp),
      List.append_nil]
  have htail : ruleTail (ruleLine rule) = rule.dependencyNames.flatMap (List.cons space) := by
    rw [ruleTail, hruleText, List.dropWhile_append_of_pos hpass, List.dropWhile_cons_of_neg (by simp),
      List.tail_cons]
  have hkept : ¬ (ruleLine rule = [] ∨ (ruleLine rule).head? = some hash ∨ ∀ c ∈ ruleLine rule,
      c = space) := by
    rintro (hempty | hcomment | hspaces)
    · exact List.cons_ne_nil _ _ hempty
    · exact absurd hcomment (by simp [ruleLine, colon, hash])
    · exact absurd (hspaces colon List.mem_cons_self) (by decide)
  have hwhole : ¬ (colon ∉ ruleLine rule ∨ ∀ c ∈ ruleLine rule, c = colon) := by
    rintro (hnone | hall)
    · exact hnone List.mem_cons_self
    · obtain ⟨c, hc⟩ := List.exists_mem_of_ne_nil _ h.named
      exact hcolon c hc (hall c (List.mem_cons_of_mem _ (List.mem_append_left _ hc)))
  rw [lineOf, if_neg hkept, hlineText, if_neg (by simp [ruleLine, colon, tab]), if_neg hwhole, hname,
    htail, tokens_dependencies fun dependency hd => ⟨(h.dependencies dependency hd).1, fun c hc =>
      ((h.dependencies dependency hd).2 c hc).2.2⟩]

/-- What the parser makes of the line of a command. -/
theorem lineOf_commandLine (rule : Target) : lineOf (commandLine rule) = .command rule.command := by
  have hlineText : lineText (commandLine rule) = commandLine rule :=
    List.dropWhile_cons_of_neg (by decide)
  have hkept : ¬ (commandLine rule = [] ∨ (commandLine rule).head? = some hash ∨
      ∀ c ∈ commandLine rule, c = space) := by
    rintro (hempty | hcomment | hspaces)
    · exact List.cons_ne_nil _ _ hempty
    · exact absurd hcomment (by simp [commandLine, tab, hash])
    · exact absurd (hspaces tab List.mem_cons_self) (by decide)
  have htab : (commandLine rule).head? = some tab := rfl
  rw [lineOf, if_neg hkept, hlineText, if_pos htab]
  rfl

/-- The dependencies which fit need at most 64 characters each. -/
theorem length_dependencies_le {dependencies : List CString}
    (h : ∀ dependency ∈ dependencies, dependency.length < 64) :
    (dependencies.flatMap (List.cons space)).length ≤ 64 * dependencies.length := by
  induction dependencies with
  | nil => exact Nat.le_refl 0
  | cons dependency dependencies ih =>
    obtain ⟨hfirst, hrest⟩ := List.forall_mem_cons.mp h
    have hle := ih hrest
    rw [List.flatMap_cons, List.length_append, List.length_cons, List.length_cons]
    omega

/-- A character of the line of a rule. -/
theorem Target.Writable.ruleLine_chars {rule : Target} (h : rule.Writable) :
    ∀ c ∈ ruleLine rule, c ≠ 0 ∧ c ≠ newline := by
  intro c hc
  have hdependency :
      ∀ dependency ∈ rule.dependencyNames, ∀ d ∈ space :: dependency, d ≠ 0 ∧ d ≠ newline := by
    intro dependency hd d hmem
    rcases List.mem_cons.mp hmem with rfl | hd'
    · decide
    · exact ⟨((h.dependencies dependency hd).2 d hd').1, ((h.dependencies dependency hd).2 d hd').2.1⟩
  rcases List.mem_cons.mp hc with rfl | hrest
  · decide
  · rcases List.mem_append.mp hrest with hname | hbehind
    · exact ⟨(h.name c hname).1, (h.name c hname).2.1⟩
    · rcases List.mem_cons.mp hbehind with rfl | hwords
      · decide
      · obtain ⟨dependency, hd, hmem⟩ := List.mem_flatMap.mp hwords
        exact hdependency dependency hd c hmem

/-- A character of the line of a command. -/
theorem Target.Writable.commandLine_chars {rule : Target} (h : rule.Writable) :
    ∀ c ∈ commandLine rule, c ≠ 0 ∧ c ≠ newline := by
  intro c hc
  rcases List.mem_cons.mp hc with rfl | hmem
  · decide
  · exact h.command c hmem

/-- A short line without NUL reaches the loop as it is. -/
theorem lineKinds_of_short {line : CString} (hzero : ∀ c ∈ line, c ≠ 0) (hshort : line.length < 1023) :
    lineKinds line = [lineOf line] := by
  have hclean : 0 ∉ line := fun hmem => hzero 0 hmem rfl
  rw [lineKinds, chunks_of_lt hshort, List.map_singleton, cString_of_not_mem hclean]

/-- The line of a rule fits the line buffer. -/
theorem Target.Writable.length_ruleLine {rule : Target} (h : rule.Writable) :
    (ruleLine rule).length < 1023 := by
  obtain ⟨hname, hcount, hnames⟩ := h.fits
  have hle := length_dependencies_le hnames
  rw [ruleLine, List.length_cons, List.length_append, List.length_cons]
  omega

/-- The kinds of the lines of a table which is written down. -/
theorem makefileLines_writeRules {rules : List Target} (hne : rules ≠ [])
    (h : ∀ rule ∈ rules, rule.Writable) :
    makefileLines (writeRules rules) =
      rules.flatMap fun rule => [.rule rule.targetName rule.dependencyNames, .command rule.command] := by
  have hlines : ∀ line ∈ rules.flatMap (fun rule => [ruleLine rule, commandLine rule]),
      newline ∉ line := by
    intro line hline
    obtain ⟨rule, hrule, hmem⟩ := List.mem_flatMap.mp hline
    rcases List.mem_pair.mp hmem with rfl | rfl
    · exact fun hnewline => ((h rule hrule).ruleLine_chars newline hnewline).2 rfl
    · exact fun hnewline => ((h rule hrule).commandLine_chars newline hnewline).2 rfl
  have hsome : rules.flatMap (fun rule => [ruleLine rule, commandLine rule]) ≠ [] := by
    obtain ⟨rule, rest, rfl⟩ := List.exists_cons_of_ne_nil hne
    exact List.cons_ne_nil _ _
  rw [writeRules, makefileLines_joinLines hlines hsome, List.flatMap_assoc]
  refine List.flatMap_congr fun rule hrule => ?_
  have hrule' := h rule hrule
  have hcommand : (commandLine rule).length < 1023 := Nat.lt_of_lt_of_le (Nat.succ_lt_succ hrule'.short)
      (by decide)
  rw [List.flatMap_cons, List.flatMap_singleton,
    lineKinds_of_short (fun c hc => (hrule'.ruleLine_chars c hc).1) hrule'.length_ruleLine,
    lineKinds_of_short (fun c hc => (hrule'.commandLine_chars c hc).1) hcommand, lineOf_ruleLine hrule',
    lineOf_commandLine]
  rfl

/-- The lines of rules with their commands are stored one after the other. -/
theorem run_written {rules complete : List Target} (h : ∀ rule ∈ rules, rule.Writable)
    (hlength : complete.length + rules.length ≤ n) :
    Parsed.run n (rules.flatMap fun rule => [.rule rule.targetName rule.dependencyNames,
      .command rule.command])
      ⟨complete, none⟩ = .accepted ⟨complete ++ rules, none⟩ := by
  induction rules generalizing complete with
  | nil => rw [List.append_nil, List.flatMap_nil, Parsed.run]
  | cons rule rules ih =>
    obtain ⟨hrule, hrest⟩ := List.forall_mem_cons.mp h
    rw [List.length_cons] at hlength
    have hrules : (Parsed.mk complete none).rules = complete := Parsed.rules_of_none rfl
    have hroom : complete.length < n ∧ RuleFits rule.targetName rule.dependencyNames :=
      ⟨by omega, hrule.fits⟩
    have hlonger : (complete ++ [rule]).length + rules.length ≤ n := by
      rw [List.length_append, List.length_singleton]
      omega
    have hnext := @ih (complete ++ [rule]) hrest hlonger
    rw [List.append_assoc] at hnext
    simp only [List.flatMap_cons, List.cons_append, List.nil_append, Parsed.run, Parsed.step, hrules,
      if_pos hroom, if_pos hrule.short]
    exact hnext

/-- A table which can be written down and fits is given by its makefile. -/
theorem gives_writeRules {rules : List Target} (hlength : rules.length ≤ n)
    (h : ∀ rule ∈ rules, rule.Writable) :
    Gives n (writeRules rules) rules := by
  have hrefines := @parse_refines n (writeRules rules)
  have hrun : Parsed.run n (makefileLines (writeRules rules)) .empty = .accepted ⟨rules, none⟩ := by
    cases rules with
    | nil =>
      rw [writeRules, List.flatMap_nil, makefileLines_nil]
      rfl
    | cons rule rest =>
      rw [makefileLines_writeRules (List.cons_ne_nil _ _) h]
      exact run_written h (by simpa using hlength)
  rw [hrun] at hrefines
  have hrules : (Parsed.mk rules none).rules = rules := Parsed.rules_of_none rfl
  obtain ⟨targets, hparse, hholds⟩ := hrefines
  rw [hrules] at hparse hholds
  exact ⟨targets, hparse, hholds⟩

/-- The strings of a line have none of the characters which end them. -/
def Line.Separated : Line → Prop
  | .command text => ∀ c ∈ text, c ≠ 0 ∧ c ≠ newline
  | .rule name dependencies => name ≠ [] ∧ (∀ c ∈ name, c ≠ 0 ∧ c ≠ newline ∧ c ≠ colon) ∧
      ∀ dependency ∈ dependencies, dependency ≠ [] ∧ ∀ c ∈ dependency, c ≠ 0 ∧ c ≠ newline ∧ c ≠ space
  | _ => True

/-- The strings which the parser cuts out of a line are separated. -/
theorem lineOf_separated {line : CString} (hline : ∀ c ∈ line, c ≠ 0 ∧ c ≠ newline) :
    (lineOf line).Separated := by
  have htext : ∀ c ∈ lineText line, c ≠ 0 ∧ c ≠ newline :=
    fun c hc => hline c ((List.dropWhile_sublist _).subset hc)
  have hrule : ∀ c ∈ ruleText line, c ≠ 0 ∧ c ≠ newline :=
    fun c hc => htext c ((List.dropWhile_sublist _).subset hc)
  rw [lineOf]
  split
  · trivial
  · split
    · exact fun c hc => htext c (List.mem_of_mem_tail hc)
    · split
      · trivial
      · rename_i hcolon
        have hsome : ruleText line ≠ [] := fun hnil => hcolon (Or.inr (dropWhile_colon_eq_nil.mp hnil))
        refine ⟨ruleName_ne_nil hsome, fun c hc => ?_, fun dependency hd => ?_⟩
        · obtain ⟨hzero, hnewline⟩ := hrule c ((List.takeWhile_sublist _).subset hc)
          exact ⟨hzero, hnewline, by simpa using List.mem_takeWhile_imp hc⟩
        · obtain ⟨hne, hword, hsub⟩ := mem_tokens hd
          refine ⟨hne, fun c hc => ?_⟩
          have hmem := List.mem_of_mem_tail (hsub.subset hc)
          obtain ⟨hzero, hnewline⟩ := hrule c ((List.dropWhile_sublist _).subset hmem)
          exact ⟨hzero, hnewline, by simpa using hword c hc⟩

/-- The lines of a makefile are separated. -/
theorem makefileLines_separated (content : List UInt8) :
    ∀ line ∈ makefileLines content, line.Separated := by
  intro line hline
  obtain ⟨piece, hpiece, rfl⟩ := List.mem_map.mp hline
  obtain ⟨whole, hwhole, hmem⟩ := List.mem_flatMap.mp hpiece
  have hsub := mem_of_mem_chunks (by decide) hmem
  refine lineOf_separated fun c hc => ⟨?_, ?_⟩
  · rintro rfl
    exact zero_not_mem_cString piece hc
  · rintro rfl
    exact newline_not_mem_of_mem_splitOn hwhole (hsub ((List.takeWhile_sublist _).subset hc))

/-- One line leaves rules which can be written down. -/
theorem Parsed.step_writable {p p' : Parsed} {line : Line} (hline : line.Separated)
    (hp : ∀ rule ∈ p.rules, rule.Writable) (h : p.step n line = .accepted p') :
    ∀ rule ∈ p'.rules, rule.Writable := by
  cases line with
  | skipped =>
    obtain rfl := Outcome.accepted.inj h
    exact hp
  | malformed => exact absurd h (by simp [Parsed.step])
  | command text =>
    cases hcurrent : p.current with
    | none =>
      simp only [Parsed.step, hcurrent] at h
      split at h <;> exact absurd h (by simp)
    | some current =>
      rw [Parsed.rules_of_some hcurrent] at hp
      obtain ⟨hcomplete, hlast⟩ := List.forall_mem_append.mp hp
      have hwritable := hlast current List.mem_cons_self
      simp only [Parsed.step, hcurrent] at h
      split at h
      · rename_i hshort
        obtain rfl := Outcome.accepted.inj h
        rw [Parsed.rules_of_none rfl]
        refine List.forall_mem_append.mpr ⟨hcomplete, List.forall_mem_singleton.mpr ?_⟩
        exact { hwritable with command := hline, short := hshort }
      · exact absurd h (by simp)
  | rule name dependencies =>
    obtain ⟨hnamed, hname, hdependencies⟩ := hline
    simp only [Parsed.step] at h
    split at h
    · rename_i hroom
      obtain rfl := Outcome.accepted.inj h
      rw [Parsed.rules_of_some rfl]
      refine List.forall_mem_append.mpr ⟨hp, List.forall_mem_singleton.mpr ?_⟩
      exact ⟨hnamed, hname, hdependencies, fun c hc => absurd hc List.not_mem_nil, hroom.2,
        Nat.zero_lt_succ 255⟩
    · exact absurd h (by simp)

/-- All rules of a makefile can be written down. -/
theorem Parsed.run_writable {lines : List Line} {p p' : Parsed} (hlines : ∀ line ∈ lines, line.Separated)
    (hp : ∀ rule ∈ p.rules, rule.Writable) (h : Parsed.run n lines p = .accepted p') :
    ∀ rule ∈ p'.rules, rule.Writable := by
  induction lines generalizing p with
  | nil =>
    obtain rfl := Outcome.accepted.inj h
    exact hp
  | cons line lines ih =>
    obtain ⟨hline, hrest⟩ := List.forall_mem_cons.mp hlines
    rw [Parsed.run] at h
    cases hstep : p.step n line with
    | accepted next =>
      rw [hstep] at h
      exact ih hrest (Parsed.step_writable hline hp hstep) h
    | rejected =>
      rw [hstep] at h
      exact absurd h (by simp)
    | overrun =>
      rw [hstep] at h
      exact absurd h (by simp)

/-- The table determines its rules. -/
theorem Holds.unique {targets : Fin n → TargetEntry} {rules rules' : List Target}
    (h : Holds targets rules) (h' : Holds targets rules') (hlength : rules.length = rules'.length) :
    rules = rules' := by
  refine List.ext_getElem? fun i => ?_
  by_cases hi : i < rules.length
  · have hlt : i < n := Nat.lt_of_lt_of_le hi h.length_le
    rw [h.stored ⟨i, hlt⟩ hi, h'.stored ⟨i, hlt⟩ (hlength ▸ hi)]
  · rw [List.getElem?_eq_none (Nat.le_of_not_lt hi),
      List.getElem?_eq_none (hlength ▸ Nat.le_of_not_lt hi)]

/-- The rules of a makefile which is accepted fit the table and can be written down. -/
theorem Gives.writable {content : List UInt8} {rules : List Target} (h : Gives n content rules) :
    rules.length ≤ n ∧ ∀ rule ∈ rules, rule.Writable := by
  obtain ⟨targets, hparse, hholds⟩ := h
  have hrefines := @parse_refines n content
  rw [hparse] at hrefines
  refine ⟨hholds.length_le, ?_⟩
  cases hrun : Parsed.run n (makefileLines content) .empty with
  | overrun =>
    rw [hrun] at hrefines
    exact absurd hrefines (by simp [ResultRefines])
  | rejected =>
    rw [hrun] at hrefines
    obtain ⟨_, error, heq⟩ := hrefines
    exact absurd (congrArg ParseResult.error (Option.some.inj heq)) (by simp)
  | accepted p =>
    rw [hrun] at hrefines
    obtain ⟨targets', heq, hholds'⟩ := hrefines
    obtain ⟨hcount, rfl, -⟩ := ParseResult.mk.inj (Option.some.inj heq)
    obtain rfl := hholds.unique hholds' (Int.ofNat.inj hcount)
    exact Parsed.run_writable (makefileLines_separated content)
      (fun _ h => absurd h List.not_mem_nil) hrun

/-- The tables which `parse` makes of some makefile are those which fit and can be written down, and it
makes them again of the makefile in which they are written down. -/
theorem gives_iff_writable (rules : List Target) :
    ((∃ content, Gives n content rules) ↔ rules.length ≤ n ∧ ∀ rule ∈ rules, rule.Writable) ∧
      (Gives n (writeRules rules) rules ↔ ∃ content, Gives n content rules) := by
  have hwrite : (∃ content, Gives n content rules) → Gives n (writeRules rules) rules := by
    rintro ⟨content, hgives⟩
    exact gives_writeRules hgives.writable.1 hgives.writable.2
  refine ⟨⟨?_, fun h => ⟨writeRules rules, gives_writeRules h.1 h.2⟩⟩, fun h => ⟨_, h⟩, hwrite⟩
  rintro ⟨content, hgives⟩
  exact hgives.writable

end Csci4061.Make
