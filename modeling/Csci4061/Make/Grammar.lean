import Csci4061.Make.Parse
import Mathlib.Data.FinEnum

/-!
# The lines of a makefile

What the parser makes of a line depends on its kind only: a line is skipped, is a command, or is
a rule with a name and dependencies. `parseLine_eq` is the link between the buffers of the
source and these kinds; `parse_eq` lifts it to whole files.
-/

namespace Csci4061.Make

open Csci4061.Lib

/-- What a line means to the parser. -/
inductive Line
  | skipped
  | command (text : CString)
  | rule (name : CString) (dependencies : List CString)
  | malformed
  deriving DecidableEq

/-- The line behind its leading spaces. -/
def lineText (line : CString) : CString := line.dropWhile (· = space)

/-- A rule from the first character of its name on. -/
def ruleText (line : CString) : CString := (lineText line).dropWhile (· = colon)

/-- The name of a rule. -/
def ruleName (line : CString) : CString := (ruleText line).takeWhile (· ≠ colon)

/-- What follows the colon behind the name of a rule. -/
def ruleTail (line : CString) : CString := ((ruleText line).dropWhile (· ≠ colon)).tail

/-- The kind of a line. -/
def lineOf (line : CString) : Line :=
  if line = [] ∨ line.head? = some hash ∨ ∀ c ∈ line, c = space then .skipped
  else if (lineText line).head? = some tab then .command (lineText line).tail
  else if colon ∉ lineText line ∨ ∀ c ∈ lineText line, c = colon then .malformed
  else .rule (ruleName line) (tokens (· = space) (ruleTail line))

variable {n : ℕ}

/-- Store names behind the dependencies of an entry. -/
def storeNames : List CString → TargetEntry → Option TargetEntry
  | [], target => some target
  | lpszDependency :: names, target => do
    let target ← storeDependency target lpszDependency
    storeNames names target

/-- Store a rule in the next entry. -/
def storeRule (s : ParseState n) (name : CString) (dependencies : List CString) :
    Option (Except ParseError (ParseState n)) := do
  let pTarget := if s.nPreviousTarget then s.pTarget + 1 else s.pTarget
  let target ← readCell s.targets pTarget
  let targetName ← target.targetName.strcpy name
  let target ← storeNames dependencies { target with targetName }
  let targets ← writeCell s.targets pTarget target
  some (.ok { s with targets, pTarget, nTargetCount := s.nTargetCount + 1, nPreviousTarget := true })

/-- The body of the loop for a line of a given kind. -/
def parseStep (s : ParseState n) (line : Line) : Option (Except ParseError (ParseState n)) :=
  let s := { s with nLine := s.nLine + 1 }
  match line with
  | .skipped => some (.ok s)
  | .command text => parseCommand s text
  | .rule name dependencies => storeRule s name dependencies
  | .malformed => some (.error (missingSeparator s.nLine))

/-- The loop over the kinds of the lines. -/
def runLines : List Line → ParseState n → Option (ParseResult n)
  | [], s => some ⟨s.nTargetCount, s.targets, none⟩
  | line :: lines, s => do
    match ← parseStep s line with
    | .ok s' => runLines lines s'
    | .error error => some ⟨-1, s.targets, some error⟩

/-- The kinds of the lines which reach the loop. -/
def makefileLines (content : List UInt8) : List Line :=
  (fileLines 1024 content).map fun line => lineOf (cString line)

/-- The only delimiter of a one-character string is this character. -/
theorem separates_singleton (delim : UInt8) : separates [delim] = fun c => decide (c = delim) := by
  funext c
  rw [separates, Bool.eq_iff_iff]
  simp

/-- The delimiter of the names is the colon. -/
theorem separates_colon : separates (bytes ":") = fun c => decide (c = colon) :=
  separates_singleton colon

/-- The delimiter of the dependencies is the space. -/
theorem separates_space : separates (bytes " ") = fun c => decide (c = space) :=
  separates_singleton space

/-- The delimiter of the lines is the newline. -/
theorem separates_newline : separates (bytes "\n") = fun c => decide (c = newline) :=
  separates_singleton newline

/-- The loop over the dependencies stores the words of the rest of the line. -/
theorem storeDependencies_eq {fuel : ℕ} {pre rest z : List UInt8} (hzero : 0 ∉ rest)
    (hz : ∀ c ∈ z.head?, c = 0) (hfuel : rest.length ≤ fuel) (target : TargetEntry) :
    storeDependencies fuel (pre ++ rest ++ z) pre.length target = storeNames
    (tokens (· = space) rest) target := by
  rw [← separates_space]
  induction fuel generalizing pre rest target with
  | zero =>
    rw [List.length_eq_zero_iff.mp (Nat.le_zero.mp hfuel), tokens_nil]
    rfl
  | succ fuel ih =>
    rw [storeDependencies]
    by_cases hne : rest.dropWhile (separates (bytes " ")) = []
    · have hwords := tokens_of_dropWhile_eq_nil hne
      have hcall := @strtok_none (bytes " ") pre rest hzero hwords
      have hpos : pre.length ≤ (pre ++ rest).length := by simp
      rw [strtok_append_closed hpos (by rwa [List.drop_left]) hz, hcall, hwords]
      rfl
    · obtain ⟨start, pre', hcall, htoken, -, hzero', hshort⟩ :=
        @strtok_split (bytes " ") pre rest z hzero hz hne
      rw [hcall, tokens_of_dropWhile_ne_nil hne]
      simp only [storeNames, htoken]
      congr 1
      funext target
      exact ih hzero' (by omega) target

/-- A line has no name when the scan for it finds nothing. -/
theorem dropWhile_colon_eq_nil {text : CString} :
    text.dropWhile (· = colon) = [] ↔ ∀ c ∈ text, c = colon := by
  rw [List.dropWhile_eq_nil_iff]
  simp only [decide_eq_true_eq]

/-- The branch for a rule stores its name and its dependencies, if it has a name. -/
theorem parseTarget_eq (s : ParseState n) {pre line z : List UInt8} (hzero : 0 ∉ lineText line)
    (hz : ∀ c ∈ z.head?, c = 0) :
    parseTarget s (pre ++ lineText line ++ z) pre.length =
      if colon ∉ lineText line ∨ ∀ c ∈ lineText line, c = colon
        then some (.error (missingSeparator s.nLine))
      else storeRule s (ruleName line) (tokens (· = space) (ruleTail line)) := by
  have htext : cString ((pre ++ lineText line ++ z).drop pre.length) = lineText line := by
    rw [List.append_assoc, List.drop_left, cString_append_of_head hz, cString_of_not_mem hzero]
  rw [parseTarget, htext, strchr]
  by_cases hcolon : colon ∈ lineText line
  · rw [if_pos hcolon, if_neg (by simp)]
    by_cases hnone : (lineText line).dropWhile (· = colon) = []
    · have hall := dropWhile_colon_eq_nil.mp hnone
      rw [← separates_colon] at hnone
      have hpos : pre.length ≤ (pre ++ lineText line).length := by simp
      rw [strtok_append_closed hpos (by rwa [List.drop_left]) hz,
        strtok_none hzero (tokens_of_dropWhile_eq_nil hnone), if_pos (Or.inr hall)]
    · have hsome : ¬ (colon ∉ lineText line ∨ ∀ c ∈ lineText line, c = colon) := by
        rw [← dropWhile_colon_eq_nil, not_or, not_not]
        exact ⟨hcolon, hnone⟩
      rw [← separates_colon] at hnone
      obtain ⟨start, pre', hcall, htoken, hne, hzero', -⟩ :=
        @strtok_split (bytes ":") pre (lineText line) z hzero hz hnone
      have hname : ruleName line = ((lineText line).dropWhile (separates (bytes ":"))).takeWhile
          fun c => !separates (bytes ":") c := by
        simp only [ruleName, ruleText, separates_colon, decide_not]
      have htail : ruleTail line = (((lineText line).dropWhile (separates (bytes ":"))).dropWhile
          fun c => !separates (bytes ":") c).tail := by
        simp only [ruleTail, ruleText, separates_colon, decide_not]
      rw [← hname] at htoken hne
      rw [← htail] at hcall htoken hzero'
      have hlength : (pre' ++ ruleTail line ++ z).length ≥ (ruleTail line).length := by
        simp only [List.length_append]
        omega
      rw [if_neg hsome, hcall]
      simp only [htoken, if_pos (List.length_pos_of_ne_nil hne), storeDependencies_eq hzero' hz hlength]
      rfl
  · rw [if_neg hcolon, if_pos rfl, if_pos (Or.inl hcolon)]

/-- Stripping the newline closes the line in its place. -/
theorem strtok_newline {line z : CString} (hzero : 0 ∉ line) (hnewline : newline ∉ line)
    (hne : line ≠ []) (hz : z = [] ∨ z = [newline]) :
    ∃ z' pos, strtok (bytes "\n") (line ++ z) 0 = (some 0, line ++ z', pos) ∧ ∀ c ∈ z'.head?, c = 0 := by
  have hdelims : ∀ c, separates (bytes "\n") c = decide (c = newline) := congrFun separates_newline
  have htoken : ∀ c ∈ line, separates (bytes "\n") c = false := by
    intro c hc
    rw [hdelims, decide_eq_false_iff_not]
    exact ne_of_mem_of_not_mem hc hnewline
  have hhead : ∀ c ∈ (line ++ z).head?, separates (bytes "\n") c = false := by
    intro c hc
    rw [List.head?_append_of_ne_nil _ hne] at hc
    exact htoken c (List.mem_of_mem_head? hc)
  rcases hz with rfl | rfl
  · have hcall := @strtok_append (bytes "\n") [] [] line [] (by simpa using hzero)
        (by simp) htoken hhead (by simp)
    refine ⟨[], line.length, ?_, by simp⟩
    simpa [hne] using hcall
  · have hzero' : 0 ∉ [] ++ line ++ [newline] := by simpa [newline] using hzero
    have hcall := @strtok_append (bytes "\n") [] [] line [newline] hzero' (by simp) htoken hhead
        (by simp [hdelims])
    simp only [List.nil_append, if_neg hne, if_neg (List.cons_ne_nil newline [])] at hcall
    exact ⟨[0], _, hcall, by simp⟩

/-- The body of the loop depends on the kind of the line only. -/
theorem parseLine_eq (s : ParseState n) {line z : CString} (hzero : 0 ∉ line) (hnewline : newline ∉ line)
    (hz : z = [] ∨ z = [newline]) : parseLine s (line ++ z) = parseStep s (lineOf line) := by
  by_cases hne : line = []
  · subst hne
    rcases hz with rfl | rfl <;> rfl
  · obtain ⟨z', pos, hcall, hz'⟩ := strtok_newline hzero hnewline hne hz
    have hline : cString ((line ++ z').drop 0) = line := by
      rw [List.drop_zero, cString_append_of_head hz', cString_of_not_mem hzero]
    have hsplit : line.takeWhile (· = space) ++ lineText line = line := List.takeWhile_append_dropWhile
    have hzeroText : 0 ∉ lineText line := fun hmem => hzero ((List.dropWhile_sublist _).subset hmem)
    have hrest : cString ((line ++ z').drop (line.takeWhile (· = space)).length) = lineText line := by
      have hbuf : line ++ z' = line.takeWhile (· = space) ++ (lineText line ++ z') := by
        rw [← List.append_assoc, hsplit]
      rw [hbuf, List.drop_left, cString_append_of_head hz', cString_of_not_mem hzeroText]
    have hblank : (lineText line).length = 0 ↔ ∀ c ∈ line, c = space := by
      rw [List.length_eq_zero_iff, lineText, List.dropWhile_eq_nil_iff]
      simp only [decide_eq_true_eq]
    rw [parseLine, hcall]
    simp only [hline, Nat.zero_add, hrest, lineOf]
    by_cases hhash : line.head? = some hash
    · rw [if_pos hhash, if_pos (Or.inr (Or.inl hhash))]
      rfl
    · rw [if_neg hhash]
      by_cases hspaces : ∀ c ∈ line, c = space
      · rw [if_pos (hblank.mpr hspaces), if_pos (Or.inr (Or.inr hspaces))]
        rfl
      · have hkept : ¬ (line = [] ∨ line.head? = some hash ∨ ∀ c ∈ line, c = space) := by
          rintro (hempty | hcomment | hall)
          · exact hne hempty
          · exact hhash hcomment
          · exact hspaces hall
        rw [if_neg (hblank.not.mpr hspaces), if_neg hkept]
        by_cases htab : (lineText line).head? = some tab
        · rw [if_pos htab, if_pos htab]
          rfl
        · have hbuf : line ++ z' = line.takeWhile (· = space) ++ lineText line ++ z' := by rw [hsplit]
          rw [if_neg htab, if_neg htab, hbuf, parseTarget_eq _ hzeroText hz']
          split <;> rfl

/-- The string which reaches the loop is the piece of the line, with its newline if there is one. -/
theorem parseLine_shape (s : ParseState n) {szLine : List UInt8}
    (h : szLine = stripNewline szLine ∨ szLine = stripNewline szLine ++ [newline]) :
    parseLine s (cString szLine) = parseStep s (lineOf (cString (stripNewline szLine))) := by
  have hnewline : newline ∉ stripNewline szLine := by
    intro hmem
    simpa using List.mem_takeWhile_imp hmem
  have hpiece : newline ∉ cString (stripNewline szLine) :=
    fun hmem => hnewline ((List.takeWhile_sublist _).subset hmem)
  generalize stripNewline szLine = line at h hnewline hpiece
  obtain ⟨z, hz, rfl⟩ : ∃ z, (z = [] ∨ z = [newline]) ∧ szLine = line ++ z := by
    rcases h with rfl | rfl
    · exact ⟨[], Or.inl rfl, (List.append_nil _).symm⟩
    · exact ⟨[newline], Or.inr rfl, rfl⟩
  by_cases hzero : 0 ∈ line
  · have hcut : cString (line ++ z) = cString line ++ [] := by
      rw [List.append_nil, cString, cString, List.takeWhile_append, if_neg]
      intro hall
      rw [← (List.takeWhile_prefix _).eq_of_length hall] at hzero
      exact zero_not_mem_cString line hzero
    rw [hcut, parseLine_eq s (zero_not_mem_cString line) hpiece (Or.inl rfl)]
  · have hwhole : cString (line ++ z) = line ++ z := by
      apply cString_of_not_mem
      rcases hz with rfl | rfl <;> simpa [newline] using hzero
    rw [hwhole, cString_of_not_mem hzero, parseLine_eq s hzero hnewline hz]

/-- A skipped line at the end of the file changes nothing. -/
theorem runLines_append_skipped (lines : List Line) (s : ParseState n) :
    runLines (lines ++ [.skipped]) s = runLines lines s := by
  induction lines generalizing s with
  | nil => rfl
  | cons line lines ih => simp only [List.cons_append, runLines, ih]

/-- The loop over the results of `fgets` is the loop over the kinds of the pieces. -/
theorem parseLines_eq {lines : List (List UInt8)}
    (h : ∀ line ∈ lines, line = stripNewline line ∨ line = stripNewline line ++ [newline])
    (s : ParseState n) :
    parseLines lines s = runLines (lines.map fun line => lineOf (cString (stripNewline line))) s := by
  induction lines generalizing s with
  | nil => rfl
  | cons line lines ih =>
    rw [List.forall_mem_cons] at h
    rw [parseLines, List.map_cons, runLines, parseLine_shape s h.1]
    cases parseStep s (lineOf (cString (stripNewline line))) with
    | none => rfl
    | some result =>
      cases result with
      | ok s' => exact ih h.2 s'
      | error error => rfl

/-- `parse` depends on the kinds of the lines only. -/
theorem parse_eq (content : List UInt8) (targets : Fin n → TargetEntry) :
    parse content targets = runLines (makefileLines content) (initialState targets) := by
  have hlines := @parseLines_eq n _ (fun line hline => fgetsCalls_shape hline :
      ∀ line ∈ fgetsAll 1024 content, _)
    (initialState targets)
  rw [parse, hlines, makefileLines]
  rcases fileLines_eq (by omega : 1 < 1024) content with heq | heq
  · rw [heq, List.map_map]
    rfl
  · rw [heq, List.map_append, List.map_map]
    exact (runLines_append_skipped _ _).symm

end Csci4061.Make
