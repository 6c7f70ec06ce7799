import Csci4061.Make.Recognition

/-!
# Comments and lines of spaces

A line of spaces is skipped however long it is. A comment is skipped when it fits the line
buffer; the rest of a longer one reaches the loop as further lines, and the comment makes no
difference exactly when all of these are skipped as well.
-/

namespace Csci4061.Make

open Csci4061.Lib

/-- The file with some lines. -/
def joinLines (lines : List (List UInt8)) : List UInt8 := [newline].intercalate lines

/-- What a line of a file is for the loop. -/
def lineKinds (line : List UInt8) : List Line :=
  (chunks 1023 line).map fun piece => lineOf (cString piece)

variable {n : ℕ}

/-- The return value and the table. -/
def observed (result : Option (ParseResult n)) : Option (ℤ × (Fin n → TargetEntry)) :=
  result.map fun result => (result.ret, result.targets)

/-- Inserting the line anywhere in a makefile within the limits of the table makes no difference. -/
def Unnoticed (line : List UInt8) : Prop :=
  ∀ before after : List (List UInt8), (∀ other ∈ before ++ after, newline ∉ other) →
    ruleCount (makefileLines (joinLines (before ++ after))) ≤ maxNodes →
    WithinLimits (makefileLines (joinLines (before ++ after))) →
    observed (parse (joinLines (before ++ line :: after)) (zeroedTable : Fin maxNodes → TargetEntry)) =
      observed (parse (joinLines (before ++ after)) zeroedTable)

/-- The lines of a file reach the loop in pieces. -/
theorem makefileLines_joinLines {lines : List (List UInt8)} (h : ∀ line ∈ lines, newline ∉ line)
    (hne : lines ≠ []) :
    makefileLines (joinLines lines) = lines.flatMap lineKinds := by
  rw [makefileLines, fileLines, joinLines, List.splitOn_intercalate newline h hne, List.map_flatMap]
  rfl

/-- A step without the line number, which only the messages depend on. -/
def forgetLine (result : Option (Except ParseError (ParseState n))) : Option (Option (ParseState n)) :=
  result.map fun
    | .ok s => some { s with nLine := 0 }
    | .error _ => none

/-- A step does not depend on the line number. -/
theorem forgetLine_parseStep (s : ParseState n) (k : ℕ) (line : Line) :
    forgetLine (parseStep { s with nLine := k } line) = forgetLine (parseStep s line) := by
  cases line with
  | skipped => rfl
  | malformed => rfl
  | command text =>
    simp only [parseStep, parseCommand]
    cases readCell s.targets s.pTarget with
    | none => rfl
    | some target =>
      simp only [Option.bind_eq_bind, Option.bind_some]
      split
      · rfl
      · cases target.command.strcpy text with
        | none => rfl
        | some command =>
          simp only [Option.bind_some]
          cases writeCell s.targets s.pTarget { target with command } <;> rfl
  | rule name dependencies =>
    simp only [parseStep, storeRule]
    generalize (if s.nPreviousTarget then s.pTarget + 1 else s.pTarget) = pTarget
    cases readCell s.targets pTarget with
    | none => rfl
    | some target =>
      simp only [Option.bind_eq_bind, Option.bind_some]
      cases target.targetName.strcpy name with
      | none => rfl
      | some targetName =>
        simp only [Option.bind_some]
        cases storeNames dependencies { target with targetName } with
        | none => rfl
        | some target =>
          simp only [Option.bind_some]
          cases writeCell s.targets pTarget target <;> rfl

/-- A run does not depend on the line number. -/
theorem observed_nLine (lines : List Line) (s : ParseState n) (k : ℕ) :
    observed (runLines lines { s with nLine := k }) = observed (runLines lines s) := by
  induction lines generalizing s k with
  | nil => rfl
  | cons line lines ih =>
    have hstep := forgetLine_parseStep s k line
    rw [runLines, runLines]
    cases hleft : parseStep { s with nLine := k } line with
    | none =>
      cases hright : parseStep s line with
      | none => rfl
      | some right => rw [hleft, hright] at hstep; simp [forgetLine] at hstep
    | some left =>
      cases hright : parseStep s line with
      | none => rw [hleft, hright] at hstep; simp [forgetLine] at hstep
      | some right =>
        rw [hleft, hright] at hstep
        simp only [forgetLine, Option.map_some, Option.some.injEq] at hstep
        cases left with
        | error error =>
          cases right with
          | error error' => rfl
          | ok s' => simp at hstep
        | ok s₁ =>
          cases right with
          | error error' => simp at hstep
          | ok s₂ =>
            simp only [Option.some.injEq] at hstep
            calc observed (runLines lines s₁) = observed (runLines lines { s₁ with nLine := 0 }) :=
              (ih s₁ 0).symm
              _ = observed (runLines lines { s₂ with nLine := 0 }) := by rw [hstep]
              _ = observed (runLines lines s₂) := ih s₂ 0

/-- Skipped lines make no difference. -/
theorem observed_skipped {skips : List Line} (h : ∀ line ∈ skips, line = .skipped) (lines : List Line)
    (s : ParseState n) : observed (runLines (skips ++ lines) s) = observed (runLines lines s) := by
  induction skips generalizing s with
  | nil => rfl
  | cons line skips ih =>
    rw [List.forall_mem_cons] at h
    obtain ⟨rfl, hskips⟩ := h
    calc observed (runLines (.skipped :: skips ++ lines) s)
        = observed (runLines (skips ++ lines) { s with nLine := s.nLine + 1 }) := rfl
      _ = observed (runLines lines { s with nLine := s.nLine + 1 }) := ih hskips _
      _ = observed (runLines lines s) := observed_nLine lines s _

/-- What makes no difference makes none behind other lines. -/
theorem observed_append {lines₁ lines₂ : List Line}
    (h : ∀ s : ParseState n, observed (runLines lines₁ s) = observed (runLines lines₂ s))
    (before : List Line) (s : ParseState n) :
    observed (runLines (before ++ lines₁) s) = observed (runLines (before ++ lines₂) s) := by
  induction before generalizing s with
  | nil => exact h s
  | cons line before ih =>
    simp only [List.cons_append, runLines]
    cases parseStep s line with
    | none => rfl
    | some result =>
      cases result with
      | error error => rfl
      | ok s' => exact ih s'

/-- The lines of a file with one more line. -/
theorem makefileLines_insert {line : List UInt8} (hline : newline ∉ line)
    {before after : List (List UInt8)} (h : ∀ other ∈ before ++ after, newline ∉ other) :
    makefileLines (joinLines (before ++ line :: after)) =
      before.flatMap lineKinds ++ (lineKinds line ++ after.flatMap lineKinds) := by
  have hlines : ∀ other ∈ before ++ line :: after, newline ∉ other := by
    intro other hother
    rcases List.mem_append.mp hother with hmem | hmem
    · exact h other (List.mem_append_left _ hmem)
    · rcases List.mem_cons.mp hmem with rfl | hmem
      · exact hline
      · exact h other (List.mem_append_right _ hmem)
  have hne : before ++ line :: after ≠ [] := by simp
  rw [makefileLines_joinLines hlines hne, List.flatMap_append, List.flatMap_cons]

/-- The empty file counts as one empty line. -/
theorem makefileLines_nil : makefileLines (joinLines []) = [.skipped] := by
  have hshort : ([] : List UInt8).length < 1024 - 1 := by decide
  rw [joinLines, List.intercalate_nil, makefileLines, fileLines, List.splitOn_nil,
    List.flatMap_singleton, chunks_of_lt hshort]
  rfl

/-- The lines of a file, which are one empty line when there are none. -/
theorem observed_joinLines {lines : List (List UInt8)} (h : ∀ line ∈ lines, newline ∉ line)
    (s : ParseState n) :
    observed (runLines (makefileLines (joinLines lines)) s) = observed
    (runLines (lines.flatMap lineKinds) s) := by
  cases lines with
  | nil =>
    rw [makefileLines_nil]
    exact @observed_skipped n [.skipped] (by simp) [] s
  | cons line lines => rw [makefileLines_joinLines h (List.cons_ne_nil _ _)]

/-- A line whose pieces are all skipped makes no difference. -/
theorem unnoticed_of_skipped {line : List UInt8} (hline : newline ∉ line)
    (hskipped : ∀ kind ∈ lineKinds line, kind = .skipped) : Unnoticed line := by
  intro before after hlines _ _
  rw [parse_eq, parse_eq, makefileLines_insert hline hlines, observed_joinLines hlines,
    List.flatMap_append]
  exact observed_append (observed_skipped hskipped _) _ _

/-- The first piece of a comment or of a line of spaces is skipped, and all the pieces of spaces. -/
theorem lineOf_skipped {piece : List UInt8} (h : piece.head? = some hash ∨ ∀ c ∈ piece, c = space) :
    lineOf (cString piece) = .skipped := by
  rw [lineOf, if_pos]
  rcases h with hhash | hspaces
  · cases piece with
    | nil => exact Or.inl rfl
    | cons c piece =>
      obtain rfl : c = hash := by simpa using hhash
      exact Or.inr (Or.inl (by rw [cString, List.takeWhile_cons_of_pos (by decide), List.head?_cons]))
  · exact Or.inr (Or.inr fun c hc => hspaces c ((List.takeWhile_sublist _).subset hc))

/-- The first piece of a line starts as the line does. -/
theorem chunks_eq_cons (line : List UInt8) :
    ∃ rest, chunks 1023 line = line.take 1023 :: rest := by
  by_cases hshort : line.length < 1023
  · exact ⟨[], by rw [chunks_of_lt hshort, List.take_of_length_le (Nat.le_of_lt hshort)]⟩
  · exact ⟨_, chunks_of_le (by omega) (Nat.le_of_not_lt hshort)⟩

/-- A file without rules whose lines are all stored has skipped lines only. -/
theorem Stored.eq_skipped {lines : List Line} (h : Stored n lines) (hcount : ruleCount lines = 0) :
    ∀ line ∈ lines, line = .skipped := by
  have hno : ∀ name dependencies, .rule name dependencies ∉ lines := by
    intro name dependencies hmem
    exact (List.countP_pos_iff.mpr ⟨_, hmem, rfl⟩).ne' hcount
  intro line hmem
  obtain ⟨before, after, rfl⟩ := List.append_of_mem hmem
  have hplaced := (h before line after rfl).2
  cases line with
  | skipped => rfl
  | rule name dependencies => exact absurd hmem (hno name dependencies)
  | malformed => exact absurd trivial hplaced
  | command text =>
    obtain ⟨before', name, dependencies, after', rfl, -⟩ := not_not.mp hplaced
    exact absurd (by simp) (hno name dependencies)

/-- The empty makefile has no rules. -/
theorem observed_parse_nil :
    observed (parse (joinLines []) (zeroedTable : Fin n → TargetEntry)) = some (0, zeroedTable) := rfl

/-- Inserting a line into the empty makefile. -/
theorem Unnoticed.observed_empty {line : List UInt8} (h : Unnoticed line) :
    observed (parse (joinLines [line]) (zeroedTable : Fin maxNodes → TargetEntry)) = some
    (0, zeroedTable) := by
  have hcount : ruleCount (makefileLines (joinLines [])) ≤ maxNodes := by
    rw [makefileLines_nil]
    decide
  have hlimits : WithinLimits (makefileLines (joinLines [])) := by
    rw [makefileLines_nil]
    constructor <;> simp
  exact (h [] [] (by simp) hcount hlimits).trans observed_parse_nil

/-- A line which makes no difference to the empty makefile has skipped pieces only. -/
theorem skipped_of_observed {line : List UInt8} (hline : newline ∉ line)
    (h : observed (parse (joinLines [line]) (zeroedTable : Fin n → TargetEntry)) = some
      (0, zeroedTable)) :
    ∀ kind ∈ lineKinds line, kind = .skipped := by
  obtain ⟨result, hparse, hresult⟩ := Option.map_eq_some_iff.mp h
  obtain ⟨hret, -⟩ := Prod.mk.inj hresult
  have hrefines := @parse_refines n (joinLines [line])
  have hlines : makefileLines (joinLines [line]) = lineKinds line := by
    rw [makefileLines_joinLines (by simpa using hline) (List.cons_ne_nil _ _), List.flatMap_singleton]
  rw [hlines] at hrefines
  rcases run_cases (n := n) (lineKinds line) with ⟨p, hrun, hafter, hstored⟩ |
    ⟨before, other, after, -, -, hend⟩
  · rw [hrun] at hrefines
    obtain ⟨targets, haccepted, -⟩ := hrefines
    obtain rfl := Option.some.inj (hparse.symm.trans haccepted)
    apply hstored.eq_skipped
    rw [← hafter.count]
    exact Int.ofNat_eq_zero.mp hret
  · rcases hend with ⟨hrun, -⟩ | ⟨hrun, -, -⟩
    · rw [hrun] at hrefines
      exact absurd (hparse.symm.trans hrefines) (Option.some_ne_none result)
    · rw [hrun] at hrefines
      obtain ⟨targets, error, hrejected⟩ := hrefines
      obtain rfl := Option.some.inj (hparse.symm.trans hrejected)
      exact absurd hret (by simp)

/-- A comment or a line of spaces makes no difference exactly when its pieces behind the first one
are skipped. -/
theorem unnoticed_iff {line : List UInt8} (hline : newline ∉ line)
    (hkind : line.head? = some hash ∨ ∀ c ∈ line, c = space) :
    Unnoticed line ↔ ∀ piece ∈ (chunks 1023 line).tail, lineOf (cString piece) = .skipped := by
  obtain ⟨rest, hchunks⟩ := chunks_eq_cons line
  have hfirst : lineOf (cString (line.take 1023)) = .skipped := by
    apply lineOf_skipped
    rcases hkind with hhash | hspaces
    · exact Or.inl (by rw [List.head?_take, if_neg (by decide), hhash])
    · exact Or.inr fun c hc => hspaces c (List.mem_of_mem_take hc)
  have hkinds : (∀ kind ∈ lineKinds line, kind = .skipped) ↔
      ∀ piece ∈ (chunks 1023 line).tail, lineOf (cString piece) = .skipped := by
    rw [lineKinds, hchunks, List.forall_mem_map, List.forall_mem_cons, List.tail_cons,
      and_iff_right hfirst]
  rw [← hkinds]
  constructor
  · intro h
    exact skipped_of_observed hline h.observed_empty
  · exact unnoticed_of_skipped hline

/-- A line of spaces makes no difference, however long it is. -/
theorem unnoticed_spaces {line : List UInt8} (h : ∀ c ∈ line, c = space) : Unnoticed line := by
  have hline : newline ∉ line := fun hmem => absurd (h newline hmem) (by decide)
  apply unnoticed_of_skipped hline
  rw [lineKinds, List.forall_mem_map]
  intro piece hpiece
  exact lineOf_skipped (Or.inr fun c hc => h c (mem_of_mem_chunks (by decide) hpiece hc))

/-- A comment of 1025 characters whose last two are a rule. -/
def longComment : List UInt8 := hash :: List.replicate 1022 hash ++ bytes "a:"

/-- Inserting it into the empty makefile adds the rule. -/
theorem not_unnoticed_longComment : ¬ Unnoticed longComment := by
  intro h
  have hrule : (parse (joinLines [longComment]) (zeroedTable : Fin maxNodes → TargetEntry)).map
      (·.ret) = some 1 := by
    decide +kernel
  obtain ⟨result, hparse, hresult⟩ := Option.map_eq_some_iff.mp h.observed_empty
  rw [hparse, Option.map_some, (Prod.mk.inj hresult).1] at hrule
  exact absurd hrule (by decide)

/-- A short comment makes no difference. -/
theorem unnoticed_iff_shortComment :
    Unnoticed (bytes "# c") ↔ ∀ piece ∈ (chunks 1023 (bytes "# c")).tail,
    lineOf (cString piece) = .skipped :=
  unnoticed_iff (by decide) (by decide)

end Csci4061.Make
