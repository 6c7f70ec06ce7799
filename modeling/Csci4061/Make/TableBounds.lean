import Csci4061.Make.Recognition

/-!
# The limits of the table

`parse` checks none of the capacities of its table. It stays inside the table exactly when every
line up to the first one which is not allowed fits: the rules before it leave an entry, its
strings are short enough, and there is an entry to look at for a command without a rule.
-/

namespace Csci4061.Make

open Csci4061.Lib

/-- `parse` stays inside the table, and rejects a makefile which exceeds a limit. -/
def StaysInside (content : List UInt8) : Prop :=
  ∃ result : ParseResult maxNodes, parse content zeroedTable = some result ∧
    (¬ (ruleCount (makefileLines content) ≤ maxNodes ∧ WithinLimits (makefileLines content)) →
      result.ret = -1)

/-- Lines which are all stored are within the limits. -/
theorem Stored.withinLimits {n : ℕ} {lines : List Line} (h : Stored n lines) : WithinLimits lines where
  rules := by
    intro name dependencies hmem
    obtain ⟨before, after, heq⟩ := List.append_of_mem hmem
    exact (h before _ after heq).1.2
  commands := by
    intro text hmem
    obtain ⟨before, after, heq⟩ := List.append_of_mem hmem
    obtain ⟨hfits, hplaced⟩ := h before _ after heq
    exact hfits.1 (not_not.mp hplaced)

/-- `parse` keeps to the limits of its table exactly when the lines up to the first one which is not
allowed fit. -/
theorem staysInside_iff (content : List UInt8) :
    StaysInside content ↔
      ∀ before line after, makefileLines content = before ++ line :: after → ¬ Malformed before →
        Fits maxNodes before line := by
  have hrefines := @parse_refines maxNodes content
  rw [StaysInside]
  generalize makefileLines content = lines at *
  rcases run_cases (n := maxNodes) lines with ⟨p, hrun, hafter, hstored⟩ |
    ⟨before, line, after, rfl, hstored, hend⟩
  · rw [hrun] at hrefines
    obtain ⟨targets, hparse, hholds⟩ := hrefines
    constructor
    · exact fun _ before line after heq _ => (hstored before line after heq).1
    · refine fun _ => ⟨_, hparse, ?_⟩
      intro hexceeds
      exact absurd ⟨hafter.count ▸ hholds.length_le, hstored.withinLimits⟩ hexceeds
  · rcases hend with ⟨hrun, hfits⟩ | ⟨hrun, hfits, hmisplaced⟩
    · rw [hrun] at hrefines
      constructor
      · rintro ⟨result, hparse, -⟩
        exact absurd (hparse.symm.trans hrefines) (Option.some_ne_none result)
      · exact fun hall => absurd (hall before line after rfl hstored.not_malformed) hfits
    · rw [hrun] at hrefines
      obtain ⟨targets, error, hparse⟩ := hrefines
      refine ⟨fun _ => ?_, fun _ => ⟨_, hparse, fun _ => rfl⟩⟩
      -- the run stops at `line`, so a line behind it is not the first one which is not allowed
      intro before' line' after' heq hformed'
      rcases append_eq_append_cons heq with ⟨middle, hbefore, -⟩ | ⟨middle, rfl, hrest⟩
      · exact (hstored before' line' middle hbefore).1
      · cases middle with
        | nil =>
          obtain ⟨rfl, -⟩ := List.cons.inj hrest
          rw [List.append_nil]
          exact hfits
        | cons first middle =>
          obtain ⟨rfl, -⟩ := List.cons.inj hrest
          exact absurd ⟨before, line, middle, rfl, hmisplaced⟩ hformed'

/-- A makefile with eleven rules. -/
def elevenRules : List UInt8 := (List.replicate 11 (bytes "a:\n")).flatten

/-- The eleventh rule is written behind the table. -/
theorem parse_elevenRules : parse elevenRules (zeroedTable : Fin maxNodes → TargetEntry) = none := by
  rw [← Option.isNone_iff_eq_none]
  decide +kernel

/-- A file which exceeds the table is not rejected. -/
theorem not_staysInside_elevenRules : ¬ StaysInside elevenRules := by
  rintro ⟨result, hparse, -⟩
  exact absurd (hparse.symm.trans parse_elevenRules) (Option.some_ne_none result)

end Csci4061.Make
