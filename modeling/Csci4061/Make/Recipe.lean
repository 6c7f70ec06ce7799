import Csci4061.Lib.TokenArray
import Csci4061.Make.Blanks

/-!
# The arguments of a recipe

The child process splits the command of its target and passes the array of the words to `execvp`. The
array has as many elements as the table of targets has entries, and the loop which fills it goes on to
another, larger number. A command which the parser accepts may have up to 128 words, so only the array
limits it.
-/

namespace Csci4061.Make

open Csci4061.Lib

/-- `ARG_MAX`. -/
def argMax : ℕ := 1023

/-- `parse_into_tokens`, on the array of its caller: the number of tokens, the array and the string
which it points into; `none` is a write outside of the array. -/
def parseIntoTokens (inputString : CString) (tokens : List TokenCell) (delim : CString) :
    Option (ℕ × List TokenCell × List UInt8) := splitInto delim (fun i => i < argMax) inputString tokens

/-- The array which the child process allocates, with the addresses of the blocks for its elements. -/
def allocateTokens (blocks : Fin maxNodes → ℕ) : List TokenCell := List.ofFn fun i => .other (blocks i)

/-- The arguments which the child process makes of a command. -/
def recipeArgv (blocks : Fin maxNodes → ℕ) (command : CString) :
    Option (ℕ × List TokenCell × List UInt8) :=
  parseIntoTokens command (allocateTokens blocks) (bytes " ")

/-- The words of a command. -/
def recipeWords (command : CString) : List CString := tokens (separates (bytes " ")) command

/-- A command which the parser accepts: it is the one of a target of an accepted makefile. -/
def Accepted (command : CString) : Prop :=
  ∃ (content : List UInt8) (result : ParseResult maxNodes), parse content zeroedTable = some result ∧
    result.ret ≠ -1 ∧ ∃ target ∈ result.parsed, target.command = command

/-- Wherever the blocks are, the arguments are stored inside the array, and up to its `NULL` the array
points to the words of the command, all of them and in order. -/
def PassesWords (command : CString) : Prop :=
  ∀ blocks, ∃ tokens buf, recipeArgv blocks command = some ((recipeWords command).length, tokens, buf) ∧
    pointedStrings buf tokens = some (recipeWords command)

/-- An accepted command is a string of at most 255 characters. -/
theorem Accepted.bounds {command : CString} (h : Accepted command) :
    0 ∉ command ∧ command.length ≤ 255 := by
  obtain ⟨content, result, -, -, target, htarget, rfl⟩ := h
  obtain ⟨i, -, rfl⟩ := List.mem_map.mp htarget
  have hshort := (result.targets i).command.length_string_lt
  exact ⟨zero_not_mem_cString _, Nat.le_of_lt_succ hshort⟩

/-- The loop does not come to its own limit. -/
theorem lt_argMax {command : CString} (hlength : command.length ≤ 255) :
    ∀ j < (recipeWords command).length, decide (j < argMax) = true := by
  intro j hj
  have hhalf := two_mul_length_tokens_le (p := separates (bytes " ")) command
  rw [recipeWords] at hj
  rw [decide_eq_true_iff, argMax]
  omega

/-- The array has one element for each entry of the table. -/
theorem length_allocateTokens (blocks : Fin maxNodes → ℕ) : (allocateTokens blocks).length = maxNodes :=
  List.length_ofFn

/-- The words of an accepted command are passed exactly if there are fewer than ten. -/
theorem passesWords_iff_fewWords {command : CString} (h : Accepted command) :
    PassesWords command ↔ (recipeWords command).length < 10 := by
  obtain ⟨hzero, hlength⟩ := h.bounds
  have hgo := lt_argMax hlength
  constructor
  · intro hpasses
    obtain ⟨tokens, buf, hstored, -⟩ := hpasses fun _ => 0
    have hroom := (splitInto_isSome_iff (allocateTokens fun _ => 0) hzero hgo).mp
      (Option.isSome_iff_exists.mpr ⟨_, hstored⟩)
    rwa [length_allocateTokens] at hroom
  · intro hfew blocks
    have hroom : (recipeWords command).length < (allocateTokens blocks).length := by
      rwa [length_allocateTokens]
    obtain ⟨starts, buf, hstored, hstrings⟩ := splitInto_of_lt hzero hgo hroom
    refine ⟨_, buf, hstored, ?_⟩
    rw [pointedStrings_stored, hstrings, recipeWords]

/-- A makefile of one target. -/
def echoMakefile (words : CString) : List UInt8 := bytes "a:\n\techo " ++ words ++ bytes "\n"

/-- The commands of a makefile which was parsed are accepted. -/
theorem accepted_of_parse (content : List UInt8) (ret : ℤ) {command : CString}
    (h : (parse content (zeroedTable : Fin maxNodes → TargetEntry)).map (fun result =>
      (result.ret, result.parsed.map Target.command)) = some (ret, [command])) (hret : ret ≠ -1) :
    Accepted command := by
  obtain ⟨result, hparse, hresult⟩ := Option.map_eq_some_iff.mp h
  obtain ⟨rfl, hcommands⟩ := Prod.mk.inj hresult
  have hmem : command ∈ result.parsed.map Target.command := by
    rw [hcommands]
    exact List.mem_singleton_self command
  exact ⟨content, result, hparse, hret, List.mem_map.mp hmem⟩

/-- A command of two words. -/
theorem passesWords_iff_fewWords_echo : Accepted (bytes "echo a") ∧ PassesWords (bytes "echo a") := by
  have haccepted : Accepted (bytes "echo a") :=
    accepted_of_parse (echoMakefile (bytes "a")) 1 (by decide +kernel) (by decide)
  exact ⟨haccepted, (passesWords_iff_fewWords haccepted).mpr (by decide +kernel)⟩

/-- With a command of ten words the `NULL` behind them is stored outside of the array. -/
theorem not_passesWords_tenWords : Accepted (bytes "echo 1 2 3 4 5 6 7 8 9") ∧
    (∀ blocks, recipeArgv blocks (bytes "echo 1 2 3 4 5 6 7 8 9") = none) ∧
    ¬ PassesWords (bytes "echo 1 2 3 4 5 6 7 8 9") := by
  have haccepted : Accepted (bytes "echo 1 2 3 4 5 6 7 8 9") :=
    accepted_of_parse (echoMakefile (bytes "1 2 3 4 5 6 7 8 9")) 1 (by decide +kernel) (by decide)
  obtain ⟨hzero, hlength⟩ := haccepted.bounds
  have hwords : (recipeWords (bytes "echo 1 2 3 4 5 6 7 8 9")).length = maxNodes := by decide +kernel
  have houtside : ∀ blocks, recipeArgv blocks (bytes "echo 1 2 3 4 5 6 7 8 9") = none := by
    intro blocks
    have hfull : (allocateTokens blocks).length ≤
        (recipeWords (bytes "echo 1 2 3 4 5 6 7 8 9")).length := by
      rw [length_allocateTokens, hwords]
    exact splitInto_of_le hzero (lt_argMax hlength) hfull
  refine ⟨haccepted, houtside, fun hpasses => ?_⟩
  obtain ⟨tokens, buf, hstored, -⟩ := hpasses fun _ => 0
  exact absurd (hstored.symm.trans (houtside _)) (Option.some_ne_none _)

end Csci4061.Make
