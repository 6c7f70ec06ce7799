import Csci4061.Lib.Lines
import Csci4061.Lib.StringBuffer
import Csci4061.Lib.Strtok
import Csci4061.Make.Target

/-!
# The makefile parser

`parse` fills a table of targets from the lines of a makefile. Its state is the table, the
pointer to the current entry and the flag and the counters of the loop. Three uses of `strtok`
share the line buffer: one strips the newline, one cuts the name of a rule at the colon, and one
goes over the dependencies.

An access outside the table, and a copy of a string which does not fit, are `none`. Lemma
`parseLine_eq` says what the body of the loop does in terms of the kind of its line, without
buffers and positions.
-/

namespace Csci4061.Make

open Csci4061.Lib

/-- The number of entries of the table in `main`. -/
def maxNodes : ℕ := 10

/-- The space character. -/
def space : UInt8 := 0x20

/-- The tab character. -/
def tab : UInt8 := 0x09

/-- The character which starts a comment. -/
def hash : UInt8 := 0x23

/-- The character between a name and its dependencies. -/
def colon : UInt8 := 0x3A

/-- A `target_t`, without its status, which the parser leaves alone. -/
structure TargetEntry where
  targetName : StringBuffer 64
  dependencyCount : ℕ
  dependencyNames : Fin 10 → StringBuffer 64
  command : StringBuffer 256

/-- An entry after `memset` with zero. -/
def TargetEntry.zeroed : TargetEntry where
  targetName := .zeroed 64
  dependencyCount := 0
  dependencyNames := fun _ => .zeroed 64
  command := .zeroed 256

/-- The names of the dependencies in use, in order. -/
def TargetEntry.dependencies (entry : TargetEntry) : List CString :=
  ((List.finRange 10).take entry.dependencyCount).map fun i => (entry.dependencyNames i).string

/-- What the rest of the program reads of an entry. -/
def TargetEntry.target (entry : TargetEntry) : Target where
  targetName := entry.targetName.string
  dependencyNames := entry.dependencies
  command := entry.command.string

variable {n : ℕ}

/-- The table which `main` passes. -/
def zeroedTable : Fin n → TargetEntry := fun _ => .zeroed

/-- The variables of `parse` between two lines, with `pTarget` as an index. -/
structure ParseState (n : ℕ) where
  targets : Fin n → TargetEntry
  pTarget : ℕ
  nPreviousTarget : Bool
  nTargetCount : ℕ
  nLine : ℕ

/-- A message on standard error, without the name of the makefile. -/
structure ParseError where
  nLine : ℕ
  text : CString
  deriving DecidableEq

/-- The message for a command without a rule. -/
def multipleCommands (nLine : ℕ) : ParseError :=
  ⟨nLine, bytes "specifying multiple commands is not allowed.  Stop."⟩

/-- The message for a rule without a name or a colon. -/
def missingSeparator (nLine : ℕ) : ParseError := ⟨nLine, bytes "missing separator.  Stop."⟩

/-- The return value of `parse`, the table and the message, if there is one. -/
structure ParseResult (n : ℕ) where
  ret : ℤ
  targets : Fin n → TargetEntry
  error : Option ParseError

/-- The branch for a command, with the text behind the tab. -/
def parseCommand (s : ParseState n) (lpszLine : CString) :
    Option (Except ParseError (ParseState n)) := do
  let target ← readCell s.targets s.pTarget
  if target.targetName.string.length = 0 then some (.error (multipleCommands s.nLine))
  else
    let command ← target.command.strcpy lpszLine
    let targets ← writeCell s.targets s.pTarget { target with command }
    some (.ok { s with targets, nPreviousTarget := false, pTarget := s.pTarget + 1 })

/-- Copy a name behind the dependencies of an entry, and count it. -/
def storeDependency (target : TargetEntry) (lpszDependency : CString) : Option TargetEntry := do
  let cell ← readCell target.dependencyNames target.dependencyCount
  let name ← cell.strcpy lpszDependency
  let dependencyNames ← writeCell target.dependencyNames target.dependencyCount name
  some { target with dependencyNames, dependencyCount := target.dependencyCount + 1 }

/-- The loop over the dependencies, which the number of bytes bounds: `strtok(NULL, " ")` at a
position of the buffer. -/
def storeDependencies : ℕ → List UInt8 → ℕ → TargetEntry → Option TargetEntry
  | 0, _, _, target => some target
  | fuel + 1, buf, pos, target =>
    match strtok (bytes " ") buf pos with
    | (none, _, _) => some target
    | (some lpszDependency, buf', pos') => do
      let target ← storeDependency target (cString (buf'.drop lpszDependency))
      storeDependencies fuel buf' pos' target

/-- The branch for a rule, with the position of the line in the buffer. On an error the table has
not been written. -/
def parseTarget (s : ParseState n) (buf : List UInt8) (lpszLine : ℕ) :
    Option (Except ParseError (ParseState n)) :=
  if strchr (cString (buf.drop lpszLine)) colon = none then some (.error (missingSeparator s.nLine))
  else
    let pTarget := if s.nPreviousTarget then s.pTarget + 1 else s.pTarget
    match strtok (bytes ":") buf lpszLine with
    | (none, _, _) => some (.error (missingSeparator s.nLine))
    | (some name, buf', pos) =>
      if (cString (buf'.drop name)).length > 0 then do
        let target ← readCell s.targets pTarget
        let targetName ← target.targetName.strcpy (cString (buf'.drop name))
        let target ← storeDependencies buf'.length buf' pos { target with targetName }
        let targets ← writeCell s.targets pTarget target
        some (.ok { s with
          targets, pTarget
          nTargetCount := s.nTargetCount + 1
          nPreviousTarget := true })
      else some (.error (missingSeparator s.nLine))

/-- The body of the loop, for the string in `szLine`. -/
def parseLine (s : ParseState n) (szLine : CString) : Option (Except ParseError (ParseState n)) :=
  let s := { s with nLine := s.nLine + 1 }
  match strtok (bytes "\n") szLine 0 with
  | (none, _, _) => some (.ok s)
  | (some lpszLine, buf, _) =>
    if (cString (buf.drop lpszLine)).head? = some hash then some (.ok s)
    else
      let skipped := lpszLine + ((cString (buf.drop lpszLine)).takeWhile (· = space)).length
      let rest := cString (buf.drop skipped)
      if rest.length = 0 then some (.ok s)
      else if rest.head? = some tab then parseCommand s rest.tail
      else parseTarget s buf skipped

/-- The loop over the lines. -/
def parseLines : List (List UInt8) → ParseState n → Option (ParseResult n)
  | [], s => some ⟨s.nTargetCount, s.targets, none⟩
  | szLine :: lines, s => do
    match ← parseLine s (cString szLine) with
    | .ok s' => parseLines lines s'
    | .error error => some ⟨-1, s.targets, some error⟩

/-- The values of the variables before the first line. -/
def initialState (targets : Fin n → TargetEntry) : ParseState n where
  targets := targets
  pTarget := 0
  nPreviousTarget := false
  nTargetCount := 0
  nLine := 0

/-- `parse`, on the content of a makefile which could be opened. -/
def parse (content : List UInt8) (targets : Fin n → TargetEntry) : Option (ParseResult n) :=
  parseLines (fgetsAll 1024 content) (initialState targets)

end Csci4061.Make
