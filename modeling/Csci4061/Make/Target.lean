import Csci4061.Lib.CArray
import Csci4061.Lib.CInt
import Mathlib.Data.Int.Order.Basic
import Mathlib.Data.List.FinRange
import Mathlib.Logic.Relation

/-!
# Targets and modification times

A makefile is a table of targets and the requested one, which `main` looks up by its name and
copies. What surrounds the program is a type of worlds: a `stat` reports a time, a `fork`
succeeds or fails, and a command ends with a status, each of them in a new world.

A time is converted to `int`, and `-1` stands for a file which is missing, as in the source.
-/

namespace Csci4061.Make

open Csci4061.Lib

/-- A vertex of the dependency graph (`target_t`), without its status. -/
structure Target where
  targetName : CString
  dependencyNames : List CString
  command : CString
  deriving DecidableEq

/-- The values of `Status`. -/
inductive Status
  | unfinished
  | finished
  | needsBuilding
  deriving DecidableEq

variable {n : ℕ}

/-- `find_target`: the first entry with a name. -/
def findTarget (targets : Fin n → Target) (name : CString) : Option (Fin n) :=
  (List.finRange n).find? fun i => (targets i).targetName = name

/-- The table of targets, and the entry which is found for the requested name. -/
structure Makefile (n : ℕ) where
  targets : Fin n → Target
  requested : Fin n
  found : findTarget targets (targets requested).targetName = some requested

/-- The targets which `build` is called on: `initialTarget`, the copy made by `main`, and the
entries of the table. -/
inductive TargetRef (n : ℕ)
  | initial
  | entry (i : Fin n)
  deriving DecidableEq

/-- The position of a target in the table; for the copy, of the entry it was copied from. -/
def Makefile.index (mk : Makefile n) : TargetRef n → Fin n
  | .initial => mk.requested
  | .entry i => i

/-- The fields of a target. -/
def Makefile.target (mk : Makefile n) (target : TargetRef n) : Target := mk.targets (mk.index target)

/-- An entry has another one as a direct dependency. -/
def Makefile.Edge (mk : Makefile n) (i j : Fin n) : Prop :=
  ∃ name ∈ (mk.targets i).dependencyNames, findTarget mk.targets name = some j

/-- An entry has another one as a dependency at some depth. -/
def Makefile.Below (mk : Makefile n) : Fin n → Fin n → Prop := Relation.TransGen mk.Edge

/-- No entry depends on itself, directly or through others. -/
def Makefile.Acyclic (mk : Makefile n) : Prop := ∀ i, ¬ mk.Below i i

/-- What `wait` reports of a child process. -/
inductive WaitStatus
  | exited (code : ℕ)
  | signaled
  deriving DecidableEq

/-- The files and processes around the program. -/
structure Env (σ : Type*) where
  /-- The modification time of a file, if `access` succeeds. -/
  stat : σ → CString → Option ℤ × σ
  /-- Whether `fork` succeeds. -/
  fork : σ → Bool × σ
  /-- The child process: the words of the command line go to `execvp`, and `wait` for its end. -/
  command : σ → CString → WaitStatus × σ

variable {σ : Type*}

/-- The `int` for what `stat` reports. -/
def fileTime : Option ℤ → ℤ
  | some time => toInt time
  | none => -1

/-- The result of `compare_modification_time` for two times. -/
def compareTimes (time₁ time₂ : ℤ) : ℤ :=
  if time₁ = -1 ∨ time₂ = -1 then -1
  else if time₁ = time₂ then 0
  else if time₁ > time₂ then 1
  else 2

/-- `compare_modification_time`, which looks at both files in turn. -/
def Env.compareModificationTime (env : Env σ) (world : σ) (file₁ file₂ : CString) : ℤ × σ :=
  let (time₁, world₁) := env.stat world file₁
  let (time₂, world₂) := env.stat world₁ file₂
  (compareTimes (fileTime time₁) (fileTime time₂), world₂)

/-- Surroundings in which the times of files change only when a command runs. -/
structure Files (σ : Type*) extends Env σ where
  stat_stat : ∀ world file other, (stat (stat world file).2 other).1 = (stat world other).1
  stat_fork : ∀ world other, (stat (fork world).2 other).1 = (stat world other).1

/-- The modification time of a file, if it exists. -/
def Files.time (files : Files σ) (world : σ) (file : CString) : Option ℤ := (files.stat world file).1

/-- How two files compare in a world. -/
def Files.order (files : Files σ) (world : σ) (file₁ file₂ : CString) : ℤ :=
  compareTimes (fileTime (files.time world file₁)) (fileTime (files.time world file₂))

/-- The times of all files are the same in two worlds. -/
def Files.SameTimes (files : Files σ) (world world' : σ) : Prop :=
  ∀ file, files.time world' file = files.time world file

/-- An entry which is found has the name. -/
theorem findTarget_name {targets : Fin n → Target} {name : CString} {i : Fin n}
    (h : findTarget targets name = some i) : (targets i).targetName = name := by
  simpa using List.find?_some h

/-- An entry which is found for some name is found for its own name. -/
theorem findTarget_self {targets : Fin n → Target} {name : CString} {i : Fin n}
    (h : findTarget targets name = some i) : findTarget targets (targets i).targetName = some i := by
  rw [findTarget_name h]
  exact h

/-- The only entry with a name is found. -/
theorem findTarget_of_unique {targets : Fin n → Target} {name : CString} {i : Fin n}
    (hi : (targets i).targetName = name) (hunique : ∀ j, (targets j).targetName = name → j = i) :
    findTarget targets name = some i := by
  cases hfind : findTarget targets name with
  | none =>
    have hnone := List.find?_eq_none.mp hfind i (List.mem_finRange i)
    exact absurd hi (by simpa using hnone)
  | some j => rw [hunique j (findTarget_name hfind)]

/-- Some entry is found for a name exactly if some entry has it. -/
theorem exists_findTarget_iff (targets : Fin n → Target) (name : CString) :
    (∃ i, findTarget targets name = some i) ↔ ∃ i, (targets i).targetName = name := by
  rw [← Option.isSome_iff_exists, findTarget, List.find?_isSome]
  simp

/-- A dependency is an entry which is found for its own name. -/
theorem Makefile.Below.found {mk : Makefile n} {i j : Fin n} (h : mk.Below i j) :
    findTarget mk.targets (mk.targets j).targetName = some j := by
  obtain ⟨k, -, name, -, hfind⟩ := Relation.TransGen.tail'_iff.mp h
  exact findTarget_self hfind

/-- Two entries which are found for their own names have different names. -/
theorem findTarget_injective {targets : Fin n → Target} {i j : Fin n}
    (hi : findTarget targets (targets i).targetName = some i)
    (hj : findTarget targets (targets j).targetName = some j)
    (hname : (targets i).targetName = (targets j).targetName) : i = j :=
  Option.some.inj (hi.symm.trans (hname ▸ hj))

/-- No entry is below one of its direct dependencies. -/
theorem Makefile.Acyclic.not_below {mk : Makefile n} (h : mk.Acyclic) {i j : Fin n}
    (hedge : mk.Edge i j) :
    ¬ mk.Below j i :=
  fun hbelow => h i (.head hedge hbelow)

/-- `compare_modification_time` compares the times of the world where it is called. -/
theorem Files.compareModificationTime_fst (files : Files σ) (world : σ) (file₁ file₂ : CString) :
    (files.compareModificationTime world file₁ file₂).1 = files.order world file₁ file₂ := by
  unfold Files.order Files.time
  rw [← files.stat_stat world file₁ file₂]
  rfl

/-- Looking at two files changes no time. -/
theorem Files.sameTimes_look (files : Files σ) (world : σ) (file₁ file₂ : CString) :
    files.SameTimes world (files.compareModificationTime world file₁ file₂).2 := fun file =>
  (files.stat_stat _ file₂ file).trans (files.stat_stat world file₁ file)

/-- Files compare the same in worlds with the same times. -/
theorem Files.SameTimes.order {files : Files σ} {world world' : σ} (h : files.SameTimes world world')
    (file₁ file₂ : CString) : files.order world' file₁ file₂ = files.order world file₁ file₂ := by
  rw [Files.order, Files.order, h file₁, h file₂]

end Csci4061.Make
