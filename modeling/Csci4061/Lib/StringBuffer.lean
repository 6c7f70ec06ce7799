import Csci4061.Lib.CArray
import Mathlib.Algebra.GroupWithZero.Nat
import Mathlib.Algebra.NeZero
import Mathlib.Logic.Function.Basic

/-!
# Tables of fixed-size strings

A `char` array of a fixed size which holds a string, and arrays of a fixed number of records.
Copying a string which does not fit, and reading or writing a record which is not there, are
`none`. As a string buffer is terminated by construction, reading its string stays inside it.
-/

namespace Csci4061.Lib

variable {α : Type*} {size n : ℕ}

/-- A `char` array which holds a string. -/
structure StringBuffer (size : ℕ) where
  memory : List UInt8
  length_memory : memory.length = size
  terminated : 0 ∈ memory
  deriving DecidableEq

namespace StringBuffer

/-- The string in the buffer. -/
def string (b : StringBuffer size) : CString := cString b.memory

/-- The size of a buffer of zero bytes. -/
theorem length_zeroed (size : ℕ) : (List.replicate size (0 : UInt8)).length = size :=
  List.length_replicate

/-- A buffer of zero bytes holds a string. -/
theorem terminated_zeroed (size : ℕ) [NeZero size] : 0 ∈ List.replicate size (0 : UInt8) :=
  List.mem_replicate.mpr ⟨NeZero.ne size, rfl⟩

/-- The buffer after `memset` with zero. -/
def zeroed (size : ℕ) [NeZero size] : StringBuffer size where
  memory := List.replicate size 0
  length_memory := length_zeroed size
  terminated := terminated_zeroed size

/-- A string which fits keeps the size of the buffer. -/
theorem length_stored (b : StringBuffer size) {src : CString} (h : src.length < size) :
    (storeBytes b.memory (src ++ [0])).length = size := by
  rw [length_storeBytes, b.length_memory]
  rw [List.length_append, List.length_singleton, b.length_memory]
  exact h

/-- A string is stored with its terminator. -/
theorem terminated_stored (b : StringBuffer size) (src : CString) :
    0 ∈ storeBytes b.memory (src ++ [0]) := by
  simp [storeBytes]

/-- `strcpy` to the buffer. -/
def strcpy (b : StringBuffer size) (src : CString) : Option (StringBuffer size) :=
  if h : src.length < size then
    some ⟨storeBytes b.memory (src ++ [0]), length_stored b h, terminated_stored b src⟩
  else none

/-- A zeroed buffer holds the empty string. -/
@[simp] theorem string_zeroed (size : ℕ) [NeZero size] : (zeroed size).string = [] := by
  obtain ⟨k, hk⟩ := Nat.exists_eq_succ_of_ne_zero (NeZero.ne size)
  simp [string, zeroed, cString, hk, List.replicate_succ]

/-- A string which fits is copied, and is read back. -/
theorem strcpy_of_lt (b : StringBuffer size) {src : CString} (hzero : 0 ∉ src) (h : src.length < size) :
    ∃ b', b.strcpy src = some b' ∧ b'.string = src := by
  refine ⟨⟨storeBytes b.memory (src ++ [0]), length_stored b h, terminated_stored b src⟩, dif_pos h, ?_⟩
  change cString (storeBytes b.memory (src ++ [0])) = src
  rw [storeBytes, List.append_assoc]
  exact cString_append_zero hzero _

/-- A string which does not fit leaves the buffer. -/
theorem strcpy_of_le (b : StringBuffer size) {src : CString} (h : size ≤ src.length) :
    b.strcpy src = none :=
  dif_neg (Nat.not_lt.mpr h)

/-- What is copied to a buffer is read back. -/
theorem string_of_strcpy {b b' : StringBuffer size} {src : CString} (hzero : 0 ∉ src)
    (h : b.strcpy src = some b') :
    b'.string = src := by
  have hfits : src.length < size := by
    by_contra hlong
    exact absurd (h.symm.trans (b.strcpy_of_le (Nat.le_of_not_lt hlong))) (by simp)
  obtain ⟨copied, hcopied, hstring⟩ := b.strcpy_of_lt hzero hfits
  obtain rfl := Option.some.inj (h.symm.trans hcopied)
  exact hstring

/-- The string in a buffer is shorter than the buffer. -/
theorem length_string_lt (b : StringBuffer size) : b.string.length < size := by
  have hne : b.string ≠ b.memory := fun heq =>
    absurd (show 0 ∈ b.string from heq ▸ b.terminated) (zero_not_mem_cString b.memory)
  have hbegins : b.string <+: b.memory := List.takeWhile_prefix _
  calc b.string.length < b.memory.length :=
        lt_of_le_of_ne hbegins.length_le fun hlength => hne (hbegins.eq_of_length hlength)
    _ = size := b.length_memory

end StringBuffer

/-- Read `cells[i]`, which is defined inside the array only. -/
def readCell (cells : Fin n → α) (i : ℕ) : Option α := if h : i < n then some (cells ⟨i, h⟩) else none

/-- Execute `cells[i] = x`, which is defined inside the array only. -/
def writeCell (cells : Fin n → α) (i : ℕ) (x : α) : Option (Fin n → α) :=
  if h : i < n then some (Function.update cells ⟨i, h⟩ x) else none

/-- A cell of the array is read. -/
theorem readCell_of_lt (cells : Fin n → α) {i : ℕ} (h : i < n) :
    readCell cells i = some (cells ⟨i, h⟩) := dif_pos h

/-- There is no cell behind the last one. -/
theorem readCell_of_le (cells : Fin n → α) {i : ℕ} (h : n ≤ i) : readCell cells i = none :=
  dif_neg (Nat.not_lt.mpr h)

/-- A cell of the array is written. -/
theorem writeCell_of_lt (cells : Fin n → α) {i : ℕ} (x : α) (h : i < n) :
    writeCell cells i x = some (Function.update cells ⟨i, h⟩ x) := dif_pos h

end Csci4061.Lib
