import Csci4061.Lib.CArray
import Mathlib.Data.Nat.Digits.Defs

/-!
# Writing memory and numbers

`malloc` returns a block of the size it is asked for, with any bytes in it. `memcpy` and `memset` are
defined where the bytes they write are inside their destination. `decimal` is what `printf` makes of a
number, so the length of a line with numbers in it has a bound.
-/

namespace Csci4061.Lib

/-- The block which `malloc` returns, for the bytes which it finds there. -/
def malloc (garbage : ℕ → UInt8) (size : ℕ) : List UInt8 := (List.range size).map garbage

/-- `memcpy` of all of these bytes to the start of a block. -/
def memcpy (dest src : List UInt8) : Option (List UInt8) :=
  if src.length ≤ dest.length then some (storeBytes dest src) else none

/-- `memset` of the first `n` bytes of a block. -/
def memset (dest : List UInt8) (c : UInt8) (n : ℕ) : Option (List UInt8) :=
  memcpy dest (List.replicate n c)

/-- The decimal digits of a number, with a sign if it is negative. -/
def decimal (n : ℤ) : CString :=
  (if n < 0 then bytes "-" else []) ++ (Nat.toDigits 10 n.natAbs).map fun c => c.toNat.toUInt8

/-- A block has the size it was asked for. -/
@[simp] theorem length_malloc (garbage : ℕ → UInt8) (size : ℕ) :
    (malloc garbage size).length = size := by
  simp [malloc]

/-- Bytes which fill a block are all of it. -/
theorem storeBytes_of_length {memory data : List UInt8} (h : data.length = memory.length) :
    storeBytes memory data = data := by
  rw [storeBytes, h, List.drop_length, List.append_nil]

/-- Bytes which fit are copied. -/
theorem memcpy_of_le {dest src : List UInt8} (h : src.length ≤ dest.length) :
    memcpy dest src = some (storeBytes dest src) := if_pos h

/-- A part of a block which is inside is filled. -/
theorem memset_of_le {dest : List UInt8} {n : ℕ} (c : UInt8) (h : n ≤ dest.length) :
    memset dest c n = some (List.replicate n c ++ dest.drop n) := by
  rw [memset, memcpy_of_le (by rwa [List.length_replicate]), storeBytes, List.length_replicate]

/-- A string which fits is copied. -/
theorem strcpy_of_lt (memory : List UInt8) (src : CString) (h : src.length < memory.length) :
    strcpy memory src = some (storeBytes memory (src ++ [0])) := if_pos h

/-- A number of at most `k` digits has one character more at most. -/
theorem length_decimal_le {n : ℤ} {k : ℕ} (hk : 0 < k) (h : n.natAbs < 10 ^ k) :
    (decimal n).length ≤ k + 1 := by
  have hdigits := Nat.toDigits_length 10 n.natAbs k hk h
  have hsign : (if n < 0 then bytes "-" else []).length ≤ 1 := by
    split
    · exact (by decide : (bytes "-").length ≤ 1)
    · exact Nat.zero_le 1
  rw [decimal, List.length_append, List.length_map]
  omega

end Csci4061.Lib
