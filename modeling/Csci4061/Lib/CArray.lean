import Mathlib.Data.Int.Notation
import Mathlib.Data.List.Nodup
import Mathlib.Data.List.TakeWhile

/-!
# C strings and arrays indexed by a C integer

A C string is the list of its bytes before the terminating NUL. An array access is defined
inside the allocation only: an index which is negative or past the end gives `none`, so that
a program which is shown to keep running never leaves its arrays.
-/

namespace Csci4061.Lib

variable {α : Type*}

/-- The bytes of a C string, without the terminator. -/
abbrev CString := List UInt8

/-- The string which a region of memory starts with: its bytes before the first NUL. -/
def cString (memory : List UInt8) : CString := memory.takeWhile (· ≠ 0)

/-- The bytes of a string literal. -/
def bytes (s : String) : CString := s.toList.map fun c => c.toNat.toUInt8

/-- `strrchr`: the string from the last occurrence of a byte on. -/
def strrchr (s : CString) (c : UInt8) : Option CString :=
  if c ∈ s then some (c :: (s.reverse.takeWhile (· ≠ c)).reverse) else none

/-- `strchr`: the string from the first occurrence of a byte on. -/
def strchr (s : CString) (c : UInt8) : Option CString :=
  if c ∈ s then some (s.dropWhile (· ≠ c)) else none

/-- A region of memory after bytes were stored at its start. -/
def storeBytes (memory data : List UInt8) : List UInt8 := data ++ memory.drop data.length

/-- `strcpy` to a region of memory: the string and its terminator have to fit. -/
def strcpy (memory : List UInt8) (src : CString) : Option (List UInt8) :=
  if src.length < memory.length then some (storeBytes memory (src ++ [0])) else none

/-- `strchr` finds the byte behind a part without it. -/
theorem strchr_eq_some_iff {s found : CString} {c : UInt8} :
    strchr s c = some found ↔ ∃ before rest, s = before ++ c :: rest ∧ c ∉ before ∧
    found = c :: rest := by
  constructor
  · intro h
    rw [strchr] at h
    split at h
    · rename_i hmem
      obtain rfl := Option.some.inj h
      obtain ⟨before, rest, rfl, hbefore⟩ := List.eq_append_cons_of_mem hmem
      refine ⟨before, rest, rfl, hbefore, ?_⟩
      rw [List.dropWhile_append_of_pos fun x hx => by simpa using ne_of_mem_of_not_mem hx hbefore,
        List.dropWhile_cons_of_neg (by simp)]
    · exact absurd h (by simp)
  · rintro ⟨before, rest, rfl, hbefore, rfl⟩
    rw [strchr, if_pos (by simp),
      List.dropWhile_append_of_pos fun x hx => by simpa using ne_of_mem_of_not_mem hx hbefore,
      List.dropWhile_cons_of_neg (by simp)]

/-- A region without NUL is a string up to its end. -/
theorem cString_of_not_mem {s : List UInt8} (h : 0 ∉ s) : cString s = s := by
  rw [cString, List.takeWhile_eq_self_iff]
  intro x hx
  simpa using ne_of_mem_of_not_mem hx h

/-- A string ends at its NUL, whatever follows. -/
theorem cString_append_zero {s : List UInt8} (h : 0 ∉ s) (rest : List UInt8) :
    cString (s ++ 0 :: rest) = s := by
  rw [cString, List.takeWhile_append_of_pos]
  · simp
  · intro x hx
    simpa using ne_of_mem_of_not_mem hx h

/-- What stands behind a NUL does not belong to the string. -/
theorem cString_append_of_head {z : List UInt8} (hz : ∀ c ∈ z.head?, c = 0) (s : List UInt8) :
    cString (s ++ z) = cString s := by
  rw [cString, cString, List.takeWhile_append]
  split
  · rename_i hall
    rw [(List.takeWhile_prefix _).eq_of_length hall]
    cases z with
    | nil => rw [List.takeWhile_nil, List.append_nil]
    | cons c z => rw [List.takeWhile_cons_of_neg (by simp [hz c rfl]), List.append_nil]
  · rfl

/-- Storing bytes keeps the size of a region which is large enough. -/
theorem length_storeBytes {memory data : List UInt8} (h : data.length ≤ memory.length) :
    (storeBytes memory data).length = memory.length := by
  rw [storeBytes, List.length_append, List.length_drop]
  omega

/-- A string goes on in the bytes behind a part of it without NUL. -/
theorem cString_append_of_not_mem {s : List UInt8} (h : 0 ∉ s) (rest : List UInt8) :
    cString (s ++ rest) = s ++ cString rest := by
  rw [cString, List.takeWhile_append_of_pos, cString]
  intro x hx
  simpa using ne_of_mem_of_not_mem hx h

/-- After bytes were stored, the string at the start of the region is the one which they hold, and ends
inside the region, exactly if a NUL is among them or already stands behind them. -/
theorem cString_storeBytes_iff {memory data : List UInt8} (hfits : data.length ≤ memory.length) :
    cString (storeBytes memory data) = cString data ∧
    (cString (storeBytes memory data)).length < memory.length ↔
      0 ∈ data ∨ memory[data.length]? = some 0 := by
  rw [storeBytes, ← List.head?_drop]
  by_cases hzero : 0 ∈ data
  · obtain ⟨before, behind, rfl, hbefore⟩ := List.eq_append_cons_of_mem hzero
    rw [List.length_append, List.length_cons] at hfits
    rw [List.append_assoc, List.cons_append, cString_append_zero hbefore, cString_append_zero hbefore]
    exact iff_of_true ⟨rfl, by omega⟩ (Or.inl hzero)
  · rw [cString_append_of_not_mem hzero, cString_of_not_mem hzero, or_iff_right hzero]
    cases hbehind : memory.drop data.length with
    | nil =>
      have hlength := List.drop_eq_nil_iff.mp hbehind
      rw [List.head?_nil]
      refine iff_of_false (fun h => ?_) (by simp)
      have hinside := h.2
      rw [List.length_append] at hinside
      omega
    | cons c rest =>
      have hlength := congrArg List.length hbehind
      rw [List.length_drop, List.length_cons] at hlength
      rw [List.head?_cons, Option.some_inj]
      constructor
      · intro h
        by_contra hne
        have hstring : cString (c :: rest) ≠ [] := by
          rw [cString, List.takeWhile_cons_of_pos (by simpa using hne)]
          exact List.cons_ne_nil _ _
        exact hstring (List.append_right_eq_self.mp h.1)
      · rintro rfl
        have hnothing : cString (0 :: rest) = [] := cString_append_zero (s := []) List.not_mem_nil rest
        rw [hnothing, List.append_nil]
        exact ⟨rfl, by omega⟩

/-- A string which is copied fits, and is stored with its NUL. -/
theorem strcpy_cases {memory memory' : List UInt8} {src : CString}
    (h : strcpy memory src = some memory') :
    src.length < memory.length ∧ memory' = storeBytes memory (src ++ [0]) := by
  rw [strcpy] at h
  split at h
  · rename_i hlength
    exact ⟨hlength, (Option.some.inj h).symm⟩
  · exact absurd h (by simp)

/-- Copying a string keeps the size of the region. -/
theorem length_of_strcpy {memory memory' : List UInt8} {src : CString}
    (h : strcpy memory src = some memory') :
    memory'.length = memory.length := by
  obtain ⟨hlength, rfl⟩ := strcpy_cases h
  apply length_storeBytes
  rw [List.length_append, List.length_singleton]
  omega

/-- A copied string is read back, and the region keeps its size. -/
theorem strcpy_eq_some {memory memory' : List UInt8} {src : CString} (hzero : 0 ∉ src)
    (h : strcpy memory src = some memory') : cString memory' = src ∧ memory'.length = memory.length := by
  refine ⟨?_, length_of_strcpy h⟩
  obtain ⟨-, rfl⟩ := strcpy_cases h
  rw [storeBytes, List.append_assoc]
  exact cString_append_zero hzero _

/-- A string has no NUL. -/
theorem zero_not_mem_cString (memory : List UInt8) : 0 ∉ cString memory := by
  intro h
  simpa using List.mem_takeWhile_imp h

/-- Read `cells[i]`, which is defined inside the allocation only. -/
def readSlot (cells : List α) (i : ℤ) : Option α :=
  if 0 ≤ i then cells[i.toNat]? else none

/-- Execute `cells[i] = x`, which is defined inside the allocation only. -/
def writeSlot (cells : List α) (i : ℤ) (x : α) : Option (List α) :=
  if 0 ≤ i ∧ i < cells.length then some (cells.set i.toNat x) else none

/-- At a natural index a read is list access. -/
@[simp] theorem readSlot_natCast (cells : List α) (i : ℕ) : readSlot cells i = cells[i]? := by
  simp [readSlot]

/-- At a natural index below the length a write succeeds. -/
theorem writeSlot_natCast (cells : List α) (i : ℕ) (x : α) (hi : i < cells.length) :
    writeSlot cells i x = some (cells.set i x) := by
  simp [writeSlot, hi]

/-- Past the last cell a write is not defined. -/
theorem writeSlot_of_le (cells : List α) {i : ℕ} (x : α) (hi : cells.length ≤ i) :
    writeSlot cells i x = none := by
  simp [writeSlot, hi]

/-- Behind the elements which are done the next one is written. -/
theorem writeSlot_append_cons (done : List α) (c x : α) (todo : List α) :
    writeSlot (done ++ c :: todo) done.length x = some (done ++ x :: todo) := by
  rw [writeSlot_natCast _ _ _ (by simp), List.set_append_right _ _ le_rfl, Nat.sub_self,
    List.set_cons_zero]

/-- The last write is inside exactly if an element is left. -/
theorem writeSlot_append_eq (done todo : List α) (x : α) :
    writeSlot (done ++ todo) done.length x = if 0 < todo.length then some (done ++ x :: todo.drop 1)
    else none := by
  cases todo with
  | nil => exact writeSlot_of_le _ x (by simp)
  | cons c todo => exact writeSlot_append_cons done c x todo

/-- An element of an array of pointers with a `NULL` behind them. -/
theorem join_getElem?_closed (xs : List α) (i : ℕ) : (xs.map some ++ [none])[i]?.join = xs[i]? := by
  induction xs generalizing i with
  | nil =>
    cases i with
    | zero => rfl
    | succ i => rfl
  | cons x xs ih =>
    cases i with
    | zero => rfl
    | succ i => exact ih i

/-- A change of one cell, seen through a function with which it commutes. -/
theorem map_modify_of_comm {α β : Type*} {g : α → β} {f : α → α} {k : β → β}
    (hcomm : ∀ a, g (f a) = k (g a)) (xs : List α) (i : ℕ) :
    (xs.modify i f).map g = (xs.map g).modify i k := by
  induction xs generalizing i with
  | nil => cases i <;> rfl
  | cons x xs ih =>
    cases i with
    | zero => simp [hcomm]
    | succ i => simp [ih]

/-- The cells up to one which is overwritten. -/
theorem take_succ_set {α : Type*} {xs : List α} {n : ℕ} (h : n < xs.length) (x : α) :
    (xs.set n x).take (n + 1) = xs.take n ++ [x] := by
  rw [List.take_add_one, List.take_set_of_le (le_refl n), List.getElem?_set_self h]
  rfl

/-- Only the last cell tells an extended list from the list. -/
theorem getElem?_append_singleton_of_ne {α : Type*} {xs : List α} {i : ℕ} (h : i ≠ xs.length) (x : α) :
    (xs ++ [x])[i]? = xs[i]? := by
  rcases Nat.lt_or_gt_of_ne h with hlt | hgt
  · exact List.getElem?_append_left hlt
  · rw [List.getElem?_append_right hgt.le, List.getElem?_eq_none hgt.le, List.getElem?_eq_none]
    rw [List.length_singleton]
    omega

/-- An overwritten cell leaves the cells distinct exactly when the new value is not among them, or
is the one which was there. -/
theorem nodup_set_iff {cells : List α} {i : ℕ} {x : α} (h : cells.Nodup) (hi : i < cells.length) :
    (cells.set i x).Nodup ↔ x ∉ cells ∨ cells[i]? = some x := by
  constructor
  · intro hset
    by_cases hx : x ∈ cells
    · obtain ⟨j, hj, rfl⟩ := List.mem_iff_getElem.mp hx
      by_cases hij : i = j
      · subst hij
        exact Or.inr (List.getElem?_eq_getElem hj)
      · have hsame : (cells.set i cells[j])[i]? = (cells.set i cells[j])[j]? := by
          rw [List.getElem?_set_self hi, List.getElem?_set_ne hij, List.getElem?_eq_getElem hj]
        have hlength : i < (cells.set i cells[j]).length := by
          rw [List.length_set]
          exact hi
        exact absurd ((List.getElem?_inj hlength hset).mp hsame) hij
    · exact Or.inl hx
  · rintro (hfresh | hsame)
    · exact h.set hfresh
    · obtain ⟨-, rfl⟩ := List.getElem?_eq_some_iff.mp hsame
      rw [List.set_getElem_self]
      exact h

/-- The remainder of C agrees with the one of natural numbers where both operands are natural. -/
theorem natCast_succ_tmod (i n : ℕ) : ((i : ℤ) + 1).tmod n = ((i + 1) % n : ℕ) := by
  rw [Int.natCast_emod, ← Int.tmod_eq_emod_of_nonneg (by omega)]
  rfl

end Csci4061.Lib
