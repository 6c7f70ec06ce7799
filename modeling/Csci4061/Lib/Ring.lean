import Mathlib.Data.List.Basic
import Mathlib.Data.Nat.ModEq

/-!
# Windows of a circular array

The `count` cells which follow `start` in an array, taken modulo its length. Storing behind
the window appends to it and advancing its start removes the first cell; the wrap-around of
both indices is settled here once.
-/

namespace Csci4061.Lib

variable {α : Type*}

/-- The cells at `start`, `start + 1`, … modulo the length of the array. -/
def ringWindow (cells : List α) (start count : ℕ) : List (Option α) :=
  (List.range count).map fun k => cells[(start + k) % cells.length]?

/-- A window has the requested number of cells. -/
@[simp] theorem ringWindow_length (cells : List α) (start count : ℕ) :
    (ringWindow cells start count).length = count := by
  simp [ringWindow]

/-- An empty window holds nothing. -/
@[simp] theorem ringWindow_zero (cells : List α) (start : ℕ) : ringWindow cells start 0 = [] := rfl

/-- Two offsets below the length address different cells. -/
theorem ring_index_ne {length j k : ℕ} (start : ℕ) (hjk : j < k) (hk : k < length) :
    (start + j) % length ≠ (start + k) % length := by
  intro h
  have hmod : j ≡ k [MOD length] := Nat.ModEq.add_left_cancel' start h
  have := Nat.ModEq.eq_of_lt_of_lt hmod (hjk.trans hk) hk
  omega

/-- Storing in the cell behind a window which is not full appends to the window. -/
theorem ringWindow_store (cells : List α) (start count : ℕ) (x : α) (hroom : count < cells.length) :
    ringWindow (cells.set ((start + count) % cells.length) x) start (count + 1) =
      ringWindow cells start count ++ [some x] := by
  have hpos : 0 < cells.length := by omega
  have hlast : (start + count) % cells.length < cells.length := Nat.mod_lt _ hpos
  unfold ringWindow
  rw [List.range_succ, List.map_append, List.length_set]
  congr 1
  · apply List.map_congr_left
    intro k hk
    have hne := ring_index_ne start (List.mem_range.mp hk) hroom
    rw [List.getElem?_set_ne (Ne.symm hne)]
  · simp [hlast]

/-- The first cell of a nonempty window, and the window which remains after it. -/
theorem ringWindow_succ (cells : List α) (start count : ℕ) :
    ringWindow cells start (count + 1) =
      cells[start % cells.length]? :: ringWindow cells ((start + 1) % cells.length) count := by
  unfold ringWindow
  rw [List.range_succ_eq_map, List.map_cons, List.map_map]
  congr 1
  apply List.map_congr_left
  intro k _
  simp only [Function.comp_apply, Nat.mod_add_mod]
  congr 2
  omega

/-- The cell at each offset of a window. -/
theorem ringWindow_getElem? (cells : List α) (start count k : ℕ) (hk : k < count) :
    (ringWindow cells start count)[k]? = some cells[(start + k) % cells.length]? := by
  simp [ringWindow, hk]

/-- Advancing the start of a window by one keeps the position behind it. -/
theorem ring_index_advance (length start count : ℕ) :
    ((start + 1) % length + count) % length = (start + (count + 1)) % length := by
  rw [Nat.mod_add_mod]
  congr 1
  omega

end Csci4061.Lib
