import Mathlib.Data.List.Basic
import Mathlib.Order.Lattice

/-!
# Loops which stop at the first failure

A loop over a list tries its elements one after the other and stops behind the first one which fails.
What was tried is the beginning of the list up to that element, so everything is tried exactly if only
the last element may fail.
-/

namespace Csci4061.Lib

variable {α : Type*} {p : α → Bool}

/-- The elements which are tried until the first failure, with the one that fails. -/
def attempts (p : α → Bool) : List α → List α
  | [] => []
  | x :: xs => if p x then x :: attempts p xs else [x]

/-- After a success the loop goes on. -/
theorem attempts_cons_of_pos {x : α} (h : p x = true) (xs : List α) :
    attempts p (x :: xs) = x :: attempts p xs := by
  rw [attempts, if_pos h]

/-- At a failure the loop stops. -/
theorem attempts_cons_of_neg {x : α} (h : p x = false) (xs : List α) :
    attempts p (x :: xs) = [x] := by
  rw [attempts, if_neg (by simp [h])]

/-- What is tried is a beginning of the list. -/
theorem attempts_prefix (xs : List α) : attempts p xs <+: xs := by
  induction xs with
  | nil => exact List.prefix_rfl
  | cons x xs ih =>
    rw [attempts]
    split
    · exact List.prefix_cons_inj x |>.mpr ih
    · exact List.prefix_cons_inj x |>.mpr List.nil_prefix

/-- What succeeds is a beginning of the list, too. -/
theorem filter_attempts_prefix (xs : List α) : (attempts p xs).filter p <+: xs := by
  induction xs with
  | nil => exact List.prefix_rfl
  | cons x xs ih =>
    cases hx : p x with
    | true =>
      rw [attempts_cons_of_pos hx, List.filter_cons_of_pos hx]
      exact List.prefix_cons_inj x |>.mpr ih
    | false =>
      rw [attempts_cons_of_neg hx, List.filter_cons_of_neg (by simp [hx])]
      exact List.nil_prefix

/-- Everything is tried exactly if no element before the last one fails. In a list which is sorted this
is one that no other one exceeds. -/
theorem attempts_eq_self_iff [LinearOrder α] {xs : List α} (h : xs.Pairwise (· < ·)) :
    attempts p xs = xs ↔ ∀ x ∈ xs, p x = false → ∀ y ∈ xs, y ≤ x := by
  induction xs with
  | nil => simp [attempts]
  | cons x xs ih =>
    obtain ⟨hfirst, hrest⟩ := List.pairwise_cons.mp h
    cases hx : p x with
    | true =>
      rw [attempts_cons_of_pos hx, List.cons_inj_right, ih hrest]
      constructor
      · intro hlast y hy hfails
        rcases List.mem_cons.mp hy with rfl | hmem
        · exact absurd (hx.symm.trans hfails) (by decide)
        · exact List.forall_mem_cons.mpr ⟨le_of_lt (hfirst y hmem), hlast y hmem hfails⟩
      · intro hlast y hmem hfails
        exact (List.forall_mem_cons.mp (hlast y (List.mem_cons_of_mem x hmem) hfails)).2
    | false =>
      rw [attempts_cons_of_neg hx]
      constructor
      · intro heq
        obtain rfl : xs = [] := (List.cons.inj heq).2.symm
        intro y hy _ z hz
        rw [List.mem_singleton.mp hy, List.mem_singleton.mp hz]
      · intro hlast
        cases xs with
        | nil => rfl
        | cons y ys =>
          have hle := hlast x List.mem_cons_self hx y (List.mem_cons_of_mem x List.mem_cons_self)
          exact absurd (hfirst y List.mem_cons_self) (not_lt_of_ge hle)

end Csci4061.Lib
