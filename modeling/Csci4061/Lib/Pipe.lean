import Mathlib.Data.List.Basic

/-!
# Byte streams between processes

A pipe holds elements in the order in which they were written. A reader takes any number of them
from the front, whatever the writes were; the boundaries between the writes are kept here only so
that a statement can say how a read relates to them.

A pipe may have a capacity. A write which does not fit is refused as a whole.
-/

namespace Csci4061.Lib

variable {α : Type*}

/-- Remove elements from the front of a list of lists, with the boundaries of what is left. -/
def dropElements : ℕ → List (List α) → List (List α)
  | _, [] => []
  | n, write :: writes =>
    if n < write.length then write.drop n :: writes else dropElements (n - write.length) writes

/-- The elements which are left, without the boundaries. -/
theorem flatten_dropElements (n : ℕ) (writes : List (List α)) :
    (dropElements n writes).flatten = writes.flatten.drop n := by
  induction writes generalizing n with
  | nil => simp [dropElements]
  | cons write writes ih =>
    rw [dropElements]
    split
    · rename_i hinside
      rw [List.flatten_cons, List.flatten_cons, List.drop_append_of_le_length (Nat.le_of_lt hinside)]
    · rename_i hpast
      have hempty : write.drop n = [] := List.drop_eq_nil_of_le (Nat.not_lt.mp hpast)
      rw [ih, List.flatten_cons, List.drop_append, hempty, List.nil_append]

/-- Elements from the front of a joined list are its first part exactly if there are as many of them. -/
theorem singleton_take_prefix_iff {parts : List (List α)} {front back : List α} {n : ℕ}
    (hjoined : parts.flatten = front ++ back) (hn : n ≤ front.length) :
    [front.take n] <+: parts ↔ ∃ part, parts.head? = some part ∧ n = part.length := by
  cases parts with
  | nil => simp
  | cons part parts =>
    rw [List.flatten_cons] at hjoined
    simp only [List.cons_prefix_cons, List.nil_prefix, and_true, List.head?_cons, Option.some.injEq,
      exists_eq_left']
    constructor
    · intro hpart
      rw [← hpart, List.length_take, Nat.min_eq_left hn]
    · intro hlength
      calc front.take n = (front ++ back).take n := (List.take_append_of_le_length hn).symm
        _ = (part ++ parts.flatten).take n := by rw [hjoined]
        _ = part := by rw [hlength, List.take_left]

/-- A pipe, with the writes whose elements are still in it, and its capacity if it has one. -/
structure Pipe (α : Type*) where
  capacity : Option ℕ
  writes : List (List α)
  deriving DecidableEq

namespace Pipe

/-- The elements in the pipe, in order. -/
def contents (p : Pipe α) : List α := p.writes.flatten

/-- There is room for a write. -/
def Fits (p : Pipe α) (data : List α) : Prop := ∀ c ∈ p.capacity, p.contents.length + data.length ≤ c

instance (p : Pipe α) (data : List α) : Decidable (p.Fits data) :=
  inferInstanceAs (Decidable (∀ c ∈ _, _))

/-- A write which is accepted. -/
def write (p : Pipe α) (data : List α) : Pipe α := { p with writes := p.writes ++ [data] }

/-- A write which does not block: what does not fit is refused as a whole. -/
def tryWrite (p : Pipe α) (data : List α) : Pipe α := if p.Fits data then p.write data else p

/-- What a write adds to the pipe. -/
def accepted (p : Pipe α) (data : List α) : List α := if p.Fits data then data else []

/-- A read of `n` elements. -/
def read (p : Pipe α) (n : ℕ) : Pipe α := { p with writes := dropElements n p.writes }

/-- The number of elements which a read takes is that of the oldest write. -/
def ReadsOneWrite (p : Pipe α) (n : ℕ) : Prop := ∃ data, p.writes.head? = some data ∧ n = data.length

/-- A pipe which was written to. -/
@[simp] theorem contents_write (p : Pipe α) (data : List α) :
    (p.write data).contents = p.contents ++ data := by
  simp [contents, write]

/-- A write keeps the capacity. -/
@[simp] theorem capacity_tryWrite (p : Pipe α) (data : List α) :
    (p.tryWrite data).capacity = p.capacity := by
  rw [tryWrite]
  split <;> rfl

/-- A read keeps the capacity. -/
@[simp] theorem capacity_read (p : Pipe α) (n : ℕ) : (p.read n).capacity = p.capacity := rfl

/-- In a pipe without a capacity there is always room. -/
theorem Fits.of_unbounded {p : Pipe α} (h : p.capacity = none) (data : List α) : p.Fits data := by
  simp [Fits, h]

/-- A write which fits is the last of those in the pipe. -/
theorem Fits.writes_tryWrite {p : Pipe α} {data : List α} (h : p.Fits data) :
    (p.tryWrite data).writes = p.writes ++ [data] := by
  rw [tryWrite, if_pos h, write]

/-- A write which fits is accepted. -/
theorem Fits.accepted {p : Pipe α} {data : List α} (h : p.Fits data) : p.accepted data = data := if_pos h

/-- A write which is not empty is accepted exactly if it fits. -/
theorem accepted_eq_self_iff {p : Pipe α} {data : List α} (hne : data ≠ []) :
    p.accepted data = data ↔ p.Fits data := by
  rw [accepted]
  split
  · rename_i hfits
    exact iff_of_true rfl hfits
  · rename_i hfull
    exact iff_of_false (fun h => hne h.symm) hfull

/-- What a write adds stands at the end. -/
@[simp] theorem contents_tryWrite (p : Pipe α) (data : List α) :
    (p.tryWrite data).contents = p.contents ++ p.accepted data := by
  rw [tryWrite, accepted]
  split
  · exact contents_write p data
  · exact (List.append_nil _).symm

/-- A pipe which was read from. -/
@[simp] theorem contents_read (p : Pipe α) (n : ℕ) : (p.read n).contents = p.contents.drop n :=
  flatten_dropElements n p.writes

/-- A read of the oldest write takes its elements and leaves the later ones. -/
theorem read_oldest {p : Pipe α} {data : List α} {writes : List (List α)}
    (hwrites : p.writes = data :: writes) (hnonempty : ∀ later ∈ writes, later ≠ []) :
    p.contents.take data.length = data ∧ (p.read data.length).writes = writes := by
  constructor
  · rw [contents, hwrites, List.flatten_cons, List.take_left]
  · rw [read, hwrites]
    simp only [dropElements, Nat.lt_irrefl, if_false, Nat.sub_self]
    cases writes with
    | nil => rfl
    | cons later writes =>
      have hpos := List.length_pos_iff.mpr (hnonempty later List.mem_cons_self)
      simp only [dropElements, if_pos hpos, List.drop_zero]

end Pipe

end Csci4061.Lib
