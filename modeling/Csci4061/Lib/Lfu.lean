import Csci4061.Lib.Transition
import Mathlib.Data.List.Induction
import Mathlib.Data.List.Nodup
import Mathlib.Data.Nat.Basic
import Mathlib.Order.Lattice

/-!
# Least-frequently-used caches

The purpose of the policy, with natural numbers for the counters and an unbounded number of
hits: an entry counts the hits on its key since it was inserted, and a full cache gives up the
first entry among those with the fewest hits. Keys and values are arbitrary types.

`IsFirstMin` is the tie rule on its own: the position of the first smallest element of a list.
-/

namespace Csci4061.Lib

section FirstMin

variable {α β : Type*} [LinearOrder β]

/-- Position `i` is the first one where `f` is smallest. -/
def IsFirstMin (f : α → β) (l : List α) (i : ℕ) : Prop :=
  ∃ h : i < l.length, (∀ (j : ℕ) (hj : j < l.length), f l[i] ≤ f l[j]) ∧
    ∀ (j : ℕ) (hj : j < i), f l[i] < f l[j]

/-- There is one such position at most. -/
theorem IsFirstMin.unique {f : α → β} {l : List α} {i j : ℕ} (hi : IsFirstMin f l i)
    (hj : IsFirstMin f l j) : i = j := by
  rcases lt_trichotomy i j with hlt | heq | hgt
  · exact absurd (hj.2.2 i hlt) (not_lt_of_ge (hi.2.1 j hj.1))
  · exact heq
  · exact absurd (hi.2.2 j hgt) (not_lt_of_ge (hj.2.1 i hi.1))

/-- In a list of one element it is the first one. -/
theorem isFirstMin_singleton (f : α → β) (x : α) : IsFirstMin f [x] 0 := by
  refine ⟨by simp, ?_, by simp⟩
  intro j hj
  obtain rfl : j = 0 := by simpa using hj
  exact le_refl _

/-- A strictly smaller last element takes over. -/
theorem IsFirstMin.append_lt {f : α → β} {l : List α} {i : ℕ} (h : IsFirstMin f l i) {x : α}
    (hx : f x < f (l.get ⟨i, h.1⟩)) : IsFirstMin f (l ++ [x]) l.length := by
  have hbelow (j : ℕ) (hj : j < l.length) : f x < f l[j] := lt_of_lt_of_le hx (h.2.1 j hj)
  refine ⟨by simp, ?_, ?_⟩
  · intro j hj
    rw [List.getElem_concat_length (h := rfl)]
    by_cases hl : j < l.length
    · rw [List.getElem_append_left hl]
      exact le_of_lt (hbelow j hl)
    · have hj' : j = l.length := by simp at hj; omega
      rw [List.getElem_concat_length hj']
  · intro j hj
    rw [List.getElem_concat_length (h := rfl), List.getElem_append_left hj]
    exact hbelow j hj

/-- A last element which is not smaller changes nothing. -/
theorem IsFirstMin.append_le {f : α → β} {l : List α} {i : ℕ} (h : IsFirstMin f l i) {x : α}
    (hx : f (l.get ⟨i, h.1⟩) ≤ f x) : IsFirstMin f (l ++ [x]) i := by
  have hi := h.1
  refine ⟨by simp; omega, ?_, ?_⟩
  · intro j hj
    rw [List.getElem_append_left hi]
    by_cases hl : j < l.length
    · rw [List.getElem_append_left hl]
      exact h.2.1 j hl
    · have hj' : j = l.length := by simp at hj; omega
      rw [List.getElem_concat_length hj']
      exact hx
  · intro j hj
    rw [List.getElem_append_left hi, List.getElem_append_left (by omega)]
    exact h.2.2 j hj

/-- The position carries over to a list of images on which the order is the same. -/
theorem IsFirstMin.map {α' β' : Type*} [LinearOrder β'] {f : α → β} {l : List α} {i : ℕ}
    (h : IsFirstMin f l i) (g : α → α') (f' : α' → β')
    (hle : ∀ x ∈ l, ∀ y ∈ l, f x ≤ f y ↔ f' (g x) ≤ f' (g y)) : IsFirstMin f' (l.map g) i := by
  obtain ⟨hi, hmin, hfirst⟩ := h
  refine ⟨by simpa using hi, ?_, ?_⟩
  · intro j hj
    have hj' : j < l.length := by simpa using hj
    rw [List.getElem_map, List.getElem_map]
    exact (hle _ (List.getElem_mem hi) _ (List.getElem_mem hj')).mp (hmin j hj')
  · intro j hj
    rw [List.getElem_map, List.getElem_map, ← not_le]
    intro hcontra
    have hback := (hle _ (List.getElem_mem (by omega : j < l.length)) _
        (List.getElem_mem hi)).mpr hcontra
    exact absurd (hfirst j hj) (not_lt_of_ge hback)

end FirstMin

variable {κ ν : Type*}

/-- A cached value with the number of hits on its key since it was inserted. -/
structure LfuEntry (κ ν : Type*) where
  key : κ
  value : ν
  hits : ℕ

/-- Count one hit. -/
def LfuEntry.hit (e : LfuEntry κ ν) : LfuEntry κ ν := { e with hits := e.hits + 1 }

/-- A lookup which succeeds, a lookup which fails, or an insertion. -/
inductive LfuLabel (κ ν : Type*)
  | hit (key : κ)
  | miss (key : κ)
  | insert (key : κ) (value : ν)

/-- The policy, for entries kept in the order of their slots. -/
def lfuCache (κ ν : Type*) (capacity : ℕ) : TransitionSystem (List (LfuEntry κ ν)) (LfuLabel κ ν) where
  init entries := entries = []
  step entries label entries' :=
    match label with
    | .hit key => ∃ i, ∃ h : i < entries.length, entries[i].key = key ∧
        entries' = entries.modify i LfuEntry.hit
    | .miss key => (∀ e ∈ entries, e.key ≠ key) ∧ entries' = entries
    | .insert key value => (∀ e ∈ entries, e.key ≠ key) ∧
        (entries.length < capacity ∧ entries' = entries ++ [⟨key, value, 0⟩] ∨
          entries.length = capacity ∧ ∃ i, IsFirstMin LfuEntry.hits entries i ∧
            entries' = entries.set i ⟨key, value, 0⟩)

/-- The hits on a key after its last insertion, in a history of operations. -/
def hitsSince [DecidableEq κ] (labels : List (LfuLabel κ ν)) (key : κ) : ℕ :=
  labels.foldl (fun n label => match label with
    | .hit k => if k = key then n + 1 else n
    | .miss _ => n
    | .insert k _ => if k = key then 0 else n) 0

/-- One more hit on its key raises the count. -/
theorem hitsSince_hit [DecidableEq κ] (labels : List (LfuLabel κ ν)) (k key : κ) :
    hitsSince (labels ++ [.hit k]) key = if k = key then hitsSince labels key + 1
    else hitsSince labels key := by
  simp [hitsSince]

/-- A failed lookup does not change a count. -/
theorem hitsSince_miss [DecidableEq κ] (labels : List (LfuLabel κ ν)) (k key : κ) :
    hitsSince (labels ++ [.miss k]) key = hitsSince labels key := by
  simp [hitsSince]

/-- An insertion starts the count of its key again. -/
theorem hitsSince_insert [DecidableEq κ] (labels : List (LfuLabel κ ν)) (k key : κ) (value : ν) :
    hitsSince (labels ++ [.insert k value]) key = if k = key then 0 else hitsSince labels key := by
  simp [hitsSince]

/-- A history has as many operations as hits at least. -/
theorem hitsSince_le_length [DecidableEq κ] (labels : List (LfuLabel κ ν)) (key : κ) :
    hitsSince labels key ≤ labels.length := by
  induction labels using List.reverseRecOn with
  | nil => exact Nat.le_refl _
  | append_singleton labels label ih =>
    rw [List.length_append, List.length_singleton]
    cases label with
    | hit k =>
      rw [hitsSince_hit]
      split <;> omega
    | miss k =>
      rw [hitsSince_miss]
      omega
    | insert k value =>
      rw [hitsSince_insert]
      split <;> omega

/-- What holds of the entries after a history: they fit, their keys differ, and each counter is
the number of hits since the insertion. -/
structure LfuInv [DecidableEq κ] (capacity : ℕ) (labels : List (LfuLabel κ ν))
    (entries : List (LfuEntry κ ν)) : Prop where
  length_le : entries.length ≤ capacity
  nodup : (entries.map LfuEntry.key).Nodup
  hits : ∀ e ∈ entries, e.hits = hitsSince labels e.key

/-- Replacing the key at a position keeps the keys distinct if the new key is not among them. -/
theorem nodup_map_set {α : Type*} {f : α → κ} {l : List α} {i : ℕ} {x : α}
    (h : (l.map f).Nodup) (hx : ∀ y ∈ l, f y ≠ f x) : ((l.set i x).map f).Nodup := by
  rw [List.map_set]
  apply h.set
  intro hmem
  obtain ⟨y, hy, heq⟩ := List.mem_map.mp hmem
  exact hx y hy heq

/-- An element of a list after one position was modified. -/
theorem mem_modify {α : Type*} {g : α → α} {l : List α} {i : ℕ} {y : α} (h : y ∈ l.modify i g) :
    (∃ hi : i < l.length, y = g l[i]) ∨ ∃ j, ∃ hj : j < l.length, j ≠ i ∧ y = l[j] := by
  obtain ⟨j, hj, rfl⟩ := List.mem_iff_getElem.mp h
  rw [List.length_modify] at hj
  rw [List.getElem_modify]
  split
  · rename_i heq
    subst heq
    exact Or.inl ⟨hj, rfl⟩
  · rename_i hne
    exact Or.inr ⟨j, hj, fun heq => hne heq.symm, rfl⟩

/-- Every operation of the policy keeps the invariant, with its label added to the history. -/
theorem LfuInv.step [DecidableEq κ] {capacity : ℕ} {labels : List (LfuLabel κ ν)}
    {entries entries' : List (LfuEntry κ ν)} {label : LfuLabel κ ν} (h : LfuInv capacity labels entries)
    (hstep : (lfuCache κ ν capacity).step entries label entries') :
    LfuInv capacity (labels ++ [label]) entries' := by
  cases label with
  | hit key =>
    obtain ⟨i, hi, hkey, rfl⟩ := hstep
    have hkeys : (entries.modify i LfuEntry.hit).map LfuEntry.key = entries.map LfuEntry.key := by
      apply List.ext_getElem (by simp)
      intro j _ _
      simp only [List.getElem_map, List.getElem_modify]
      split <;> rfl
    refine ⟨by simpa using h.length_le, hkeys ▸ h.nodup, ?_⟩
    intro e he
    rw [hitsSince_hit]
    rcases mem_modify he with ⟨-, rfl⟩ | ⟨j, hj, hne, rfl⟩
    · rw [if_pos (by exact hkey.symm)]
      exact congrArg (· + 1) (h.hits _ (List.getElem_mem hi))
    · rw [if_neg, h.hits _ (List.getElem_mem hj)]
      intro heq
      have hinj := List.inj_on_of_nodup_map h.nodup (List.getElem_mem hj) (List.getElem_mem hi)
        (heq.symm.trans hkey.symm)
      exact hne ((h.nodup.of_map _).getElem_inj_iff.mp hinj)
  | miss key =>
    obtain ⟨-, rfl⟩ := hstep
    exact ⟨h.length_le, h.nodup, fun e he => by rw [hitsSince_miss]; exact h.hits e he⟩
  | insert key value =>
    obtain ⟨habsent, ⟨hroom, rfl⟩ | ⟨hfull, i, hmin, rfl⟩⟩ := hstep
    · refine ⟨?_, ?_, ?_⟩
      · rw [List.length_append, List.length_singleton]
        exact hroom
      · rw [List.map_append, List.nodup_append]
        refine ⟨h.nodup, by simp, ?_⟩
        intro k hk k' hk'
        obtain ⟨e, he, rfl⟩ := List.mem_map.mp hk
        obtain rfl : k' = key := by simpa using hk'
        exact habsent e he
      · intro e he
        rw [hitsSince_insert]
        rcases List.mem_append.mp he with hold | hnew
        · rw [if_neg (Ne.symm (habsent e hold))]
          exact h.hits e hold
        · obtain rfl : e = ⟨key, value, 0⟩ := by simpa using hnew
          simp
    · refine ⟨by simpa using h.length_le, nodup_map_set h.nodup habsent, ?_⟩
      intro e he
      rw [hitsSince_insert]
      rcases List.mem_or_eq_of_mem_set he with hold | rfl
      · rw [if_neg (Ne.symm (habsent e hold))]
        exact h.hits e hold
      · simp

/-- The invariant holds along every run from the empty cache. -/
theorem lfuCache_inv [DecidableEq κ] {capacity : ℕ} {labels : List (LfuLabel κ ν)}
    {entries : List (LfuEntry κ ν)} (hrun : (lfuCache κ ν capacity).Run [] labels entries) :
    LfuInv capacity labels entries := by
  induction hrun with
  | nil => exact ⟨Nat.zero_le _, List.nodup_nil, by simp⟩
  | snoc _ hlast ih => exact ih.step hlast

end Csci4061.Lib
