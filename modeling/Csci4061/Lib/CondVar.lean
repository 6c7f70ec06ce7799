import Mathlib.Algebra.GroupWithZero.Nat
import Mathlib.Data.List.Basic
import Mathlib.Data.List.Forall2

/-!
# Counting threads at a condition variable

A list gives the state of every thread of a group. One thread moves at a time, and a signal
moves sleepers. The lemmas count the threads in a class of states before and after; the two
states of the condition variable, asleep and woken, are parameters.
-/

namespace Csci4061.Lib

variable {α : Type*}

/-- Moving one thread trades its old state for its new one in every count. -/
theorem countP_set_add (p : α → Bool) {threads : List α} {i : ℕ} {a : α} (b : α)
    (h : threads[i]? = some a) :
    (threads.set i b).countP p + (p a).toNat = threads.countP p + (p b).toNat := by
  induction threads generalizing i with
  | nil => simp at h
  | cons x rest ih =>
    cases i with
    | zero =>
      obtain rfl : x = a := by simpa using h
      simp only [List.set_cons_zero, List.countP_cons]
      cases p x <;> cases p b <;> simp
    | succ i =>
      have hrest := ih (by simpa using h)
      simp only [List.set_cons_succ, List.countP_cons]
      omega

/-- A thread which moves to another state leaves every other thread where it was. -/
theorem mem_of_mem_set_ne {threads : List α} {i : ℕ} {a b : α} (hab : a ≠ b)
    (h : a ∈ threads.set i b) : a ∈ threads :=
  (List.mem_or_eq_of_mem_set h).resolve_right hab

/-- A signal: each sleeper may be woken, no other thread moves, and if there are sleepers then
at least one of them is woken. A signal to nobody is lost. -/
structure Wakes (asleep woken : α) (before after : List α) : Prop where
  moves : List.Forall₂ (fun a b => b = a ∨ (a = asleep ∧ b = woken)) before after
  wakes_one : asleep ∈ before → after ≠ before

/-- A signal keeps the count of a class which does not tell sleepers from woken threads. -/
theorem Wakes.countP_eq {asleep woken : α} {before after : List α}
    (h : Wakes asleep woken before after) {p : α → Bool} (hp : p asleep = p woken) :
    after.countP p = before.countP p := by
  have hmoves := h.moves
  clear h
  induction hmoves with
  | nil => rfl
  | cons hmove _ ih =>
    rcases hmove with rfl | ⟨rfl, rfl⟩
    · simp only [List.countP_cons, ih]
    · simp only [List.countP_cons, ih, hp]

/-- If there is a sleeper, the count of a class with the woken threads but not the sleepers grows. -/
theorem Wakes.countP_lt {asleep woken : α} {before after : List α}
    (h : Wakes asleep woken before after) {p : α → Bool} (hasleep : p asleep = false)
    (hwoken : p woken = true) (hmem : asleep ∈ before) : before.countP p < after.countP p := by
  have hne := h.wakes_one hmem
  have hmoves := h.moves
  clear h hmem
  induction hmoves with
  | nil => exact absurd rfl hne
  | @cons a b before after hmove hrest ih =>
    rcases hmove with rfl | ⟨rfl, rfl⟩
    · have hlt := ih fun heq => hne (congrArg _ heq)
      simp only [List.countP_cons]
      omega
    · have hle : before.countP p ≤ after.countP p := by
        by_cases heq : after = before
        · exact heq ▸ Nat.le_refl _
        · exact Nat.le_of_lt (ih heq)
      simp only [List.countP_cons, hasleep, hwoken, ↓reduceIte, Bool.false_eq_true]
      omega

/-- Nobody falls asleep by a signal. -/
theorem Wakes.mem_asleep {asleep woken : α} {before after : List α}
    (h : Wakes asleep woken before after) (hne : asleep ≠ woken) (hmem : asleep ∈ after) :
    asleep ∈ before := by
  have hmoves := h.moves
  clear h
  induction hmoves with
  | nil => exact hmem
  | cons hmove _ ih =>
    rcases List.mem_cons.mp hmem with heq | hrest
    · rcases hmove with rfl | ⟨rfl, rfl⟩
      · exact List.mem_cons.mpr (Or.inl heq)
      · exact absurd heq hne
    · exact List.mem_cons_of_mem _ (ih hrest)

/-- A signal keeps the number of threads. -/
theorem Wakes.length_eq {asleep woken : α} {before after : List α}
    (h : Wakes asleep woken before after) :
    after.length = before.length :=
  h.moves.length_eq.symm

end Csci4061.Lib
