import Mathlib.Data.List.Basic

/-!
# Bracketed sequences of events

A call opens an activation and its return closes it. In a recorded sequence of calls and returns
the activation of a call is what stands between it and the next matching return.

Sequences in which every activation is closed and has a given property are closed under
concatenation and under enclosing one more call, which is how a recursive program records them.
-/

namespace Csci4061.Lib

variable {α : Type*} {closing : α → Option α} {P : α → List α → Prop}

/-- Every opening event is followed by its closing event, and the events before the first of these
have a property. -/
def Bracketed (closing : α → Option α) (P : α → List α → Prop) (events : List α) : Prop :=
  ∀ before opening after close, events = before ++ opening :: after → closing opening = some close →
    ∃ body rest, after = body ++ close :: rest ∧ close ∉ body ∧ P opening body

/-- An element of a concatenation stands in the first part or in the second. -/
theorem append_eq_append_cons {l₁ l₂ before after : List α} {e : α}
    (h : l₁ ++ l₂ = before ++ e :: after) :
    (∃ middle, l₁ = before ++ e :: middle ∧ after = middle ++ l₂) ∨
      ∃ middle, before = l₁ ++ middle ∧ l₂ = middle ++ e :: after := by
  rcases List.append_eq_append_iff.mp h with ⟨middle, hbefore, hl₂⟩ | ⟨middle, hl₁, hafter⟩
  · exact Or.inr ⟨middle, hbefore, hl₂⟩
  · cases middle with
    | nil => exact Or.inr ⟨[], by rw [hl₁, List.append_nil, List.append_nil], hafter.symm⟩
    | cons e' middle =>
      obtain ⟨rfl, rfl⟩ := List.cons_eq_cons.mp hafter
      exact Or.inl ⟨middle, hl₁, rfl⟩

/-- An element of a list with one more at its end is this one, or stands in the list. -/
theorem concat_eq_append_cons {l before after : List α} {x e : α} (h : l ++ [x] = before ++ e :: after) :
    (before = l ∧ e = x ∧ after = []) ∨ ∃ middle, after = middle ++ [x] ∧ l = before ++ e :: middle := by
  rcases append_eq_append_cons h with ⟨middle, hl, hafter⟩ | ⟨middle, hbefore, hx⟩
  · exact Or.inr ⟨middle, hafter, hl⟩
  · obtain ⟨rfl, rfl, rfl⟩ : middle = [] ∧ e = x ∧ after = [] := by
      cases middle with
      | nil => simpa [eq_comm] using hx
      | cons e' middle => simp at hx
    exact Or.inl ⟨by rw [hbefore, List.append_nil], rfl, rfl⟩

/-- Two lists with the same element behind a first part: the parts are equal, or one begins the other up
to that element. -/
theorem append_cons_eq_append_cons {l₁ l₂ rest₁ rest₂ : List α} {e : α}
    (h : l₁ ++ e :: rest₁ = l₂ ++ e :: rest₂) :
    (l₁ = l₂ ∧ rest₁ = rest₂) ∨ (∃ middle, l₂ = l₁ ++ e :: middle ∧ rest₁ = middle ++ e :: rest₂) ∨
      ∃ middle, l₁ = l₂ ++ e :: middle ∧ rest₂ = middle ++ e :: rest₁ := by
  rcases append_eq_append_cons h with hlonger | ⟨middle, hl₂, hrest⟩
  · exact Or.inr (Or.inr hlonger)
  · cases middle with
    | nil => exact Or.inl ⟨(hl₂.trans (List.append_nil _)).symm, (List.cons.inj hrest).2⟩
    | cons e' middle =>
      obtain ⟨rfl, hmiddle⟩ := List.cons.inj hrest
      exact Or.inr (Or.inl ⟨middle, hl₂, hmiddle⟩)

/-- The part before the first occurrence of an element is determined. -/
theorem append_cons_left_unique {l₁ l₂ rest₁ rest₂ : List α} {e : α}
    (h : l₁ ++ e :: rest₁ = l₂ ++ e :: rest₂) (h₁ : e ∉ l₁) (h₂ : e ∉ l₂) : l₁ = l₂ := by
  rcases append_eq_append_cons h with ⟨middle, rfl, -⟩ | ⟨middle, rfl, hmiddle⟩
  · exact absurd (List.mem_append_right l₂ List.mem_cons_self) h₁
  · cases middle with
    | nil => exact (List.append_nil l₁).symm
    | cons e' middle =>
      obtain ⟨rfl, -⟩ := List.cons_eq_cons.mp hmiddle
      exact absurd (List.mem_append_right l₁ List.mem_cons_self) h₂

/-- Without opening events there is nothing to close. -/
theorem bracketed_of_no_opening {events : List α} (h : ∀ e ∈ events, closing e = none) :
    Bracketed closing P events := by
  intro before opening after close heq hclosing
  have hmem : opening ∈ events := heq ▸ List.mem_append_right before List.mem_cons_self
  exact absurd (hclosing.symm.trans (h opening hmem)) (by simp)

/-- Bracketed sequences are closed under concatenation. -/
theorem Bracketed.append {l₁ l₂ : List α} (h₁ : Bracketed closing P l₁) (h₂ : Bracketed closing P l₂) :
    Bracketed closing P (l₁ ++ l₂) := by
  intro before opening after close heq hclosing
  rcases append_eq_append_cons heq with ⟨middle, hl₁, rfl⟩ | ⟨middle, -, hl₂⟩
  · obtain ⟨body, rest, rfl, hnot, hP⟩ := h₁ before opening middle close hl₁ hclosing
    exact ⟨body, rest ++ l₂, by rw [List.append_assoc, List.cons_append], hnot, hP⟩
  · exact h₂ middle opening after close hl₂ hclosing

/-- Bracketed sequences are closed under enclosing one more activation. -/
theorem Bracketed.enclose {body : List α} {opening close : α} (hbody : Bracketed closing P body)
    (hclosing : closing opening = some close) (hclose : closing close = none) (hnot : close ∉ body)
    (hP : P opening body) : Bracketed closing P (opening :: (body ++ [close])) := by
  intro before opening' after close' heq hclosing'
  cases before with
  | nil =>
    obtain ⟨rfl, rfl⟩ := List.cons_eq_cons.mp heq
    obtain rfl := Option.some.inj (hclosing.symm.trans hclosing')
    exact ⟨body, [], rfl, hnot, hP⟩
  | cons _ before =>
    have hrest : Bracketed closing P (body ++ [close]) := by
      apply hbody.append
      apply bracketed_of_no_opening
      intro e he
      rw [List.mem_singleton.mp he]
      exact hclose
    exact hrest before opening' after close' (List.cons_eq_cons.mp heq).2 hclosing'

/-- The events between an opening event and its closing event have the property. -/
theorem Bracketed.body {events before body rest : List α} {opening close : α}
    (h : Bracketed closing P events) (hclosing : closing opening = some close)
    (heq : events = before ++ opening :: (body ++ close :: rest))
    (hnot : close ∉ body) : P opening body := by
  obtain ⟨body', rest', hbody', hnot', hP⟩ := h before opening _ close heq hclosing
  exact append_cons_left_unique hbody' hnot hnot' ▸ hP

end Csci4061.Lib
