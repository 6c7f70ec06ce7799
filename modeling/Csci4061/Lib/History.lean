import Csci4061.Lib.Bracket

/-!
# Events and what came before them

A history is the list of the events so far. A condition on an event and the part of the history
before it is followed from event to event, since later events do not change that part.

The latest value which the events gave to something is the other notion which such conditions use.
Two different events of a history stand in one order or in the other.
-/

namespace Csci4061.Lib

variable {α β : Type*} {P : List α → α → Prop} {f : α → Option β}

/-- Every event meets a condition on what came before it. -/
def Justified (P : List α → α → Prop) (events : List α) : Prop :=
  ∀ before e after, events = before ++ e :: after → P before e

/-- In the beginning there is nothing to justify. -/
theorem justified_nil : Justified P [] := fun before e after h => absurd h (by simp)

/-- Events are added one after the other. -/
theorem justified_append {l₁ l₂ : List α} :
    Justified P (l₁ ++ l₂) ↔ Justified P l₁ ∧ Justified (fun before e => P (l₁ ++ before) e) l₂ := by
  constructor
  · intro h
    refine ⟨fun before e after heq => h before e (after ++ l₂) (by simp [heq]),
      fun before e after heq => ?_⟩
    exact h (l₁ ++ before) e after (by simp [heq])
  · rintro ⟨h₁, h₂⟩ before e after heq
    rcases append_eq_append_cons heq with ⟨middle, heq₁, -⟩ | ⟨middle, rfl, heq₂⟩
    · exact h₁ before e middle heq₁
    · exact h₂ middle e after heq₂

/-- One event is added. -/
theorem justified_singleton {e : α} : Justified P [e] ↔ P [] e := by
  constructor
  · exact fun h => h [] e [] rfl
  · intro h before e' after heq
    obtain ⟨rfl, hrest⟩ | ⟨tail, -, hrest⟩ := List.cons_eq_append_iff.mp heq
    · obtain ⟨rfl, -⟩ := List.cons.inj hrest
      exact h
    · exact absurd hrest (by simp)

/-- Events which meet the condition after any history. -/
theorem justified_of_forall {events : List α} (h : ∀ before, ∀ e ∈ events, P before e) :
    Justified P events :=
  fun before e after heq => h before e (by simp [heq])

/-- The last value which the events give. -/
def latest (f : α → Option β) (events : List α) : Option β := (events.filterMap f).getLast?

/-- Events which give no value do not change the last one. -/
theorem latest_append_of_none {l₁ l₂ : List α} (h : ∀ e ∈ l₂, f e = none) :
    latest f (l₁ ++ l₂) = latest f l₁ := by
  rw [latest, List.filterMap_append, List.filterMap_eq_nil_iff.mpr h, List.append_nil, latest]

/-- An event which gives a value gives the last one. -/
theorem latest_append_singleton {events : List α} {e : α} {x : β} (h : f e = some x) :
    latest f (events ++ [e]) = some x := by
  rw [latest, List.filterMap_append, List.filterMap_cons_some h, List.filterMap_nil,
    List.getLast?_concat]

/-- One element occurs before another one, and not after it. -/
def Before (first second : α) (events : List α) : Prop :=
  [first, second].Sublist events ∧ ¬ [second, first].Sublist events

/-- Positions in a list are compared by evaluation. -/
instance [DecidableEq α] (first second : α) (events : List α) : Decidable (Before first second events) :=
  inferInstanceAs (Decidable (_ ∧ _))

/-- Two elements of a list occur in one order or in the other. -/
theorem sublist_pair_or {events : List α} {first second : α} (hfirst : first ∈ events)
    (hsecond : second ∈ events) (hne : first ≠ second) :
    [first, second].Sublist events ∨ [second, first].Sublist events := by
  obtain ⟨before, after, rfl⟩ := List.append_of_mem hfirst
  rcases List.mem_append.mp hsecond with hbefore | hafter
  · have hown : [first].Sublist (first :: after) := List.singleton_sublist.mpr List.mem_cons_self
    exact Or.inr (List.Sublist.append (List.singleton_sublist.mpr hbefore) hown)
  · have hlater := List.mem_of_ne_of_mem hne.symm hafter
    exact Or.inl (List.sublist_append_of_sublist_right
      (.cons_cons _ (List.singleton_sublist.mpr hlater)))

/-- An element which does not occur after another one occurs before it. -/
theorem before_of_not_sublist {events : List α} {first second : α} (hfirst : first ∈ events)
    (hsecond : second ∈ events) (hne : first ≠ second) (hnot : ¬ [second, first].Sublist events) :
    Before first second events :=
  ⟨(sublist_pair_or hfirst hsecond hne).resolve_right hnot, hnot⟩

end Csci4061.Lib
