import Csci4061.Lib.Transition
import Mathlib.Data.List.Nodup
import Mathlib.Logic.Function.Basic

/-!
# Tickets which are handed out and given back

Tickets are issued in order, and owners take them in this order and finish them in any order. Each
ticket is then waiting, in the hands of exactly one owner, or done, and it is done once. This is what
a queue with several consumers has to guarantee for its items, whatever the items are.
-/

namespace Csci4061.Lib

/-- The number of tickets issued and taken, the ticket each owner holds, and those done, in order. -/
@[ext] structure Tickets (ω : Type*) where
  issued : ℕ
  taken : ℕ
  held : ω → Option ℕ
  done : List ℕ

variable {ω : Type*}

/-- Where a ticket is. -/
inductive Place (ω : Type*)
  | waiting
  | held (w : ω)
  | done

/-- A ticket is at a place. -/
def Tickets.At (t : Tickets ω) (ticket : ℕ) : Place ω → Prop
  | .waiting => t.taken ≤ ticket
  | .held w => t.held w = some ticket
  | .done => ticket ∈ t.done

/-- The tickets which were taken are in the hands of one owner each, or done, and done once. -/
structure TicketsInv (t : Tickets ω) : Prop where
  taken_le : t.taken ≤ t.issued
  held_lt : ∀ w ticket, t.held w = some ticket → ticket < t.taken
  held_inj : ∀ w w' ticket, t.held w = some ticket → t.held w' = some ticket → w = w'
  done_lt : ∀ ticket ∈ t.done, ticket < t.taken
  done_nodup : t.done.Nodup
  not_done : ∀ w ticket, t.held w = some ticket → ticket ∉ t.done
  covered : ∀ ticket < t.taken, (∃ w, t.held w = some ticket) ∨ ticket ∈ t.done

/-- Every ticket is at exactly one place. -/
theorem TicketsInv.existsUnique_place {t : Tickets ω} (h : TicketsInv t) (ticket : ℕ) :
    ∃! place, t.At ticket place := by
  by_cases hwaiting : t.taken ≤ ticket
  · refine ⟨.waiting, hwaiting, fun place hplace => ?_⟩
    cases place with
    | waiting => rfl
    | held w => exact absurd (h.held_lt w ticket hplace) (Nat.not_lt.mpr hwaiting)
    | done => exact absurd (h.done_lt ticket hplace) (Nat.not_lt.mpr hwaiting)
  · rcases h.covered ticket (Nat.lt_of_not_le hwaiting) with ⟨w, hheld⟩ | hdone
    · refine ⟨.held w, hheld, fun place hplace => ?_⟩
      cases place with
      | waiting => exact absurd hplace hwaiting
      | held w' => rw [h.held_inj w' w ticket hplace hheld]
      | done => exact absurd hplace (h.not_done w ticket hheld)
    · refine ⟨.done, hdone, fun place hplace => ?_⟩
      cases place with
      | waiting => exact absurd hplace hwaiting
      | held w => exact absurd hdone (h.not_done w ticket hplace)
      | done => rfl

/-- An element of a list whose keys differ is the only one with its key. -/
theorem filter_eq_singleton {α κ : Type*} [DecidableEq κ] {key : α → κ} {l : List α}
    (hnodup : (l.map key).Nodup) {x : α} (hx : x ∈ l) : l.filter (fun y => key y = key x) = [x] := by
  induction l with
  | nil => exact absurd hx List.not_mem_nil
  | cons y l ih =>
    rw [List.map_cons, List.nodup_cons] at hnodup
    rcases List.mem_cons.mp hx with rfl | hmem
    · rw [List.filter_cons_of_pos (by simp), List.filter_eq_nil_iff.mpr]
      intro z hz hkey
      exact hnodup.1 (List.mem_map.mpr ⟨z, hz, by simpa using hkey⟩)
    · rw [List.filter_cons_of_neg, ih hnodup.2 hmem]
      intro hkey
      exact hnodup.1 (List.mem_map.mpr ⟨x, hmem, by simpa using Eq.symm (of_decide_eq_true hkey)⟩)

/-- One step of the issuer or of an owner. -/
inductive TicketLabel (ω : Type*)
  | issue
  | take (w : ω)
  | finish (w : ω)

variable [DecidableEq ω]

/-- An owner takes the next ticket if it holds none, and finishes the one which it holds. -/
def ticketNext (t : Tickets ω) : TicketLabel ω → Option (Tickets ω)
  | .issue => some { t with issued := t.issued + 1 }
  | .take w =>
    if t.held w = none ∧ t.taken < t.issued then
      some { t with taken := t.taken + 1, held := Function.update t.held w (some t.taken) }
    else none
  | .finish w => (t.held w).map fun ticket =>
      { t with held := Function.update t.held w none, done := t.done ++ [ticket] }

/-- Tickets, with any number of owners. -/
def ticketSystem (ω : Type*) [DecidableEq ω] : TransitionSystem (Tickets ω) (TicketLabel ω) :=
  .ofNext (fun t => t.issued = 0 ∧ t.taken = 0 ∧ (∀ w, t.held w = none) ∧ t.done = []) ticketNext

/-- What an owner holds after the holding of one owner changed. -/
theorem held_update {held : ω → Option ℕ} {w w' : ω} {now : Option ℕ} {ticket : ℕ} :
    Function.update held w now w' = some ticket ↔ w' = w ∧ now = some ticket ∨ w' ≠ w ∧
    held w' = some ticket := by
  by_cases hw : w' = w
  · subst hw
    simp
  · simp [hw]

/-- Taking the next ticket keeps the invariant. -/
theorem TicketsInv.take {t : Tickets ω} (h : TicketsInv t) {w : ω} (hfree : t.held w = none)
    (hleft : t.taken < t.issued) :
    TicketsInv { t with taken := t.taken + 1, held := Function.update t.held w (some t.taken) } where
  taken_le := hleft
  held_lt w' ticket hheld := by
    rcases held_update.mp hheld with ⟨-, hnew⟩ | ⟨-, hold⟩
    · exact Option.some.inj hnew ▸ Nat.lt_succ_self _
    · exact Nat.lt_succ_of_lt (h.held_lt w' ticket hold)
  held_inj w₁ w₂ ticket h₁ h₂ := by
    -- The new ticket is not below the number of tickets taken, as those held are.
    rcases held_update.mp h₁ with ⟨hw₁, hnew₁⟩ | ⟨-, hold₁⟩ <;>
      rcases held_update.mp h₂ with ⟨hw₂, hnew₂⟩ | ⟨-, hold₂⟩
    · rw [hw₁, hw₂]
    · exact absurd (h.held_lt w₂ ticket hold₂) (Option.some.inj hnew₁ ▸ Nat.lt_irrefl _)
    · exact absurd (h.held_lt w₁ ticket hold₁) (Option.some.inj hnew₂ ▸ Nat.lt_irrefl _)
    · exact h.held_inj w₁ w₂ ticket hold₁ hold₂
  done_lt ticket hdone := Nat.lt_succ_of_lt (h.done_lt ticket hdone)
  done_nodup := h.done_nodup
  not_done w' ticket hheld hdone := by
    rcases held_update.mp hheld with ⟨-, hnew⟩ | ⟨-, hold⟩
    · exact absurd (h.done_lt ticket hdone) (Option.some.inj hnew ▸ Nat.lt_irrefl _)
    · exact h.not_done w' ticket hold hdone
  covered ticket hlt := by
    rcases Nat.lt_succ_iff_lt_or_eq.mp hlt with hold | rfl
    · rcases h.covered ticket hold with ⟨w', hheld⟩ | hdone
      · have hne : w' ≠ w := by
          rintro rfl
          exact absurd (hfree.symm.trans hheld) (by simp)
        exact Or.inl ⟨w', held_update.mpr (Or.inr ⟨hne, hheld⟩)⟩
      · exact Or.inr hdone
    · exact Or.inl ⟨w, held_update.mpr (Or.inl ⟨rfl, rfl⟩)⟩

/-- Finishing a ticket keeps the invariant. -/
theorem TicketsInv.finish {t : Tickets ω} (h : TicketsInv t) {w : ω} {ticket : ℕ}
    (hheld : t.held w = some ticket) :
    TicketsInv { t with held := Function.update t.held w none, done := t.done ++ [ticket] } where
  taken_le := h.taken_le
  held_lt w' ticket' hheld' := by
    rcases held_update.mp hheld' with ⟨-, hnone⟩ | ⟨-, hold⟩
    · exact absurd hnone (by simp)
    · exact h.held_lt w' ticket' hold
  held_inj w₁ w₂ ticket' h₁ h₂ := by
    rcases held_update.mp h₁ with ⟨-, hnone⟩ | ⟨-, hold₁⟩
    · exact absurd hnone (by simp)
    · rcases held_update.mp h₂ with ⟨-, hnone⟩ | ⟨-, hold₂⟩
      · exact absurd hnone (by simp)
      · exact h.held_inj w₁ w₂ ticket' hold₁ hold₂
  done_lt ticket' hdone := by
    rcases List.mem_append.mp hdone with hold | hnew
    · exact h.done_lt ticket' hold
    · exact List.mem_singleton.mp hnew ▸ h.held_lt w ticket hheld
  done_nodup := by
    refine List.nodup_append.mpr ⟨h.done_nodup, List.nodup_singleton _,
      fun ticket' hdone ticket'' hnew heq => ?_⟩
    rw [heq, List.mem_singleton.mp hnew] at hdone
    exact h.not_done w ticket hheld hdone
  not_done w' ticket' hheld' hdone := by
    rcases held_update.mp hheld' with ⟨-, hnone⟩ | ⟨hw, hold⟩
    · exact absurd hnone (by simp)
    · rcases List.mem_append.mp hdone with hdone | hnew
      · exact h.not_done w' ticket' hold hdone
      · rw [List.mem_singleton.mp hnew] at hold
        exact hw (h.held_inj w' w ticket hold hheld)
  covered ticket' hlt := by
    rcases h.covered ticket' hlt with ⟨w', hheld'⟩ | hdone
    · by_cases hw : w' = w
      · subst hw
        obtain rfl : ticket = ticket' := Option.some.inj (hheld.symm.trans hheld')
        exact Or.inr (by simp)
      · exact Or.inl ⟨w', held_update.mpr (Or.inr ⟨hw, hheld'⟩)⟩
    · exact Or.inr (List.mem_append_left _ hdone)

/-- Every step keeps the invariant. -/
theorem TicketsInv.step {t t' : Tickets ω} {label : TicketLabel ω} (h : TicketsInv t)
    (hstep : ticketNext t label = some t') : TicketsInv t' := by
  cases label with
  | issue =>
    obtain rfl := Option.some.inj hstep
    exact ⟨Nat.le_succ_of_le h.taken_le, h.held_lt, h.held_inj, h.done_lt, h.done_nodup, h.not_done,
      h.covered⟩
  | take w =>
    rw [ticketNext] at hstep
    split at hstep
    · rename_i hfree
      obtain rfl := Option.some.inj hstep
      exact h.take hfree.1 hfree.2
    · exact absurd hstep (by simp)
  | finish w =>
    obtain ⟨ticket, hheld, rfl⟩ := Option.map_eq_some_iff.mp hstep
    exact h.finish hheld

/-- In the beginning no ticket was taken. -/
theorem ticketsInv_init {t : Tickets ω} (h : (ticketSystem ω).init t) : TicketsInv t := by
  obtain ⟨hissued, htaken, hheld, hdone⟩ := h
  constructor <;> simp [hissued, htaken, hheld, hdone]

/-- The invariant holds in every reachable state. -/
theorem ticketsInv_reachable {t : Tickets ω} (h : (ticketSystem ω).Reachable t) : TicketsInv t := by
  have hstep (t : Tickets ω) (label : TicketLabel ω) (t' : Tickets ω) (hinv : TicketsInv t)
      (hnext : (ticketSystem ω).step t label t') : TicketsInv t' := hinv.step hnext
  exact h.invariant (fun t hinit => ticketsInv_init hinit) hstep

end Csci4061.Lib
