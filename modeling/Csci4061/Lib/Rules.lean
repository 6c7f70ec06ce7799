import Mathlib.Data.List.Basic
import Mathlib.Logic.Function.Basic
import Mathlib.Logic.Relation
import Mathlib.Order.RelClasses

/-!
# Values made by rules

A rule makes the value of a name from the values of the names which it needs; a name without a rule is a
source. If no chain of needs goes on forever, the sources determine the value of every name.

A store which is filled by rules one at a time, each of them applied only when what it needs is there,
holds these values and no others, whatever the order. So it does not matter in which order, in how many
goes, or how often the rules are applied.
-/

namespace Csci4061.Lib

variable {ν κ : Type*}

/-- The names which a rule needs, and what it makes of their values. -/
structure Rule (ν κ : Type*) where
  needs : List ν
  makes : List (Option κ) → κ

/-- The rule of another name lists a name. -/
def Needs (rules : ν → Option (Rule ν κ)) (a b : ν) : Prop :=
  ∃ rule, rules b = some rule ∧ a ∈ rule.needs

/-- The value of every name, for the values of the sources. -/
noncomputable def ruleValue (rules : ν → Option (Rule ν κ)) (hwf : WellFounded (Needs rules))
    (source : ν → Option κ) :
    ν → Option κ :=
  hwf.fix fun b value =>
    match hrule : rules b with
    | none => source b
    | some rule => some (rule.makes (rule.needs.attach.map fun a => value a.1 ⟨rule, hrule, a.2⟩))

section Value

variable {rules : ν → Option (Rule ν κ)} {hwf : WellFounded (Needs rules)} {source : ν → Option κ}

/-- The value of a source. -/
theorem ruleValue_source {b : ν} (hrule : rules b = none) : ruleValue rules hwf source b = source b := by
  rw [ruleValue, hwf.fix_eq]
  split
  · rfl
  · rename_i rule hsome
    exact absurd (hrule.symm.trans hsome) (by simp)

/-- The value of a name with a rule. -/
theorem ruleValue_rule {b : ν} {rule : Rule ν κ} (hrule : rules b = some rule) :
    ruleValue rules hwf source b = some (rule.makes (rule.needs.map (ruleValue rules hwf source))) := by
  rw [ruleValue, hwf.fix_eq]
  split
  · rename_i hnone
    exact absurd (hrule.symm.trans hnone) (by simp)
  · rename_i rule' hsome
    obtain rfl := Option.some.inj (hrule.symm.trans hsome)
    exact congrArg (fun values => some (rule.makes values)) List.attach_map_val

end Value

/-- A name is there: it is a source, or the store holds a value for it. -/
def Present (rules : ν → Option (Rule ν κ)) (store : ν → Option κ) (a : ν) : Prop :=
  rules a = none ∨ store a ≠ none

/-- Every name which is there has its value, and what it needs is there. -/
structure Filled (rules : ν → Option (Rule ν κ)) (value store : ν → Option κ) : Prop where
  value_of_present : ∀ a, Present rules store a → store a = value a
  present_of_needs : ∀ a b, Needs rules a b → Present rules store b → Present rules store a

section Filled

variable {rules : ν → Option (Rule ν κ)} {value store : ν → Option κ}

/-- A name without a rule needs nothing. -/
theorem Needs.rule_ne_none {a b : ν} (h : Needs rules a b) : rules b ≠ none := by
  obtain ⟨rule, hrule, -⟩ := h
  exact hrule ▸ Option.some_ne_none rule

/-- A store with the sources only. -/
theorem filled_sources (hwf : WellFounded (Needs rules))
    (hstore : ∀ a, rules a ≠ none → store a = none) :
    Filled rules (ruleValue rules hwf store) store where
  value_of_present a ha := by
    by_cases hrule : rules a = none
    · exact (ruleValue_source hrule).symm
    · exact absurd (hstore a hrule) (ha.resolve_left hrule)
  present_of_needs a b hneeds hb :=
    absurd (hstore b hneeds.rule_ne_none) (hb.resolve_left hneeds.rule_ne_none)

/-- A name which is there stays there when another one is stored. -/
theorem Present.update [DecidableEq ν] {a : ν} (h : Present rules store a) (b : ν) (v : κ) :
    Present rules (Function.update store b (some v)) a := by
  refine h.imp_right fun hvalue => ?_
  by_cases hab : a = b
  · rw [hab, Function.update_self]
    exact Option.some_ne_none v
  · rw [Function.update_of_ne hab]
    exact hvalue

/-- A rule may be applied when what it needs is there. -/
theorem Filled.update [DecidableEq ν] (h : Filled rules value store)
    (hvalue : ∀ b rule, rules b = some rule → value b = some (rule.makes (rule.needs.map value))) {b : ν}
    {rule : Rule ν κ} (hrule : rules b = some rule) (hneeds : ∀ a ∈ rule.needs, Present rules store a) :
    Filled rules value (Function.update store b (some (rule.makes (rule.needs.map store)))) := by
  have hvalues : rule.needs.map store = rule.needs.map value :=
    List.map_congr_left fun a ha => h.value_of_present a (hneeds a ha)
  constructor
  · intro a ha
    by_cases hab : a = b
    · rw [hab, Function.update_self, hvalues, hvalue b rule hrule]
    · rw [Function.update_of_ne hab]
      apply h.value_of_present
      exact ha.imp_right fun hstored => by rwa [Function.update_of_ne hab] at hstored
  · intro a c hac hc
    apply Present.update
    by_cases hcb : c = b
    · subst hcb
      obtain ⟨rule', hrule', ha⟩ := hac
      obtain rfl := Option.some.inj (hrule.symm.trans hrule')
      exact hneeds a ha
    · refine h.present_of_needs a c hac (hc.imp_right fun hstored => ?_)
      rwa [Function.update_of_ne hcb] at hstored

/-- Everything below a name which is there is there. -/
theorem Filled.present_of_below (h : Filled rules value store) {a b : ν}
    (hbelow : Relation.ReflTransGen (Needs rules) a b)
    (hb : Present rules store b) : Present rules store a := by
  induction hbelow using Relation.ReflTransGen.head_induction_on with
  | refl => exact hb
  | head hneeds _ ih => exact h.present_of_needs _ _ hneeds ih

end Filled

end Csci4061.Lib
