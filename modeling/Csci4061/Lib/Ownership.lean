import Csci4061.Lib.Heap

/-!
# Who holds the allocated blocks

Every allocated block has exactly one holder, and every holder has at most one block. Holders may be the
fields of a record, the local variables of the threads, or the places from which a pointer was lost, so
that a leak is a holder like the others. An allocation, a release or a handover changes what one or two
holders have, and since the blocks of two holders differ, a write for one of them is no concern of the
others.
-/

namespace Csci4061.Lib

namespace Heap

variable {ω : Type*} [DecidableEq ω]

/-- The allocated blocks are those which somebody holds, and no block is held twice. -/
structure Owned (h : Heap) (holds : ω → Option ℕ) : Prop where
  exclusive : ∀ ⦃o o' a⦄, holds o = some a → holds o' = some a → o = o'
  allocated : ∀ a, h.blocks a ≠ none ↔ ∃ o, holds o = some a

variable {h : Heap} {holds : ω → Option ℕ} {o o' : ω} {a b : ℕ}

omit [DecidableEq ω] in
/-- A block which is held is allocated. -/
theorem Owned.live (hown : h.Owned holds) (ho : holds o = some a) : h.blocks a ≠ none :=
  (hown.allocated a).mpr ⟨o, ho⟩

omit [DecidableEq ω] in
/-- The blocks of two holders differ. -/
theorem Owned.ne (hown : h.Owned holds) (ho : holds o = some a) (ho' : holds o' = some b)
    (hne : o ≠ o') : a ≠ b := by
  rintro rfl
  exact hne (hown.exclusive ho ho')

omit [DecidableEq ω] in
/-- A block which is held is not one which is not in use. -/
theorem Owned.ne_of_free (hown : h.Owned holds) (ho : holds o = some a) (hfree : h.blocks b = none) :
    a ≠ b := by
  rintro rfl
  exact hown.live ho hfree

/-- A holder without a block gets an address which is not in use. -/
theorem Owned.malloc (hown : h.Owned holds) (hfree : h.blocks a = none) (ho : holds o = none)
    (block : Block) :
    (h.setBlock a (some block)).Owned (Function.update holds o (some a)) where
  exclusive x y c hx hy := by
    have hold (z : ω) (hz : Function.update holds o (some a) z = some c) :
        z = o ∧ c = a ∨ z ≠ o ∧ holds z = some c := by
      by_cases hzo : z = o
      · rw [hzo, Function.update_self] at hz
        exact Or.inl ⟨hzo, (Option.some.inj hz).symm⟩
      · rw [Function.update_of_ne hzo] at hz
        exact Or.inr ⟨hzo, hz⟩
    rcases hold x hx with ⟨hxo, hc⟩ | ⟨-, hx'⟩ <;> rcases hold y hy with ⟨hyo, hc'⟩ | ⟨-, hy'⟩
    · rw [hxo, hyo]
    · exact absurd (hc ▸ hfree) (hown.live hy')
    · exact absurd (hc' ▸ hfree) (hown.live hx')
    · exact hown.exclusive hx' hy'
  allocated c := by
    rw [setBlock_blocks]
    by_cases hc : c = a
    · rw [hc, Function.update_self]
      exact ⟨fun _ => ⟨o, Function.update_self ..⟩, fun _ => Option.some_ne_none _⟩
    · rw [Function.update_of_ne hc, hown.allocated]
      constructor
      · rintro ⟨x, hx⟩
        refine ⟨x, ?_⟩
        rw [Function.update_of_ne, hx]
        rintro rfl
        exact absurd (hx.symm.trans ho) (Option.some_ne_none c)
      · rintro ⟨x, hx⟩
        by_cases hxo : x = o
        · rw [hxo, Function.update_self] at hx
          exact absurd (Option.some.inj hx).symm hc
        · rw [Function.update_of_ne hxo] at hx
          exact ⟨x, hx⟩

/-- A holder releases its block. -/
theorem Owned.free (hown : h.Owned holds) (ho : holds o = some a) :
    (h.setBlock a none).Owned (Function.update holds o none) where
  exclusive x y c hx hy := by
    have hold (z : ω) (hz : Function.update holds o none z = some c) : holds z = some c := by
      by_cases hzo : z = o
      · rw [hzo, Function.update_self] at hz
        exact absurd hz.symm (Option.some_ne_none c)
      · rwa [Function.update_of_ne hzo] at hz
    exact hown.exclusive (hold x hx) (hold y hy)
  allocated c := by
    rw [setBlock_blocks]
    by_cases hc : c = a
    · rw [hc, Function.update_self]
      refine ⟨fun hne => absurd rfl hne, ?_⟩
      rintro ⟨x, hx⟩
      by_cases hxo : x = o
      · rw [hxo, Function.update_self] at hx
        exact absurd hx.symm (Option.some_ne_none a)
      · rw [Function.update_of_ne hxo] at hx
        exact absurd (hown.exclusive hx ho) hxo
    · rw [Function.update_of_ne hc, hown.allocated]
      constructor
      · rintro ⟨x, hx⟩
        refine ⟨x, ?_⟩
        rw [Function.update_of_ne, hx]
        rintro rfl
        exact hc (Option.some.inj (hx.symm.trans ho))
      · rintro ⟨x, hx⟩
        by_cases hxo : x = o
        · rw [hxo, Function.update_self] at hx
          exact absurd hx.symm (Option.some_ne_none c)
        · rw [Function.update_of_ne hxo] at hx
          exact ⟨x, hx⟩

omit [DecidableEq ω] in
/-- A write to a block which is allocated changes no holder. -/
theorem Owned.write (hown : h.Owned holds) (ho : holds o = some a) (block : Block) :
    (h.setBlock a (some block)).Owned holds where
  exclusive := hown.exclusive
  allocated c := by
    rw [setBlock_blocks, ← hown.allocated]
    by_cases hc : c = a
    · rw [hc, Function.update_self]
      exact ⟨fun _ => hown.live ho, fun _ => Option.some_ne_none _⟩
    · rw [Function.update_of_ne hc]

/-- A block which is allocated and released again leaves the heap as it was. -/
theorem free_malloc (hfree : h.blocks a = none) (block : Block) :
    (h.setBlock a (some block)).free ⟨a, 0⟩ = some h := by
  rw [free_of_start, setBlock_setBlock, setBlock_of_blocks hfree]
  rw [setBlock_blocks, Function.update_self]
  exact Option.some_ne_none _

/-- Two different blocks are set in any order. -/
theorem setBlock_comm (hne : a ≠ b) (h : Heap) (x y : Option Block) :
    (h.setBlock a x).setBlock b y = (h.setBlock b y).setBlock a x := by
  rw [setBlock, setBlock, setBlock, setBlock]
  exact congrArg (fun blocks => ({ h with blocks } : Heap)) (Function.update_comm hne x y h.blocks)

/-- Of two blocks which are allocated the first one is released again. -/
theorem free_first (hne : a ≠ b) (hfree : h.blocks a = none) (block : Block) (x : Option Block) :
    ((h.setBlock a (some block)).setBlock b x).free ⟨a, 0⟩ = some (h.setBlock b x) := by
  rw [setBlock_comm hne, free_malloc]
  rw [setBlock_blocks, Function.update_of_ne hne]
  exact hfree

end Heap

end Csci4061.Lib
