import Csci4061.Lib.Transition

/-!
# The use of one file descriptor

A program works on a descriptor directly and through streams. What it does with one descriptor, in
order, is a word which a small machine accepts or not: nothing may be done with a closed descriptor,
and nothing through a stream which is a null pointer.
-/

namespace Csci4061.Lib

/-- An operation on a descriptor. -/
inductive DescriptorOp
  /-- `fdopen`, and whether it returns a stream. -/
  | fdopen (ok : Bool)
  | fgets
  | fprintf
  | fflush
  | write
  | close
  | fclose
  deriving DecidableEq

/-- Whether the descriptor is open, and whether the pointer to its stream is not null. -/
structure Handle where
  isOpen : Bool
  hasStream : Bool
  deriving DecidableEq

/-- A descriptor which was just opened. -/
def Handle.fresh : Handle := ⟨true, false⟩

/-- One operation; `none` is an operation on a closed descriptor or on a null stream. -/
def handleNext (h : Handle) : DescriptorOp → Option Handle
  | .fdopen ok => if h.isOpen then some { h with hasStream := ok } else none
  | .fgets | .fprintf | .fflush => if h.isOpen && h.hasStream then some h else none
  | .write => if h.isOpen then some h else none
  | .close => if h.isOpen then some { h with isOpen := false } else none
  | .fclose => if h.isOpen && h.hasStream then some { h with isOpen := false } else none

/-- The operation closes the descriptor. -/
def DescriptorOp.Closes : DescriptorOp → Prop
  | .close | .fclose => True
  | _ => False

/-- The descriptor is closed once, by the last operation. -/
def ClosesLast (ops : List DescriptorOp) : Prop :=
  ∃ pre op, ops = pre ++ [op] ∧ op.Closes ∧ ∀ earlier ∈ pre, ¬ earlier.Closes

/-- Nothing is accepted on a closed descriptor. -/
theorem handleNext_closed {h : Handle} (hclosed : h.isOpen = false) (op : DescriptorOp) :
    handleNext h op = none := by
  cases op <;> simp [handleNext, hclosed]

/-- An accepted operation leaves the descriptor open, unless it closes it. -/
theorem handleNext_isOpen {h h' : Handle} {op : DescriptorOp} (hstep : handleNext h op = some h') :
    h'.isOpen = false ↔ op.Closes := by
  have hopen : h.isOpen = true := by
    by_contra hclosed
    rw [handleNext_closed (Bool.not_eq_true _ ▸ hclosed)] at hstep
    exact absurd hstep (by simp)
  cases op with
  | fdopen ok | write | close =>
    obtain rfl := by simpa [handleNext, hopen] using hstep
    simp [hopen, DescriptorOp.Closes]
  | fgets | fprintf | fflush | fclose =>
    cases hstream : h.hasStream with
    | true =>
      obtain rfl := by simpa [handleNext, hopen, hstream] using hstep
      simp [hopen, DescriptorOp.Closes]
    | false => exact absurd hstep (by simp [handleNext, hstream])

/-- A use which ends with a closed descriptor closes it once, with its last operation. -/
theorem exec_handleNext_closed {h h' : Handle} {ops : List DescriptorOp} (hopen : h.isOpen = true)
    (hexec : TransitionSystem.exec handleNext h ops = some h') (hclosed : h'.isOpen = false) :
    ClosesLast ops := by
  induction ops generalizing h with
  | nil =>
    obtain rfl : h = h' := Option.some.inj hexec
    exact absurd (hopen.symm.trans hclosed) (by simp)
  | cons op ops ih =>
    obtain ⟨u, hstep, hrest⟩ := Option.bind_eq_some_iff.mp hexec
    cases hu : u.isOpen with
    | true =>
      have hkeeps : ¬ op.Closes := by
        rw [← handleNext_isOpen hstep, hu]
        decide
      obtain ⟨pre, last, rfl, hlast, hearlier⟩ := ih hu hrest
      exact ⟨op :: pre, last, rfl, hlast, List.forall_mem_cons.mpr ⟨hkeeps, hearlier⟩⟩
    | false =>
      cases ops with
      | nil => exact ⟨[], op, rfl, (handleNext_isOpen hstep).mp hu, by simp⟩
      | cons next ops =>
        rw [TransitionSystem.exec, handleNext_closed hu] at hrest
        exact absurd hrest (by simp)

end Csci4061.Lib
