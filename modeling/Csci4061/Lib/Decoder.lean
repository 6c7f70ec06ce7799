import Csci4061.Lib.Bracket
import Csci4061.Lib.CMemory

/-!
# Decoders which can tell a part of their input from the whole

A decoder takes a value from the beginning of its input and leaves the rest, or fails. It is stable if
what follows later cannot change what it took. Then it fails on every proper part of an input which it
takes as a whole, so a reader notices that the input was cut off. Stability is kept by sequencing, and
holds of the usual primitives: a part up to a separator, a number of elements, a block of lines up to an
empty one. What is taken from the end of the input is not stable.

A decimal number which was printed is read back, and so is the value of a named field.
-/

namespace Csci4061.Lib

variable {τ α β : Type*}

/-- What is taken from an input, and what is left. -/
abbrev Decoder (τ α : Type*) := List τ → Option (α × List τ)

/-- Take a value, and go on with the rest in a way which depends on it. -/
def Decoder.andThen (d : Decoder τ α) (f : α → Decoder τ β) : Decoder τ β := fun input =>
  (d input).bind fun (a, rest) => f a rest

/-- Take nothing. -/
def Decoder.result (a : α) : Decoder τ α := fun input => some (a, input)

/-- Fail. -/
def Decoder.fail : Decoder τ α := fun _ => none

/-- Take the part up to the first occurrence of a word, and the word. -/
def untilWord [DecidableEq τ] (word : List τ) : Decoder τ (List τ)
  | [] => none
  | c :: rest =>
    if word <+: c :: rest then some ([], (c :: rest).drop word.length)
    else (untilWord word rest).map fun (x, rest) => (c :: x, rest)

/-- Take a number of elements. -/
def exactly (n : ℕ) : Decoder τ (List τ) := fun input =>
  if n ≤ input.length then some (input.take n, input.drop n) else none

/-- Take parts which are not empty, each up to the word, and then an empty one. At most as many parts are
taken as the number says. -/
def block [DecidableEq τ] (word : List τ) : ℕ → Decoder τ (List (List τ))
  | 0 => Decoder.fail
  | n + 1 => (untilWord word).andThen fun line =>
    if line = [] then Decoder.result [] else (block word n).andThen fun lines =>
      Decoder.result (line :: lines)

/-- What follows later does not change what is taken. -/
def Decoder.Stable (d : Decoder τ α) : Prop :=
  ∀ (input : List τ) (a : α) (rest more : List τ), d input = some (a, rest) →
    d (input ++ more) = some (a, rest ++ more)

/-- Taking nothing is stable. -/
theorem Decoder.stable_result (a : α) : (result a : Decoder τ α).Stable := fun input b rest more h => by
  obtain ⟨rfl, rfl⟩ := Prod.mk.inj (Option.some.inj h)
  rfl

/-- Failing is stable. -/
theorem Decoder.stable_fail : (fail : Decoder τ α).Stable := fun _ _ _ _ h => absurd h (by simp [fail])

/-- Stable decoders one after the other are stable. -/
theorem Decoder.Stable.andThen {d : Decoder τ α} {f : α → Decoder τ β} (hd : d.Stable)
    (hf : ∀ a, (f a).Stable) :
    (d.andThen f).Stable := fun input b rest more h => by
  obtain ⟨⟨a, middle⟩, hfirst, hsecond⟩ := Option.bind_eq_some_iff.mp h
  rw [Decoder.andThen, hd input a middle more hfirst, Option.bind_some]
  exact hf a middle b rest more hsecond

/-- A decoder which takes the whole of an input fails on each proper part of it. -/
theorem Decoder.Stable.cut {d : Decoder τ α} (hd : d.Stable) {whole received : List τ}
    (hpart : received <+: whole) {reply : α} (hwhole : d whole = some (reply, []))
    [Decidable (received = whole)] :
    d received = if received = whole then some (reply, []) else none := by
  split
  · rename_i heq
    rw [heq, hwhole]
  · rename_i hne
    obtain ⟨more, rfl⟩ := hpart
    cases hreceived : d received with
    | none => rfl
    | some taken =>
      obtain ⟨a, rest⟩ := taken
      rw [hd received a rest more hreceived] at hwhole
      obtain rfl : more = [] := (List.append_eq_nil_iff.mp (Prod.mk.inj (Option.some.inj hwhole)).2).2
      exact absurd (List.append_nil received).symm hne

/-- A number of elements which are there is there in a longer input. -/
theorem stable_exactly (n : ℕ) : (exactly n : Decoder τ (List τ)).Stable := fun input x rest more h => by
  rw [exactly] at h
  split at h
  · rename_i hroom
    obtain ⟨rfl, rfl⟩ := Prod.mk.inj (Option.some.inj h)
    rw [exactly, if_pos (by rw [List.length_append]; omega), List.take_append_of_le_length hroom,
      List.drop_append_of_le_length hroom]
  · exact absurd h (by simp)

section

variable [DecidableEq τ]

/-- Where a word was found there is room for it. -/
theorem length_le_of_untilWord {word input x rest : List τ} (h : untilWord word input = some (x, rest)) :
    word.length ≤ input.length := by
  induction input generalizing x rest with
  | nil => exact absurd h (by simp [untilWord])
  | cons c input ih =>
    rw [untilWord] at h
    split at h
    · rename_i hfound
      exact hfound.length_le
    · obtain ⟨⟨x', rest'⟩, hlater, -⟩ := Option.map_eq_some_iff.mp h
      exact (ih hlater).trans (Nat.le_succ _)

/-- A word which is found first is found first in a longer input. -/
theorem stable_untilWord (word : List τ) : (untilWord word).Stable := fun input x rest more h => by
  induction input generalizing x rest with
  | nil => exact absurd h (by simp [untilWord])
  | cons c input ih =>
    have hroom := length_le_of_untilWord h
    rw [untilWord] at h
    rw [List.cons_append, untilWord]
    split at h
    · rename_i hfound
      obtain ⟨rfl, rfl⟩ := Prod.mk.inj (Option.some.inj h)
      have hstill : word <+: c :: (input ++ more) := hfound.trans (List.prefix_append (c :: input) more)
      rw [if_pos hstill, ← List.cons_append, List.drop_append_of_le_length hroom]
    · rename_i hnot
      obtain ⟨⟨x', rest'⟩, hlater, heq⟩ := Option.map_eq_some_iff.mp h
      obtain ⟨rfl, rfl⟩ := Prod.mk.inj heq
      have hstill : ¬ word <+: c :: (input ++ more) := fun hfound =>
        hnot (List.prefix_of_prefix_length_le hfound (List.prefix_append (c :: input) more) hroom)
      rw [if_neg hstill, ih x' rest' hlater]
      rfl

/-- A block which has ended does not go on. -/
theorem stable_block (word : List τ) (n : ℕ) : (block word n).Stable := by
  induction n with
  | zero => exact Decoder.stable_fail
  | succ n ih =>
    refine (stable_untilWord word).andThen fun line => ?_
    split
    · exact Decoder.stable_result []
    · exact ih.andThen fun lines => Decoder.stable_result (line :: lines)

/-- A word which begins with an element that the part before it does not have is found behind that
part. -/
theorem untilWord_append {c : τ} {x : List τ} (hx : c ∉ x) (word rest : List τ) :
    untilWord (c :: word) (x ++ ((c :: word) ++ rest)) = some (x, rest) := by
  induction x with
  | nil =>
    have hfound : c :: word <+: c :: (word ++ rest) := List.prefix_append (c :: word) rest
    rw [List.nil_append, List.cons_append, untilWord, if_pos hfound, ← List.cons_append, List.drop_left]
  | cons d x ih =>
    rw [List.mem_cons, not_or] at hx
    have hnot : ¬ c :: word <+: d :: (x ++ ((c :: word) ++ rest)) := fun hfound =>
      hx.1 (List.cons_prefix_cons.mp hfound).1
    rw [List.cons_append, untilWord, if_neg hnot, ih hx.2]
    rfl

/-- Lines which are not empty and do not have the separator are taken up to the empty one. -/
theorem block_append {c : τ} {lines : List (List τ)} (hlines : ∀ line ∈ lines, line ≠ [] ∧ c ∉ line)
    {n : ℕ} (hn : lines.length < n) (rest : List τ) :
    block [c] n (lines.flatMap (· ++ [c]) ++ c :: rest) = some (lines, rest) := by
  induction lines generalizing n with
  | nil =>
    obtain ⟨n, rfl⟩ : ∃ m, n = m + 1 := ⟨n - 1, by simp at hn; omega⟩
    have hempty := untilWord_append (c := c) List.not_mem_nil [] rest
    rw [List.nil_append, List.singleton_append] at hempty
    rw [block, List.flatMap_nil, List.nil_append, Decoder.andThen, hempty]
    rfl
  | cons line lines ih =>
    obtain ⟨n, rfl⟩ : ∃ m, n = m + 1 := ⟨n - 1, by simp at hn; omega⟩
    obtain ⟨hfirst, hothers⟩ := List.forall_mem_cons.mp hlines
    rw [block, List.flatMap_cons, List.append_assoc, List.append_assoc, Decoder.andThen,
      untilWord_append hfirst.2, Option.bind_some]
    simp only [if_neg hfirst.1, Decoder.andThen, ih hothers (Nat.lt_of_succ_lt_succ hn),
      Option.bind_some, Decoder.result]

end

/-- As many elements as there are in the first part are that part. -/
@[simp] theorem exactly_append (x rest : List τ) : exactly x.length (x ++ rest) = some (x, rest) := by
  rw [exactly, if_pos (by simp), List.take_left, List.drop_left]

/-- The number which decimal digits stand for. -/
def readNat (s : CString) : Option ℕ :=
  if !s.isEmpty && s.all fun c => 0x30 ≤ c && c ≤ 0x39 then
    some (Nat.ofDigitChars 10 (s.map fun c => Char.ofNat c.toNat) 0)
  else none

/-- A digit is the byte of its character. -/
theorem digit_toUInt8 {c : Char} (h : c.isDigit) :
    (0x30 ≤ c.toNat.toUInt8 ∧ c.toNat.toUInt8 ≤ 0x39) ∧ Char.ofNat c.toNat.toUInt8.toNat = c := by
  have hrange : 0x30 ≤ c.toNat ∧ c.toNat ≤ 0x39 := Char.isDigit_iff_toNat.mp h
  have hbyte : c.toNat.toUInt8.toNat = c.toNat := by
    rw [Nat.toUInt8_eq, UInt8.toNat_ofNat', Nat.mod_eq_of_lt (by omega)]
  refine ⟨⟨UInt8.le_iff_toNat_le.mpr ?_, UInt8.le_iff_toNat_le.mpr ?_⟩, ?_⟩
  · rw [hbyte]
    exact hrange.1
  · rw [hbyte]
    exact hrange.2
  · rw [hbyte, Char.ofNat_toNat]

/-- A printed number consists of digits and a sign. -/
theorem mem_decimal {n : ℤ} {c : UInt8} (h : c ∈ decimal n) : c = 0x2D ∨ 0x30 ≤ c ∧ c ≤ 0x39 := by
  have hsign : bytes "-" = [0x2D] := by decide
  rcases List.mem_append.mp h with hfirst | hdigits
  · split at hfirst
    · exact Or.inl (List.mem_singleton.mp (hsign ▸ hfirst))
    · exact absurd hfirst List.not_mem_nil
  · obtain ⟨d, hd, rfl⟩ := List.mem_map.mp hdigits
    exact Or.inr (digit_toUInt8 (Nat.isDigit_of_mem_toDigits (by decide) (by decide) hd)).1

/-- Printed digits are read back. -/
theorem readNat_digits (n : ℕ) :
    readNat ((Nat.toDigits 10 n).map fun c => c.toNat.toUInt8) = some n := by
  have hdigit (c : Char) (hc : c ∈ Nat.toDigits 10 n) :=
    digit_toUInt8 (Nat.isDigit_of_mem_toDigits (by decide) (by decide) hc)
  have hback : ((Nat.toDigits 10 n).map fun c => c.toNat.toUInt8).map (fun c => Char.ofNat c.toNat) =
      Nat.toDigits 10 n := by
    rw [List.map_map]
    exact (List.map_congr_left fun c hc => (hdigit c hc).2).trans (List.map_id _)
  rw [readNat, hback, Nat.ofDigitChars_ten_toDigits, if_pos]
  simp only [Bool.and_eq_true, Bool.not_eq_true', List.isEmpty_eq_false_iff, List.all_eq_true,
    decide_eq_true_eq]
  refine ⟨by simp [Nat.toDigits_ne_nil], fun d hd => ?_⟩
  obtain ⟨c, hc, rfl⟩ := List.mem_map.mp hd
  exact (hdigit c hc).1

/-- A printed number which is not negative is read back as digits. -/
theorem readNat_decimal (n : ℕ) : readNat (decimal n) = some n := by
  rw [decimal, if_neg (by omega), List.nil_append, Int.natAbs_natCast, readNat_digits]

/-- The line of a field. -/
def fieldLine (name value : CString) : CString := name ++ bytes ": " ++ value

/-- The value of the first field of a name. -/
def fieldValue (name : CString) (lines : List CString) : Option CString :=
  lines.findSome? fun line =>
    if name ++ bytes ": " <+: line then some (line.drop (name ++ bytes ": ").length) else none

/-- A field of the name is the first one. -/
theorem fieldValue_self (name value : CString) (lines : List CString) :
    fieldValue name (fieldLine name value :: lines) = some value := by
  rw [fieldValue, List.findSome?_cons, fieldLine, if_pos (List.prefix_append _ value), List.drop_left]

/-- A field of another name is passed over. -/
theorem fieldValue_of_ne {name other : CString} (hne : name ≠ other) (hname : 0x3A ∉ name)
    (hother : 0x3A ∉ other) (value : CString) (lines : List CString) :
    fieldValue name (fieldLine other value :: lines) = fieldValue name lines := by
  have hnot : ¬ name ++ bytes ": " <+: other ++ bytes ": " ++ value := by
    have hcolon : bytes ": " = [0x3A, 0x20] := by decide
    rintro ⟨rest, hrest⟩
    rw [hcolon, List.append_assoc, List.append_assoc] at hrest
    exact hne (append_cons_left_unique hrest hname hother)
  rw [fieldValue, List.findSome?_cons, fieldLine, if_neg hnot, fieldValue]

end Csci4061.Lib
