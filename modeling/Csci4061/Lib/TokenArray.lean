import Csci4061.Lib.Strtok

/-!
# Arrays of tokens

A function which splits a string stores its tokens in an array of pointers, one after another, and
`NULL` behind the last one. It is not told how many elements the array of its caller has, so a write
past the last one is `none` here. The elements which are not written keep what they were.
-/

namespace Csci4061.Lib

/-- What an element of an array of pointers holds. -/
inductive TokenCell
  /-- `NULL`. -/
  | null
  /-- A position in the string which is split. -/
  | token (start : ℕ)
  /-- Any other address. -/
  | other (address : ℕ)
  deriving DecidableEq

/-- The loop which stores the tokens from element `i` on, as long as there is one and `goesOn` allows
it, and the last `NULL`. The number of remaining bytes bounds it. The first argument behind this number
is what the last call of `strtok` gave. -/
def storeLoop (delims : CString) (goesOn : ℕ → Bool) :
    ℕ → Option ℕ × List UInt8 × ℕ → ℕ → List TokenCell → Option (ℕ × List TokenCell × List UInt8)
  | fuel + 1, (some tok, buf, pos), i, cells =>
    if goesOn i then
      (writeSlot cells i (.token tok)).bind fun cells =>
        storeLoop delims goesOn fuel (strtok delims buf pos) (i + 1) cells
    else (writeSlot cells i .null).map fun cells => (i, cells, buf)
  | 0, (_, buf, _), i, cells => (writeSlot cells i .null).map fun cells => (i, cells, buf)
  | _ + 1, (none, buf, _), i, cells => (writeSlot cells i .null).map fun cells => (i, cells, buf)

/-- Split a string and store its tokens: how many there are, the array, and the string they point
into. -/
def splitInto (delims : CString) (goesOn : ℕ → Bool) (input : CString) (cells : List TokenCell) :
    Option (ℕ × List TokenCell × List UInt8) :=
  storeLoop delims goesOn input.length (strtok delims input 0) 0 cells

/-- The strings which an array points to, up to its first `NULL`. -/
def pointedStrings (buf : List UInt8) : List TokenCell → Option (List CString)
  | .null :: _ => some []
  | .token start :: cells => (pointedStrings buf cells).map (cString (buf.drop start) :: ·)
  | .other _ :: _ => none
  | [] => none

variable {delims : CString} {goesOn : ℕ → Bool}

/-- Without a word in the rest of the string only the last `NULL` is stored. -/
theorem storeLoop_none {pre rest : List UInt8} (hzero : 0 ∉ rest)
    (hwords : tokens (separates delims) rest = []) (fuel : ℕ) (done todo : List TokenCell) :
    storeLoop delims goesOn fuel (strtok delims (pre ++ rest) pre.length) done.length (done ++ todo) =
      if 0 < todo.length then some (done.length, done ++ .null :: todo.drop 1, pre ++ rest)
        else none := by
  rw [strtok_none hzero hwords]
  cases fuel with
  | zero | succ =>
    rw [storeLoop, writeSlot_append_eq]
    split <;> rfl

/-- The loop stores the tokens which the calls find behind the elements which are done, if there is room
for them and for the last `NULL`. -/
theorem storeLoop_of_findsTokens {fuel : ℕ} {pre rest pre' rest' : List UInt8} {starts : List ℕ}
    (hfinds : FindsTokens delims pre rest starts pre' rest') (hzero : 0 ∉ rest')
    (hnone : tokens (separates delims) rest' = []) (hfuel : starts.length ≤ fuel)
    {done todo : List TokenCell} (hgo : ∀ j < done.length + starts.length, goesOn j = true) :
    storeLoop delims goesOn fuel (strtok delims (pre ++ rest) pre.length) done.length (done ++ todo) =
      if starts.length < todo.length then
        some (done.length + starts.length,
          done ++ (starts.map .token ++ .null :: todo.drop (starts.length + 1)), pre' ++ rest')
      else none := by
  induction hfinds generalizing fuel done todo with
  | none => exact storeLoop_none hzero hnone fuel done todo
  | @token _ _ _ _ _ _ start starts _ hcall _ ih =>
    rw [List.length_cons] at hfuel hgo
    have hnow : goesOn done.length = true := hgo _ (by omega)
    cases fuel with
    | zero => exact absurd hfuel (Nat.not_succ_le_zero _)
    | succ fuel =>
      rw [hcall, storeLoop, if_pos hnow]
      cases todo with
      | nil =>
        rw [writeSlot_of_le _ _ (by simp), if_neg (by simp)]
        rfl
      | cons c todo =>
        have hloop := @ih fuel hzero hnone (Nat.le_of_succ_le_succ hfuel)
            (done ++ [.token start]) todo fun j hj =>
          hgo j (by
            rw [List.length_append, List.length_singleton] at hj
            omega)
        rw [List.length_append, List.length_singleton, List.append_assoc, List.singleton_append] at hloop
        rw [writeSlot_append_cons, Option.bind_some, hloop]
        simp [Nat.add_assoc, Nat.add_comm 1]

/-- Splitting a string stores its words, and the array has to have room for them and for the last
`NULL`. -/
theorem splitInto_eq {input : CString} (cells : List TokenCell) (hzero : 0 ∉ input)
    (hgo : ∀ j < (tokens (separates delims) input).length, goesOn j = true) :
    ∃ (starts : List ℕ) (buf : List UInt8), splitInto delims goesOn input cells =
        (if (tokens (separates delims) input).length < cells.length
          then some ((tokens (separates delims) input).length,
          starts.map .token ++ .null :: cells.drop ((tokens (separates delims) input).length + 1), buf)
            else none) ∧
      starts.map (fun start => cString (buf.drop start)) = tokens (separates delims) input := by
  obtain ⟨starts, pre, rest, hfound, hnone⟩ := @exists_allTokensFound delims input [] hzero
  have hlength := hfound.holds.length_eq
  have hmany := length_tokens_le (p := separates delims) input
  have hloop := @storeLoop_of_findsTokens delims goesOn input.length [] input pre rest starts
    hfound.calls hfound.no_zero hnone (by omega) [] cells (by simpa [hlength] using hgo)
  refine ⟨starts, pre ++ rest, ?_, hfound.map_eq⟩
  rw [splitInto, ← hlength]
  simpa using hloop

/-- Splitting a string stores its words, if there is room for them and for the last `NULL`. -/
theorem splitInto_of_lt {input : CString} {cells : List TokenCell} (hzero : 0 ∉ input)
    (hgo : ∀ j < (tokens (separates delims) input).length, goesOn j = true)
    (hroom : (tokens (separates delims) input).length < cells.length) :
    ∃ (starts : List ℕ) (buf : List UInt8), splitInto delims goesOn input cells = some
    ((tokens (separates delims) input).length,
        starts.map .token ++ .null :: cells.drop ((tokens (separates delims) input).length + 1), buf) ∧
      starts.map (fun start => cString (buf.drop start)) = tokens (separates delims) input := by
  obtain ⟨starts, buf, hsplit, hstrings⟩ := splitInto_eq cells hzero hgo
  rw [if_pos hroom] at hsplit
  exact ⟨starts, buf, hsplit, hstrings⟩

/-- Splitting a string of too many words leaves the array. -/
theorem splitInto_of_le {input : CString} {cells : List TokenCell} (hzero : 0 ∉ input)
    (hgo : ∀ j < (tokens (separates delims) input).length, goesOn j = true)
    (hfull : cells.length ≤ (tokens (separates delims) input).length) :
    splitInto delims goesOn input cells = none := by
  obtain ⟨starts, buf, hsplit, -⟩ := splitInto_eq cells hzero hgo
  rwa [if_neg (Nat.not_lt.mpr hfull)] at hsplit

/-- Splitting stays inside the array exactly if there are fewer words than elements. -/
theorem splitInto_isSome_iff {input : CString} (cells : List TokenCell) (hzero : 0 ∉ input)
    (hgo : ∀ j < (tokens (separates delims) input).length, goesOn j = true) :
    (splitInto delims goesOn input cells).isSome = true ↔
    (tokens (separates delims) input).length < cells.length := by
  by_cases hroom : (tokens (separates delims) input).length < cells.length
  · obtain ⟨starts, buf, hsplit, -⟩ := splitInto_of_lt hzero hgo hroom
    rw [hsplit]
    exact iff_of_true rfl hroom
  · rw [splitInto_of_le hzero hgo (Nat.le_of_not_lt hroom)]
    exact iff_of_false Bool.false_ne_true hroom

/-- The strings of stored tokens are read up to the `NULL` behind them. -/
theorem pointedStrings_stored (buf : List UInt8) (starts : List ℕ) (rest : List TokenCell) :
    pointedStrings buf (starts.map .token ++ .null :: rest) =
      some (starts.map fun start => cString (buf.drop start)) := by
  induction starts with
  | nil => rfl
  | cons start starts ih =>
    rw [List.map_cons, List.cons_append, pointedStrings, ih, Option.map_some, List.map_cons]

end Csci4061.Lib
