import Csci4061.Lib.Tokens

/-!
# Reading a file line by line

A program which calls `fgets` with a buffer of a fixed size until the end of the file sees the
lines of the file, but a line which does not fit the buffer arrives in several pieces, the last
of them possibly empty. `chunks` are these pieces without the newline, and
`fileLines_eq` says that they are what all the calls deliver.
-/

namespace Csci4061.Lib

variable {α : Type*}

/-- The newline character. -/
def newline : UInt8 := 0x0A

/-- What `fgets` stores for a stream which is not at its end: the bytes up to the first newline,
with it, but at most `size - 1` bytes. -/
def fgetsLine (size : ℕ) (stream : List UInt8) : List UInt8 :=
  let window := stream.take (size - 1)
  window.takeWhile (· ≠ newline) ++ (window.dropWhile (· ≠ newline)).take 1

/-- The successive results of `fgets` up to the end of the stream, of at most as many calls as the
first argument says. -/
def fgetsCalls (size : ℕ) : ℕ → List UInt8 → List (List UInt8)
  | 0, _ => []
  | fuel + 1, stream =>
    if stream = [] then []
    else fgetsLine size stream :: fgetsCalls size fuel (stream.drop (fgetsLine size stream).length)

/-- The successive results of `fgets` up to the end of the file; every call takes a byte at least. -/
def fgetsAll (size : ℕ) (content : List UInt8) : List (List UInt8) :=
  fgetsCalls size content.length content

/-- The pieces of a list: all of length `k`, except for the last one, which is shorter. -/
def chunks (k : ℕ) (xs : List α) : List (List α) :=
  if k = 0 ∨ xs.length < k then [xs] else xs.take k :: chunks k (xs.drop k)
termination_by xs.length
decreasing_by
  rw [List.length_drop]
  omega

/-- The lines of a file as `fgets` delivers them, without the newlines. -/
def fileLines (size : ℕ) (content : List UInt8) : List (List UInt8) :=
  (content.splitOn newline).flatMap (chunks (size - 1))

/-- A list which is shorter than a piece is a piece. -/
theorem chunks_of_lt {k : ℕ} {xs : List α} (h : xs.length < k) : chunks k xs = [xs] := by
  rw [chunks, if_pos (Or.inr h)]

/-- A list which is not shorter has a first piece. -/
theorem chunks_of_le {k : ℕ} {xs : List α} (hk : 0 < k) (h : k ≤ xs.length) :
    chunks k xs = xs.take k :: chunks k (xs.drop k) := by
  rw [chunks, if_neg (by omega)]

/-- Induction along the pieces of a list. -/
theorem chunkInduction {motive : List α → Prop} {k : ℕ} (hk : 0 < k)
    (short : ∀ xs, xs.length < k → motive xs)
    (long : ∀ xs, k ≤ xs.length → motive (xs.drop k) → motive xs) (xs : List α) : motive xs := by
  induction hn : xs.length using Nat.strong_induction_on generalizing xs with
  | _ n ih =>
    by_cases h : xs.length < k
    · exact short xs h
    · have hle : k ≤ xs.length := Nat.le_of_not_lt h
      apply long xs hle
      exact ih (xs.drop k).length (by rw [List.length_drop]; omega) (xs.drop k) rfl

/-- The pieces of a list are made of its elements. -/
theorem mem_of_mem_chunks {k : ℕ} (hk : 0 < k) {xs piece : List α} (h : piece ∈ chunks k xs) :
    piece ⊆ xs := by
  induction xs using chunkInduction hk with
  | short xs hlength =>
    rw [chunks_of_lt hlength, List.mem_singleton] at h
    rw [h]
    exact List.Subset.refl xs
  | long xs hle ih =>
    rw [chunks_of_le hk hle] at h
    rcases List.mem_cons.mp h with rfl | hmem
    · exact List.take_subset k xs
    · exact List.Subset.trans (ih hmem) (List.drop_subset k xs)

/-- A file whose lines fit the buffer is read line by line. -/
theorem fileLines_of_short {size : ℕ} {content : List UInt8}
    (h : ∀ line ∈ content.splitOn newline, line.length < size - 1) :
    fileLines size content = content.splitOn newline := by
  rw [fileLines, List.flatMap_congr fun line hline => chunks_of_lt (h line hline)]
  exact List.flatMap_singleton' _

/-- The scan for a newline passes over elements without one. -/
theorem passed_of_not_mem {xs : List UInt8} (h : newline ∉ xs) :
    ∀ x ∈ xs, decide (x ≠ newline) = true := by
  intro x hx
  simpa using ne_of_mem_of_not_mem hx h

/-- Elements without a newline are all passed over by the scan. -/
theorem takeWhile_newline {xs : List UInt8} (h : newline ∉ xs) : xs.takeWhile (· ≠ newline) = xs :=
  List.takeWhile_eq_self_iff.mpr (passed_of_not_mem h)

/-- Nothing is left of them. -/
theorem dropWhile_newline {xs : List UInt8} (h : newline ∉ xs) : xs.dropWhile (· ≠ newline) = [] :=
  List.dropWhile_eq_nil_iff.mpr (passed_of_not_mem h)

/-- What `fgets` stores of the first line of a stream: the line up to the size of the buffer, and at most
a newline. -/
theorem fgetsLine_eq_take (size : ℕ) (stream : List UInt8) :
    fgetsLine size stream = (stream.takeWhile (· ≠ newline)).take (size - 1) ∨
      fgetsLine size stream = (stream.takeWhile (· ≠ newline)).take (size - 1) ++ [newline] := by
  rw [fgetsLine, List.take_takeWhile]
  cases hrest : (stream.take (size - 1)).dropWhile (· ≠ newline) with
  | nil =>
    left
    simp
  | cons x rest =>
    have hhead := List.head?_dropWhile_not (· ≠ newline) (stream.take (size - 1))
    rw [hrest] at hhead
    have hx : x = newline := by simpa using hhead
    simp [hx]

/-- `fgets` fills its buffer when no newline comes before. -/
theorem fgetsLine_long {size : ℕ} {xs rest : List UInt8} (h : newline ∉ xs)
    (hlength : size - 1 ≤ xs.length) :
    fgetsLine size (xs ++ rest) = xs.take (size - 1) := by
  have hwindow : newline ∉ xs.take (size - 1) := fun hmem => h (List.mem_of_mem_take hmem)
  rw [fgetsLine, List.take_append_of_le_length hlength]
  simp only [takeWhile_newline hwindow, dropWhile_newline hwindow, List.take_nil, List.append_nil]

/-- `fgets` stops after a newline which fits the buffer. -/
theorem fgetsLine_newline {size : ℕ} {xs : List UInt8} (h : newline ∉ xs)
    (hlength : xs.length < size - 1) (rest : List UInt8) :
    fgetsLine size (xs ++ newline :: rest) = xs ++ [newline] := by
  obtain ⟨m, hm⟩ : ∃ m, size - 1 - xs.length = m + 1 := ⟨size - 1 - xs.length - 1, by omega⟩
  have hwindow : (xs ++ newline :: rest).take (size - 1) = xs ++ newline :: rest.take m := by
    rw [List.take_append, List.take_of_length_le (by omega), hm, List.take_succ_cons]
  rw [fgetsLine, hwindow]
  simp only [List.takeWhile_append_of_pos (passed_of_not_mem h), List.dropWhile_append_of_pos
    (passed_of_not_mem h)]
  simp

/-- `fgets` reads the rest of the file when it has no newline and fits the buffer. -/
theorem fgetsLine_last {size : ℕ} {xs : List UInt8} (h : newline ∉ xs) (hlength : xs.length ≤ size - 1) :
    fgetsLine size xs = xs := by
  rw [fgetsLine, List.take_of_length_le hlength]
  simp only [takeWhile_newline h, dropWhile_newline h, List.take_nil, List.append_nil]

/-- A call takes at least one byte. -/
theorem fgetsLine_ne_nil {size : ℕ} (hsize : 1 < size) {stream : List UInt8} (h : stream ≠ []) :
    fgetsLine size stream ≠ [] := by
  obtain ⟨x, xs, rfl⟩ := List.exists_cons_of_ne_nil h
  obtain ⟨k, hk⟩ : ∃ k, size - 1 = k + 1 := ⟨size - 2, by omega⟩
  rw [fgetsLine, hk, List.take_succ_cons]
  by_cases hx : x = newline
  · simp [hx]
  · simp [hx]

/-- As many calls as there are bytes are enough. -/
theorem fgetsCalls_of_le {size fuel : ℕ} (hsize : 1 < size) {stream : List UInt8}
    (h : stream.length ≤ fuel) :
    fgetsCalls size fuel stream = fgetsAll size stream := by
  rw [fgetsAll]
  induction hn : stream.length using Nat.strong_induction_on generalizing stream fuel with
  | _ n ih =>
    cases stream with
    | nil =>
      subst hn
      cases fuel <;> rfl
    | cons x xs =>
      obtain ⟨fuel, rfl⟩ : ∃ f, fuel = f + 1 := ⟨fuel - 1, by rw [List.length_cons] at h; omega⟩
      have hpos : 0 < (fgetsLine size (x :: xs)).length :=
        List.length_pos_of_ne_nil (fgetsLine_ne_nil hsize (List.cons_ne_nil x xs))
      rw [List.length_cons] at hn h
      subst hn
      rw [fgetsCalls, fgetsCalls, if_neg (List.cons_ne_nil x xs), if_neg (List.cons_ne_nil x xs)]
      congr 1
      have hlength : ((x :: xs).drop (fgetsLine size (x :: xs)).length).length ≤ xs.length := by
        rw [List.length_drop, List.length_cons]
        omega
      rw [@ih _ (by omega) fuel _ (by omega) rfl, @ih _ (by omega) xs.length _ hlength rfl]

/-- The first call, and the others on what it left. -/
theorem fgetsAll_append {size : ℕ} (hsize : 1 < size) {line rest : List UInt8} (hne : line ≠ [])
    (h : fgetsLine size (line ++ rest) = line) :
    fgetsAll size (line ++ rest) = line :: fgetsAll size rest := by
  obtain ⟨x, xs, rfl⟩ := List.exists_cons_of_ne_nil hne
  have hrest : rest.length ≤ (xs ++ rest).length := by
    rw [List.length_append]
    omega
  rw [fgetsAll, List.cons_append, List.length_cons, fgetsCalls, if_neg (List.cons_ne_nil _ _),
    ← List.cons_append, h, List.drop_left, fgetsCalls_of_le hsize hrest]

/-- Without its newline a result of `fgets` is a piece of a line. -/
def stripNewline (line : List UInt8) : List UInt8 := line.takeWhile (· ≠ newline)

/-- A piece of a line has no newline to strip. -/
theorem stripNewline_of_not_mem {xs : List UInt8} (h : newline ∉ xs) : stripNewline xs = xs :=
  takeWhile_newline h

/-- The newline behind a piece of a line is stripped. -/
theorem stripNewline_append_newline {xs : List UInt8} (h : newline ∉ xs) :
    stripNewline (xs ++ [newline]) = xs := by
  rw [stripNewline, List.takeWhile_append_of_pos (passed_of_not_mem h)]
  simp

/-- A result of `fgets` is a piece of a line, possibly with its newline. -/
theorem fgetsLine_shape (size : ℕ) (stream : List UInt8) :
    fgetsLine size stream = stripNewline (fgetsLine size stream) ∨
      fgetsLine size stream = stripNewline (fgetsLine size stream) ++ [newline] := by
  have hpiece : newline ∉ (stream.takeWhile (· ≠ newline)).take (size - 1) := by
    intro hmem
    simpa using List.mem_takeWhile_imp (List.mem_of_mem_take hmem)
  rcases fgetsLine_eq_take size stream with heq | heq
  · left
    rw [heq, stripNewline_of_not_mem hpiece]
  · right
    rw [heq, stripNewline_append_newline hpiece]

/-- All results of `fgets` are such pieces. -/
theorem fgetsCalls_shape {size fuel : ℕ} {stream line : List UInt8}
    (h : line ∈ fgetsCalls size fuel stream) :
    line = stripNewline line ∨ line = stripNewline line ++ [newline] := by
  induction fuel generalizing stream with
  | zero => exact absurd h List.not_mem_nil
  | succ fuel ih =>
    rw [fgetsCalls] at h
    split at h
    · exact absurd h List.not_mem_nil
    · rcases List.mem_cons.mp h with rfl | hmem
      · exact fgetsLine_shape size stream
      · exact ih hmem

/-- A line with its newline arrives as its pieces. -/
theorem fgetsAll_newline {size : ℕ} (hsize : 1 < size) {xs : List UInt8} (h : newline ∉ xs)
    (rest : List UInt8) :
    (fgetsAll size (xs ++ newline :: rest)).map stripNewline =
      chunks (size - 1) xs ++ (fgetsAll size rest).map stripNewline := by
  have hk : 0 < size - 1 := by omega
  induction xs using chunkInduction hk with
  | short xs hlength =>
    have hcall := fgetsLine_newline h hlength rest
    rw [List.append_cons] at hcall ⊢
    rw [fgetsAll_append hsize (by simp) hcall, chunks_of_lt hlength, List.map_cons,
      stripNewline_append_newline h, List.singleton_append]
  | long xs hle ih =>
    have hcall := @fgetsLine_long size xs (newline :: rest) h hle
    have hfirst : newline ∉ xs.take (size - 1) := fun hmem => h (List.mem_of_mem_take hmem)
    have hne : xs.take (size - 1) ≠ [] := by
      rw [← List.length_pos_iff, List.length_take]
      omega
    have hsplit : xs ++ newline :: rest = xs.take (size - 1) ++
        (xs.drop (size - 1) ++ newline :: rest) := by
      rw [← List.append_assoc, List.take_append_drop]
    rw [chunks_of_le hk hle, hsplit, fgetsAll_append hsize hne (by rw [← hsplit, hcall]), List.map_cons,
      ih fun hmem => h (List.mem_of_mem_drop hmem), stripNewline_of_not_mem hfirst, List.cons_append]

/-- A last line without newline arrives as its pieces, apart from an empty one at the end. -/
theorem fgetsAll_last {size : ℕ} (hsize : 1 < size) {xs : List UInt8} (h : newline ∉ xs) :
    chunks (size - 1) xs = (fgetsAll size xs).map stripNewline ∨
      chunks (size - 1) xs = (fgetsAll size xs).map stripNewline ++ [[]] := by
  have hk : 0 < size - 1 := by omega
  induction xs using chunkInduction hk with
  | short xs hlength =>
    rw [chunks_of_lt hlength]
    by_cases hempty : xs = []
    · subst hempty
      exact Or.inr rfl
    · left
      have hcall := fgetsAll_append hsize hempty
        (by rw [List.append_nil]; exact fgetsLine_last h (Nat.le_of_lt hlength) :
          fgetsLine size (xs ++ []) = xs)
      rw [List.append_nil] at hcall
      rw [hcall, List.map_cons, stripNewline_of_not_mem h]
      rfl
  | long xs hle ih =>
    have hcall := @fgetsLine_long size xs [] h hle
    have hfirst : newline ∉ xs.take (size - 1) := fun hmem => h (List.mem_of_mem_take hmem)
    have hne : xs.take (size - 1) ≠ [] := by
      rw [← List.length_pos_iff, List.length_take]
      omega
    have hall : fgetsAll size xs = xs.take (size - 1) :: fgetsAll size (xs.drop (size - 1)) := by
      have hsplit : xs = xs.take (size - 1) ++ xs.drop (size - 1) := (List.take_append_drop _ xs).symm
      rw [List.append_nil] at hcall
      conv_lhs => rw [hsplit]
      exact fgetsAll_append hsize hne (by rw [← hsplit, hcall])
    rw [chunks_of_le hk hle, hall, List.map_cons, stripNewline_of_not_mem hfirst, List.cons_append,
      List.cons_inj_right, List.cons_inj_right]
    exact ih fun hmem => h (List.mem_of_mem_drop hmem)

/-- All the calls deliver the lines of the file; an empty line may be missing at its end. -/
theorem fileLines_eq {size : ℕ} (hsize : 1 < size) (content : List UInt8) :
    fileLines size content = (fgetsAll size content).map stripNewline ∨
      fileLines size content = (fgetsAll size content).map stripNewline ++ [[]] := by
  have hword : ∀ xs : List UInt8, (∀ x ∈ xs, (x == newline) = false) → newline ∉ xs := by
    intro xs hxs hmem
    simpa using hxs newline hmem
  induction content using wordInduction (p := (· == newline)) with
  | word xs hxs =>
    rw [fileLines, List.splitOn_eq_singleton (hword xs hxs), List.flatMap_singleton]
    exact fgetsAll_last hsize (hword xs hxs)
  | separator xs d rest hxs hd ih =>
    obtain rfl : d = newline := by simpa using hd
    have hlines : fileLines size (xs ++ newline :: rest) = chunks (size - 1) xs ++
        fileLines size rest := by
      rw [fileLines, List.splitOn_append_cons_self_of_not_mem (hword xs hxs), List.flatMap_cons,
        ← fileLines]
    rw [hlines, fgetsAll_newline hsize (hword xs hxs) rest, List.append_assoc, List.append_right_inj,
      List.append_right_inj]
    exact ih

/-- A line has no character which the file does not have. -/
theorem subset_of_mem_splitOn {content line : List UInt8} (h : line ∈ content.splitOn newline) :
    line ⊆ content := by
  have hjoin : [newline].intercalate (content.splitOn newline) = content :=
    List.intercalate_splitOn newline
  rw [← hjoin]
  generalize content.splitOn newline = lines at h ⊢
  induction lines with
  | nil => exact absurd h List.not_mem_nil
  | cons first lines ih =>
    cases lines with
    | nil =>
      obtain rfl := List.mem_singleton.mp h
      simp
    | cons second lines =>
      rw [List.intercalate_cons_cons]
      rcases List.mem_cons.mp h with rfl | hmem
      · intro c hc
        simp [hc]
      · intro c hc
        have htail := ih hmem hc
        simp [htail]

/-- A line has no newline. -/
theorem newline_not_mem_of_mem_splitOn {content line : List UInt8} (h : line ∈ content.splitOn newline) :
    newline ∉ line := by
  have hpieces : ∀ xs : List UInt8, (∀ x ∈ xs, (x == newline) = false) → newline ∉ xs := by
    intro xs hxs hmem
    simpa using hxs newline hmem
  induction content using wordInduction (p := (· == newline)) with
  | word xs hxs =>
    rw [List.splitOn_eq_singleton (hpieces xs hxs), List.mem_singleton] at h
    exact h ▸ hpieces xs hxs
  | separator xs d rest hxs hd ih =>
    obtain rfl : d = newline := by simpa using hd
    rw [List.splitOn_append_cons_self_of_not_mem (hpieces xs hxs)] at h
    rcases List.mem_cons.mp h with rfl | hrest
    · exact hpieces _ hxs
    · exact ih hrest

end Csci4061.Lib
