import Csci4061.Chat.ReadBytes

/-!
# Which reads can be classified

A line or message is classified by its first word. The end of a file is a `read` of no bytes, which is
not told apart from a line, and a line may have no word. Then the byte before the first one is looked
at, or a null pointer is compared with the names of the commands.

Apart from this, the classification copies the string into an array of its own and stores the positions
of all words, so it also needs a terminator and room for the words.
-/

namespace Csci4061.Chat

open Csci4061.Lib Csci4061.Lib.TransitionSystem

/-- The first pointer which `parse_line` stores for a message, `none` for `NULL`. -/
def firstToken (message : CString) : Option ℕ := (parseLoop (bytes " ") message.length message 0).1.head?

/-- A line without its newline. -/
def chomp (message : CString) : CString :=
  if message.getLast? = some 0x0A then message.dropLast else message

/-- The string has no byte other than spaces. -/
def Blank (message : CString) : Prop := ∀ c ∈ message, c = 0x20

/-- There is a last byte of the string to look at, and the line has a first word, if it is classified. -/
def AvoidsNullAdmin (message : CString) : Prop :=
  message ≠ [] ∧ (message ≠ [0x0A] → firstToken (chomp message) ≠ none)

/-- The string which is classified, when these bytes are read. -/
def stringRead (s : Server) (data : List UInt8) : CString := cString (storeBytes s.buf data)

/-- What is read is classified without a look at the byte before the buffer and without a null
pointer. -/
def AvoidsNull (s : Server) (label : ServerLabel) : Prop :=
  ∀ data ∈ readInto s label,
    match label with
    | .admin _ _ => AvoidsNullAdmin (stringRead s data)
    | _ => firstToken (stringRead s data) ≠ none

/-- The string has a byte which is no space. The newline of a line does not count, unless the line is
empty. -/
def ReadsWord (s : Server) (label : ServerLabel) : Prop :=
  ∀ data ∈ readInto s label,
    match label with
    | .admin _ _ => stringRead s data = [0x0A] ∨ ¬ Blank (chomp (stringRead s data))
    | _ => ¬ Blank (stringRead s data)

/-- What is read is classified. -/
def Classifies (s : Server) (label : ServerLabel) : Prop :=
  ∀ data ∈ readInto s label,
    match label with
    | .admin _ _ =>
      ∃ line, enteredLine (storeBytes s.buf data) = some line ∧ ∀ l ∈ line, getCommandType l ≠ none
    | _ => getCommandType (stringRead s data) ≠ none

/-- The string is terminated, has a first word, and there is room for the positions of its words. -/
def ReadsCommand (s : Server) (label : ServerLabel) : Prop :=
  ReadsWord s label ∧ ∀ data ∈ readInto s label, (stringRead s data).length < maxMsg ∧
    match label with
    | .admin _ _ => (words (chomp (stringRead s data))).length < 128
    | _ => (words (stringRead s data)).length < 128

/-- A message has a word if it has a byte which is no space. -/
theorem words_eq_nil_iff {message : CString} : words message = [] ↔ Blank message := by
  constructor
  · intro h c hc
    exact (separates_space c).mp (forall_of_tokens_eq_nil h c hc)
  · intro h
    by_contra hne
    obtain ⟨word, hword⟩ := List.exists_mem_of_ne_nil _ hne
    obtain ⟨hnonempty, hno, hwithin⟩ := mem_tokens hword
    obtain ⟨c, hc⟩ := List.exists_mem_of_ne_nil _ hnonempty
    have hspace := (separates_space c).mpr (h c (hwithin.subset hc))
    exact absurd ((hno c hc).symm.trans hspace) Bool.false_ne_true

/-- The first pointer is `NULL` exactly if there is no word. -/
theorem firstToken_ne_none_iff {message : CString} (hzero : 0 ∉ message) :
    firstToken message ≠ none ↔ ¬ Blank message := by
  obtain ⟨starts, pre, rest, hloop, hfound⟩ :=
    @parseLoop_eq (bytes " ") message.length [] message hzero (length_tokens_le message)
  simp only [List.nil_append, List.length_nil] at hloop
  have hlength : starts.length = (words message).length := hfound.holds.length_eq
  rw [firstToken, hloop, ne_eq, List.head?_eq_none_iff, ← words_eq_nil_iff, ← List.length_eq_zero_iff,
    ← List.length_eq_zero_iff, hlength]

/-- A part of a string has no NUL either. -/
theorem zero_not_mem_chomp {message : CString} (hzero : 0 ∉ message) : 0 ∉ chomp message := by
  rw [chomp]
  split
  · exact fun hmem => hzero (List.mem_of_mem_dropLast hmem)
  · exact hzero

/-- A line is classified without undefined steps exactly if it is empty or has a word before its
newline. -/
theorem avoidsNullAdmin_iff {message : CString} (hzero : 0 ∉ message) :
    AvoidsNullAdmin message ↔ message = [0x0A] ∨ ¬ Blank (chomp message) := by
  rw [AvoidsNullAdmin, firstToken_ne_none_iff (zero_not_mem_chomp hzero)]
  constructor
  · intro h
    exact or_iff_not_imp_left.mpr h.2
  · rintro (rfl | hword)
    · exact ⟨List.cons_ne_nil _ _, fun h => absurd rfl h⟩
    · refine ⟨?_, fun _ => hword⟩
      rintro rfl
      exact hword (by simp [Blank, chomp])

/-- A step avoids both undefined operations exactly if there is a word in what it reads. -/
theorem avoidsNull_iff (s : Server) (label : ServerLabel) : AvoidsNull s label ↔ ReadsWord s label := by
  refine forall₂_congr fun data _ => ?_
  have hzero : 0 ∉ stringRead s data := zero_not_mem_cString _
  cases label with
  | admin => exact avoidsNullAdmin_iff hzero
  | accept | poll | sleep => exact firstToken_ne_none_iff hzero

/-- A string is classified exactly if it is terminated, has a word and not too many. -/
theorem getCommandType_ne_none_iff {message : CString} (hzero : 0 ∉ message) :
    getCommandType message ≠ none ↔ ¬ Blank message ∧ message.length < maxMsg ∧
    (words message).length < 128 := by
  rw [← words_eq_nil_iff, Option.ne_none_iff_exists']
  constructor
  · rintro ⟨type, htype⟩
    obtain ⟨hlength, hroom, command, hhead, -⟩ := (getCommandType_eq_some hzero).mp htype
    refine ⟨fun hnil => ?_, hlength, hroom⟩
    rw [hnil] at hhead
    exact absurd hhead (by simp)
  · rintro ⟨hne, hlength, hroom⟩
    obtain ⟨command, rest, hwords⟩ := List.exists_cons_of_ne_nil hne
    exact ⟨_, getCommandType_isSome hzero hlength hroom (by rw [hwords]; rfl)⟩

/-- The newline is the last byte of the string, and nothing else is dropped. -/
theorem length_chomp_le (message : CString) : (chomp message).length ≤ message.length := by
  rw [chomp]
  split
  · rw [List.length_dropLast]
    exact Nat.sub_le _ _
  · exact le_rfl

/-- The line which is entered is the string without its newline, if it is terminated and not empty. -/
theorem enteredLine_eq_some {memory : List UInt8} {line : Option CString} :
    enteredLine memory = some line ↔ (cString memory).length < maxMsg ∧ cString memory ≠ [] ∧
      line = if cString memory = [0x0A] then none else some (chomp (cString memory)) := by
  rw [enteredLine]
  split
  · rename_i hlong
    simp [Nat.not_lt.mpr hlong]
  · rename_i hshort
    cases hlast : (cString memory).getLast? with
    | none => simp [List.getLast?_eq_none_iff.mp hlast]
    | some last =>
      have hne : cString memory ≠ [] := fun hnil => by simp [hnil] at hlast
      have hline : (if last = 0x0A then if (cString memory).length = 1 then none
          else some (cString memory).dropLast
          else some (cString memory)) = if cString memory = [0x0A] then none
          else some (chomp (cString memory)) := by
        by_cases hempty : cString memory = [0x0A]
        · rw [hempty] at hlast ⊢
          rw [← Option.some.inj hlast]
          rfl
        · by_cases hnewline : last = 0x0A
          · have hlength : (cString memory).length ≠ 1 := by
              intro hone
              obtain ⟨c, hc⟩ := List.length_eq_one_iff.mp hone
              have hsame : c = last := by simpa [hc] using hlast
              exact hempty (by rw [hc, hsame, hnewline])
            rw [if_pos hnewline, if_neg hlength, if_neg hempty, chomp, hlast, if_pos (by rw [hnewline])]
          · rw [if_neg hnewline, if_neg hempty, chomp, hlast, if_neg fun h =>
              hnewline (Option.some.inj h)]
      rw [Option.map_some, Option.some_inj, hline]
      exact ⟨fun h => ⟨Nat.lt_of_not_le hshort, hne, h.symm⟩, fun h => h.2.2.symm⟩

/-- A line is classified, if it is terminated, and empty or a command. -/
theorem classifiesAdmin_iff {memory : List UInt8} :
    (∃ line, enteredLine memory = some line ∧ ∀ l ∈ line, getCommandType l ≠ none) ↔
      (cString memory = [0x0A] ∨ ¬ Blank (chomp (cString memory))) ∧ (cString memory).length < maxMsg ∧
        (words (chomp (cString memory))).length < 128 := by
  have hzero : 0 ∉ chomp (cString memory) := zero_not_mem_chomp (zero_not_mem_cString memory)
  simp only [enteredLine_eq_some]
  by_cases hempty : cString memory = [0x0A]
  · rw [hempty]
    refine iff_of_true ⟨none, ⟨by decide, List.cons_ne_nil _ _, rfl⟩, by simp⟩ ⟨Or.inl rfl, by
      decide, ?_⟩
    exact (by decide : 0 < 128)
  · rw [or_iff_right hempty, if_neg hempty]
    constructor
    · rintro ⟨line, ⟨hlength, -, rfl⟩, htype⟩
      obtain ⟨hword, -, hroom⟩ := (getCommandType_ne_none_iff hzero).mp (htype _ rfl)
      exact ⟨hword, hlength, hroom⟩
    · rintro ⟨hword, hlength, hroom⟩
      refine ⟨_, ⟨hlength, fun hnil => hword ?_, rfl⟩, fun l hl => ?_⟩
      · rw [hnil]
        simp [Blank, chomp]
      · obtain rfl := Option.some.inj hl
        exact (getCommandType_ne_none_iff hzero).mpr ⟨hword, (length_chomp_le _).trans_lt hlength, hroom⟩

/-- A step classifies what it reads exactly if it is a command. -/
theorem classifies_iff (s : Server) (label : ServerLabel) :
    Classifies s label ↔ ReadsCommand s label := by
  rw [ReadsCommand, ReadsWord, ← forall₂_and]
  refine forall₂_congr fun data _ => ?_
  have hzero : 0 ∉ stringRead s data := zero_not_mem_cString _
  cases label with
  | admin => exact classifiesAdmin_iff
  | accept | poll | sleep => exact getCommandType_ne_none_iff hzero

/-- In every run, neither is the byte before an empty buffer looked at nor a null pointer compared
exactly if every read leaves a word in the buffer; and every read is classified exactly if moreover the
string is terminated and there is room for its words. -/
theorem avoidsNull_iff_readsWord (s : Server) (labels : List ServerLabel) :
    (serverSystem.EachStep AvoidsNull s labels ↔ serverSystem.EachStep ReadsWord s labels) ∧
      (serverSystem.EachStep Classifies s labels ↔ serverSystem.EachStep ReadsCommand s labels) :=
  ⟨eachStep_congr (fun _ _ _ _ _ => trivial) (fun s label _ => avoidsNull_iff s label) trivial labels,
    eachStep_congr (fun _ _ _ _ _ => trivial) (fun s label _ => classifies_iff s label) trivial labels⟩

/-- A line of one space. -/
def spaceLine : Input := ⟨bytes " \n", by decide⟩

/-- The end of a file. -/
def endOfFile : Input := ⟨[], Nat.zero_le _⟩

/-- A user connects, and the terminal has no input. -/
def admitAnn : List ServerLabel :=
  [.accept (some (annConnection (some ⟨7, 9⟩) (some 100))), .admin none allSucceed]

/-- A line of one space has no word; at the end of the terminal's file there is no last byte; and the
end of the file of a child has no word. -/
theorem not_avoidsNull_blank : ServerInit freshServer ∧
    ¬ serverSystem.EachStep AvoidsNull freshServer (enterLine spaceLine) ∧
    ¬ serverSystem.EachStep AvoidsNull freshServer (enterLine endOfFile) ∧
    ¬ serverSystem.EachStep AvoidsNull freshServer
    (admitAnn ++ [.poll (some endOfFile) allSucceed]) := by
  refine ⟨freshServer_init, ?_, ?_, ?_⟩
  · refine not_eachStep_of_exec (exec_accept_none (s := freshServer) rfl (by decide)) fun havoids => ?_
    have hword := (havoids spaceLine.val rfl).2
    exact absurd hword (by decide +kernel)
  · refine not_eachStep_of_exec (exec_accept_none (s := freshServer) rfl (by decide)) fun havoids => ?_
    have hbyte := (havoids endOfFile.val rfl).1
    exact absurd hbyte (by decide +kernel)
  · have hread : (exec serverNext freshServer admitAnn).map (fun s =>
        (readInto s (.poll (some endOfFile) allSucceed), firstToken (stringRead s []))) = some
          (some [], none) := by
      decide +kernel
    obtain ⟨s, hexec, hread⟩ := Option.map_eq_some_iff.mp hread
    obtain ⟨hread, hnull⟩ := Prod.mk.inj hread
    exact not_eachStep_of_exec hexec fun havoids => havoids [] hread hnull

end Csci4061.Chat
