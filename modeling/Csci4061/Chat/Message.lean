import Csci4061.Lib.Strtok

/-!
# Commands and their parts

A message is split on spaces, and its first word says which command it is. The later parts of a
private message are its second word and what follows the second space.

The arrays for the words and the copies of the message have fixed sizes. Where a function would
write outside of one, or compare with a null pointer, it is undefined here.
-/

namespace Csci4061.Chat

open Csci4061.Lib

/-- `MAX_MSG`. -/
def maxMsg : ℕ := 256

/-- `MAX_USER_ID`. -/
def maxUserId : ℕ := 32

/-- The values of `command_type`. -/
inductive CommandType
  | list
  | kick
  | p2p
  | seg
  | exit
  | broadcast
  deriving DecidableEq

/-- `commands`, each with the value which is its index. -/
def commands : List (CString × CommandType) :=
  [(bytes "\\list", .list), (bytes "\\kick", .kick), (bytes "\\p2p", .p2p), (bytes "\\seg", .seg),
    (bytes "\\exit", .exit)]

/-- `find_command_type`. -/
def findCommandType (command : CString) : CommandType :=
  match commands.find? fun known => known.1 = command with
  | some known => known.2
  | none => .broadcast

/-- The loop of `parse_line`, which the number of remaining bytes bounds: the positions of the
tokens, and the buffer they point into. -/
def parseLoop (delim : CString) : ℕ → List UInt8 → ℕ → List ℕ × List UInt8
  | 0, input, _ => ([], input)
  | fuel + 1, input, pos =>
    match strtok delim input pos with
    | (some start, input', pos') =>
      let (starts, buf) := parseLoop delim fuel input' pos'
      (start :: starts, buf)
    | (none, _, _) => ([], input)

/-- `parse_line`, for an array of `size` pointers: the strings which its elements point to, if there
is room for them and for the last `NULL`. -/
def parseLine (size : ℕ) (input delim : CString) : Option (List CString) :=
  let (starts, buf) := parseLoop delim input.length input 0
  if starts.length < size then some (starts.map fun start => cString (buf.drop start)) else none

/-- The copy of a message into a buffer of `MAX_MSG` bytes, split on spaces. -/
def messageTokens (size : ℕ) (message : CString) : Option (List CString) :=
  if message.length < maxMsg then parseLine size message (bytes " ") else none

/-- `get_command_type`. -/
def getCommandType (fullCommand : CString) : Option CommandType :=
  (messageTokens 128 fullCommand).bind fun tokens => tokens.head?.map findCommandType

/-- `extract_name`: `some none` stands for `-1`, and otherwise the name is copied to `userName`. -/
def extractName (buf : CString) (userName : List UInt8) : Option (Option (List UInt8)) :=
  (messageTokens 16 buf).bind fun tokens =>
    match tokens with
    | _ :: name :: _ => (strcpy userName name).map some
    | _ => some none

/-- `extract_text`: `some none` stands for `-1`, and otherwise the text is copied to `text`. -/
def extractText (buf : CString) (text : List UInt8) : Option (Option (List UInt8)) :=
  (messageTokens 16 buf).bind fun tokens =>
    if tokens.length ≥ 3 then
      (strchr buf 0x20).bind fun s => (strchr s.tail 0x20).bind fun s => (strcpy text s.tail).map some
    else some none

/-- The words of a message. -/
def words (message : CString) : List CString := tokens (separates (bytes " ")) message

/-- The loop stores the tokens which the calls find. -/
theorem parseLoop_of_findsTokens {delim : CString} {fuel : ℕ} {pre rest pre' rest' : List UInt8}
    {starts : List ℕ} (hfinds : FindsTokens delim pre rest starts pre' rest') (hzero : 0 ∉ rest')
    (hnone : tokens (separates delim) rest' = []) (hfuel : starts.length ≤ fuel) :
    parseLoop delim fuel (pre ++ rest) pre.length = (starts, pre' ++ rest') := by
  induction hfinds generalizing fuel with
  | none =>
    cases fuel with
    | zero => rfl
    | succ fuel => rw [parseLoop, strtok_none hzero hnone]
  | token _ hcall _ ih =>
    cases fuel with
    | zero => exact absurd hfuel (by simp)
    | succ fuel =>
      rw [parseLoop, hcall]
      simp only [ih hzero hnone (Nat.le_of_succ_le_succ hfuel)]

/-- The loop stores the positions of the words, and the words stay readable there. -/
theorem parseLoop_eq {delim : CString} {fuel : ℕ} {pre rest : List UInt8} (hzero : 0 ∉ rest)
    (hfuel : (tokens (separates delim) rest).length ≤ fuel) :
    ∃ starts pre' rest', parseLoop delim fuel (pre ++ rest) pre.length = (starts, pre' ++ rest') ∧
      TokensFound delim pre rest starts (tokens (separates delim) rest) pre' rest' := by
  obtain ⟨starts, pre', rest', hfound, hnone⟩ := @exists_allTokensFound delim rest pre hzero
  have hlength := hfound.holds.length_eq
  exact ⟨starts, pre', rest', parseLoop_of_findsTokens hfound.calls hfound.no_zero hnone (by omega),
    hfound⟩

/-- The array holds the words of the string, if they fit. -/
theorem parseLine_eq {input : CString} (hzero : 0 ∉ input) (size : ℕ) (delim : CString) :
    parseLine size input delim = if (tokens (separates delim) input).length < size
      then some (tokens (separates delim) input) else none := by
  obtain ⟨starts, pre, rest, hloop, hfound⟩ :=
    @parseLoop_eq delim input.length [] input hzero (length_tokens_le input)
  simp only [List.nil_append, List.length_nil] at hloop
  simp only [parseLine, hloop, hfound.holds.length_eq, hfound.map_eq]

/-- Splitting a message gives its words, if the message and the words fit. -/
theorem messageTokens_eq {message : CString} (hzero : 0 ∉ message) (size : ℕ) :
    messageTokens size message =
      if message.length < maxMsg ∧ (words message).length < size then some (words message)
        else none := by
  rw [messageTokens, parseLine_eq hzero]
  split
  · rename_i hlength
    simp only [hlength, true_and]
    rfl
  · rename_i hlength
    rw [if_neg fun h => hlength h.1]

/-- A message of which the words were found has them as its tokens. -/
theorem messageTokens_eq_some {message : CString} (hzero : 0 ∉ message) {size : ℕ}
    {tokens : List CString} (h : messageTokens size message = some tokens) :
    tokens = words message ∧ message.length < maxMsg ∧ (words message).length < size := by
  rw [messageTokens_eq hzero] at h
  split at h
  · rename_i hfits
    exact ⟨(Option.some.inj h).symm, hfits⟩
  · exact absurd h (by simp)

/-- With fewer than 16 words, the second word is extracted exactly if it fits. -/
theorem extractName_of_lt {buf : CString} (hzero : 0 ∉ buf) (hlength : buf.length < maxMsg)
    (hlt : (words buf).length < 16) (userName : List UInt8) :
    extractName buf userName =
      ((words buf)[1]?.elim (some none) fun name => (strcpy userName name).map some) := by
  rw [extractName, messageTokens_eq hzero, if_pos ⟨hlength, hlt⟩, Option.bind_some]
  cases words buf with
  | nil => rfl
  | cons command rest =>
    cases rest with
    | nil | cons => rfl

/-- With 16 words or more no name is extracted. -/
theorem extractName_of_le {buf : CString} (hzero : 0 ∉ buf) (hle : 16 ≤ (words buf).length)
    (userName : List UInt8) : extractName buf userName = none := by
  rw [extractName, messageTokens_eq hzero, if_neg fun h => Nat.not_lt.mpr hle h.2, Option.bind_none]

/-- The name which is extracted is the second word. -/
theorem extractName_cases {buf : CString} (hzero : 0 ∉ buf) {userName : List UInt8}
    {result : Option (List UInt8)} (h : extractName buf userName = some result) :
    (words buf).length < 2 ∧ result = none ∨
      ∃ command name rest copied, words buf = command :: name :: rest ∧ result = some copied ∧
        cString copied = name := by
  obtain ⟨tokens, htokens, h⟩ := Option.bind_eq_some_iff.mp h
  obtain ⟨rfl, -, -⟩ := messageTokens_eq_some hzero htokens
  split at h
  · rename_i command name rest hwords
    obtain ⟨copied, hcopied, rfl⟩ := Option.map_eq_some_iff.mp h
    have hmem : name ∈ words buf := by simp [hwords]
    have hname : 0 ∉ name := fun hmem' => hzero ((mem_tokens hmem).2.2.subset hmem')
    exact Or.inr ⟨command, name, rest, copied, hwords, rfl, (strcpy_eq_some hname hcopied).1⟩
  · rename_i hshort
    obtain rfl := Option.some.inj h
    refine Or.inl ⟨?_, rfl⟩
    cases hwords : words buf with
    | nil => simp
    | cons command rest =>
      cases rest with
      | nil => simp
      | cons name rest => exact absurd hwords (hshort command name rest)

/-- A text is extracted if there is a third word. -/
theorem extractText_cases {buf : CString} (hzero : 0 ∉ buf) {text : List UInt8}
    {result : Option (List UInt8)} (h : extractText buf text = some result) :
    (words buf).length < 3 ∧ result = none ∨ 3 ≤ (words buf).length ∧ ∃ copied,
    result = some copied := by
  obtain ⟨tokens, htokens, h⟩ := Option.bind_eq_some_iff.mp h
  obtain ⟨rfl, -, -⟩ := messageTokens_eq_some hzero htokens
  split at h
  · rename_i hthree
    obtain ⟨s, -, h⟩ := Option.bind_eq_some_iff.mp h
    obtain ⟨s', -, h⟩ := Option.bind_eq_some_iff.mp h
    obtain ⟨copied, -, rfl⟩ := Option.map_eq_some_iff.mp h
    exact Or.inr ⟨hthree, copied, rfl⟩
  · rename_i hthree
    exact Or.inl ⟨by omega, (Option.some.inj h).symm⟩

/-- The separator of the words of a message. -/
theorem separates_space (c : UInt8) : separates (bytes " ") c = true ↔ c = 0x20 := by
  rw [separates, List.contains_iff_mem]
  exact List.mem_singleton

/-- Up to its first space a message has one word at most. -/
theorem exists_space {buf : CString} (h : 2 ≤ (words buf).length) :
    ∃ rest, strchr buf 0x20 = some (0x20 :: rest) ∧ rest.length < buf.length ∧
      (words buf).length ≤ (words rest).length + 1 := by
  have hfirst : ∀ x ∈ buf.takeWhile (· ≠ 0x20), separates (bytes " ") x = false := by
    intro x hx
    have hne : x ≠ 0x20 := by simpa using List.mem_takeWhile_imp hx
    rw [← Bool.not_eq_true, separates_space]
    exact hne
  have hone : (tokens (separates (bytes " ")) (buf.takeWhile (· ≠ 0x20))).length ≤ 1 := by
    rw [tokens_word_eq hfirst]
    split <;> simp
  have hsplit : buf.takeWhile (· ≠ 0x20) ++ buf.dropWhile (· ≠ 0x20) = buf :=
    List.takeWhile_append_dropWhile
  cases hdrop : buf.dropWhile (· ≠ 0x20) with
  | nil =>
    rw [hdrop, List.append_nil] at hsplit
    rw [hsplit] at hone
    exact absurd h (by rw [words]; omega)
  | cons c rest =>
    have hc := List.head?_dropWhile_not (fun x : UInt8 => decide (x ≠ 0x20)) buf
    rw [hdrop] at hc
    obtain rfl : c = 0x20 := by simpa using hc
    rw [hdrop] at hsplit
    refine ⟨rest, ?_, ?_, ?_⟩
    · rw [strchr, hdrop, if_pos (by rw [← hsplit]; simp)]
    · rw [← hsplit, List.length_append, List.length_cons]
      omega
    · have hwords := tokens_append_cons (buf.takeWhile (· ≠ 0x20)) ((separates_space 0x20).mpr rfl) rest
      rw [hsplit] at hwords
      rw [words, hwords, List.length_append, words]
      omega

/-- The name fits, so it is extracted or missing. -/
theorem extractName_isSome {buf : CString} (hzero : 0 ∉ buf) {userName : List UInt8}
    (hlength : buf.length < maxMsg) (hwords : (words buf).length < 16)
    (hfits : ∀ name, (words buf)[1]? = some name → name.length < userName.length) :
    (extractName buf userName).isSome := by
  rw [extractName_of_lt hzero hlength hwords]
  cases hname : (words buf)[1]? with
  | none => rfl
  | some name => simp [strcpy, hfits name hname]

/-- The text fits, so it is extracted or missing. -/
theorem extractText_isSome {buf : CString} (hzero : 0 ∉ buf) {text : List UInt8}
    (hlength : buf.length < maxMsg) (hwords : (words buf).length < 16)
    (hfits : buf.length ≤ text.length) : (extractText buf text).isSome := by
  rw [extractText, messageTokens_eq hzero, if_pos ⟨hlength, hwords⟩, Option.bind_some]
  split
  · rename_i hthree
    obtain ⟨rest, hfirst, hshorter, hleft⟩ := exists_space (by omega : 2 ≤ (words buf).length)
    obtain ⟨rest', hsecond, hshorter', -⟩ := exists_space (by omega : 2 ≤ (words rest).length)
    have hroom : rest'.length < text.length := by omega
    simp [hfirst, hsecond, strcpy, hroom]
  · rfl

/-- The command of a message is decided by its first word. -/
theorem getCommandType_eq_some {message : CString} (hzero : 0 ∉ message) {type : CommandType} :
    getCommandType message = some type ↔ message.length < maxMsg ∧ (words message).length < 128 ∧
      ∃ command, (words message).head? = some command ∧ findCommandType command = type := by
  rw [getCommandType, messageTokens_eq hzero]
  split
  · rename_i hfits
    rw [Option.bind_some, Option.map_eq_some_iff]
    exact ⟨fun h => ⟨hfits.1, hfits.2, h⟩, fun h => h.2.2⟩
  · rename_i hfits
    simp only [Option.bind_none, reduceCtorEq, false_iff]
    exact fun h => hfits ⟨h.1, h.2.1⟩

/-- A command is found exactly under its name. -/
theorem findCommandType_eq {command : CString} {type : CommandType} (htype : type ≠ .broadcast) :
    findCommandType command = type ↔ (command, type) ∈ commands := by
  have hcommands : ∀ known ∈ commands, findCommandType known.1 = known.2 := by decide
  constructor
  · intro h
    rw [findCommandType] at h
    split at h
    · rename_i known hknown
      have hname : known.1 = command := by simpa using List.find?_some hknown
      rw [← h, ← hname]
      exact List.mem_of_find?_eq_some hknown
    · exact absurd h.symm htype
  · intro h
    exact hcommands (command, type) h

/-- The name of the command `LIST`. -/
theorem findCommandType_list {command : CString} :
    findCommandType command = .list ↔ command = bytes "\\list" := by
  simp [findCommandType_eq, commands]

/-- The name of the command `P2P`. -/
theorem findCommandType_p2p {command : CString} :
    findCommandType command = .p2p ↔ command = bytes "\\p2p" := by
  simp [findCommandType_eq, commands]

/-- The name of the command `EXIT`. -/
theorem findCommandType_exit {command : CString} :
    findCommandType command = .exit ↔ command = bytes "\\exit" := by
  simp [findCommandType_eq, commands]

/-- A message of a first word is classified, if it fits and has not too many words. -/
theorem getCommandType_isSome {message : CString} (hzero : 0 ∉ message)
    (hlength : message.length < maxMsg) (hwords : (words message).length < 128) {command : CString}
    (hhead : (words message).head? = some command) :
    getCommandType message = some (findCommandType command) :=
  (getCommandType_eq_some hzero).mpr ⟨hlength, hwords, command, hhead, rfl⟩

end Csci4061.Chat
