import Csci4061.Chat.Message
import Csci4061.Lib.TokenArray

/-!
# The arrays for the words of a message

`parse_line` stores the words of a message in the array of its caller, which has 128 elements in
`get_command_type` and 16 in `extract_name` and `extract_text`, and it is not told which. A message of
255 characters has 128 words at most, so with the `NULL` behind them the large array is too short by one
element for a single shape of messages. The small ones are too short from 16 words on.
-/

namespace Csci4061.Chat

open Csci4061.Lib

/-- `parse_line`, on the array of its caller: the number of tokens, the array and the string which it
points into; `none` is a write outside of the array. -/
def parseLineInto (input : CString) (tokens : List TokenCell) (delim : CString) :
    Option (ℕ × List TokenCell × List UInt8) := splitInto delim (fun _ => true) input tokens

/-- What the callers of `parse_line` do first: they copy the message to an array of their own and split
the copy. -/
def splitCopy (message : CString) (inbuf : List UInt8) (tokens : List TokenCell) :
    Option (ℕ × List TokenCell × List UInt8) :=
  (strcpy inbuf message).bind fun inbuf => parseLineInto (cString inbuf) tokens (bytes " ")

/-- Whatever is in the arrays of a caller before the call, the tokens of a message are stored inside its
array of `size` pointers. -/
def StoredInside (size : ℕ) (message : CString) : Prop :=
  ∀ (inbuf : List UInt8) (tokens : List TokenCell), inbuf.length = maxMsg → tokens.length = size →
    (splitCopy message inbuf tokens).isSome = true

/-- The three callers of `parse_line` have room for the tokens of a message. -/
structure TokensInside (message : CString) : Prop where
  getCommandType : StoredInside 128 message
  extractName : StoredInside 16 message
  extractText : StoredInside 16 message

/-- The calls which the server makes for one message have room for its tokens. `get_command_type` splits
every message. If it finds the command with arguments, which is `\kick` in a line of the admin and
`\p2p` in a message of a user, `extract_name` splits the message again, and for `\p2p` so does
`extract_text`. -/
structure CallsInside (command : CommandType) (message : CString) : Prop where
  commandType : StoredInside 128 message
  name : getCommandType message = some command → StoredInside 16 message
  text : command = .p2p → getCommandType message = some .p2p → StoredInside 16 message

/-- A copy which fits is split like the message. -/
theorem splitCopy_eq {message : CString} (hzero : 0 ∉ message) {inbuf : List UInt8}
    (hfits : message.length < inbuf.length) (tokens : List TokenCell) :
    splitCopy message inbuf tokens = parseLineInto message tokens (bytes " ") := by
  have hcopied : strcpy inbuf message = some (storeBytes inbuf (message ++ [0])) := if_pos hfits
  rw [splitCopy, hcopied, Option.bind_some, (strcpy_eq_some hzero hcopied).1]

/-- The strings which the arrays of a caller point to are the words which it finds. -/
theorem messageTokens_eq_splitCopy {message : CString} (hzero : 0 ∉ message) {inbuf : List UInt8}
    (hinbuf : inbuf.length = maxMsg) (tokens : List TokenCell) :
    messageTokens tokens.length message =
      (splitCopy message inbuf tokens).bind fun stored => pointedStrings stored.2.2 stored.2.1 := by
  rw [messageTokens_eq hzero]
  by_cases hlength : message.length < maxMsg
  · rw [splitCopy_eq hzero (hinbuf ▸ hlength), parseLineInto]
    by_cases hroom : (words message).length < tokens.length
    · obtain ⟨starts, buf, hsplit, hstrings⟩ := splitInto_of_lt hzero (fun _ _ => rfl) hroom
      rw [if_pos ⟨hlength, hroom⟩, hsplit, Option.bind_some, pointedStrings_stored, hstrings, words]
    · rw [if_neg fun h => hroom h.2, splitInto_of_le hzero (fun _ _ => rfl) (Nat.le_of_not_lt hroom)]
      rfl
  · have hcopied : strcpy inbuf message = none := if_neg (hinbuf ▸ hlength)
    rw [if_neg fun h => hlength h.1, splitCopy, hcopied]
    rfl

/-- The tokens are stored inside an array exactly if there are fewer words than elements. -/
theorem storedInside_iff {message : CString} (hzero : 0 ∉ message) (hlength : message.length ≤ 255)
    (size : ℕ) :
    StoredInside size message ↔ (words message).length < size := by
  have hsplit {inbuf : List UInt8} {tokens : List TokenCell} (hinbuf : inbuf.length = maxMsg) :
      (splitCopy message inbuf tokens).isSome = true ↔ (words message).length < tokens.length := by
    rw [splitCopy_eq hzero (by rw [hinbuf, maxMsg]; omega), parseLineInto]
    exact splitInto_isSome_iff tokens hzero fun _ _ => rfl
  constructor
  · intro h
    have hblank := h (List.replicate maxMsg 0)
        (List.replicate size .null) List.length_replicate List.length_replicate
    have hroom := (hsplit List.length_replicate).mp hblank
    rwa [List.length_replicate] at hroom
  · rintro hroom inbuf tokens hinbuf rfl
    exact (hsplit hinbuf).mpr hroom

/-- A message of 255 characters has 128 words exactly if words of one character and single spaces
alternate in it, and a shorter one has fewer. -/
theorem length_words_lt_iff {message : CString} (hlength : message.length ≤ 255) :
    (words message).length < 128 ↔
    ¬ (message.length = 255 ∧ Alternates (separates (bytes " ")) message) := by
  have hhalf := two_mul_length_tokens_le (p := separates (bytes " ")) message
  have hmost := two_mul_length_tokens_eq_iff (p := separates (bytes " ")) message
  rw [← hmost, words]
  omega

/-- All callers have room for the tokens of a message exactly if it has fewer than 16 words. The array
of `get_command_type` alone is too short for one shape of messages only, and the small arrays matter
only for the command which leads to these calls. -/
theorem tokensInside_iff_fewWords {message : CString} (hzero : 0 ∉ message)
    (hlength : message.length ≤ 255) :
    (TokensInside message ↔ (words message).length < 16) ∧
    (StoredInside 128 message ↔ ¬ (message.length = 255 ∧ Alternates (separates (bytes " ")) message)) ∧
    ∀ command, CallsInside command message ↔
      (words message).length < if getCommandType message = some command then 16 else 128 := by
  have hsize := storedInside_iff hzero hlength
  refine ⟨⟨fun h => (hsize 16).mp h.extractName, fun hfew => ?_⟩, ?_, fun command => ?_⟩
  · exact ⟨(hsize 128).mpr (by omega), (hsize 16).mpr hfew, (hsize 16).mpr hfew⟩
  · rw [hsize, length_words_lt_iff hlength]
  · by_cases hcommand : getCommandType message = some command
    · rw [if_pos hcommand]
      refine ⟨fun h => (hsize 16).mp (h.name hcommand), fun hfew => ?_⟩
      exact ⟨(hsize 128).mpr (by omega), fun _ => (hsize 16).mpr hfew, fun _ _ => (hsize 16).mpr hfew⟩
    · rw [if_neg hcommand, ← hsize]
      refine ⟨CallsInside.commandType, fun hlarge => ⟨hlarge, fun hfound => absurd hfound hcommand, ?_⟩⟩
      rintro rfl hfound
      exact absurd hfound hcommand

/-- A private message of one word. -/
theorem tokensInside_iff_fewWords_hi :
    TokensInside (bytes "\\p2p bob hi") ∧ CallsInside .p2p (bytes "\\p2p bob hi") := by
  have hfew : (words (bytes "\\p2p bob hi")).length < 16 := by decide +kernel
  obtain ⟨htokens, -, hcalls⟩ := @tokensInside_iff_fewWords (bytes "\\p2p bob hi") (by decide)
      (by decide)
  exact ⟨htokens.mpr hfew, (hcalls .p2p).mpr (hfew.trans_le (by split <;> decide))⟩

/-- A private message with a text of 14 words. -/
def sixteenWords : CString := bytes "\\p2p bob a b c d e f g h i j k l m n"

/-- The message of 255 characters with the most words. -/
def crowdedMessage : CString := (List.replicate 127 (bytes "a ")).flatten ++ bytes "a"

/-- The private message of 16 words does not fit the arrays for its name and its text, into which the
server splits it, and the crowded message not even the large array. -/
theorem not_tokensInside_sixteenWords : (0 ∉ sixteenWords ∧ sixteenWords.length ≤ 255 ∧
      ¬ StoredInside 16 sixteenWords ∧ ¬ TokensInside sixteenWords ∧ ¬ CallsInside .p2p sixteenWords) ∧
    0 ∉ crowdedMessage ∧ crowdedMessage.length = 255 ∧ ¬ StoredInside 128 crowdedMessage := by
  have hzero : 0 ∉ sixteenWords := by decide
  have hlength : sixteenWords.length ≤ 255 := by decide
  have hsmall : ¬ StoredInside 16 sixteenWords := by
    rw [storedInside_iff hzero hlength]
    decide +kernel
  have hzero' : 0 ∉ crowdedMessage := by decide +kernel
  have hlength' : crowdedMessage.length = 255 := by decide +kernel
  have hprivate : getCommandType sixteenWords = some .p2p := by decide +kernel
  refine ⟨⟨hzero, hlength, hsmall, fun h => hsmall h.extractName, fun h => hsmall (h.name hprivate)⟩,
    hzero', hlength', ?_⟩
  rw [storedInside_iff hzero' hlength'.le]
  decide +kernel

end Csci4061.Chat
