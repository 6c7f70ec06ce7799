import Csci4061.Chat.Message
import Csci4061.Lib.Bracket

/-!
# The pieces of a private message

The receiver of a private message is found by `strtok`, which takes a run of spaces as one separator,
and its text by two calls of `strchr`, which count every space. The two scans agree exactly on messages
without leading spaces and with one space on each side of the receiver; on other ones the text starts
before the third word.
-/

namespace Csci4061.Chat

open Csci4061.Lib

/-- The part of a message which begins at the word with a number. -/
def fromWord (k : ℕ) (message : CString) : CString := fromToken (separates (bytes " ")) k message

/-- The receiver which is extracted is the second word, and the text is the message from its third word
on. -/
structure ExtractsPieces (buf userName text : List UInt8) : Prop where
  receiver : ∃ copied, extractName buf userName = some (some copied) ∧
    (words buf)[1]? = some (cString copied)
  text : ∃ copied, extractText buf text = some (some copied) ∧ cString copied = fromWord 2 buf

/-- A command, one space, a receiver, one space and a text which does not begin with a space. -/
def SingleSpaced (buf : CString) : Prop :=
  ∃ command receiver text, buf = command ++ 0x20 :: (receiver ++ 0x20 :: text) ∧ command ≠ [] ∧
    0x20 ∉ command ∧ receiver ≠ [] ∧ 0x20 ∉ receiver ∧ text.head? ≠ some 0x20

/-- The receiver has room in its buffer. -/
def ReceiverFits (buf : CString) : Prop :=
  ∀ receiver, (words buf)[1]? = some receiver → receiver.length < maxUserId

/-- A character which is no space. -/
theorem not_separates_space {c : UInt8} : separates (bytes " ") c = false ↔ c ≠ 0x20 := by
  rw [← Bool.not_eq_true, separates_space]

/-- The characters of a part without spaces. -/
theorem forall_not_separates {s : CString} : (∀ c ∈ s, separates (bytes " ") c = false) ↔ 0x20 ∉ s := by
  constructor
  · exact fun h hmem => not_separates_space.mp (h 0x20 hmem) rfl
  · exact fun h c hc => not_separates_space.mpr (ne_of_mem_of_not_mem hc h)

/-- Behind a word of a message which is not the last one stands a space. -/
theorem words_eq_cons {buf word next : CString} {later : List CString}
    (h : words buf = word :: next :: later) :
    ∃ skip rest, buf = skip ++ word ++ 0x20 :: rest ∧ (∀ c ∈ skip, c = 0x20) ∧ word ≠ [] ∧ 0x20 ∉ word ∧
      words rest = next :: later ∧ ∀ k, fromWord (k + 1) buf = fromWord k rest := by
  obtain ⟨skip, tail, rfl, hskip, hne, hword, ⟨-, hnone⟩ | ⟨d, rest, rfl, hd, hrest⟩⟩ := tokens_eq_cons h
  · exact absurd hnone (List.cons_ne_nil _ _)
  · obtain rfl := (separates_space d).mp hd
    refine ⟨skip, rest, rfl, fun c hc => (separates_space c).mp (hskip c hc), hne,
      forall_not_separates.mp hword, hrest.symm, ?_⟩
    exact fun k => fromToken_succ hskip hne hword hd k

/-- A message with three words, with its separators. -/
theorem words_split {buf : CString} (hthree : 3 ≤ (words buf).length) :
    ∃ skip command skip' receiver skip'', buf = skip ++ command ++ 0x20 :: (skip' ++ receiver ++ 0x20 ::
        (skip'' ++ fromWord 2 buf)) ∧
      (∀ c ∈ skip ++ skip' ++ skip'', c = 0x20) ∧ command ≠ [] ∧ 0x20 ∉ command ∧ receiver ≠ [] ∧
        0x20 ∉ receiver ∧
      (fromWord 2 buf).head? ≠ some 0x20 ∧ (words buf)[1]? = some receiver := by
  match hwords : words buf with
  | [] | [_] | [_, _] =>
    rw [hwords] at hthree
    exact absurd hthree (by simp)
  | command :: receiver :: third :: later =>
    obtain ⟨skip, rest, hbuf, hskip, hcommand, hcommand', hrest, hfrom⟩ := words_eq_cons hwords
    obtain ⟨skip', rest', hbuf', hskip', hreceiver, hreceiver', -, hfrom'⟩ := words_eq_cons hrest
    have htext : fromWord 2 buf = rest'.dropWhile (separates (bytes " ")) := by
      rw [hfrom 1, hfrom' 0]
      rfl
    have hsplit : rest'.takeWhile (separates (bytes " ")) ++ fromWord 2 buf = rest' := by
      rw [htext, List.takeWhile_append_dropWhile]
    refine ⟨skip, command, skip', receiver, rest'.takeWhile (separates (bytes " ")), ?_, ?_, hcommand,
      hcommand', hreceiver, hreceiver', ?_, rfl⟩
    · rw [hsplit, ← hbuf', ← hbuf]
    · intro c hc
      rcases List.mem_append.mp hc with hc | hc
      · exact (List.mem_append.mp hc).elim (hskip c) (hskip' c)
      · exact (separates_space c).mp (List.mem_takeWhile_imp hc)
    · intro hspace
      have hhead := List.head?_dropWhile_not (separates (bytes " ")) rest'
      rw [← htext, hspace] at hhead
      exact absurd hhead (by decide)

/-- The text of a message with three words is what follows its second space. -/
theorem extractText_eq {buf text : List UInt8} (hzero : 0 ∉ buf) (hlength : buf.length < maxMsg)
    (hthree : 3 ≤ (words buf).length) (hlt : (words buf).length < 16) (hsize : text.length = maxMsg) :
    ∃ before between rest copied, buf = before ++ 0x20 :: (between ++ 0x20 :: rest) ∧ 0x20 ∉ before ∧
    0x20 ∉ between ∧
      extractText buf text = some (some copied) ∧ cString copied = rest := by
  obtain ⟨rest, hfirst, -, hleft⟩ := exists_space (by omega : 2 ≤ (words buf).length)
  obtain ⟨rest', hsecond, -, -⟩ := exists_space (by omega : 2 ≤ (words rest).length)
  obtain ⟨before, behind, rfl, hbefore, heq⟩ := strchr_eq_some_iff.mp hfirst
  obtain rfl : rest = behind := (List.cons.inj heq).2
  obtain ⟨between, behind', rfl, hbetween, heq'⟩ := strchr_eq_some_iff.mp hsecond
  obtain rfl : rest' = behind' := (List.cons.inj heq').2
  have hroom : rest'.length < text.length := by
    simp only [List.length_append, List.length_cons] at hlength
    omega
  have hzero' : 0 ∉ rest' := fun hmem => hzero (by simp [hmem])
  have hcopied : strcpy text rest' = some (storeBytes text (rest' ++ [0])) := if_pos hroom
  refine ⟨before, between, rest', _, rfl, hbefore, hbetween, ?_, (strcpy_eq_some hzero' hcopied).1⟩
  rw [extractText, messageTokens_eq hzero, if_pos ⟨hlength, hlt⟩, Option.bind_some, if_pos hthree,
    hfirst,
    Option.bind_some, List.tail_cons, hsecond, Option.bind_some, List.tail_cons, hcopied,
      Option.map_some]

/-- The name of a message with two words is extracted exactly if it fits. -/
theorem extractName_iff {buf userName : List UInt8} (hzero : 0 ∉ buf) (hlength : buf.length < maxMsg)
    (hlt : (words buf).length < 16) (hsize : userName.length = maxUserId) {receiver : CString}
    (hreceiver : (words buf)[1]? = some receiver) :
    (∃ copied, extractName buf userName = some (some copied) ∧ (words buf)[1]? = some (cString copied)) ↔
      receiver.length < maxUserId := by
  have hzero' : 0 ∉ receiver := fun hmem =>
    hzero ((mem_tokens (List.mem_of_getElem? hreceiver)).2.2.subset hmem)
  rw [extractName_of_lt hzero hlength hlt, hreceiver, Option.elim_some]
  constructor
  · rintro ⟨copied, hcopied, -⟩
    obtain ⟨copied, hstrcpy, -⟩ := Option.map_eq_some_iff.mp hcopied
    exact (strcpy_cases hstrcpy).1.trans_eq hsize
  · intro hroom
    have hcopied : strcpy userName receiver = some (storeBytes userName (receiver ++ [0])) :=
      if_pos (hsize ▸ hroom)
    refine ⟨_, by rw [hcopied, Option.map_some], ?_⟩
    rw [(strcpy_eq_some hzero' hcopied).1]

/-- The text of a message with three words is what follows its second space exactly if it is
single-spaced. -/
theorem fromWord_two_iff {before between rest : CString} (hbefore : 0x20 ∉ before)
    (hbetween : 0x20 ∉ between)
    (hthree : 3 ≤ (words (before ++ 0x20 :: (between ++ 0x20 :: rest))).length) :
    rest = fromWord 2 (before ++ 0x20 :: (between ++ 0x20 :: rest)) ↔
      SingleSpaced (before ++ 0x20 :: (between ++ 0x20 :: rest)) := by
  constructor
  · intro hrest
    obtain ⟨skip, command, skip', receiver, skip'', hbuf, hskip, hcommand, hcommand', hreceiver,
        hreceiver', hhead, -⟩ :=
      words_split hthree
    rw [← hrest] at hbuf hhead
    -- two spaces stand before the text, so that no space is left for the runs
    have hparts : before ++ 0x20 :: (between ++ [0x20]) =
        skip ++ command ++ 0x20 :: (skip' ++ receiver ++ 0x20 :: skip'') := by
      refine List.append_cancel_right (?_ : _ ++ rest = _ ++ rest)
      simpa using hbuf
    have hcount := congrArg (List.count 0x20) hparts
    simp only [List.count_append, List.count_cons_self, List.count_eq_zero.mpr hbefore,
      List.count_eq_zero.mpr hbetween,
      List.count_eq_zero.mpr hcommand', List.count_eq_zero.mpr hreceiver', List.count_nil] at hcount
    have hall : ∀ part : CString, part ⊆ skip ++ skip' ++ skip'' → part.count 0x20 = 0 → part = [] := by
      intro part hpart hnone
      rw [List.count_eq_zero] at hnone
      refine List.eq_nil_iff_forall_not_mem.mpr fun c hc => hnone ?_
      rw [← hskip c (hpart hc)]
      exact hc
    obtain rfl := hall skip (by simp) (by omega)
    obtain rfl := hall skip' (by simp) (by omega)
    obtain rfl := hall skip'' (by simp) (by omega)
    exact ⟨command, receiver, rest, by simpa using hbuf, hcommand, hcommand', hreceiver, hreceiver',
      hhead⟩
  · rintro ⟨command, receiver, text, heq, hcommand, hcommand', hreceiver, hreceiver', hhead⟩
    have hfrom : fromWord 2 (command ++ 0x20 :: (receiver ++ 0x20 :: text)) = text := by
      have hspace : separates (bytes " ") 0x20 = true := (separates_space 0x20).mpr rfl
      have hfirst := @fromToken_succ _ _ [] command (receiver ++ 0x20 :: text) 0x20 (by simp) hcommand
        (forall_not_separates.mpr hcommand') hspace 1
      have hsecond := @fromToken_succ _ _ [] receiver text 0x20 (by simp) hreceiver
        (forall_not_separates.mpr hreceiver') hspace 0
      rw [List.nil_append] at hfirst hsecond
      rw [fromWord, hfirst, hsecond, fromToken]
      cases text with
      | nil => rfl
      | cons c text =>
        rw [List.dropWhile_cons_of_neg]
        rw [separates_space]
        exact fun hc => hhead (congrArg some hc)
    obtain rfl := append_cons_left_unique heq hbefore hcommand'
    have hbehind := (List.cons.inj (List.append_cancel_left heq)).2
    obtain rfl := append_cons_left_unique hbehind hbetween hreceiver'
    obtain rfl := (List.cons.inj (List.append_cancel_left hbehind)).2
    exact hfrom.symm

/-- The pieces of a private message with at least three words are extracted exactly if it has no leading
spaces and one space on each side of the receiver, and the receiver fits. -/
theorem extractsPieces_iff_singleSpaced {buf userName text : List UInt8} (hzero : 0 ∉ buf)
    (htype : getCommandType buf = some .p2p) (hthree : 3 ≤ (words buf).length)
    (hlt : (words buf).length < 16) (hname : userName.length = maxUserId)
    (htext : text.length = maxMsg) :
    ExtractsPieces buf userName text ↔ SingleSpaced buf ∧ ReceiverFits buf := by
  obtain ⟨hlength, -⟩ := (getCommandType_eq_some hzero).mp htype
  obtain ⟨receiver, hreceiver⟩ : ∃ receiver, (words buf)[1]? = some receiver :=
    ⟨_, List.getElem?_eq_getElem (by omega)⟩
  have hreceives := extractName_iff hzero hlength hlt hname hreceiver
  have hfits : ReceiverFits buf ↔ receiver.length < maxUserId := by
    rw [ReceiverFits, hreceiver]
    simp
  obtain ⟨before, between, rest, copied, rfl, hbefore, hbetween, hextract, hstring⟩ :=
    extractText_eq hzero hlength hthree hlt htext
  rw [← fromWord_two_iff hbefore hbetween hthree, hfits]
  constructor
  · rintro ⟨hreceived, copied', hextract', hstring'⟩
    obtain rfl := Option.some.inj (Option.some.inj (hextract.symm.trans hextract'))
    exact ⟨hstring.symm.trans hstring', hreceives.mp hreceived⟩
  · rintro ⟨hrest, hroom⟩
    exact ⟨hreceives.mpr hroom, copied, hextract, hstring.trans hrest⟩

/-- A message with single spaces is taken apart. -/
theorem extractsPieces_iff_singleSpaced_hi :
    ExtractsPieces (bytes "\\p2p bob hi there") (List.replicate maxUserId 0)
    (List.replicate maxMsg 0) := by
  refine (extractsPieces_iff_singleSpaced (by decide) (by decide) (by decide)
    (by decide) List.length_replicate
    List.length_replicate).mpr ⟨⟨bytes "\\p2p", bytes "bob", bytes "hi there", ?_⟩, ?_⟩
  · decide
  · intro receiver hreceiver
    obtain rfl : bytes "bob" = receiver := Option.some.inj hreceiver
    decide

/-- With two spaces before the receiver the text begins with the receiver. -/
theorem not_extractsPieces_twoSpaces : getCommandType (bytes "\\p2p  bob hi") = some .p2p ∧
    (words (bytes "\\p2p  bob hi")).length = 3 ∧
    (extractText (bytes "\\p2p  bob hi") (List.replicate maxMsg 0)).map (Option.map cString) =
      some (some (bytes "bob hi")) ∧
    ¬ ExtractsPieces (bytes "\\p2p  bob hi") (List.replicate maxUserId 0) (List.replicate maxMsg 0) := by
  have hextract : (extractText (bytes "\\p2p  bob hi") (List.replicate maxMsg 0)).map
      (Option.map cString) =
      some (some (bytes "bob hi")) := by decide +kernel
  refine ⟨by decide, by decide, hextract, ?_⟩
  rintro ⟨-, copied, hcopied, hstring⟩
  rw [hcopied] at hextract
  have hwrong : cString copied = bytes "bob hi" := by simpa using hextract
  exact absurd (hstring.symm.trans hwrong) (by decide)

end Csci4061.Chat
