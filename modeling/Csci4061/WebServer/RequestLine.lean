import Csci4061.Lib.Lines
import Csci4061.WebServer.GetRequest

/-!
# Which lines are accepted

`get_request` reads at most 2047 bytes of the line and keeps at most 1023 bytes of its second word.
Both limits are silent. A valid line whose second word passes one of them is refused, or its path is
cut, and the cut may also hide from the filter what makes a line invalid.
-/

namespace Csci4061.WebServer

open Csci4061.Lib

/-- The first line which a client sends, without its newline. -/
def firstLine (stream : List UInt8) : List UInt8 := stream.takeWhile (· ≠ newline)

/-- The line split on spaces and newline. -/
def lineWords (line : List UInt8) : List CString := tokens (separates requestDelims) line

/-- The second word of a valid line: the first one is `GET`, and the second has neither `..` nor `//`. -/
def lineTarget (line : List UInt8) : Option CString :=
  match lineWords line with
  | command :: target :: _ =>
    if command ≠ bytes "GET" then none
    else if bytes ".." <:+: target ∨ bytes "//" <:+: target then none
    else some target
  | _ => none

/-- The target of a line is its second word. -/
theorem getElem?_of_lineTarget {line : List UInt8} {target : CString}
    (h : lineTarget line = some target) :
    (lineWords line)[1]? = some target := by
  rw [lineTarget] at h
  split at h
  · rename_i command target' rest hwords
    split at h
    · exact absurd h (by simp)
    · split at h
      · exact absurd h (by simp)
      · rw [hwords]
        exact h
  · exact absurd h (by simp)

/-- The two readers of a line are the same. -/
theorem fgets_eq_fgetsLine (size : ℕ) {stream : List UInt8} (hne : stream ≠ []) :
    fgets size stream = some (fgetsLine size stream) := by
  rw [fgets, if_neg hne, fgetsLine]
  dsimp only
  generalize stream.take (size - 1) = window
  induction window with
  | nil => rfl
  | cons x window ih =>
    rw [List.findIdx?_cons]
    by_cases hx : x = newline
    · simp [hx, newline]
    · have hne' : x ≠ 0x0A := hx
      cases hfind : window.findIdx? (· = 0x0A) with
      | none =>
        rw [hfind] at ih
        simpa [hx, hne', hfind] using ih
      | some i =>
        rw [hfind] at ih
        simpa [hx, hne', hfind] using ih

/-- The newline at the end and the bytes after the buffer play no role for the words. -/
theorem requestWords_fgets {stream : List UInt8} (hne : stream ≠ []) (hzero : 0 ∉ firstLine stream) :
    ∃ buf, fgets 2048 stream = some buf ∧ requestWords buf = lineWords
    ((firstLine stream).take 2047) := by
  have hbuf := fgets_eq_fgetsLine 2048 hne
  have hline : 0 ∉ (firstLine stream).take 2047 := fun hmem => hzero (List.mem_of_mem_take hmem)
  refine ⟨_, hbuf, ?_⟩
  rcases fgetsLine_eq_take 2048 stream with heq | heq
  · rw [requestWords, heq]
    exact congrArg (tokens _) (cString_of_not_mem hline)
  · have hzero' : 0 ∉ (firstLine stream).take 2047 ++ [newline] := by
      rw [List.mem_append, not_or]
      exact ⟨hline, by decide⟩
    rw [requestWords, heq]
    refine (congrArg (tokens _) (cString_of_not_mem hzero')).trans ?_
    rw [tokens_append_cons _ (by decide), tokens_nil, List.append_nil, lineWords]

/-- What `get_request` does, in terms of the line up to the size of the buffer. -/
theorem getRequest_eq_lineTarget {stream : List UInt8} (hne : stream ≠ [])
    (hzero : 0 ∉ firstLine stream) :
    (∃ target, lineTarget ((firstLine stream).take 2047) = some target ∧
      getRequest stream = some ⟨0, some (target.take 1023)⟩) ∨
    lineTarget ((firstLine stream).take 2047) = none ∧ ∃ ret, ret ≠ 0 ∧
    getRequest stream = some ⟨ret, none⟩ := by
  obtain ⟨buf, hbuf, hwords⟩ := requestWords_fgets hne hzero
  rw [getRequest_eq_parseRequest]
  simp only [parseRequest, hbuf, hwords, lineTarget]
  rcases lineWords ((firstLine stream).take 2047) with _ | ⟨command, _ | ⟨target, rest⟩⟩
  · exact Or.inr ⟨rfl, -2, by decide, rfl⟩
  · exact Or.inr ⟨rfl, -2, by decide, rfl⟩
  · dsimp only
    by_cases hcommand : command ≠ bytes "GET"
    · rw [if_pos hcommand, if_pos hcommand]
      exact Or.inr ⟨rfl, -1, by decide, rfl⟩
    · rw [if_neg hcommand, if_neg hcommand]
      by_cases hdirty : bytes ".." <:+: target ∨ bytes "//" <:+: target
      · rw [if_pos hdirty, if_pos hdirty]
        exact Or.inr ⟨rfl, -4, by decide, rfl⟩
      · rw [if_neg hdirty, if_neg hdirty]
        exact Or.inl ⟨target, rfl, rfl⟩

/-- A request is accepted if and only if its line is valid, and the file name which is stored is then the
whole second word of the line. -/
structure AcceptsExactly (stream : List UInt8) : Prop where
  accepts : (∃ filename, getRequest stream = some ⟨0, filename⟩) ↔
    ∃ target, lineTarget (firstLine stream) = some target
  unaltered : ∀ filename, getRequest stream = some ⟨0, filename⟩ →
    filename = (lineWords (firstLine stream))[1]?

/-- The buffers are large enough for a line: its target is complete within the first 2047 bytes of the
line and has at most 1023 bytes, and a line which is not valid has no valid beginning of 2047 bytes. -/
structure WithinBuffers (line : List UInt8) : Prop where
  valid : ∀ target, lineTarget line = some target →
    lineTarget (line.take 2047) = some target ∧ target.length ≤ 1023
  invalid : lineTarget line = none → lineTarget (line.take 2047) = none

/-- The target of a beginning of a line is a beginning of the second word. -/
theorem lineTarget_take {line : List UInt8} {n : ℕ} {cut : CString}
    (h : lineTarget (line.take n) = some cut) :
    ∃ target, (lineWords line)[1]? = some target ∧ cut <+: target :=
  getElem?_tokens_of_prefix (List.take_prefix n line) (getElem?_of_lineTarget h)

/-- `get_request` accepts exactly the valid lines, with their paths unaltered, as far as its
buffers go. -/
theorem acceptsExactly_iff {stream : List UInt8} (hne : stream ≠ []) (hzero : 0 ∉ firstLine stream) :
    AcceptsExactly stream ↔ WithinBuffers (firstLine stream) := by
  rcases getRequest_eq_lineTarget hne hzero with ⟨cut, hcut, haccept⟩ | ⟨hcut, ret, hret, hrefuse⟩
  · constructor
    · intro hexact
      obtain ⟨target, htarget⟩ := hexact.accepts.mp ⟨_, haccept⟩
      have hword := getElem?_of_lineTarget htarget
      have hname : cut.take 1023 = target := by simpa [hword] using hexact.unaltered _ haccept
      obtain ⟨target', hword', hprefix⟩ := lineTarget_take hcut
      obtain rfl : target = target' := Option.some.inj (hword.symm.trans hword')
      have hlength : cut.length ≤ 1023 := by
        have hle := hprefix.length_le
        rw [← hname, List.length_take] at hle
        omega
      rw [List.take_of_length_le hlength] at hname
      subst hname
      constructor
      · intro target htarget'
        obtain rfl : cut = target := Option.some.inj (htarget.symm.trans htarget')
        exact ⟨hcut, hlength⟩
      · intro hnone
        exact absurd (htarget.symm.trans hnone) (by simp)
    · intro hwithin
      cases htarget : lineTarget (firstLine stream) with
      | none => exact absurd (hcut.symm.trans (hwithin.invalid htarget)) (by simp)
      | some target =>
        obtain ⟨hsame, hlength⟩ := hwithin.valid target htarget
        obtain rfl : cut = target := Option.some.inj (hcut.symm.trans hsame)
        rw [List.take_of_length_le hlength] at haccept
        refine ⟨⟨fun _ => ⟨cut, htarget⟩, fun _ => ⟨_, haccept⟩⟩, ?_⟩
        intro filename hfilename
        rw [getElem?_of_lineTarget htarget]
        simpa using (hfilename.symm.trans haccept)
  · have hnever : ¬ ∃ filename, getRequest stream = some ⟨0, filename⟩ := by
      rintro ⟨filename, hfilename⟩
      have hsame := hfilename.symm.trans hrefuse
      simp only [Option.some.injEq, ParseResult.mk.injEq] at hsame
      exact hret hsame.1.symm
    constructor
    · intro hexact
      have hinvalid (target : CString) : lineTarget (firstLine stream) ≠ some target := by
        intro htarget
        exact hnever (hexact.accepts.mpr ⟨target, htarget⟩)
      exact ⟨fun target htarget => absurd htarget (hinvalid target), fun _ => hcut⟩
    · intro hwithin
      refine ⟨⟨fun h => absurd h hnever, ?_⟩, fun filename h => absurd ⟨filename, h⟩ hnever⟩
      rintro ⟨target, htarget⟩
      exact absurd (hcut.symm.trans (hwithin.valid target htarget).1) (by simp)

/-- A short request is accepted as it is. -/
theorem acceptsExactly_iff_shortLine : AcceptsExactly (bytes "GET /a\n") := by
  have hwhole : (firstLine (bytes "GET /a\n")).take 2047 = firstLine (bytes "GET /a\n") := by
    decide +kernel
  have htarget : lineTarget (firstLine (bytes "GET /a\n")) = some (bytes "/a") := by decide +kernel
  refine (acceptsExactly_iff (by decide) (by decide)).mpr ⟨fun target h => ⟨hwhole.symm ▸ h, ?_⟩,
    fun h => ?_⟩
  · obtain rfl := Option.some.inj (htarget.symm.trans h)
    decide
  · exact absurd (htarget.symm.trans h) (by simp)

/-- A path of 1024 bytes. -/
def longPath : CString := bytes "/" ++ List.replicate 1023 0x61

/-- The path of 1024 bytes is accepted without its last byte. -/
theorem not_acceptsExactly_longPath : ¬ ∀ stream : List UInt8, stream ≠ [] → 0 ∉ firstLine stream →
    AcceptsExactly stream := by
  intro hall
  have hexact := hall (bytes "GET " ++ longPath) (by decide +kernel) (by decide +kernel)
  have haccept : parseRequest (bytes "GET " ++ longPath) = ⟨0, some (longPath.take 1023)⟩ := by
    decide +kernel
  have hname := hexact.unaltered _ ((getRequest_eq_parseRequest _).trans (congrArg some haccept))
  have hword : (lineWords (firstLine (bytes "GET " ++ longPath)))[1]? = some longPath := by
    decide +kernel
  rw [hword] at hname
  have hlength := congrArg List.length (Option.some.inj hname)
  exact absurd hlength (by decide +kernel)

end Csci4061.WebServer
