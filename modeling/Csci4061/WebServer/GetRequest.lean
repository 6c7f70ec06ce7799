import Csci4061.Lib.Strtok
import Mathlib.Data.List.Infix

/-!
# The request line

`getRequest` reads the first line of a connection, splits it with `makeargv` and keeps a copy of
the second word. `makeargv` goes over its private copy twice: it counts the tokens, copies the
line again and stores the tokens.

`parseRequest` says the same about the words of the line, without buffers and positions, and
`getRequest_eq_parseRequest` is all that later modules use of the two passes.
-/

namespace Csci4061.WebServer

open Csci4061.Lib

/-- `fgets`: the bytes up to the first newline, at most `size - 1` of them, and `none` at the end
of the stream. -/
def fgets (size : ℕ) (stream : List UInt8) : Option (List UInt8) :=
  if stream = [] then none
  else
    let window := stream.take (size - 1)
    match window.findIdx? (· = 0x0A) with
    | some i => some (window.take (i + 1))
    | none => some window

/-- The bytes of `dest` after `strncpy` of `n` bytes: the string, cut off or filled up with NUL. -/
def strncpy (src : CString) (n : ℕ) : List UInt8 := src.take n ++ List.replicate (n - src.length) 0

/-- The counting loop of `makeargv`, which the number of remaining bytes bounds. -/
def countTokens (delims : CString) : ℕ → List UInt8 → ℕ → ℕ → ℕ
  | 0, _, _, numtokens => numtokens
  | fuel + 1, t, pos, numtokens =>
    match strtok delims t pos with
    | (some _, t', pos') => countTokens delims fuel t' pos' (numtokens + 1)
    | (none, _, _) => numtokens

/-- The tokens which `makeargv` stores, their number being given; the first call, `strtok(t)`, is
the one at position 0. -/
def storeTokens (delims : CString) : ℕ → List UInt8 → ℕ → List (Option ℕ) × List UInt8
  | 0, t, _ => ([], t)
  | n + 1, t, pos =>
    let (token, t', pos') := strtok delims t pos
    let (tokens, t'') := storeTokens delims n t' pos'
    (token :: tokens, t'')

/-- `makeargv`: the number of tokens, the array of their positions with its last `NULL`, and the
buffer they point into. -/
def makeargv (s delims : CString) : ℕ × List (Option ℕ) × List UInt8 :=
  let snew := s.dropWhile (separates delims)
  let numtokens :=
    match strtok delims snew 0 with
    | (some _, t, pos) => countTokens delims snew.length t pos 1
    | (none, _, _) => 0
  if numtokens = 0 then (0, [none], [])
  else
    let (argv, t) := storeTokens delims numtokens snew 0
    (numtokens, argv ++ [none], t)

/-- The return value of `get_request`, and the file name if it is written. -/
structure ParseResult where
  ret : ℤ
  filename : Option CString
  deriving DecidableEq

/-- The checks of `get_request` on `strings[0]` and `strings[1]`, and the copy into `filename`;
`none` is a comparison with a null pointer. -/
def checkRequest (strings₀ strings₁ : Option CString) : Option ParseResult :=
  strings₀.map fun command =>
    if command ≠ bytes "GET" then ⟨-1, none⟩
    else
      match strings₁ with
      | none => ⟨-5, none⟩
      | some target =>
        if bytes ".." <:+: target ∨ bytes "//" <:+: target then ⟨-4, none⟩
        else ⟨0, some (cString ((strncpy target 1024).set 1023 0))⟩

/-- The string which an element of the array points to. -/
def argvString (argv : List (Option ℕ)) (t : List UInt8) (i : ℕ) : Option CString :=
  (argv[i]?.join).map fun start => cString (t.drop start)

/-- The delimiters of `get_request`. -/
def requestDelims : CString := bytes " \n"

/-- `get_request`, on the stream of its connection. -/
def getRequest (stream : List UInt8) : Option ParseResult :=
  match fgets 2048 stream with
  | none => some ⟨-3, none⟩
  | some buf =>
    let (args, strings, t) := makeargv (cString buf) requestDelims
    if args < 2 then some ⟨-2, none⟩
    else checkRequest (argvString strings t 0) (argvString strings t 1)

/-- The words of the line which `get_request` reads. -/
def requestWords (buf : List UInt8) : List CString := tokens (separates requestDelims) (cString buf)

/-- What `get_request` does, in terms of the words of the line. -/
def parseRequest (stream : List UInt8) : ParseResult :=
  match fgets 2048 stream with
  | none => ⟨-3, none⟩
  | some buf =>
    match requestWords buf with
    | command :: target :: _ =>
      if command ≠ bytes "GET" then ⟨-1, none⟩
      else if bytes ".." <:+: target ∨ bytes "//" <:+: target then ⟨-4, none⟩
      else ⟨0, some (target.take 1023)⟩
    | _ => ⟨-2, none⟩

/-- The counting loop counts the tokens which the calls find. -/
theorem countTokens_of_findsTokens {delims : CString} {fuel : ℕ} {pre rest pre' rest' : List UInt8}
    {starts : List ℕ} (hfinds : FindsTokens delims pre rest starts pre' rest') (hzero : 0 ∉ rest')
    (hnone : tokens (separates delims) rest' = []) (hfuel : starts.length ≤ fuel) (numtokens : ℕ) :
    countTokens delims fuel (pre ++ rest) pre.length numtokens = numtokens + starts.length := by
  induction hfinds generalizing fuel numtokens with
  | none =>
    cases fuel with
    | zero => rfl
    | succ fuel =>
      rw [countTokens, strtok_none hzero hnone]
      rfl
  | token _ hcall _ ih =>
    cases fuel with
    | zero => exact absurd hfuel (by simp)
    | succ fuel =>
      rw [countTokens, hcall]
      simp only [ih hzero hnone (Nat.le_of_succ_le_succ hfuel), List.length_cons]
      omega

/-- The storing loop stores the tokens which the calls find. -/
theorem storeTokens_of_findsTokens {delims : CString} {pre rest pre' rest' : List UInt8}
    {starts : List ℕ} (hfinds : FindsTokens delims pre rest starts pre' rest') :
    storeTokens delims starts.length (pre ++ rest) pre.length = (starts.map some, pre' ++ rest') := by
  induction hfinds with
  | none => rfl
  | token _ hcall _ ih =>
    rw [List.length_cons, storeTokens, hcall]
    simp only [ih, List.map_cons]

/-- The array holds the words of the string. -/
theorem makeargv_eq {s : CString} (hs : 0 ∉ s) (delims : CString) :
    ∃ starts t, makeargv s delims =
        ((tokens (separates delims) s).length, starts.map some ++ [none], t) ∧
      List.Forall₂ (fun start word => cString (t.drop start) = word) starts
        (tokens (separates delims) s) := by
  have hzero : 0 ∉ s.dropWhile (separates delims) := fun h => hs ((List.dropWhile_sublist _).subset h)
  rw [makeargv, ← tokens_dropWhile (p := separates delims) s]
  generalize s.dropWhile (separates delims) = snew at hzero ⊢
  obtain ⟨starts, pre, rest, hfound, hnone⟩ := @exists_allTokensFound delims snew [] hzero
  have hlength := hfound.holds.length_eq
  have hmany := length_tokens_le (p := separates delims) snew
  -- The first call is the one at position 0 in both passes.
  have hcount : (match strtok delims snew 0 with
      | (some _, t, pos) => countTokens delims snew.length t pos 1
      | (none, _, _) => 0) = starts.length :=
    calc _ = countTokens delims (snew.length + 1) snew 0 0 := rfl
      _ = 0 + starts.length :=
        countTokens_of_findsTokens hfound.calls hfound.no_zero hnone (by omega) 0
      _ = starts.length := Nat.zero_add _
  have hstore : storeTokens delims starts.length snew 0 = (starts.map some, pre ++ rest) :=
    storeTokens_of_findsTokens hfound.calls
  simp only [hcount]
  by_cases hempty : starts = []
  · subst hempty
    rw [List.length_eq_zero_iff.mp hlength.symm]
    exact ⟨[], [], rfl, .nil⟩
  · rw [if_neg (by simpa using hempty)]
    refine ⟨starts, pre ++ rest, ?_, hfound.holds.imp fun start word hholds => hholds rest rfl⟩
    simp only [hstore]
    rw [hlength]

/-- The name which is stored is the string, cut off before the last byte of the buffer. -/
theorem cString_strncpy {src : CString} (hzero : 0 ∉ src) (n : ℕ) :
    cString ((strncpy src (n + 1)).set n 0) = src.take n := by
  have hzero' : 0 ∉ src.take n := fun h => hzero (List.mem_of_mem_take h)
  by_cases hlength : src.length ≤ n
  · have hfill : n + 1 - src.length = (n - src.length) + 1 := by omega
    rw [strncpy, List.take_of_length_le (by omega), List.set_append_right _ _ hlength,
      List.set_replicate_self,
      hfill, List.replicate_succ, cString_append_zero hzero, List.take_of_length_le hlength]
  · have hn : n < src.length := by omega
    have hcopy : strncpy src (n + 1) = src.take n ++ [src[n]] := by
      rw [strncpy, Nat.sub_eq_zero_of_le hn, List.replicate_zero, List.append_nil,
        List.take_succ_eq_append_getElem hn]
    have hset : (src.take n ++ [src[n]]).set n 0 = src.take n ++ [0] := by
      rw [List.set_append_right _ _ (List.length_take_le n src)]
      simp [Nat.min_eq_left (Nat.le_of_lt hn)]
    rw [hcopy, hset, cString_append_zero hzero']

/-- The words of a line have no NUL. -/
theorem zero_not_mem_requestWords {buf : List UInt8} {word : CString} (h : word ∈ requestWords buf) :
    0 ∉ word :=
  fun hmem => zero_not_mem_cString buf ((mem_tokens h).2.2.subset hmem)

/-- A line with fewer than two words is refused. -/
theorem parseRequest_short {stream buf : List UInt8} (hbuf : fgets 2048 stream = some buf)
    (hwords : (requestWords buf).length < 2) : parseRequest stream = ⟨-2, none⟩ := by
  simp only [parseRequest, hbuf]
  split
  · rename_i command target rest heq
    rw [heq, List.length_cons, List.length_cons] at hwords
    omega
  · rfl

/-- The first two words of a line which is not short. -/
theorem exists_words {words : List CString} (h : ¬ words.length < 2) :
    ∃ command target rest, words = command :: target :: rest := by
  match words with
  | [] => simp at h
  | [_] => simp at h
  | command :: target :: rest => exact ⟨command, target, rest, rfl⟩

/-- With two words the checks decide. -/
theorem checkRequest_words {stream buf : List UInt8} (hbuf : fgets 2048 stream = some buf)
    {command target : CString} {rest : List CString}
    (hwords : requestWords buf = command :: target :: rest) :
    checkRequest (some command) (some target) = some (parseRequest stream) := by
  have hcopy := cString_strncpy (zero_not_mem_requestWords (by rw [hwords]; simp :
      target ∈ requestWords buf)) 1023
  simp only [checkRequest, parseRequest, hbuf, hwords, hcopy, Option.map_some]

/-- The two passes over the line are sound: `get_request` finds the words of the line. -/
theorem getRequest_eq_parseRequest (stream : List UInt8) :
    getRequest stream = some (parseRequest stream) := by
  rw [getRequest]
  cases hbuf : fgets 2048 stream with
  | none => simp only [parseRequest, hbuf]
  | some buf =>
    obtain ⟨starts, t, hargv, hstarts⟩ := makeargv_eq (zero_not_mem_cString buf) requestDelims
    simp only [hargv]
    rw [← requestWords] at hstarts ⊢
    by_cases hshort : (requestWords buf).length < 2
    · rw [if_pos hshort, parseRequest_short hbuf hshort]
    · rw [if_neg hshort]
      obtain ⟨command, target, rest, hwords⟩ := exists_words hshort
      rw [← checkRequest_words hbuf hwords]
      rw [hwords] at hstarts
      obtain ⟨start₀, starts, hcommand, hrest, rfl⟩ := List.forall₂_cons_right_iff.mp hstarts
      obtain ⟨start₁, starts, htarget, -, rfl⟩ := List.forall₂_cons_right_iff.mp hrest
      simp [argvString, hcommand, htarget]

/-- A request which is accepted: the second word passed the checks, and its first bytes are the
file name. -/
theorem parseRequest_accepted {stream : List UInt8} {filename : CString}
    (h : parseRequest stream = ⟨0, some filename⟩) :
    ∃ buf target, fgets 2048 stream = some buf ∧ (requestWords buf)[1]? = some target ∧ target ≠ [] ∧
      ¬ bytes ".." <:+: target ∧ ¬ bytes "//" <:+: target ∧ filename = target.take 1023 := by
  rw [parseRequest] at h
  split at h
  · simp at h
  · rename_i buf hbuf
    split at h
    · rename_i command target rest hwords
      split at h
      · simp at h
      · split at h
        · simp at h
        · rename_i hclean
          rw [not_or] at hclean
          have hmem : target ∈ requestWords buf := by simp [hwords]
          have hname : target.take 1023 = filename := by simpa using h
          exact ⟨buf, target, hbuf, by rw [hwords]; rfl, (mem_tokens hmem).1, hclean.1, hclean.2,
            hname.symm⟩
    · simp at h

end Csci4061.WebServer
