import Csci4061.Lib.CArray
import Csci4061.Lib.Tokens

/-!
# The tokeniser of the C library

A call of `strtok` works on a buffer and a saved position in it. It overwrites the delimiter
after the token with NUL and moves the position behind it. The buffer is the list of its bytes
up to the terminator, so a string also ends at the end of the list.

As long as the bytes from the position on have no NUL, one call finds the first word of them,
and the words found before stay readable: later calls write behind the position only.
`FindsTokens` is what the loops have in common which call it again and again, and
`exists_tokensFound` says which tokens they find.
-/

namespace Csci4061.Lib

/-- The byte is one of the delimiters. -/
def separates (delims : CString) (c : UInt8) : Bool := delims.contains c

/-- One call of `strtok`, for the string at a position of a buffer: the start of the token or
`none`, the buffer and the saved position afterwards. -/
def strtok (delims : CString) (buf : List UInt8) (pos : ℕ) : Option ℕ × List UInt8 × ℕ :=
  let s := cString (buf.drop pos)
  let start := pos + (s.takeWhile (separates delims)).length
  let token := (s.dropWhile (separates delims)).takeWhile fun c => !separates delims c
  let stop := start + token.length
  if token = [] then (none, buf, start)
  else if stop = pos + s.length then (some start, buf, stop)
  else (some start, buf.set stop 0, stop + 1)

/-- A call at the end of a prefix, with the bytes after it split as the scan finds them. -/
theorem strtok_append {delims : CString} {pre skip token tail : List UInt8}
    (hzero : 0 ∉ skip ++ token ++ tail) (hskip : ∀ x ∈ skip, separates delims x = true)
    (htoken : ∀ x ∈ token, separates delims x = false)
    (htail : ∀ x ∈ (token ++ tail).head?, separates delims x = false)
    (hstop : ∀ x ∈ tail.head?, separates delims x = true) :
    strtok delims (pre ++ (skip ++ token ++ tail)) pre.length =
      if token = [] then (none, pre ++ (skip ++ token ++ tail), pre.length + skip.length)
      else if tail = [] then (some (pre.length + skip.length), pre ++ (skip ++ token),
        pre.length + skip.length + token.length)
      else (some (pre.length + skip.length), pre ++ skip ++ token ++ 0 :: tail.tail,
        pre.length + skip.length + token.length + 1) := by
  have hs : cString ((pre ++ (skip ++ token ++ tail)).drop pre.length) = skip ++ token ++ tail := by
    rw [List.drop_left, cString_of_not_mem hzero]
  have hbody : (token ++ tail).dropWhile (separates delims) = token ++ tail := by
    cases hb : token ++ tail with
    | nil => rfl
    | cons x xs => rw [List.dropWhile_cons_of_neg]; simpa [hb] using htail x (by simp [hb])
  have hbody' : (token ++ tail).takeWhile (separates delims) = [] := by
    cases hb : token ++ tail with
    | nil => rfl
    | cons x xs => rw [List.takeWhile_cons_of_neg]; simpa [hb] using htail x (by simp [hb])
  have hrun : (token ++ tail).takeWhile (fun c => !separates delims c) = token := by
    rw [List.takeWhile_append_of_pos (by simpa using htoken)]
    cases tail with
    | nil => simp
    | cons d rest => simp [hstop d (by simp)]
  have htake : (skip ++ token ++ tail).takeWhile (separates delims) = skip := by
    rw [List.append_assoc, List.takeWhile_append_of_pos hskip, hbody', List.append_nil]
  have hdrop : (skip ++ token ++ tail).dropWhile (separates delims) = token ++ tail := by
    rw [List.append_assoc, List.dropWhile_append_of_pos hskip, hbody]
  simp only [strtok, hs, htake, hdrop, hrun]
  split
  · rfl
  · cases tail with
    | nil => simp [Nat.add_assoc]
    | cons d rest =>
      rw [if_neg (by simp; omega), if_neg (by simp)]
      congr 2
      rw [← List.append_assoc, ← List.append_assoc, List.set_append_right _ _ (by simp; omega)]
      simp [Nat.add_assoc]

/-- What stands behind the terminator of the buffer does not matter. -/
theorem strtok_append_closed {delims : CString} {buf z : List UInt8} {pos : ℕ} (hpos : pos ≤ buf.length)
    (hzero : 0 ∉ buf.drop pos) (hz : ∀ c ∈ z.head?, c = 0) :
    strtok delims (buf ++ z) pos =
      ((strtok delims buf pos).1, (strtok delims buf pos).2.1 ++ z, (strtok delims buf pos).2.2) := by
  have hs : cString ((buf ++ z).drop pos) = cString (buf.drop pos) := by
    rw [List.drop_append_of_le_length hpos, cString_append_of_head hz]
  have hlength : (cString (buf.drop pos)).length = buf.length - pos := by
    rw [cString_of_not_mem hzero, List.length_drop]
  simp only [strtok, hs]
  generalize hstop : pos + ((cString (buf.drop pos)).takeWhile (separates delims)).length +
    (((cString (buf.drop pos)).dropWhile (separates delims)).takeWhile fun c =>
      !separates delims c).length = stop
  have hle : stop ≤ buf.length := by
    have hsplit := congrArg List.length
      (List.takeWhile_append_dropWhile (p := separates delims) (l := cString (buf.drop pos)))
    have htoken := (List.takeWhile_prefix (l := (cString (buf.drop pos)).dropWhile (separates delims))
      fun c => !separates delims c).length_le
    rw [List.length_append, hlength] at hsplit
    omega
  split
  · rfl
  · split
    · rfl
    · rw [List.set_append_left _ _ (by omega)]

/-- Without a word the call returns no token, and the buffer stays as it is. -/
theorem strtok_none {delims : CString} {pre rest : List UInt8} (hzero : 0 ∉ rest)
    (h : tokens (separates delims) rest = []) :
    strtok delims (pre ++ rest) pre.length = (none, pre ++ rest, pre.length + rest.length) := by
  have happend := @strtok_append delims pre rest [] [] (by simpa using hzero) (forall_of_tokens_eq_nil h)
    (by simp) (by simp) (by simp)
  simpa using happend

/-- The string at `start` is `t`, whatever the `n` bytes after `pre` are. -/
def HoldsToken (pre : List UInt8) (n start : ℕ) (t : CString) : Prop :=
  ∀ after : List UInt8, after.length = n → cString ((pre ++ after).drop start) = t

/-- A token stays where it is when the prefix grows within the buffer. -/
theorem HoldsToken.mono {pre pre' : List UInt8} {n n' start : ℕ} {t : CString}
    (h : HoldsToken pre n start t) (hgrow : pre <+: pre')
    (hlength : pre'.length + n' = pre.length + n) : HoldsToken pre' n' start t := by
  obtain ⟨added, rfl⟩ := hgrow
  intro after hafter
  rw [List.append_assoc]
  apply h
  rw [List.length_append] at hlength ⊢
  omega

/-- A token which is not empty starts inside the buffer. -/
theorem HoldsToken.start_le {pre after : List UInt8} {start : ℕ} {t : CString}
    (h : HoldsToken pre after.length start t) (hne : t ≠ []) : start ≤ (pre ++ after).length := by
  by_contra hpast
  have hstring := h after rfl
  rw [List.drop_eq_nil_of_le (by omega)] at hstring
  exact hne hstring.symm

/-- A token is also read if the buffer goes on behind a terminator. -/
theorem HoldsToken.append_closed {pre after z : List UInt8} {start : ℕ} {t : CString}
    (h : HoldsToken pre after.length start t) (hne : t ≠ []) (hz : ∀ c ∈ z.head?, c = 0) :
    cString ((pre ++ after ++ z).drop start) = t := by
  rw [List.drop_append_of_le_length (h.start_le hne), cString_append_of_head hz, h after rfl]

/-- The next call finds the first word, which it closes with a NUL unless it ends the buffer, and the
position moves behind it, to a longer prefix which holds the word from then on. -/
theorem strtok_first {delims : CString} {pre rest : List UInt8} (hzero : 0 ∉ rest)
    (hne : rest.dropWhile (separates delims) ≠ []) :
    let start := pre.length + (rest.takeWhile (separates delims)).length
    let token := (rest.dropWhile (separates delims)).takeWhile fun c => !separates delims c
    let after := ((rest.dropWhile (separates delims)).dropWhile fun c => !separates delims c).tail
    token ≠ [] ∧ after <:+ rest ∧ ∃ pre', strtok delims (pre ++ rest) pre.length = (some start,
      pre' ++ after, pre'.length) ∧
      pre <+: pre' ∧ pre'.length + after.length = pre.length + rest.length ∧
        HoldsToken pre' after.length start token := by
  intro start token after
  have hsplit : rest.takeWhile (separates delims) ++ token ++
      (rest.dropWhile (separates delims)).dropWhile (fun c => !separates delims c) = rest := by
    rw [List.append_assoc, List.takeWhile_append_dropWhile, List.takeWhile_append_dropWhile]
  have htokenNe : token ≠ [] := by
    obtain ⟨x, xs, hx⟩ := List.exists_cons_of_ne_nil hne
    have hx' : separates delims x = false := by
      simpa [hx] using List.head?_dropWhile_not (separates delims) rest
    have htake : token = x :: xs.takeWhile fun c => !separates delims c := by
      simp only [token, hx, List.takeWhile_cons, hx', Bool.not_false, if_true]
    rw [htake]
    exact List.cons_ne_nil _ _
  have hskip : ∀ c ∈ rest.takeWhile (separates delims), separates delims c = true :=
    fun c hc => List.mem_takeWhile_imp hc
  have htoken : ∀ c ∈ token, separates delims c = false := by
    intro c hc
    simpa using List.mem_takeWhile_imp hc
  have hafter : after = ((rest.dropWhile (separates delims)).dropWhile fun c =>
      !separates delims c).tail := rfl
  have hstart : start = pre.length + (rest.takeWhile (separates delims)).length := rfl
  have hstop : ∀ c ∈ ((rest.dropWhile (separates delims)).dropWhile fun c => !separates delims c).head?,
      separates delims c = true := by
    intro c hc
    have hhead := List.head?_dropWhile_not (fun c => !separates delims c)
        (rest.dropWhile (separates delims))
    rw [Option.mem_def.mp hc] at hhead
    simpa using hhead
  clear_value start token after
  generalize rest.takeWhile (separates delims) = skip at *
  generalize (rest.dropWhile (separates delims)).dropWhile (fun c => !separates delims c) = tail at *
  subst hafter hsplit
  have hhead : ∀ c ∈ (token ++ tail).head?, separates delims c = false := by
    intro c hc
    rw [List.head?_append_of_ne_nil _ htokenNe] at hc
    exact htoken c (List.mem_of_mem_head? hc)
  have hzeroToken : 0 ∉ token := fun hmem => hzero (by simp [hmem])
  have hcall := @strtok_append delims pre skip token tail hzero hskip htoken hhead hstop
  have hplace : start = (pre ++ skip).length := by rw [hstart, List.length_append]
  rw [if_neg htokenNe, ← hstart] at hcall
  refine ⟨htokenNe, (List.tail_suffix tail).trans (List.suffix_append _ _), ?_⟩
  cases tail with
  | nil =>
    refine ⟨pre ++ (skip ++ token), ?_, ⟨_, rfl⟩, by simp, fun behind hbehind => ?_⟩
    · rw [hcall, if_pos rfl, hstart]
      simp [Nat.add_assoc]
    · rw [List.length_eq_zero_iff.mp hbehind, List.append_nil, ← List.append_assoc, hplace,
        List.drop_left, cString_of_not_mem hzeroToken]
  | cons d tail =>
    refine ⟨pre ++ skip ++ token ++ [0], ?_, ⟨skip ++ token ++ [0], by simp⟩, ?_,
      fun behind hbehind => ?_⟩
    · rw [hcall, if_neg (List.cons_ne_nil d tail), hstart]
      simp [Nat.add_assoc]
    · simp only [List.length_append, List.length_cons, List.length_nil, List.tail_cons]
      omega
    · have hbuf : pre ++ skip ++ token ++ [0] ++ behind = (pre ++ skip) ++ (token ++ 0 :: behind) := by
        simp
      rw [hbuf, hplace, List.drop_left, cString_append_zero hzeroToken]

/-- The next call finds the first word, also if the buffer goes on behind a terminator. -/
theorem strtok_split {delims : CString} {pre rest z : List UInt8} (hzero : 0 ∉ rest)
    (hz : ∀ c ∈ z.head?, c = 0) (hne : rest.dropWhile (separates delims) ≠ []) :
    let token := (rest.dropWhile (separates delims)).takeWhile fun c => !separates delims c
    let after := ((rest.dropWhile (separates delims)).dropWhile fun c => !separates delims c).tail
    ∃ start pre', strtok delims (pre ++ rest ++ z) pre.length = (some start, pre' ++ after ++ z,
      pre'.length) ∧
      cString ((pre' ++ after ++ z).drop start) = token ∧ token ≠ [] ∧ 0 ∉ after ∧
        after.length < rest.length := by
  intro token after
  obtain ⟨htokenNe, hsuffix, pre', hcall, -, -, hholds⟩ := @strtok_first delims pre rest hzero hne
  have hshort : after.length < rest.length := by
    have hword := List.length_pos_of_ne_nil hne
    have hbehind := (List.dropWhile_sublist (l := rest.dropWhile (separates delims))
      fun c => !separates delims c).length_le
    have hskipped := (List.dropWhile_sublist (l := rest) (separates delims)).length_le
    simp only [after, List.length_tail]
    omega
  refine ⟨pre.length + (rest.takeWhile (separates delims)).length, pre', ?_,
    hholds.append_closed htokenNe hz, htokenNe, fun hmem => hzero (hsuffix.subset hmem), hshort⟩
  rw [strtok_append_closed (by simp) (by rwa [List.drop_left]) hz, hcall]

/-- The next call finds the first word, at its place in the string. The position moves to a longer
prefix, which holds the token from then on, and what is left is a rest of the string with the other
words. -/
theorem strtok_token_at {delims : CString} {pre rest : List UInt8} {t : CString} {ts : List CString}
    (hzero : 0 ∉ rest) (h : tokens (separates delims) rest = t :: ts) :
    ∃ pre' rest', strtok delims (pre ++ rest) pre.length =
        (some (pre.length + (rest.takeWhile (separates delims)).length), pre' ++ rest', pre'.length) ∧
      tokens (separates delims) rest' = ts ∧ pre <+: pre' ∧ pre'.length + rest'.length = pre.length +
        rest.length ∧
      HoldsToken pre' rest'.length (pre.length + (rest.takeWhile (separates delims)).length) t ∧
        rest' <:+ rest ∧
      ∀ k, fromToken (separates delims) k rest' = fromToken (separates delims) (k + 1) rest := by
  have hne : rest.dropWhile (separates delims) ≠ [] := fun hnil =>
    List.cons_ne_nil t ts (h.symm.trans (tokens_of_dropWhile_eq_nil hnil))
  obtain ⟨-, hsuffix, pre', hcall, hgrow, hlength, hholds⟩ := @strtok_first delims pre rest hzero hne
  rw [tokens_of_dropWhile_ne_nil hne] at h
  obtain ⟨rfl, rfl⟩ := List.cons.inj h
  exact ⟨pre', _, hcall, rfl, hgrow, hlength, hholds, hsuffix,
    fun k => (fromToken_succ_tail k rest).symm⟩

/-- The next call finds the first word. The position moves to a longer prefix, which holds the
token from then on, and the other words are still to come. -/
theorem strtok_token {delims : CString} {pre rest : List UInt8} {t : CString} {ts : List CString}
    (hzero : 0 ∉ rest) (h : tokens (separates delims) rest = t :: ts) :
    ∃ start pre' rest', strtok delims (pre ++ rest) pre.length = (some start, pre' ++ rest',
      pre'.length) ∧ 0 ∉ rest' ∧ tokens (separates delims) rest' = ts ∧ pre <+: pre' ∧
      pre'.length + rest'.length = pre.length + rest.length ∧ HoldsToken pre' rest'.length start t := by
  obtain ⟨pre', rest', hcall, hwords, hgrow, hlength, hholds, hsuffix, -⟩ :=
    @strtok_token_at delims pre rest t ts hzero h
  exact ⟨_, pre', rest', hcall, fun hmem => hzero (hsuffix.subset hmem), hwords, hgrow, hlength, hholds⟩

/-- Calls of `strtok`, one after another from a position behind `pre` on, which find tokens at these
starts and leave the position behind a longer prefix. -/
inductive FindsTokens (delims : CString) :
    List UInt8 → List UInt8 → List ℕ → List UInt8 → List UInt8 → Prop
  | none (pre rest : List UInt8) : FindsTokens delims pre rest [] pre rest
  | token {pre rest pre₁ rest₁ pre₂ rest₂ : List UInt8} {start : ℕ} {starts : List ℕ}
    (no_zero : 0 ∉ rest)
      (call : strtok delims (pre ++ rest) pre.length = (some start, pre₁ ++ rest₁, pre₁.length))
      (next : FindsTokens delims pre₁ rest₁ starts pre₂ rest₂) :
        FindsTokens delims pre rest (start :: starts) pre₂ rest₂

/-- These are the places of the words of a string which begins at `place`. -/
def Placed (delims : CString) (place : ℕ) (rest : List UInt8) (starts : List ℕ) : Prop :=
  ∀ i start, starts[i]? = some start →
    ∃ n, start = place + n ∧ rest.drop n = fromToken (separates delims) i rest

/-- The first word stands behind the delimiters before it, and the other words in what is left. -/
theorem Placed.cons {delims : CString} {pre pre' rest rest' : List UInt8} {starts : List ℕ}
    (hplaced : Placed delims pre'.length rest' starts) (hgrow : pre <+: pre')
    (hlength : pre'.length + rest'.length = pre.length + rest.length) (hsuffix : rest' <:+ rest)
    (hleft : ∀ k, fromToken (separates delims) k rest' = fromToken (separates delims) (k + 1) rest) :
    Placed delims pre.length rest ((pre.length + (rest.takeWhile (separates delims)).length) ::
      starts) := by
  have hlonger := hgrow.length_le
  have hshorter := hsuffix.length_le
  have hrest : rest.drop (pre'.length - pre.length) = rest' := by
    rw [List.suffix_iff_eq_drop.mp hsuffix]
    congr 1
    omega
  intro i start hstart
  cases i with
  | zero =>
    obtain rfl := Option.some.inj hstart
    refine ⟨_, rfl, ?_⟩
    have hsplit : rest.takeWhile (separates delims) ++ rest.dropWhile (separates delims) = rest :=
      List.takeWhile_append_dropWhile
    calc rest.drop (rest.takeWhile (separates delims)).length
        = (rest.takeWhile (separates delims) ++ rest.dropWhile (separates delims)).drop
            (rest.takeWhile (separates delims)).length := by rw [hsplit]
      _ = rest.dropWhile (separates delims) := List.drop_left
  | succ i =>
    obtain ⟨n, rfl, hn⟩ := hplaced i start hstart
    refine ⟨pre'.length - pre.length + n, by omega, ?_⟩
    rw [← List.drop_drop, hrest, hn, hleft]

/-- What calls leave which find some words: the words stay readable, and they stand where they do in the
string. -/
structure TokensFound (delims : CString) (pre rest : List UInt8) (starts : List ℕ) (words : List CString)
    (pre' rest' : List UInt8) : Prop where
  calls : FindsTokens delims pre rest starts pre' rest'
  no_zero : 0 ∉ rest'
  grow : pre <+: pre'
  length : pre'.length + rest'.length = pre.length + rest.length
  holds : List.Forall₂ (HoldsToken pre' rest'.length) starts words
  placed : Placed delims pre.length rest starts

/-- Any first words of a string are found by as many calls, and the other words are left. -/
theorem exists_tokensFound {delims : CString} {pre rest : List UInt8} {words left : List CString}
    (hzero : 0 ∉ rest) (hwords : tokens (separates delims) rest = words ++ left) :
    ∃ starts pre' rest', TokensFound delims pre rest starts words pre' rest' ∧
      tokens (separates delims) rest' = left := by
  induction words generalizing pre rest with
  | nil =>
    refine ⟨[], pre, rest, ⟨.none pre rest, hzero, List.prefix_rfl, rfl, .nil, ?_⟩, hwords⟩
    intro i start hstart
    exact absurd hstart (by simp)
  | cons word words ih =>
    obtain ⟨pre₁, rest₁, hcall, hwords₁, hgrow, hlength, hholds, hsuffix, hleft⟩ :=
      @strtok_token_at delims pre rest word (words ++ left) hzero hwords
    have hzero₁ : 0 ∉ rest₁ := fun hmem => hzero (hsuffix.subset hmem)
    obtain ⟨starts, pre₂, rest₂, hfound, hleft₂⟩ := @ih pre₁ rest₁ hzero₁ hwords₁
    refine ⟨(pre.length + (rest.takeWhile (separates delims)).length) :: starts, pre₂, rest₂, ?_, hleft₂⟩
    exact {
      calls := .token hzero hcall hfound.calls
      no_zero := hfound.no_zero
      grow := hgrow.trans hfound.grow
      length := hfound.length.trans hlength
      holds := .cons (hholds.mono hfound.grow hfound.length) hfound.holds
      placed := hfound.placed.cons hgrow hlength hsuffix hleft }

/-- All words of a string are found. -/
theorem exists_allTokensFound {delims : CString} {rest : List UInt8} (pre : List UInt8)
    (hzero : 0 ∉ rest) :
    ∃ starts pre' rest', TokensFound delims pre rest starts (tokens (separates delims) rest) pre' rest' ∧
      tokens (separates delims) rest' = [] := exists_tokensFound hzero (List.append_nil _).symm

/-- The tokens are the strings at their starts. -/
theorem TokensFound.map_eq {delims : CString} {pre rest pre' rest' : List UInt8} {starts : List ℕ}
    {words : List CString} (h : TokensFound delims pre rest starts words pre' rest') :
    starts.map (fun start => cString ((pre' ++ rest').drop start)) = words := by
  rw [← List.forall₂_eq_eq_eq, List.forall₂_map_left_iff]
  exact h.holds.imp fun start word hholds => hholds rest' rfl

end Csci4061.Lib
