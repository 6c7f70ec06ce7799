import Mathlib.Data.List.Basic
import Mathlib.Data.List.DropRight
import Mathlib.Data.List.TakeWhile

/-!
# Splitting a list into words

The words of a list are its maximal runs of elements which are not separators. They are what is
left of the pieces between the separators when the empty ones are dropped, so a run of
separators counts as one, and leading and trailing separators do not count.

`wordInduction` is the matching induction: a list is a run without separators, or such a run
followed by a separator and a shorter list.
-/

namespace Csci4061.Lib

variable {α : Type*} {p : α → Bool}

/-- The maximal runs of elements which are not separators. -/
def tokens (p : α → Bool) (s : List α) : List (List α) := (s.splitOnP p).filter fun t => !t.isEmpty

/-- What is left of a list from the word with a number on, counted from `0`. -/
def fromToken (p : α → Bool) : ℕ → List α → List α
  | 0, s => s.dropWhile p
  | k + 1, s => fromToken p k ((s.dropWhile p).dropWhile fun x => !p x)

/-- Elements at even places are no separators and those at odd places are, from a first to a last element
which are none. -/
def Alternates (p : α → Bool) (s : List α) : Prop :=
  s.length % 2 = 1 ∧ ∀ i x, s[i]? = some x → (p x = true ↔ i % 2 = 1)

/-- Induction along the separators of a list. -/
theorem wordInduction {motive : List α → Prop} (word : ∀ xs, (∀ x ∈ xs, p x = false) → motive xs)
    (separator : ∀ xs d rest, (∀ x ∈ xs, p x = false) → p d = true → motive rest →
      motive (xs ++ d :: rest))
    (s : List α) : motive s := by
  induction hn : s.length using Nat.strong_induction_on generalizing s with
  | _ n ih =>
    have hword : ∀ x ∈ s.takeWhile fun x => !p x, p x = false := by
      intro x hx
      simpa using List.mem_takeWhile_imp hx
    have hsplit : (s.takeWhile fun x => !p x) ++ (s.dropWhile fun x => !p x) = s :=
      List.takeWhile_append_dropWhile
    cases hrest : s.dropWhile fun x => !p x with
    | nil =>
      rw [hrest, List.append_nil] at hsplit
      exact hsplit ▸ word _ hword
    | cons d rest =>
      have hd : p d = true := by simpa [hrest] using List.head?_dropWhile_not (fun x => !p x) s
      rw [hrest] at hsplit
      have hlength := congrArg List.length hsplit
      rw [List.length_append, List.length_cons] at hlength
      rw [← hsplit]
      exact separator _ d rest hword hd (ih rest.length (by omega) rest rfl)

/-- Splitting at a separator. -/
theorem tokens_append_cons (xs : List α) {d : α} (hd : p d = true) (rest : List α) :
    tokens p (xs ++ d :: rest) = tokens p xs ++ tokens p rest := by
  rw [tokens, List.splitOnP_append_cons xs rest hd, List.filter_append, ← tokens, ← tokens]

/-- The empty list has no words. -/
@[simp] theorem tokens_nil : tokens p ([] : List α) = [] := rfl

/-- A run without separators is one word. -/
theorem tokens_word {xs : List α} (hne : xs ≠ []) (h : ∀ x ∈ xs, p x = false) : tokens p xs = [xs] := by
  simp [tokens, List.splitOnP_eq_singleton h, hne]

/-- Words are not empty and are separated, so there are at most half as many as elements. -/
theorem two_mul_length_tokens_le (s : List α) : 2 * (tokens p s).length ≤ s.length + 1 := by
  have hword (xs : List α) (h : ∀ x ∈ xs, p x = false) : 2 * (tokens p xs).length ≤ xs.length + 1 := by
    cases xs with
    | nil => simp
    | cons x xs =>
      rw [tokens_word (List.cons_ne_nil x xs) h, List.length_singleton, List.length_cons]
      omega
  induction s using wordInduction (p := p) with
  | word xs h => exact hword xs h
  | separator xs d rest h hd ih =>
    have hfirst := hword xs h
    rw [tokens_append_cons xs hd, List.length_append, List.length_append, List.length_cons]
    omega

/-- A run without separators is one word, or it is empty. -/
theorem tokens_word_eq {xs : List α} (h : ∀ x ∈ xs, p x = false) :
    tokens p xs = if xs = [] then [] else [xs] := by
  split
  · rename_i heq
    rw [heq, tokens_nil]
  · rename_i hne
    exact tokens_word hne h

/-- A leading separator does not count. -/
theorem tokens_cons {d : α} (hd : p d = true) (rest : List α) :
    tokens p (d :: rest) = tokens p rest := by
  simpa using tokens_append_cons [] hd rest

/-- A word which ends at a separator, or at the end of the list. -/
theorem tokens_word_append {xs rest : List α} (hne : xs ≠ []) (h : ∀ x ∈ xs, p x = false)
    (hrest : ∀ d ∈ rest.head?, p d = true) : tokens p (xs ++ rest) = xs :: tokens p rest := by
  cases rest with
  | nil => rw [List.append_nil, tokens_word hne h, tokens_nil]
  | cons d rest =>
    have hd : p d = true := hrest d rfl
    rw [tokens_append_cons xs hd, tokens_word hne h, tokens_cons hd, List.singleton_append]

/-- Leading separators do not count. -/
theorem tokens_skip {skip : List α} (h : ∀ x ∈ skip, p x = true) (rest : List α) :
    tokens p (skip ++ rest) = tokens p rest := by
  induction skip with
  | nil => rfl
  | cons d skip ih =>
    rw [List.cons_append, tokens_cons (h d List.mem_cons_self)]
    exact ih fun x hx => h x (List.mem_cons_of_mem d hx)

/-- Dropping the leading separators keeps the words. -/
theorem tokens_dropWhile (s : List α) : tokens p (s.dropWhile p) = tokens p s := by
  have hsplit : s.takeWhile p ++ s.dropWhile p = s := List.takeWhile_append_dropWhile
  calc tokens p (s.dropWhile p) = tokens p (s.takeWhile p ++ s.dropWhile p) :=
        (tokens_skip (fun x hx => List.mem_takeWhile_imp hx) _).symm
    _ = tokens p s := by rw [hsplit]

/-- A run without separators alternates if it has one element. -/
theorem alternates_word_iff {xs : List α} (h : ∀ x ∈ xs, p x = false) :
    Alternates p xs ↔ xs.length = 1 := by
  constructor
  · rintro ⟨hodd, hplace⟩
    by_contra hne
    have hlong : 1 < xs.length := by omega
    have hsecond := (hplace 1 xs[1] (List.getElem?_eq_getElem hlong)).mpr rfl
    exact absurd (hsecond.symm.trans (h _ (List.getElem_mem hlong))) Bool.noConfusion
  · intro hone
    obtain ⟨x, rfl⟩ := List.length_eq_one_iff.mp hone
    refine ⟨rfl, fun i y hy => ?_⟩
    obtain ⟨rfl, rfl⟩ : i = 0 ∧ x = y := by simpa [List.getElem?_singleton] using hy
    simp [h x List.mem_cons_self]

/-- Up to its first separator an alternating list has one element. -/
theorem alternates_append_cons_iff {xs rest : List α} {d : α} (h : ∀ x ∈ xs, p x = false)
    (hd : p d = true) :
    Alternates p (xs ++ d :: rest) ↔ xs.length = 1 ∧ Alternates p rest := by
  have hlength : (xs ++ d :: rest).length = xs.length + (rest.length + 1) := by
    rw [List.length_append, List.length_cons]
  constructor
  · rintro ⟨hodd, hplace⟩
    have hone : xs.length = 1 := by
      have hsep := (hplace xs.length d (by simp)).mp hd
      by_contra hne
      have hlong : 1 < xs.length := by omega
      have hsecond := (hplace 1 xs[1]
          (by rw [List.getElem?_append_left hlong, List.getElem?_eq_getElem hlong])).mpr rfl
      exact absurd (hsecond.symm.trans (h _ (List.getElem_mem hlong))) Bool.noConfusion
    refine ⟨hone, by omega, fun i x hx => ?_⟩
    have hshift := hplace (i + 2) x (by
      rw [List.getElem?_append_right (by omega), hone]
      exact hx)
    rw [hshift]
    omega
  · rintro ⟨hone, hodd, hplace⟩
    refine ⟨by omega, fun i x hx => ?_⟩
    obtain ⟨y, rfl⟩ := List.length_eq_one_iff.mp hone
    cases i with
    | zero =>
      obtain rfl := Option.some.inj hx
      simp [h y List.mem_cons_self]
    | succ i =>
      cases i with
      | zero =>
        obtain rfl := Option.some.inj hx
        simp [hd]
      | succ i =>
        have hshift := hplace i x hx
        rw [hshift]
        omega

/-- A list has the largest number of words for its length exactly if it alternates. -/
theorem two_mul_length_tokens_eq_iff (s : List α) :
    2 * (tokens p s).length = s.length + 1 ↔ Alternates p s := by
  have hword (xs : List α) (h : ∀ x ∈ xs, p x = false) :
      2 * (tokens p xs).length = xs.length + 1 ↔ xs.length = 1 := by
    rw [tokens_word_eq h]
    split
    · rename_i hempty
      simp [hempty]
    · rw [List.length_singleton]
      omega
  induction s using wordInduction (p := p) with
  | word xs hxs => rw [hword xs hxs, alternates_word_iff hxs]
  | separator xs d rest hxs hd ih =>
    have hfirst := two_mul_length_tokens_le (p := p) xs
    have hrest := two_mul_length_tokens_le (p := p) rest
    have halternates : 2 * (tokens p rest).length = rest.length + 1 ↔ Alternates p rest := ih
    rw [alternates_append_cons_iff hxs hd, ← halternates, ← hword xs hxs, tokens_append_cons xs hd,
      List.length_append, List.length_append, List.length_cons]
    omega

/-- A list has no more words than elements. -/
theorem length_tokens_le (s : List α) : (tokens p s).length ≤ s.length := by
  have hhalf := two_mul_length_tokens_le (p := p) s
  omega

/-- A list without words has separators only. -/
theorem forall_of_tokens_eq_nil {s : List α} (h : tokens p s = []) : ∀ x ∈ s, p x = true := by
  induction s using wordInduction (p := p) with
  | word xs hxs =>
    rw [tokens_word_eq hxs] at h
    split at h
    · rename_i heq
      simp [heq]
    · exact absurd h (List.cons_ne_nil _ _)
  | separator xs d rest hxs hd ih =>
    rw [tokens_append_cons xs hd, tokens_word_eq hxs, List.append_eq_nil_iff] at h
    have hempty : xs = [] := by
      by_contra hne
      rw [if_neg hne] at h
      exact absurd h.1 (List.cons_ne_nil _ _)
    subst hempty
    intro x hx
    rcases List.mem_cons.mp hx with rfl | hmem
    · exact hd
    · exact ih h.2 x hmem

/-- The first word, between the separators before it and what follows it. -/
theorem tokens_eq_cons {s t : List α} {ts : List (List α)} (h : tokens p s = t :: ts) :
    ∃ skip tail, s = skip ++ t ++ tail ∧ (∀ x ∈ skip, p x = true) ∧ t ≠ [] ∧ (∀ x ∈ t, p x = false) ∧
      (tail = [] ∧ ts = [] ∨ ∃ d rest, tail = d :: rest ∧ p d = true ∧ ts = tokens p rest) := by
  induction s using wordInduction (p := p) with
  | word xs hxs =>
    rw [tokens_word_eq hxs] at h
    split at h
    · exact absurd h (List.cons_ne_nil _ _).symm
    · rename_i hne
      obtain ⟨rfl, rfl⟩ := List.cons.inj h
      exact ⟨[], [], by simp, by simp, hne, hxs, Or.inl ⟨rfl, rfl⟩⟩
  | separator xs d rest hxs hd ih =>
    rw [tokens_append_cons xs hd, tokens_word_eq hxs] at h
    by_cases hempty : xs = []
    · subst hempty
      obtain ⟨skip, tail, rfl, hskip, hne, hno, htail⟩ := ih h
      refine ⟨d :: skip, tail, rfl, ?_, hne, hno, htail⟩
      intro x hx
      rcases List.mem_cons.mp hx with rfl | hmem
      · exact hd
      · exact hskip x hmem
    · rw [if_neg hempty] at h
      obtain ⟨rfl, rfl⟩ := List.cons.inj h
      exact ⟨[], d :: rest, rfl, by simp, hempty, hxs, Or.inr ⟨d, rest, rfl, hd, rfl⟩⟩

/-- The scan for the words: the first one, and the words behind the separator after it. -/
theorem tokens_of_dropWhile_ne_nil {s : List α} (h : s.dropWhile p ≠ []) :
    tokens p s = (s.dropWhile p).takeWhile (fun x => !p x) ::
      tokens p ((s.dropWhile p).dropWhile fun x => !p x).tail := by
  have hword : ∀ x ∈ (s.dropWhile p).takeWhile fun x => !p x, p x = false := by
    intro x hx
    simpa using List.mem_takeWhile_imp hx
  have hsplit : (s.dropWhile p).takeWhile (fun x => !p x) ++ (s.dropWhile p).dropWhile
      (fun x => !p x) = s.dropWhile p :=
    List.takeWhile_append_dropWhile
  have hne : (s.dropWhile p).takeWhile (fun x => !p x) ≠ [] := by
    obtain ⟨x, xs, hx⟩ := List.exists_cons_of_ne_nil h
    have hhead := List.head?_dropWhile_not p s
    simp only [hx, List.head?_cons] at hhead
    rw [hx, List.takeWhile_cons_of_pos (by simp [hhead])]
    exact List.cons_ne_nil _ _
  rw [← tokens_dropWhile]
  conv_lhs => rw [← hsplit]
  cases hrest : (s.dropWhile p).dropWhile fun x => !p x with
  | nil => rw [List.append_nil, tokens_word hne hword, List.tail_nil, tokens_nil]
  | cons d rest =>
    have hd : p d = true := by
      simpa [hrest] using List.head?_dropWhile_not (fun x => !p x) (s.dropWhile p)
    rw [tokens_append_cons _ hd, tokens_word hne hword, List.tail_cons, List.singleton_append]

/-- A list of separators has no words. -/
theorem tokens_of_dropWhile_eq_nil {s : List α} (h : s.dropWhile p = []) : tokens p s = [] := by
  rw [← tokens_dropWhile, h, tokens_nil]

/-- A word is not empty, has no separator and stands in the list. -/
theorem mem_tokens {s t : List α} (h : t ∈ tokens p s) : t ≠ [] ∧ (∀ x ∈ t, p x = false) ∧ t <:+: s := by
  induction s using wordInduction (p := p) with
  | word xs hxs =>
    rw [tokens_word_eq hxs] at h
    split at h
    · exact absurd h List.not_mem_nil
    · rename_i hne
      obtain rfl := List.mem_singleton.mp h
      exact ⟨hne, hxs, List.infix_rfl⟩
  | separator xs d rest hxs hd ih =>
    rw [tokens_append_cons xs hd, List.mem_append, tokens_word_eq hxs] at h
    rcases h with hword | hrest
    · split at hword
      · exact absurd hword List.not_mem_nil
      · rename_i hne
        obtain rfl := List.mem_singleton.mp hword
        exact ⟨hne, hxs, (List.prefix_append _ _).isInfix⟩
    · obtain ⟨hne, hno, hwithin⟩ := ih hrest
      exact ⟨hne, hno, hwithin.trans ((List.suffix_cons d rest).trans (List.suffix_append xs _)).isInfix⟩

/-- An element which is not a separator stands in a word. -/
theorem exists_mem_tokens {s : List α} {x : α} (h : x ∈ s) (hx : p x = false) :
    ∃ t ∈ tokens p s, x ∈ t := by
  induction s using wordInduction (p := p) with
  | word xs hxs =>
    exact ⟨xs, by rw [tokens_word (List.ne_nil_of_mem h) hxs]; exact List.mem_cons_self, h⟩
  | separator xs d rest hxs hd ih =>
    rw [tokens_append_cons xs hd]
    rcases List.mem_append.mp h with hmem | hmem
    · refine ⟨xs, List.mem_append_left _ ?_, hmem⟩
      rw [tokens_word (List.ne_nil_of_mem hmem) hxs]
      exact List.mem_cons_self
    · rcases List.mem_cons.mp hmem with rfl | hrest
      · exact absurd (hx.symm.trans hd) Bool.false_ne_true
      · obtain ⟨t, ht, hxt⟩ := ih hrest
        exact ⟨t, List.mem_append_right _ ht, hxt⟩

/-- The words of a prefix are the words of the list, except that the last one may be cut. -/
theorem getElem?_tokens_of_prefix {s s' t' : List α} {i : ℕ} (h : s' <+: s)
    (ht : (tokens p s')[i]? = some t') :
    ∃ t, (tokens p s)[i]? = some t ∧ t' <+: t := by
  obtain ⟨zs, rfl⟩ := h
  induction s' using wordInduction (p := p) generalizing i with
  | word xs hxs =>
    rw [tokens_word_eq hxs] at ht
    split at ht
    · exact absurd ht (by simp)
    · rename_i hne
      obtain ⟨rfl, rfl⟩ : i = 0 ∧ xs = t' := by simpa [List.getElem?_singleton] using ht
      have hword : ∀ x ∈ xs ++ zs.takeWhile fun x => !p x, p x = false := by
        intro x hx
        rcases List.mem_append.mp hx with hmem | hmem
        · exact hxs x hmem
        · simpa using List.mem_takeWhile_imp hmem
      have hrest : ∀ d ∈ (zs.dropWhile fun x => !p x).head?, p d = true := by
        intro d hd
        have hhead := List.head?_dropWhile_not (fun x => !p x) zs
        rw [Option.mem_def.mp hd] at hhead
        simpa using hhead
      have hsplit : xs ++ zs = (xs ++ zs.takeWhile fun x => !p x) ++ zs.dropWhile fun x => !p x := by
        rw [List.append_assoc, List.takeWhile_append_dropWhile]
      rw [hsplit, tokens_word_append (by simp [hne]) hword hrest]
      exact ⟨_, rfl, List.prefix_append _ _⟩
  | separator xs d rest hxs hd ih =>
    rw [tokens_append_cons xs hd, List.getElem?_append] at ht
    rw [List.append_assoc, List.cons_append, tokens_append_cons xs hd, List.getElem?_append]
    split
    · rename_i hlt
      rw [if_pos hlt] at ht
      exact ⟨t', ht, List.prefix_rfl⟩
    · rename_i hge
      rw [if_neg hge] at ht
      exact ih ht

/-- Only what separates the elements of the list matters. -/
theorem tokens_congr {q : α → Bool} {s : List α} (h : ∀ x ∈ s, p x = q x) : tokens p s = tokens q s := by
  induction s using wordInduction (p := p) with
  | word xs hxs =>
    have hxs' : ∀ x ∈ xs, q x = false := fun x hx => (h x hx).symm.trans (hxs x hx)
    rw [tokens_word_eq hxs, tokens_word_eq hxs']
  | separator xs d rest hxs hd ih =>
    have hxs' : ∀ x ∈ xs, q x = false := fun x hx => (h x (by simp [hx])).symm.trans (hxs x hx)
    have hd' : q d = true := (h d (by simp)).symm.trans hd
    rw [tokens_append_cons xs hd, tokens_append_cons xs hd', tokens_word_eq hxs, tokens_word_eq hxs',
      ih fun x hx => h x (by simp [hx])]

/-- Dropping the leading separators keeps what is left from a word on. -/
theorem fromToken_dropWhile (k : ℕ) (s : List α) : fromToken p k (s.dropWhile p) = fromToken p k s := by
  have hagain : (s.dropWhile p).dropWhile p = s.dropWhile p := List.dropWhile_idempotent p s
  cases k with
  | zero => rw [fromToken, fromToken, hagain]
  | succ k => rw [fromToken, fromToken, hagain]

/-- Leading separators do not count. -/
theorem fromToken_cons {d : α} (hd : p d = true) (k : ℕ) (rest : List α) :
    fromToken p k (d :: rest) = fromToken p k rest := by
  cases k with
  | zero => rw [fromToken, fromToken, List.dropWhile_cons_of_pos hd]
  | succ k => rw [fromToken, fromToken, List.dropWhile_cons_of_pos hd]

/-- Behind its separators and its first word a list has one word less. -/
theorem fromToken_succ {skip t rest : List α} {d : α} (hskip : ∀ x ∈ skip, p x = true) (hne : t ≠ [])
    (ht : ∀ x ∈ t, p x = false) (hd : p d = true) (k : ℕ) :
    fromToken p (k + 1) (skip ++ t ++ d :: rest) = fromToken p k rest := by
  have hword : (skip ++ t ++ d :: rest).dropWhile p = t ++ d :: rest := by
    obtain ⟨x, xs, rfl⟩ := List.exists_cons_of_ne_nil hne
    rw [List.append_assoc, List.dropWhile_append_of_pos hskip, List.cons_append,
      List.dropWhile_cons_of_neg (by simp [ht x List.mem_cons_self])]
  have hbehind : (t ++ d :: rest).dropWhile (fun x => !p x) = d :: rest := by
    rw [List.dropWhile_append_of_pos (by simpa using ht), List.dropWhile_cons_of_neg (by simp [hd])]
  rw [fromToken, hword, hbehind, fromToken_cons hd]

/-- The separator behind the first word does not count. -/
theorem fromToken_succ_tail (k : ℕ) (s : List α) :
    fromToken p (k + 1) s = fromToken p k ((s.dropWhile p).dropWhile fun x => !p x).tail := by
  rw [fromToken]
  cases hrest : (s.dropWhile p).dropWhile fun x => !p x with
  | nil => rfl
  | cons d rest =>
    have hd : p d = true := by
      simpa [hrest] using List.head?_dropWhile_not (fun x => !p x) (s.dropWhile p)
    rw [fromToken_cons hd, List.tail_cons]

end Csci4061.Lib
