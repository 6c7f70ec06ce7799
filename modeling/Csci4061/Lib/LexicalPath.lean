import Csci4061.Lib.CArray
import Csci4061.Lib.Tokens

/-!
# Paths resolved by their text alone

A path is resolved without looking at a file system: repeated slashes count as one, `.` is
dropped and `..` removes the component before it. Symbolic links play no role.

`NormalPath` is an absolute path to which nothing of this applies, with at least one component.
Appending a text without `..` to it stays below it exactly when the text starts with a slash:
otherwise the text continues the last component.
-/

namespace Csci4061.Lib

/-- The byte is a slash. -/
def isSlash (c : UInt8) : Bool := c == 0x2F

/-- The components of a path: what stands between its slashes. -/
def components (path : CString) : List CString := tokens isSlash path

/-- Add a component to the resolved ones. -/
def pushComponent (resolved : List CString) (c : CString) : List CString :=
  if c = bytes "." then resolved else if c = bytes ".." then resolved.dropLast else resolved ++ [c]

/-- The components which are left when `.` and `..` are resolved. -/
def resolve (path : CString) : List CString := (components path).foldl pushComponent []

/-- The name of a directory entry. -/
structure IsName (c : CString) : Prop where
  ne_nil : c ≠ []
  no_slash : ∀ x ∈ c, isSlash x = false
  ne_dot : c ≠ bytes "."
  ne_dots : c ≠ bytes ".."

/-- An absolute, normalised path below the root directory, without a trailing slash. -/
structure NormalPath where
  parents : List CString
  name : CString
  isName : ∀ c ∈ parents ++ [name], IsName c

/-- The components of a normalised path. -/
def NormalPath.names (path : NormalPath) : List CString := path.parents ++ [path.name]

/-- Each of them is a name. -/
theorem NormalPath.isName_names (path : NormalPath) : ∀ c ∈ path.names, IsName c := path.isName

/-- The text of names with a slash before each of them. -/
def joinNames (names : List CString) : CString := names.flatMap fun c => 0x2F :: c

/-- The text of a normalised path. -/
def NormalPath.text (path : NormalPath) : CString := joinNames path.names

/-- The components of names which are followed by a slash or by nothing. -/
theorem components_joinNames {names : List CString} (h : ∀ c ∈ names, IsName c) {rest : CString}
    (hrest : ∀ d ∈ rest.head?, isSlash d = true) :
    components (joinNames names ++ rest) = names ++ components rest := by
  induction names with
  | nil => rfl
  | cons c names ih =>
    have hc := h c List.mem_cons_self
    have hnext : ∀ d ∈ (joinNames names ++ rest).head?, isSlash d = true := by
      cases names with
      | nil => exact hrest
      | cons c' names =>
        intro d hd
        obtain rfl : 0x2F = d := by simpa [joinNames] using hd
        rfl
    have htext : joinNames (c :: names) ++ rest = 0x2F :: (c ++ (joinNames names ++ rest)) := by
      simp [joinNames]
    rw [htext, components, tokens_cons (by rfl), tokens_word_append hc.ne_nil hc.no_slash hnext,
      ← components, ih fun c' hc' => h c' (List.mem_cons_of_mem c hc')]
    rfl

/-- Without `..` resolving only drops the components `.`. -/
theorem foldl_pushComponent {cs : List CString} (h : bytes ".." ∉ cs) (resolved : List CString) :
    cs.foldl pushComponent resolved = resolved ++ cs.filter (· ≠ bytes ".") := by
  induction cs generalizing resolved with
  | nil => simp
  | cons c cs ih =>
    have hc : c ≠ bytes ".." := fun heq => h (heq ▸ List.mem_cons_self)
    have hcs : bytes ".." ∉ cs := fun hmem => h (List.mem_cons_of_mem c hmem)
    rw [List.foldl_cons, ih hcs, pushComponent, if_neg hc]
    by_cases hdot : c = bytes "."
    · simp [hdot]
    · simp [hdot]

/-- Names are resolved already. -/
theorem filter_names {names : List CString} (h : ∀ c ∈ names, IsName c) :
    names.filter (· ≠ bytes ".") = names := by
  rw [List.filter_eq_self]
  intro c hc
  simpa using (h c hc).ne_dot

/-- `..` is not a name. -/
theorem dots_not_mem_names {names : List CString} (h : ∀ c ∈ names, IsName c) : bytes ".." ∉ names :=
  fun hmem => (h _ hmem).ne_dots rfl

/-- A component of a text which does not contain `..` is not `..`. -/
theorem dots_not_mem_components {text : CString} (h : ¬ bytes ".." <:+: text) :
    bytes ".." ∉ components text :=
  fun hmem => h (mem_tokens hmem).2.2

/-- A normalised path resolves to its components. -/
theorem NormalPath.resolve_text (path : NormalPath) : resolve path.text = path.names := by
  have hcomponents : components path.text = path.names := by
    have happend := @components_joinNames path.names path.isName_names [] (by simp)
    simpa [components, NormalPath.text] using happend
  rw [resolve, hcomponents, foldl_pushComponent (dots_not_mem_names path.isName_names),
    filter_names path.isName_names]
  rfl

/-- A text which starts with a slash is resolved below the path. -/
theorem NormalPath.resolve_append_slash (path : NormalPath) {text : CString}
    (hdots : ¬ bytes ".." <:+: text) (hslash : text.head? = some 0x2F) :
    resolve (path.text ++ text) = path.names ++ (components text).filter (· ≠ bytes ".") := by
  have hhead : ∀ d ∈ text.head?, isSlash d = true := by
    intro d hd
    rw [hslash] at hd
    obtain rfl := Option.some.inj hd
    rfl
  have hno : bytes ".." ∉ path.names ++ components text := by
    rw [List.mem_append, not_or]
    exact ⟨dots_not_mem_names path.isName_names, dots_not_mem_components hdots⟩
  rw [resolve, NormalPath.text, components_joinNames path.isName_names hhead, foldl_pushComponent hno,
    List.filter_append, filter_names path.isName_names]
  rfl

/-- A name with more bytes after it is neither `.` nor `..`. -/
theorem IsName.append_ne {name word : CString} (h : IsName name) (hword : word ≠ []) :
    name ++ word ≠ bytes "." ∧ name ++ word ≠ bytes ".." := by
  obtain ⟨c, name, rfl⟩ := List.exists_cons_of_ne_nil h.ne_nil
  obtain ⟨d, word, rfl⟩ := List.exists_cons_of_ne_nil hword
  constructor
  · intro heq
    have hlength := congrArg List.length heq
    simp [bytes] at hlength
  · intro heq
    have hlength := congrArg List.length heq
    have hname : name = [] := by
      rw [← List.length_eq_zero_iff]
      simp [bytes] at hlength
      omega
    subst hname
    obtain ⟨hc, -⟩ := List.cons.inj heq
    exact h.ne_dot (congrArg (fun x => [x]) hc)

/-- A text which does not start with a slash continues the last component. -/
theorem NormalPath.resolve_append_name (path : NormalPath) {text : CString} (hne : text ≠ [])
    (hdots : ¬ bytes ".." <:+: text) (hslash : text.head? ≠ some 0x2F) :
    ∃ word more, word ≠ [] ∧
      resolve (path.text ++ text) = path.parents ++ (path.name ++ word) :: more := by
  have hparents : ∀ c ∈ path.parents, IsName c := fun c hc => path.isName c (List.mem_append_left _ hc)
  have hname : IsName path.name := path.isName _ (List.mem_append_right _ List.mem_cons_self)
  have htail : ∀ d ∈ (text.dropWhile fun x => !isSlash x).head?, isSlash d = true := by
    intro d hd
    have hnot := List.head?_dropWhile_not (fun x => !isSlash x) text
    rw [Option.mem_def.mp hd] at hnot
    simpa using hnot
  have hword : ∀ x ∈ text.takeWhile fun x => !isSlash x, isSlash x = false := by
    intro x hx
    simpa using List.mem_takeWhile_imp hx
  have hwordne : (text.takeWhile fun x => !isSlash x) ≠ [] := by
    obtain ⟨c, rest, rfl⟩ := List.exists_cons_of_ne_nil hne
    have hc : isSlash c = false := by simpa [isSlash] using hslash
    simp [hc]
  have hsplit : (text.takeWhile fun x => !isSlash x) ++ (text.dropWhile fun x => !isSlash x) = text :=
    List.takeWhile_append_dropWhile
  generalize (text.takeWhile fun x => !isSlash x) = word at hword hwordne hsplit
  generalize (text.dropWhile fun x => !isSlash x) = tail at htail hsplit
  subst hsplit
  have htext : path.text ++ (word ++ tail) = joinNames path.parents ++ 0x2F ::
      (path.name ++ word ++ tail) := by
    simp [NormalPath.text, NormalPath.names, joinNames]
  have hjoined : ∀ x ∈ path.name ++ word, isSlash x = false := by
    intro x hx
    rcases List.mem_append.mp hx with hleft | hright
    · exact hname.no_slash x hleft
    · exact hword x hright
  have hcomponents : components (path.text ++ (word ++ tail)) =
      path.parents ++ (path.name ++ word) :: components tail := by
    rw [htext, components_joinNames hparents (by simp [isSlash]), components, tokens_cons (by rfl),
      tokens_word_append (by simp [hwordne]) hjoined htail, ← components]
  have hno : bytes ".." ∉ path.parents ++ (path.name ++ word) :: components tail := by
    have htailno := dots_not_mem_components hdots
    rw [components, tokens_word_append hwordne hword htail, ← components] at htailno
    rw [List.mem_append, List.mem_cons, not_or, not_or]
    exact ⟨dots_not_mem_names hparents, (hname.append_ne hwordne).2.symm,
      fun hmem => htailno (List.mem_cons_of_mem word hmem)⟩
  refine ⟨word, (components tail).filter (· ≠ bytes "."), hwordne, ?_⟩
  rw [resolve, hcomponents, foldl_pushComponent hno, List.filter_append, filter_names hparents,
    List.filter_cons_of_pos (by simpa using (hname.append_ne hwordne).1)]
  rfl

/-- Where a text without `..` leads when it is appended to a normalised path: below the path
exactly if it starts with a slash. -/
theorem NormalPath.prefix_resolve_append_iff (path : NormalPath) {text : CString} (hne : text ≠ [])
    (hdots : ¬ bytes ".." <:+: text) :
    resolve path.text <+: resolve (path.text ++ text) ↔ text.head? = some 0x2F := by
  rw [path.resolve_text]
  constructor
  · intro hinside
    by_contra hslash
    obtain ⟨word, more, hword, hresolve⟩ := path.resolve_append_name hne hdots hslash
    rw [hresolve, NormalPath.names, List.prefix_append_right_inj, List.cons_prefix_cons] at hinside
    exact hword (List.self_eq_append_right.mp hinside.1)
  · intro hslash
    rw [path.resolve_append_slash hdots hslash]
    exact List.prefix_append _ _

end Csci4061.Lib
