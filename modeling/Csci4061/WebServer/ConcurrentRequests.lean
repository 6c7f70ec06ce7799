import Csci4061.Lib.Transition
import Csci4061.WebServer.GetRequest
import Mathlib.Logic.Function.Basic

/-!
# Dispatchers which parse at the same time

Each dispatcher runs `get_request` on its own connection, with its own copy of the line. What
they share is the position which `strtok` saves: a call with a null pointer goes on wherever the
last call of any thread stopped. Every call is one step, and so is each copy of the line.

While a dispatcher which goes on finds the position in its own copy, it obtains what it would
obtain alone. `OwnsPosition` is that condition.
-/

namespace Csci4061.WebServer

open Csci4061.Lib

/-- Where a dispatcher stands in `get_request`. -/
inductive DispatcherPhase (ι : Type*)
  /-- Before the first line is read. -/
  | reading
  /-- In the counting pass of `makeargv`, with the tokens found so far. -/
  | counting (snew : CString) (numtokens : ℕ)
  /-- Before the line is copied again. -/
  | copying (snew : CString) (numtokens : ℕ)
  /-- In the storing pass, with the pointers stored so far. -/
  | storing (numtokens : ℕ) (argv : List (Option (ι × ℕ)))
  /-- After `makeargv`. -/
  | checking (argv : List (Option (ι × ℕ)))
  /-- After `get_request`. -/
  | finished (result : ParseResult)
  deriving DecidableEq

/-- The copies of the lines, which exist from `malloc` to `free`; the position which `strtok`
saved, as a copy and an offset in it; and the dispatchers. -/
structure DispatchersState (ι : Type*) where
  copies : ι → Option (List UInt8)
  saved : Option (ι × ℕ)
  phases : ι → DispatcherPhase ι

variable {ι : Type*} [DecidableEq ι]

/-- Dispatcher `i` moves on. -/
def DispatchersState.move (s : DispatchersState ι) (i : ι) (phase : DispatcherPhase ι) :
    DispatchersState ι :=
  { s with phases := Function.update s.phases i phase }

/-- Write or free the copy of dispatcher `i`. -/
def DispatchersState.setCopy (s : DispatchersState ι) (i : ι) (t : Option (List UInt8)) :
    DispatchersState ι :=
  { s with copies := Function.update s.copies i t }

/-- Where the next call of `strtok` by dispatcher `i` scans: the first call of a pass starts at its
copy, a later one goes on at the saved position. -/
def DispatchersState.scanPosition (s : DispatchersState ι) (i : ι) (first : Bool) : Option (ι × ℕ) :=
  if first then some (i, 0) else s.saved

/-- A call of `strtok` by dispatcher `i`; `none` is an access to memory which is not allocated. -/
def DispatchersState.scan (s : DispatchersState ι) (i : ι) (first : Bool) :
    Option (Option (ι × ℕ) × DispatchersState ι) :=
  (s.scanPosition i first).bind fun (owner, pos) =>
    (s.copies owner).map fun t =>
      let (token, t', pos') := strtok requestDelims t pos
      (token.map fun start => (owner, start),
        { s with copies := Function.update s.copies owner (some t'), saved := some (owner, pos') })

/-- The string which a stored pointer points to, or the null pointer. -/
def DispatchersState.load (s : DispatchersState ι) : Option (ι × ℕ) → Option (Option CString)
  | none => some none
  | some (owner, start) => (s.copies owner).map fun t => some (cString (t.drop start))

/-- One step of dispatcher `i`. -/
def dispatcherNext (streams : ι → List UInt8) (s : DispatchersState ι) (i : ι) :
    Option (DispatchersState ι) :=
  match s.phases i with
  | .reading =>
    match fgets 2048 (streams i) with
    | none => some (s.move i (.finished ⟨-3, none⟩))
    | some buf =>
      let snew := (cString buf).dropWhile (separates requestDelims)
      some ((s.setCopy i (some snew)).move i (.counting snew 0))
  | .counting snew numtokens =>
    (s.scan i (numtokens = 0)).map fun (token, s') =>
      match token with
      | some _ => s'.move i (.counting snew (numtokens + 1))
      | none =>
        if numtokens = 0 then (s'.setCopy i none).move i (.finished ⟨-2, none⟩)
        else s'.move i (.copying snew numtokens)
  | .copying snew numtokens =>
    (s.copies i).map fun _ => (s.setCopy i (some snew)).move i (.storing numtokens [])
  | .storing numtokens argv =>
    (s.scan i (argv = [])).map fun (token, s') =>
      if argv.length + 1 < numtokens then s'.move i (.storing numtokens (argv ++ [token]))
      else s'.move i (.checking (argv ++ [token]))
  | .checking argv =>
    if argv.length < 2 then some (s.move i (.finished ⟨-2, none⟩))
    else
      (s.load argv[0]?.join).bind fun strings₀ => (s.load argv[1]?.join).bind fun strings₁ =>
        (checkRequest strings₀ strings₁).map fun result =>
          -- only the successful return goes through `freemakeargv`
          (if result.ret = 0 then s.setCopy i none else s).move i (.finished result)
  | .finished _ => none

/-- Before any dispatcher has read its line. -/
def allReading (ι : Type*) : DispatchersState ι := ⟨fun _ => none, none, fun _ => .reading⟩

/-- All dispatchers, each on its own connection, in any order of their steps. -/
def dispatchersSystem (streams : ι → List UInt8) : TransitionSystem (DispatchersState ι) ι :=
  .ofNext (fun s => s = allReading ι) (dispatcherNext streams)

/-- The next step of the dispatcher calls `strtok` with a null pointer. -/
def DispatcherPhase.Continues : DispatcherPhase ι → Prop
  | .counting _ numtokens => numtokens ≠ 0
  | .storing _ argv => argv ≠ []
  | _ => False

instance : DecidablePred (DispatcherPhase.Continues : DispatcherPhase ι → Prop)
  | .counting _ numtokens => inferInstanceAs (Decidable (numtokens ≠ 0))
  | .storing _ argv => inferInstanceAs (Decidable (argv ≠ []))
  | .reading | .copying _ _ | .checking _ | .finished _ => isFalse not_false

/-- If dispatcher `i` goes on, then the saved position is in its own copy. -/
def OwnsPosition (s : DispatchersState ι) (i : ι) : Prop :=
  (s.phases i).Continues → ∃ pos, s.saved = some (i, pos)

instance (s : DispatchersState ι) (i : ι) : Decidable (OwnsPosition s i) :=
  decidable_of_iff ((s.phases i).Continues → s.saved.map Prod.fst = some i) (by
    simp only [OwnsPosition, Option.map_eq_some_iff, Prod.exists, exists_eq_right, exists_and_right])

/-- The copy of dispatcher `i` in the middle of a pass: the scanned bytes and the bytes to scan. If
the next call scans this copy at all, then it scans it from there. -/
structure Scans (s : DispatchersState ι) (i : ι) (first : Bool) (pre rest : List UInt8) : Prop where
  copy : s.copies i = some (pre ++ rest)
  no_zero : 0 ∉ rest
  position : ∀ pos, s.scanPosition i first = some (i, pos) → pos = pre.length

/-- What holds of dispatcher `i` in each phase, for the line on its own connection. -/
def Tracks (stream : List UInt8) (s : DispatchersState ι) (i : ι) : DispatcherPhase ι → Prop
  | .reading => True
  | .counting snew numtokens => ∃ buf pre rest, fgets 2048 stream = some buf ∧
      snew = (cString buf).dropWhile (separates requestDelims) ∧ Scans s i (numtokens = 0) pre rest ∧
      numtokens + (tokens (separates requestDelims) rest).length = (requestWords buf).length
  | .copying snew numtokens => ∃ buf, fgets 2048 stream = some buf ∧
      snew = (cString buf).dropWhile (separates requestDelims) ∧ numtokens ≠ 0 ∧
      numtokens = (requestWords buf).length
  | .storing numtokens argv => ∃ buf pre rest done starts, fgets 2048 stream = some buf ∧
      numtokens = (requestWords buf).length ∧ Scans s i (argv = []) pre rest ∧
      requestWords buf = done ++ tokens (separates requestDelims) rest ∧
      tokens (separates requestDelims) rest ≠ [] ∧ argv = starts.map (fun start => some (i, start)) ∧
      List.Forall₂ (HoldsToken pre rest.length) starts done
  | .checking argv => ∃ buf t starts, fgets 2048 stream = some buf ∧ s.copies i = some t ∧
      argv = starts.map (fun start => some (i, start)) ∧
      List.Forall₂ (fun start word => cString (t.drop start) = word) starts (requestWords buf)
  | .finished result => result = parseRequest stream

omit [DecidableEq ι] in
/-- A pass depends on its own copy and on the saved position in it only. -/
theorem Scans.congr {s s' : DispatchersState ι} {i : ι} {first : Bool} {pre rest : List UInt8}
    (h : Scans s i first pre rest) (hcopy : s'.copies i = s.copies i)
    (hsaved : ∀ pos, s'.saved = some (i, pos) → s.saved = some (i, pos)) :
    Scans s' i first pre rest where
  copy := hcopy.trans h.copy
  no_zero := h.no_zero
  position pos hpos := by
    cases first with
    | true => exact h.position pos hpos
    | false => exact h.position pos (hsaved pos hpos)

omit [DecidableEq ι] in
/-- What holds of a dispatcher depends on its own copy and on the saved position in it only. -/
theorem Tracks.congr {stream : List UInt8} {s s' : DispatchersState ι} {i : ι}
    {phase : DispatcherPhase ι} (h : Tracks stream s i phase) (hcopy : s'.copies i = s.copies i)
    (hsaved : ∀ pos, s'.saved = some (i, pos) → s.saved = some (i, pos)) : Tracks stream s' i phase := by
  cases phase with
  | reading => trivial
  | counting snew numtokens =>
    obtain ⟨buf, pre, rest, hbuf, hsnew, hscans, hcount⟩ := h
    exact ⟨buf, pre, rest, hbuf, hsnew, hscans.congr hcopy hsaved, hcount⟩
  | copying snew numtokens => exact h
  | storing numtokens argv =>
    obtain ⟨buf, pre, rest, done, starts, hbuf, hnum, hscans, hrest⟩ := h
    exact ⟨buf, pre, rest, done, starts, hbuf, hnum, hscans.congr hcopy hsaved, hrest⟩
  | checking argv =>
    obtain ⟨buf, t, starts, hbuf, ht, hrest⟩ := h
    exact ⟨buf, t, starts, hbuf, hcopy.trans ht, hrest⟩
  | finished result => exact h

/-- A step which is none of dispatcher `i`: its phase and its copy stay, and the saved position does
not move into its copy. -/
structure Spares (i : ι) (s s' : DispatchersState ι) : Prop where
  phase : s'.phases i = s.phases i
  copy : s'.copies i = s.copies i
  saved : ∀ pos, s'.saved = some (i, pos) → s.saved = some (i, pos)

omit [DecidableEq ι] in
/-- Sparing a dispatcher is transitive. -/
theorem Spares.trans {i : ι} {s s' s'' : DispatchersState ι} (h : Spares i s s') (h' : Spares i s' s'') :
    Spares i s s'' :=
  ⟨h'.phase.trans h.phase, h'.copy.trans h.copy, fun pos hpos => h.saved pos (h'.saved pos hpos)⟩

/-- Moving on spares the other dispatchers. -/
theorem Spares.move {i j : ι} (hij : i ≠ j) (s : DispatchersState ι) (phase : DispatcherPhase ι) :
    Spares i s (s.move j phase) :=
  ⟨Function.update_of_ne hij _ _, rfl, fun _ hpos => hpos⟩

/-- Writing a copy spares the other dispatchers. -/
theorem Spares.setCopy {i j : ι} (hij : i ≠ j) (s : DispatchersState ι) (t : Option (List UInt8)) :
    Spares i s (s.setCopy j t) :=
  ⟨rfl, Function.update_of_ne hij _ _, fun _ hpos => hpos⟩

/-- A call of `strtok` which scans the own copy spares the other dispatchers. -/
theorem Spares.scan {i j : ι} (hij : i ≠ j) {s s' : DispatchersState ι} {first : Bool} {pos : ℕ}
    {token : Option (ι × ℕ)} (hown : s.scanPosition j first = some (j, pos))
    (h : s.scan j first = some (token, s')) :
    Spares i s s' := by
  simp only [DispatchersState.scan, hown, Option.bind_some] at h
  obtain ⟨t, -, heq⟩ := Option.map_eq_some_iff.mp h
  obtain ⟨-, rfl⟩ := Prod.mk.inj heq
  refine ⟨rfl, Function.update_of_ne hij _ _, ?_⟩
  intro pos' hpos'
  exact absurd (congrArg Prod.fst (Option.some.inj hpos')).symm hij

omit [DecidableEq ι] in
/-- A dispatcher which owns the saved position wherever it goes on scans its own copy. -/
theorem OwnsPosition.scanPosition {s : DispatchersState ι} {i : ι} {first : Bool} (h : OwnsPosition s i)
    (hcontinues : first = false → (s.phases i).Continues) :
    ∃ pos, s.scanPosition i first = some (i, pos) := by
  cases first with
  | true => exact ⟨0, rfl⟩
  | false => exact h (hcontinues rfl)

/-- A step of a dispatcher which owns the position spares the other dispatchers. -/
theorem dispatcherNext_spares {streams : ι → List UInt8} {s s' : DispatchersState ι} {i j : ι}
    (hij : i ≠ j) (howns : OwnsPosition s j) (h : dispatcherNext streams s j = some s') :
    Spares i s s' := by
  unfold dispatcherNext at h
  split at h
  · split at h
    · obtain rfl := Option.some.inj h
      exact .move hij s _
    · obtain rfl := Option.some.inj h
      exact (Spares.setCopy hij s _).trans (.move hij _ _)
  · rename_i snew numtokens hphase
    obtain ⟨⟨token, s₁⟩, hscan, heq⟩ := Option.map_eq_some_iff.mp h
    have hcontinues : decide (numtokens = 0) = false → (s.phases j).Continues := by
      intro hfirst
      rw [hphase]
      exact of_decide_eq_false hfirst
    obtain ⟨pos, hown⟩ := howns.scanPosition hcontinues
    have hspares := Spares.scan hij hown hscan
    subst heq
    cases token with
    | some _ => exact hspares.trans (.move hij _ _)
    | none =>
      change Spares i s (if numtokens = 0 then _ else _)
      split
      · exact hspares.trans ((Spares.setCopy hij _ _).trans (.move hij _ _))
      · exact hspares.trans (.move hij _ _)
  · obtain ⟨-, -, rfl⟩ := Option.map_eq_some_iff.mp h
    exact (Spares.setCopy hij s _).trans (.move hij _ _)
  · rename_i numtokens argv hphase
    obtain ⟨⟨token, s₁⟩, hscan, heq⟩ := Option.map_eq_some_iff.mp h
    have hcontinues : decide (argv = []) = false → (s.phases j).Continues := by
      intro hfirst
      rw [hphase]
      exact of_decide_eq_false hfirst
    obtain ⟨pos, hown⟩ := howns.scanPosition hcontinues
    have hspares := Spares.scan hij hown hscan
    subst heq
    change Spares i s (if argv.length + 1 < numtokens then _ else _)
    split
    · exact hspares.trans (.move hij _ _)
    · exact hspares.trans (.move hij _ _)
  · split at h
    · obtain rfl := Option.some.inj h
      exact .move hij s _
    · obtain ⟨strings₀, -, h⟩ := Option.bind_eq_some_iff.mp h
      obtain ⟨strings₁, -, h⟩ := Option.bind_eq_some_iff.mp h
      obtain ⟨result, -, rfl⟩ := Option.map_eq_some_iff.mp h
      split
      · exact (Spares.setCopy hij s _).trans (.move hij _ _)
      · exact .move hij s _
  · exact absurd h (by simp)

/-- A call of `strtok` in a pass over the own copy scans it from the end of the scanned bytes. -/
theorem Scans.scan_eq {s : DispatchersState ι} {i : ι} {first : Bool} {pre rest : List UInt8}
    (h : Scans s i first pre rest) (hown : ∃ pos, s.scanPosition i first = some (i, pos))
    {token : Option ℕ} {t' : List UInt8} {pos' : ℕ}
    (hcall : strtok requestDelims (pre ++ rest) pre.length = (token, t', pos')) :
    s.scan i first = some (token.map fun start => (i, start),
      { s with copies := Function.update s.copies i (some t'), saved := some (i, pos') }) := by
  obtain ⟨pos, hpos⟩ := hown
  simp only [DispatchersState.scan, hpos, Option.bind_some, h.copy, Option.map_some,
    h.position pos hpos, hcall]

/-- After such a call the pass goes on with the bytes which are left. -/
theorem Scans.next {s : DispatchersState ι} {i : ι} {pre rest : List UInt8}
    (phases : ι → DispatcherPhase ι) (hzero : 0 ∉ rest) :
    Scans ⟨Function.update s.copies i (some (pre ++ rest)), some (i, pre.length), phases⟩ i
      false pre rest where
  copy := Function.update_self ..
  no_zero := hzero
  position pos hpos := by
    have hsame : (i, pre.length) = (i, pos) := Option.some.inj hpos
    exact (congrArg Prod.snd hsame).symm

/-- Moving on to a phase establishes what holds in it. -/
theorem Tracks.move {stream : List UInt8} {s : DispatchersState ι} {i : ι} {phase : DispatcherPhase ι}
    (h : Tracks stream s i phase) : Tracks stream (s.move i phase) i ((s.move i phase).phases i) := by
  have hphase : (s.move i phase).phases i = phase := Function.update_self ..
  rw [hphase]
  exact h.congr rfl fun _ hpos => hpos

/-- Reading the line starts the counting pass. -/
theorem tracks_reading {streams : ι → List UInt8} {s s' : DispatchersState ι} {i : ι}
    (hphase : s.phases i = .reading) (hnext : dispatcherNext streams s i = some s') :
    Tracks (streams i) s' i (s'.phases i) := by
  simp only [dispatcherNext, hphase] at hnext
  split at hnext
  · rename_i hbuf
    obtain rfl := Option.some.inj hnext
    apply Tracks.move
    simp only [Tracks, parseRequest, hbuf]
  · rename_i buf hbuf
    obtain rfl := Option.some.inj hnext
    apply Tracks.move
    refine ⟨buf, [], (cString buf).dropWhile (separates requestDelims), hbuf, rfl, ⟨?_, ?_, ?_⟩, ?_⟩
    · exact Function.update_self ..
    · exact fun hmem => zero_not_mem_cString buf ((List.dropWhile_sublist _).subset hmem)
    · intro pos hpos
      exact (congrArg Prod.snd (Option.some.inj hpos)).symm
    · rw [Nat.zero_add, tokens_dropWhile, requestWords]

/-- A step of the counting pass. -/
theorem tracks_counting {streams : ι → List UInt8} {s s' : DispatchersState ι} {i : ι} {snew : CString}
    {numtokens : ℕ} (hphase : s.phases i = .counting snew numtokens) (howns : OwnsPosition s i)
    (h : Tracks (streams i) s i (s.phases i)) (hnext : dispatcherNext streams s i = some s') :
    Tracks (streams i) s' i (s'.phases i) := by
  have hcontinues : decide (numtokens = 0) = false → (s.phases i).Continues := by
    intro hfirst
    rw [hphase]
    exact of_decide_eq_false hfirst
  have hown := howns.scanPosition hcontinues
  rw [hphase] at h
  obtain ⟨buf, pre, rest, hbuf, hsnew, hscans, hcount⟩ := h
  simp only [dispatcherNext, hphase] at hnext
  cases hwords : tokens (separates requestDelims) rest with
  | nil =>
    rw [hscans.scan_eq hown (strtok_none hscans.no_zero hwords)] at hnext
    obtain rfl := Option.some.inj hnext
    rw [hwords, List.length_nil, Nat.add_zero] at hcount
    change Tracks (streams i) (if numtokens = 0 then _ else _) i
      ((if numtokens = 0 then _ else _ : DispatchersState ι).phases i)
    split
    · rename_i hzero
      apply Tracks.move
      exact (parseRequest_short hbuf (by omega)).symm
    · rename_i hne
      apply Tracks.move
      exact ⟨buf, hbuf, hsnew, hne, hcount⟩
  | cons word words =>
    obtain ⟨start, pre', rest', hcall, hzero, hwords', -, -, -⟩ :=
      @strtok_token requestDelims pre rest word words hscans.no_zero hwords
    rw [hscans.scan_eq hown hcall] at hnext
    obtain rfl := Option.some.inj hnext
    apply Tracks.move
    refine ⟨buf, pre', rest', hbuf, hsnew, ?_, ?_⟩
    · rw [decide_eq_false (Nat.succ_ne_zero numtokens)]
      exact Scans.next s.phases hzero
    · rw [hwords']
      rw [hwords, List.length_cons] at hcount
      omega

/-- The second copy starts the storing pass. -/
theorem tracks_copying {streams : ι → List UInt8} {s s' : DispatchersState ι} {i : ι} {snew : CString}
    {numtokens : ℕ} (hphase : s.phases i = .copying snew numtokens)
    (h : Tracks (streams i) s i (s.phases i)) (hnext : dispatcherNext streams s i = some s') :
    Tracks (streams i) s' i (s'.phases i) := by
  rw [hphase] at h
  obtain ⟨buf, hbuf, rfl, hne, hnum⟩ := h
  simp only [dispatcherNext, hphase] at hnext
  obtain ⟨-, -, rfl⟩ := Option.map_eq_some_iff.mp hnext
  apply Tracks.move
  have hwords : tokens (separates requestDelims)
      ((cString buf).dropWhile (separates requestDelims)) = requestWords buf :=
    tokens_dropWhile _
  refine ⟨buf, [], _, [], [], hbuf, hnum, ⟨?_, ?_, ?_⟩, hwords.symm, ?_, rfl, .nil⟩
  · exact Function.update_self ..
  · exact fun hmem => zero_not_mem_cString buf ((List.dropWhile_sublist _).subset hmem)
  · intro pos hpos
    exact (congrArg Prod.snd (Option.some.inj hpos)).symm
  · rw [hwords, ← List.length_pos_iff]
    omega

/-- A step of the storing pass. -/
theorem tracks_storing {streams : ι → List UInt8} {s s' : DispatchersState ι} {i : ι} {numtokens : ℕ}
    {argv : List (Option (ι × ℕ))} (hphase : s.phases i = .storing numtokens argv)
    (howns : OwnsPosition s i) (h : Tracks (streams i) s i (s.phases i))
    (hnext : dispatcherNext streams s i = some s') :
    Tracks (streams i) s' i (s'.phases i) := by
  have hcontinues : decide (argv = []) = false → (s.phases i).Continues := by
    intro hfirst
    rw [hphase]
    exact of_decide_eq_false hfirst
  have hown := howns.scanPosition hcontinues
  rw [hphase] at h
  obtain ⟨buf, pre, rest, done, starts, hbuf, hnum, hscans, hdone, hleft, rfl, hstarts⟩ := h
  obtain ⟨word, words, hwords⟩ := List.exists_cons_of_ne_nil hleft
  obtain ⟨start, pre', rest', hcall, hzero, hwords', hgrow, hlength, hholds⟩ :=
    @strtok_token requestDelims pre rest word words hscans.no_zero hwords
  simp only [dispatcherNext, hphase] at hnext
  rw [hscans.scan_eq hown hcall] at hnext
  obtain rfl := Option.some.inj hnext
  have hargv : starts.map (fun start => some (i, start)) ++ [some (i, start)] =
      (starts ++ [start]).map fun start => some (i, start) := by simp
  have hstarts' : List.Forall₂ (HoldsToken pre' rest'.length) (starts ++ [start]) (done ++ [word]) :=
    List.rel_append (hstarts.imp fun _ _ hold => hold.mono hgrow hlength) (.cons hholds .nil)
  have hcount : numtokens = starts.length + 1 + words.length := by
    rw [hnum, hdone, hwords, List.length_append, List.length_cons, ← hstarts.length_eq]
    omega
  have hdone' : requestWords buf = (done ++ [word]) ++ words := by
    rw [hdone, hwords, List.append_assoc]; rfl
  change Tracks (streams i) (if (starts.map _).length + 1 < numtokens then _ else _) i
    ((if (starts.map _).length + 1 < numtokens then _ else _ : DispatchersState ι).phases i)
  rw [List.length_map]
  split
  · apply Tracks.move
    refine ⟨buf, pre', rest', done ++ [word], starts ++ [start], hbuf, hnum, ?_, ?_, ?_, hargv, hstarts'⟩
    · rw [decide_eq_false (by simp)]
      exact Scans.next s.phases hzero
    · rw [hwords', hdone']
    · rw [hwords', ← List.length_pos_iff]
      omega
  · have hlast : words = [] := by
      rw [← List.length_eq_zero_iff]
      omega
    apply Tracks.move
    refine ⟨buf, pre' ++ rest', starts ++ [start], hbuf, Function.update_self .., hargv, ?_⟩
    rw [hdone', hlast, List.append_nil]
    exact hstarts'.imp fun _ _ hold => hold rest' rfl

/-- The checks after `makeargv`. -/
theorem tracks_checking {streams : ι → List UInt8} {s s' : DispatchersState ι} {i : ι}
    {argv : List (Option (ι × ℕ))} (hphase : s.phases i = .checking argv)
    (h : Tracks (streams i) s i (s.phases i)) (hnext : dispatcherNext streams s i = some s') :
    Tracks (streams i) s' i (s'.phases i) := by
  rw [hphase] at h
  obtain ⟨buf, t, starts, hbuf, hcopy, rfl, hstarts⟩ := h
  simp only [dispatcherNext, hphase, List.length_map, hstarts.length_eq] at hnext
  split at hnext
  · rename_i hshort
    obtain rfl := Option.some.inj hnext
    apply Tracks.move
    exact (parseRequest_short hbuf hshort).symm
  · rename_i hshort
    obtain ⟨command, target, rest, hwords⟩ := exists_words hshort
    rw [hwords] at hstarts
    obtain ⟨start₀, starts, hcommand, hrest, rfl⟩ := List.forall₂_cons_right_iff.mp hstarts
    obtain ⟨start₁, starts, htarget, -, rfl⟩ := List.forall₂_cons_right_iff.mp hrest
    have hload (start : ℕ) : s.load (some (i, start)) = some (some (cString (t.drop start))) := by
      simp only [DispatchersState.load, hcopy, Option.map_some]
    simp only [List.map_cons, List.getElem?_cons_zero, List.getElem?_cons_succ, Option.join_some, hload,
      hcommand, htarget, Option.bind_some, checkRequest_words hbuf hwords, Option.map_some] at hnext
    obtain rfl := Option.some.inj hnext
    apply Tracks.move
    rfl

/-- A step of a dispatcher which owns the position keeps what holds of it. -/
theorem dispatcherNext_tracks {streams : ι → List UInt8} {s s' : DispatchersState ι} {i : ι}
    (howns : OwnsPosition s i) (h : Tracks (streams i) s i (s.phases i))
    (hnext : dispatcherNext streams s i = some s') : Tracks (streams i) s' i (s'.phases i) := by
  cases hphase : s.phases i with
  | reading => exact tracks_reading hphase hnext
  | counting snew numtokens => exact tracks_counting hphase howns h hnext
  | copying snew numtokens => exact tracks_copying hphase h hnext
  | storing numtokens argv => exact tracks_storing hphase howns h hnext
  | checking argv => exact tracks_checking hphase h hnext
  | finished result => simp [dispatcherNext, hphase] at hnext

/-- Along the runs in which every dispatcher that goes on owns the position, each dispatcher stays
on the course of its own line. -/
theorem tracks_of_reachable {streams : ι → List UInt8} {s : DispatchersState ι}
    (hs : ((dispatchersSystem streams).restrict OwnsPosition).Reachable s) (i : ι) :
    Tracks (streams i) s i (s.phases i) := by
  revert i
  apply hs.invariant
  · intro s hinit i
    obtain rfl := hinit
    trivial
  · intro s j s' h hstep i
    by_cases hij : i = j
    · subst hij
      exact dispatcherNext_tracks hstep.1 (h i) hstep.2
    · have hspares := dispatcherNext_spares hij hstep.1 hstep.2
      rw [hspares.phase]
      exact (h i).congr hspares.copy hspares.saved

/-- Calls of `strtok` save a position. -/
theorem scan_saved {s s' : DispatchersState ι} {i : ι} {first : Bool} {token : Option (ι × ℕ)}
    (h : s.scan i first = some (token, s')) : s'.saved.isSome := by
  obtain ⟨position, -, h⟩ := Option.bind_eq_some_iff.mp h
  obtain ⟨t, -, heq⟩ := Option.map_eq_some_iff.mp h
  obtain ⟨-, rfl⟩ := Prod.mk.inj heq
  rfl

/-- A dispatcher goes on only after a call of its own. -/
theorem dispatcherNext_saved {streams : ι → List UInt8} {s s' : DispatchersState ι} {i : ι}
    (h : dispatcherNext streams s i = some s') (hcontinues : (s'.phases i).Continues) :
    s'.saved.isSome := by
  have hmove (t : DispatchersState ι) (phase : DispatcherPhase ι) : (t.move i phase).phases i = phase :=
    Function.update_self ..
  unfold dispatcherNext at h
  split at h
  · split at h
    · obtain rfl := Option.some.inj h
      simp [hmove, DispatcherPhase.Continues] at hcontinues
    · obtain rfl := Option.some.inj h
      simp [hmove, DispatcherPhase.Continues] at hcontinues
  · obtain ⟨⟨token, s₁⟩, hscan, rfl⟩ := Option.map_eq_some_iff.mp h
    have hsaved := scan_saved hscan
    cases token with
    | some _ => exact hsaved
    | none =>
      simp only
      split <;> exact hsaved
  · obtain ⟨-, -, rfl⟩ := Option.map_eq_some_iff.mp h
    simp [hmove, DispatcherPhase.Continues] at hcontinues
  · obtain ⟨⟨token, s₁⟩, hscan, rfl⟩ := Option.map_eq_some_iff.mp h
    have hsaved := scan_saved hscan
    simp only
    split <;> exact hsaved
  · split at h
    · obtain rfl := Option.some.inj h
      simp [hmove, DispatcherPhase.Continues] at hcontinues
    · obtain ⟨strings₀, -, h⟩ := Option.bind_eq_some_iff.mp h
      obtain ⟨strings₁, -, h⟩ := Option.bind_eq_some_iff.mp h
      obtain ⟨result, -, rfl⟩ := Option.map_eq_some_iff.mp h
      simp [hmove, DispatcherPhase.Continues] at hcontinues
  · exact absurd h (by simp)

/-- A dispatcher which runs alone owns the position whenever it goes on. -/
theorem reachable_alone {stream : List UInt8} {s : DispatchersState Unit}
    (hs : (dispatchersSystem fun _ => stream).Reachable s) :
    ((dispatchersSystem fun _ => stream).restrict OwnsPosition).Reachable s := by
  have hboth : ((dispatchersSystem fun _ => stream).restrict OwnsPosition).Reachable s ∧
      ((s.phases ()).Continues → s.saved.isSome) := by
    apply hs.invariant
    · intro s hinit
      obtain rfl := hinit
      exact ⟨.of_init rfl, False.elim⟩
    · intro s i s' h hstep
      refine ⟨h.1.snoc ⟨?_, hstep⟩, dispatcherNext_saved hstep⟩
      intro hcontinues
      obtain ⟨⟨owner, pos⟩, hsaved⟩ := Option.isSome_iff_exists.mp (h.2 hcontinues)
      exact ⟨pos, hsaved⟩
  exact hboth.1

/-- As long as every dispatcher that goes on finds the saved position in its own copy, each of them
obtains the result of `get_request` on its own line, which is also what it obtains alone. -/
theorem getRequest_independent {streams : ι → List UInt8} {s : DispatchersState ι}
    (hs : ((dispatchersSystem streams).restrict OwnsPosition).Reachable s) {i : ι} {result : ParseResult}
    (hfinished : s.phases i = .finished result) :
    getRequest (streams i) = some result ∧
      ∀ alone : DispatchersState Unit, (dispatchersSystem fun _ => streams i).Reachable alone →
        ∀ result', alone.phases () = .finished result' → result' = result := by
  have hresult := tracks_of_reachable hs i
  rw [hfinished] at hresult
  refine ⟨?_, ?_⟩
  · rw [getRequest_eq_parseRequest]
    exact congrArg some hresult.symm
  · intro alone halone result' hfinished'
    have hresult' := tracks_of_reachable (reachable_alone halone) ()
    rw [hfinished'] at hresult'
    exact hresult'.trans hresult.symm

/-- Two connections: `GET /a` and `GET /b`. -/
def raceStreams : Bool → List UInt8
  | false => bytes "GET /a\n"
  | true => bytes "GET /b\n"

/-- Each of two dispatchers makes its steps between those of the other, but no call of `strtok` between
two calls of one pass. -/
def passSteps : List Bool :=
  [false, false, true, false, false, true, false, true,
    true, false, true, false, true, false, true, true]

/-- Two dispatchers whose passes take turns obtain the file names of their own lines. -/
theorem getRequest_independent_passes :
    ∃ s, ((dispatchersSystem raceStreams).restrict OwnsPosition).Reachable s ∧
      (∀ i, s.phases i = .finished ⟨0, some (if i then bytes "/b" else bytes "/a")⟩) ∧
      ∀ i, getRequest (raceStreams i) = some ⟨0, some (if i then bytes "/b" else bytes "/a")⟩ := by
  have hexec : (TransitionSystem.exec
      (fun s i => if OwnsPosition s i then dispatcherNext raceStreams s i else none)
      (allReading Bool) passSteps).map
        (fun s => (s.phases false, s.phases true)) =
      some (.finished ⟨0, some (bytes "/a")⟩, .finished ⟨0, some (bytes "/b")⟩) := by decide +kernel
  obtain ⟨s, hs, hphases⟩ := Option.map_eq_some_iff.mp hexec
  obtain ⟨hfalse, htrue⟩ := Prod.mk.inj hphases
  have hreachable : ((dispatchersSystem raceStreams).restrict OwnsPosition).Reachable s :=
    ⟨allReading Bool, passSteps, rfl, .of_exec_guarded hs⟩
  have hfinished : ∀ i, s.phases i = .finished ⟨0, some (if i then bytes "/b" else bytes "/a")⟩ :=
    Bool.rec hfalse htrue
  exact ⟨s, hreachable, hfinished, fun i => (getRequest_independent hreachable (hfinished i)).1⟩

/-- Both dispatchers count, both copy and start the storing pass, and then the first one goes on. -/
def raceSteps : List Bool :=
  [false, false, false, false, true, true, true, true, false, true, false, true, false, false]

/-- Parsing is not independent: the first dispatcher obtains the file name of the other connection. -/
theorem getRequest_not_independent :
    ¬ ∀ (streams : Bool → List UInt8) (s : DispatchersState Bool),
    (dispatchersSystem streams).Reachable s →
      ∀ i result, s.phases i = .finished result → getRequest (streams i) = some result := by
  intro hall
  have hphase : (TransitionSystem.exec (dispatcherNext raceStreams) (allReading Bool) raceSteps).map
      (fun s => s.phases false) = some (.finished ⟨0, some (bytes "/b")⟩) := by decide +kernel
  obtain ⟨s, hexec, hfinished⟩ := Option.map_eq_some_iff.mp hphase
  have hresult := hall raceStreams s ⟨_, _, rfl, .of_exec hexec⟩ false _ hfinished
  rw [getRequest_eq_parseRequest] at hresult
  exact absurd hresult (by decide)

end Csci4061.WebServer
