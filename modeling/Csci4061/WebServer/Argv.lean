import Csci4061.Lib.CInt
import Csci4061.Lib.Heap
import Csci4061.WebServer.GetRequest

/-!
# The blocks of an argument array

`makeargv` copies its string to one block, goes over the copy twice with `strtok` and stores pointers
into it in another block. `freemakeargv` knows the copy only by the first pointer, so this has to be its
start. The allocations succeed, at any addresses that are not in use, and nothing else calls `strtok` in
between.

The tokens are counted in an `int`. From `2 ^ 31 - 1` tokens on the count or the size of the array is
more than the largest one, which is not defined.
-/

namespace Csci4061.WebServer

open Csci4061.Lib

/-- What `malloc` returns in `makeargv`: two addresses which are not in use, with any bytes and any
pointers in the blocks. -/
structure ArgvBlocks (h : Heap) where
  t : ℕ
  argv : ℕ
  t_free : h.blocks t = none
  argv_free : h.blocks argv = none
  t_ne_argv : t ≠ argv
  garbage : ℕ → UInt8
  cells : ℕ → Option Pointer

/-- The counting loop of `makeargv`, behind the first token. A bound on the number of calls stands for
the loop. -/
def countPass (delimiters : CString) : ℕ → ℕ → Heap → Option (ℕ × Heap)
  | 0, _, _ => none
  | calls + 1, numtokens, h => do
    let (token, h) ← h.strtok none delimiters
    if token = none then some (numtokens, h)
    else
      let numtokens ← intSucc numtokens
      countPass delimiters calls numtokens h

/-- The loop of `makeargv` which stores the tokens from element `i` on. -/
def fillPass (delimiters : CString) (argv : ℕ) : ℕ → ℕ → Heap → Option Heap
  | 0, _, h => some h
  | left + 1, i, h => do
    let (token, h) ← h.strtok none delimiters
    let h ← h.store argv i token
    fillPass delimiters argv left (i + 1) h

/-- The first pass of `makeargv`, over the copy in block `t`: the number of tokens. -/
def countAll (snew delimiters : CString) (t : ℕ) (h : Heap) : Option (ℕ × Heap) := do
  let (token, h) ← h.strtok (some ⟨t, 0⟩) delimiters
  if token = none then some (0, h) else countPass delimiters snew.length 1 h

/-- The second pass of `makeargv`, over the string which is copied again. -/
def fillAll (snew delimiters : CString) (t argv numtokens : ℕ) (h : Heap) : Option Heap := do
  let h ← h.strcpy t snew
  let (token, h) ← h.strtok (some ⟨t, 0⟩) delimiters
  let h ← h.store argv 0 token
  fillPass delimiters argv (numtokens - 1) 1 h

/-- What `makeargv` does when the tokens are counted: the array is allocated and filled, and closed with
`NULL`. Without a token the copy is released. -/
def makeArray (snew delimiters : CString) (t argv : ℕ) (cells : ℕ → Option Pointer) (numtokens : ℕ)
    (h : Heap) :
    Option (ℕ × Heap) := do
  let size ← intSucc numtokens
  let h ← h.malloc argv (.pointers ((List.range size).map cells))
  let h ← if numtokens = 0 then h.free ⟨t, 0⟩ else fillAll snew delimiters t argv numtokens h
  let h ← h.store argv numtokens none
  some (numtokens, h)

/-- `makeargv` on the heap: the number of tokens. The array is in the block `argv`. -/
def makeargvHeap (s delimiters : CString) (h : Heap) (a : ArgvBlocks h) : Option (ℕ × Heap) := do
  let snew := s.dropWhile (separates delimiters)
  let h ← h.malloc a.t (.chars (malloc a.garbage (snew.length + 1)))
  let h ← h.strcpy a.t snew
  let (numtokens, h) ← countAll snew delimiters a.t h
  makeArray snew delimiters a.t a.argv a.cells numtokens h

/-- `freemakeargv`. -/
def freemakeargv (h : Heap) (argv : Option Pointer) : Option Heap :=
  match argv with
  | none => some h
  | some argv => do
    let cells ← h.pointers argv.block
    let first ← cells[argv.offset]?
    let h ← match first with
      | some first => h.free first
      | none => some h
    h.free argv

/-- The maximal runs of characters which are no delimiters. -/
def runs (s delimiters : CString) : List CString := tokens (separates delimiters) s

/-- The array and the copy after `makeargv`: there is one pointer for each run, to its place in the
copy, and `NULL` behind them; the first one is the start of the copy, another call of `strtok` finds
nothing, and the blocks which are left are the array and, if there is a run, the copy. -/
structure ArgvCorrect (s delimiters : CString) (h : Heap) (a : ArgvBlocks h) (h' : Heap) : Prop where
  pointers : ∃ starts : List ℕ, starts.length = (runs s delimiters).length ∧
    h'.blocks a.argv = some (.pointers (starts.map (fun start => some ⟨a.t, start⟩) ++ [none])) ∧
    (∀ i start, starts[i]? = some start → h'.stringAt ⟨a.t, start⟩ = (runs s delimiters)[i]? ∧
      (s.dropWhile (separates delimiters)).drop start = fromToken (separates delimiters) i s) ∧
    ∀ start ∈ starts.head?, start = 0
  exhausted : runs s delimiters ≠ [] → ∃ h'', h'.strtok none delimiters = some (none, h'')
  allocated : ∀ b, h'.blocks b ≠ none ↔ h.blocks b ≠ none ∨ b = a.argv ∨ runs s delimiters ≠ [] ∧ b = a.t
  others : ∀ b, b ≠ a.t → b ≠ a.argv → h'.blocks b = h.blocks b

/-- `makeargv` returns the number of runs and its array is correct, and `freemakeargv` releases what it
left. -/
def SplitsAndReleases (s delimiters : CString) : Prop :=
  ∀ (h : Heap) (a : ArgvBlocks h), ∃ h', makeargvHeap s delimiters h a = some
    ((runs s delimiters).length, h') ∧ ArgvCorrect s delimiters h a h' ∧
    ∃ h'', freemakeargv h' (some ⟨a.argv, 0⟩) = some h'' ∧ h''.blocks = h.blocks

variable {delimiters : CString} {h : Heap}

/-- The counting loop ends at `NULL`. -/
theorem countPass_of_none {h' : Heap} (hcall : h.strtok none delimiters = some (none, h'))
    (calls numtokens : ℕ) :
    countPass delimiters (calls + 1) numtokens h = some (numtokens, h') := by
  simp only [countPass, hcall, Option.bind_eq_bind, Option.bind_some, if_true]

/-- The counting loop counts a token and goes on. -/
theorem countPass_of_token {h' : Heap} {p : Pointer}
    (hcall : h.strtok none delimiters = some (some p, h')) (calls numtokens : ℕ) :
    countPass delimiters (calls + 1) numtokens h =
      (intSucc numtokens).bind fun numtokens => countPass delimiters calls numtokens h' := by
  simp only [countPass, hcall, Option.bind_eq_bind, Option.bind_some, reduceCtorEq, if_false]

/-- The counting loop counts the tokens which the calls find, as long as an `int` has their number. -/
theorem countPass_of_findsTokens {calls t numtokens : ℕ} {pre rest pre' rest' : List UInt8}
    {starts : List ℕ} (hfinds : FindsTokens delimiters pre rest starts pre' rest')
    (hblock : h.blocks t = some (.chars (pre ++ rest ++ [0]))) (hsaved : h.saved = some ⟨t, pre.length⟩)
    (hnumtokens : numtokens < 2 ^ 31) : countPass delimiters (starts.length + calls) numtokens h =
      if numtokens + starts.length < 2 ^ 31 then
        countPass delimiters calls (numtokens + starts.length)
          (h.scan t (pre' ++ rest' ++ [0]) pre'.length)
      else none := by
  induction hfinds generalizing numtokens h with
  | none =>
    rw [List.length_nil, Nat.add_zero, Nat.zero_add, if_pos hnumtokens, Heap.scan_self hblock hsaved]
  | @token _ _ _ _ _ _ _ starts hzero hcall _ ih =>
    have hposition : (none : Option Pointer).or h.saved = some ⟨t, _⟩ := hsaved
    rw [List.length_cons, Nat.add_right_comm,
      countPass_of_token (Heap.strtok_token_of_block hblock hposition hzero hcall)]
    by_cases hnext : numtokens + 1 < 2 ^ 31
    · rw [intSucc_of_lt hnext, Option.bind_some, ih (by simp) (by simp) hnext, Heap.scan_scan,
        Nat.add_right_comm, Nat.add_assoc]
    · rw [intSucc_of_le (Nat.le_of_not_lt hnext), Option.bind_none, if_neg (by omega)]

/-- The first call of the first pass is as the other ones, from the start of the copy on. -/
theorem countAll_eq_countPass (snew delimiters : CString) (t : ℕ) (h : Heap) :
    countAll snew delimiters t h = countPass delimiters (snew.length + 1) 0 (h.seek ⟨t, 0⟩) := by
  rw [countAll, countPass, Heap.strtok_some]
  rfl

/-- The first pass counts the words, if an `int` has their number. -/
theorem countAll_eq {t : ℕ} {snew : CString} (hblock : h.blocks t = some (.chars (snew ++ [0])))
    (hzero : 0 ∉ snew) :
    ∃ memory pos, memory.length = snew.length + 1 ∧ countAll snew delimiters t h =
      if (tokens (separates delimiters) snew).length < 2 ^ 31 then
        some ((tokens (separates delimiters) snew).length, h.scan t memory pos)
      else none := by
  obtain ⟨starts, pre, rest, hfound, hnone⟩ := @exists_allTokensFound delimiters snew [] hzero
  have hlength := hfound.holds.length_eq
  have hmany := length_tokens_le (p := separates delimiters) snew
  obtain ⟨calls, hcalls⟩ : ∃ calls, snew.length + 1 = starts.length + (calls + 1) :=
    ⟨snew.length - starts.length, by omega⟩
  have hlast : ((h.seek ⟨t, 0⟩).scan t (pre ++ rest ++ [0]) pre.length).strtok none delimiters =
      some (none, h.scan t (pre ++ rest ++ [0]) (pre.length + rest.length)) := by
    have hcall := @Heap.strtok_none_of_block
        ((h.seek ⟨t, 0⟩).scan t (pre ++ rest ++ [0]) pre.length) t delimiters pre rest
      none (by simp) rfl hfound.no_zero hnone
    rwa [Heap.scan_scan, Heap.seek_scan] at hcall
  have hpass := @countPass_of_findsTokens delimiters (h.seek ⟨t, 0⟩)
      (calls + 1) t 0 [] snew pre rest starts hfound.calls
    hblock rfl (by decide)
  refine ⟨pre ++ rest ++ [0], pre.length + rest.length, ?_, ?_⟩
  · rw [List.length_append, List.length_append, hfound.length]
    simp
  · rw [countAll_eq_countPass, hcalls, hpass, countPass_of_none hlast, Nat.zero_add, hlength]

/-- The heap while the tokens are stored: the copy, the array and the saved position, and the other
blocks as they were before. -/
structure Filling (base : Heap) (t argv : ℕ) (memory : List UInt8) (cells : List (Option Pointer))
    (pos : ℕ) (h : Heap) : Prop where
  chars : h.blocks t = some (.chars memory)
  pointers : h.blocks argv = some (.pointers cells)
  saved : h.saved = some ⟨t, pos⟩
  others : ∀ b, b ≠ t → b ≠ argv → h.blocks b = base.blocks b

section Filling

variable {base : Heap} {t argv pos : ℕ} {memory : List UInt8} {cells : List (Option Pointer)}

/-- A call of `strtok` in the copy leaves the array. -/
theorem Filling.scan (hf : Filling base t argv memory cells pos h) (hne : t ≠ argv)
    (memory' : List UInt8) (pos' : ℕ) :
    Filling base t argv memory' cells pos' (h.scan t memory' pos') where
  chars := by simp
  pointers := by
    rw [Heap.scan_blocks, Function.update_of_ne hne.symm]
    exact hf.pointers
  saved := rfl
  others := by
    intro b ht hargv
    rw [Heap.scan_blocks, Function.update_of_ne ht]
    exact hf.others b ht hargv

/-- A pointer which is stored leaves the copy. -/
theorem Filling.setCells (hf : Filling base t argv memory cells pos h) (hne : t ≠ argv)
    (cells' : List (Option Pointer)) :
    Filling base t argv memory cells' pos (h.setBlock argv (some (.pointers cells'))) where
  chars := by
    rw [Heap.setBlock_blocks, Function.update_of_ne hne]
    exact hf.chars
  pointers := by simp
  saved := hf.saved
  others := by
    intro b ht hargv
    rw [Heap.setBlock_blocks, Function.update_of_ne hargv]
    exact hf.others b ht hargv

/-- The next token is stored behind the elements which are done. -/
theorem Filling.storeToken {pre rest pre' rest' : List UInt8} {start : ℕ}
    {done todo : List (Option Pointer)} {c : Option Pointer}
    (hf : Filling base t argv (pre ++ rest ++ [0]) (done ++ c :: todo) pre.length h) (hne : t ≠ argv)
    (hzero : 0 ∉ rest)
    (hcall : strtok delimiters (pre ++ rest) pre.length = (some start, pre' ++ rest', pre'.length)) :
    ∃ h',
      ((h.strtok none delimiters).bind fun found => found.2.store argv done.length found.1) = some h' ∧
      Filling base t argv (pre' ++ rest' ++ [0]) (done ++ some ⟨t, start⟩ :: todo) pre'.length h' := by
  have hposition : (none : Option Pointer).or h.saved = some ⟨t, pre.length⟩ := hf.saved
  have hscanned := hf.scan hne (pre' ++ rest' ++ [0]) pre'.length
  refine ⟨_, ?_, hscanned.setCells hne (done ++ some ⟨t, start⟩ :: todo)⟩
  rw [Heap.strtok_token_of_block hf.chars hposition hzero hcall, Option.bind_some,
    Heap.store_append_cons hscanned.pointers]

/-- The loop stores the tokens which the calls find. -/
theorem Filling.fillPass {pre rest pre' rest' : List UInt8} {starts : List ℕ}
    {done todo : List (Option Pointer)} (hfinds : FindsTokens delimiters pre rest starts pre' rest')
    (hf : Filling base t argv (pre ++ rest ++ [0]) (done ++ todo) pre.length h) (hne : t ≠ argv)
    (hroom : starts.length ≤ todo.length) :
    ∃ h', WebServer.fillPass delimiters argv starts.length done.length h = some h' ∧
      Filling base t argv (pre' ++ rest' ++ [0])
        (done ++ (starts.map (fun start => some ⟨t, start⟩) ++
          todo.drop starts.length)) pre'.length h' := by
  induction hfinds generalizing done todo h with
  | none => exact ⟨h, rfl, by simpa using hf⟩
  | @token _ _ pre₁ rest₁ _ _ start starts hzero hcall _ ih =>
    obtain ⟨c, todo, rfl⟩ : ∃ c rest, todo = c :: rest :=
      List.exists_cons_of_length_pos (Nat.lt_of_lt_of_le (Nat.succ_pos starts.length) hroom)
    obtain ⟨h₁, hstore, hf₁⟩ := hf.storeToken hne hzero hcall
    rw [List.append_cons done] at hf₁
    obtain ⟨h₂, hpass, hf₂⟩ := ih hf₁ (Nat.le_of_succ_le_succ hroom)
    have hstep : WebServer.fillPass delimiters argv (starts.length + 1) done.length h =
        ((h.strtok none delimiters).bind fun found => found.2.store argv done.length found.1).bind
          fun h => WebServer.fillPass delimiters argv starts.length (done.length + 1) h := by
      rw [Option.bind_assoc]
      rfl
    refine ⟨h₂, ?_, by simpa using hf₂⟩
    rw [List.length_cons, hstep, hstore, Option.bind_some, ← hpass, List.length_append,
      List.length_singleton]

/-- The string which is copied again replaces what `strtok` left, and the next call begins with it. -/
theorem Filling.strcpy (hf : Filling base t argv memory cells pos h) (hne : t ≠ argv) {snew : CString}
    (hlength : memory.length = snew.length + 1) :
    ∃ h', h.strcpy t snew = some h' ∧ Filling base t argv (snew ++ [0]) cells 0 (h'.seek ⟨t, 0⟩) := by
  refine ⟨_, Heap.strcpy_of_length hf.chars hlength, ?_⟩
  exact {
    chars := by simp
    pointers := by
      rw [Heap.seek_blocks, Heap.setBlock_blocks, Function.update_of_ne hne.symm]
      exact hf.pointers
    saved := rfl
    others := by
      intro b ht hargv
      rw [Heap.seek_blocks, Heap.setBlock_blocks, Function.update_of_ne ht]
      exact hf.others b ht hargv }

/-- The second pass stores the tokens which the calls find. -/
theorem Filling.fillAll {snew : CString} {pre rest : List UInt8} {start : ℕ} {starts : List ℕ}
    {todo : List (Option Pointer)} (hfinds : FindsTokens delimiters [] snew (start :: starts) pre rest)
    (hf : Filling base t argv memory todo pos h) (hne : t ≠ argv)
    (hlength : memory.length = snew.length + 1) (hroom : (start :: starts).length ≤ todo.length) :
    ∃ h', WebServer.fillAll snew delimiters t argv (start :: starts).length h = some h' ∧
      Filling base t argv (pre ++ rest ++ [0])
        ((start :: starts).map (fun start => some ⟨t, start⟩) ++ todo.drop
          (start :: starts).length) pre.length h' := by
  obtain ⟨h₀, hcopy, hf₀⟩ := hf.strcpy hne hlength
  obtain ⟨h', hpass, hf'⟩ := @Filling.fillPass delimiters (h₀.seek ⟨t, 0⟩) base t argv [] snew pre rest
      (start :: starts)
    [] todo hfinds hf₀ hne hroom
  refine ⟨h', ?_, hf'⟩
  rw [WebServer.fillAll, hcopy, Option.bind_eq_bind, Option.bind_some, Heap.strtok_some]
  exact hpass

end Filling

/-- `freemakeargv` of an array without a token releases the array. -/
theorem freemakeargv_of_null {argv : ℕ} {cells : List (Option Pointer)}
    (hcells : h.blocks argv = some (.pointers (none :: cells))) :
    freemakeargv h (some ⟨argv, 0⟩) = some (h.setBlock argv none) := by
  have hlive : h.blocks argv ≠ none := by simp [hcells]
  simp only [freemakeargv, Heap.pointers_of_block hcells, Option.bind_eq_bind, Option.bind_some,
    List.getElem?_cons_zero]
  exact Heap.free_of_start hlive

/-- `freemakeargv` of an array whose first pointer is the start of a block releases both. -/
theorem freemakeargv_of_start {t argv : ℕ} {cells : List (Option Pointer)} (hne : t ≠ argv)
    (hcells : h.blocks argv = some (.pointers (some ⟨t, 0⟩ :: cells))) (hlive : h.blocks t ≠ none) :
    freemakeargv h (some ⟨argv, 0⟩) = some ((h.setBlock t none).setBlock argv none) := by
  have harray : (h.setBlock t none).blocks argv ≠ none := by simp [hne.symm, hcells]
  simp only [freemakeargv, Heap.pointers_of_block hcells, Option.bind_eq_bind, Option.bind_some,
    List.getElem?_cons_zero, Heap.free_of_start hlive]
  exact Heap.free_of_start harray

variable {s : CString}

/-- A correct array is released with all that was allocated for it. -/
theorem ArgvCorrect.releases {a : ArgvBlocks h} {h' : Heap} (hargv : ArgvCorrect s delimiters h a h') :
    ∃ h'', freemakeargv h' (some ⟨a.argv, 0⟩) = some h'' ∧ h''.blocks = h.blocks := by
  obtain ⟨starts, hlength, hcells, -, hfirst⟩ := hargv.pointers
  cases starts with
  | nil =>
    have hnone : runs s delimiters = [] := List.length_eq_zero_iff.mp hlength.symm
    refine ⟨_, freemakeargv_of_null hcells, funext fun b => ?_⟩
    rw [Heap.setBlock_blocks]
    by_cases hb : b = a.argv
    · rw [hb, Function.update_self, a.argv_free]
    · rw [Function.update_of_ne hb]
      by_cases ht : b = a.t
      · rw [ht, a.t_free]
        by_contra hlive
        have hwhy := (hargv.allocated a.t).mp hlive
        simp [a.t_free, a.t_ne_argv, hnone] at hwhy
      · exact hargv.others b ht hb
  | cons start starts =>
    obtain rfl : start = 0 := hfirst start rfl
    have hsome : runs s delimiters ≠ [] := fun hnone => by simp [hnone] at hlength
    have hlive : h'.blocks a.t ≠ none := (hargv.allocated a.t).mpr (Or.inr (Or.inr ⟨hsome, rfl⟩))
    refine ⟨_, freemakeargv_of_start a.t_ne_argv hcells hlive, funext fun b => ?_⟩
    rw [Heap.setBlock_blocks, Heap.setBlock_blocks]
    by_cases hb : b = a.argv
    · rw [hb, Function.update_self, a.argv_free]
    · rw [Function.update_of_ne hb]
      by_cases ht : b = a.t
      · rw [ht, Function.update_self, a.t_free]
      · rw [Function.update_of_ne ht]
        exact hargv.others b ht hb

/-- Without a run only the array is left. -/
theorem argvCorrect_of_noRuns {a : ArgvBlocks h} {h' : Heap} (hnone : runs s delimiters = [])
    (hblocks : h'.blocks = Function.update h.blocks a.argv (some (.pointers [none]))) :
    ArgvCorrect s delimiters h a h' where
  pointers := by
    refine ⟨[], by simp [hnone], ?_, by simp, by simp⟩
    rw [hblocks, Function.update_self]
    rfl
  exhausted := fun hsome => absurd hnone hsome
  allocated := by
    intro b
    rw [hblocks]
    by_cases hb : b = a.argv
    · simp [hb]
    · simp [hb, hnone]
  others := by
    intro b _ hb
    rw [hblocks, Function.update_of_ne hb]

/-- The string at a token in a block with a terminator behind it. -/
theorem stringAt_of_holdsToken {t start : ℕ} {pre rest : List UInt8} {word : CString}
    (hblock : h.blocks t = some (.chars (pre ++ rest ++ [0])))
    (hholds : HoldsToken pre rest.length start word) (hword : word ≠ []) :
    h.stringAt ⟨t, start⟩ = some word := by
  have hend : 0 ∈ (pre ++ rest ++ [0]).drop start := by
    rw [List.drop_append_of_le_length (hholds.start_le hword)]
    exact List.mem_append_right _ (List.mem_singleton_self 0)
  rw [Heap.stringAt_of_block hblock hend, hholds.append_closed hword (by simp)]

/-- The heap after the second pass has a correct array, if there is a run. -/
theorem argvCorrect_of_filling {a : ArgvBlocks h} {h' : Heap} {starts : List ℕ} {pre rest : List UInt8}
    (hfound : TokensFound delimiters [] (s.dropWhile (separates delimiters)) starts
      (runs s delimiters) pre rest)
    (hnone : tokens (separates delimiters) rest = []) (hsome : runs s delimiters ≠ [])
    (hf : Filling h a.t a.argv (pre ++ rest ++ [0]) (starts.map (fun start => some ⟨a.t, start⟩) ++
      [none]) pre.length h') :
    ArgvCorrect s delimiters h a h' where
  pointers := by
    refine ⟨starts, hfound.holds.length_eq, hf.pointers, fun i start hstart => ⟨?_, ?_⟩,
      fun start hstart => ?_⟩
    · obtain ⟨hi, rfl⟩ := List.getElem?_eq_some_iff.mp hstart
      have hi' : i < (runs s delimiters).length := hfound.holds.length_eq ▸ hi
      have hholds := hfound.holds.get hi hi'
      rw [List.getElem?_eq_getElem hi']
      exact stringAt_of_holdsToken hf.chars hholds (mem_tokens (List.getElem_mem hi')).1
    · obtain ⟨n, rfl, hn⟩ := hfound.placed i start hstart
      rw [List.length_nil, Nat.zero_add, hn, fromToken_dropWhile]
    · obtain ⟨n, rfl, hn⟩ := hfound.placed 0 start (by rwa [← List.head?_eq_getElem?])
      have hne : s.dropWhile (separates delimiters) ≠ [] :=
        fun hnil => hsome (tokens_of_dropWhile_eq_nil hnil)
      have hpos := List.length_pos_of_ne_nil hne
      rw [fromToken, List.dropWhile_idempotent] at hn
      have hlength := congrArg List.length hn
      rw [List.length_drop] at hlength
      rw [List.length_nil]
      omega
  exhausted := fun _ => ⟨_, Heap.strtok_none_of_block hf.chars hf.saved hfound.no_zero hnone⟩
  allocated := by
    intro b
    by_cases hb : b = a.argv
    · simp [hb, hf.pointers]
    · by_cases ht : b = a.t
      · simp [ht, hf.chars, hsome]
      · simp [hf.others b ht hb, hb, ht]
  others := hf.others

/-- The strings of the array, read on the heap. -/
def heapString (h : Heap) (cells : List (Option Pointer)) (i : ℕ) : Option CString :=
  cells[i]?.join.bind h.stringAt

/-- The strings of a correct array are the runs. -/
theorem ArgvCorrect.heapString_eq {a : ArgvBlocks h} {h' : Heap}
    (hargv : ArgvCorrect s delimiters h a h') :
    ∃ cells, h'.blocks a.argv = some (.pointers cells) ∧ ∀ i,
    heapString h' cells i = (runs s delimiters)[i]? := by
  obtain ⟨starts, hlength, hcells, hstrings, -⟩ := hargv.pointers
  have hclosed : starts.map (fun start => some (Pointer.mk a.t start)) =
      (starts.map (Pointer.mk a.t)).map some := by
    rw [List.map_map]
    rfl
  refine ⟨_, hcells, fun i => ?_⟩
  rw [heapString, hclosed, join_getElem?_closed, List.getElem?_map]
  cases hstart : starts[i]? with
  | none =>
    rw [List.getElem?_eq_none (hlength ▸ List.getElem?_eq_none_iff.mp hstart), Option.map_none,
      Option.bind_none]
  | some start => exact (hstrings i start hstart).1

/-- So the positions which `makeargv` stores without a heap are those of the same strings. -/
theorem ArgvCorrect.heapString_eq_argvString {a : ArgvBlocks h} {h' : Heap} (hs : 0 ∉ s)
    (hargv : ArgvCorrect s delimiters h a h') : ∃ cells, h'.blocks a.argv = some (.pointers cells) ∧
      ∀ i, heapString h' cells i = argvString (makeargv s delimiters).2.1
        (makeargv s delimiters).2.2 i := by
  obtain ⟨cells, hcells, hstrings⟩ := hargv.heapString_eq
  obtain ⟨starts, t, hmake, hstarts⟩ := makeargv_eq hs delimiters
  have hwords : starts.map (fun start => cString (t.drop start)) = runs s delimiters := by
    rw [← List.forall₂_eq_eq_eq, List.forall₂_map_left_iff]
    exact hstarts
  refine ⟨cells, hcells, fun i => ?_⟩
  rw [hstrings, hmake, argvString, join_getElem?_closed, ← hwords, List.getElem?_map]

/-- What the first pass leaves: the copy, in any state, and no array yet. -/
structure Counted (base : Heap) (t : ℕ) (snew : CString) (h : Heap) : Prop where
  blocks : ∃ memory, memory.length = snew.length + 1 ∧ h.blocks = Function.update base.blocks t
    (some (.chars memory))
  saved : ∃ pos, h.saved = some ⟨t, pos⟩

/-- The address of the array is still not in use. -/
theorem Counted.argv_free {a : ArgvBlocks h} {snew : CString} {h₁ : Heap}
    (hcounted : Counted h a.t snew h₁) :
    h₁.blocks a.argv = none := by
  obtain ⟨memory, -, hblocks⟩ := hcounted.blocks
  rw [hblocks, Function.update_of_ne a.t_ne_argv.symm, a.argv_free]

/-- Without a run the array has its `NULL` only, and the copy is released. -/
theorem makeArray_noRuns {a : ArgvBlocks h} {snew : CString} {h₁ : Heap}
    (hcounted : Counted h a.t snew h₁) (hnone : runs s delimiters = []) :
    ∃ h', makeArray snew delimiters a.t a.argv a.cells 0 h₁ = some (0, h') ∧
    ArgvCorrect s delimiters h a h' := by
  obtain ⟨memory, -, hblocks⟩ := hcounted.blocks
  have hlive : (h₁.setBlock a.argv (some (.pointers [a.cells 0]))).blocks a.t ≠ none := by
    simp [a.t_ne_argv, hblocks]
  have hcells : ((h₁.setBlock a.argv (some (.pointers [a.cells 0]))).setBlock a.t none).blocks a.argv =
      some (.pointers ([] ++ a.cells 0 :: [])) := by
    simp [a.t_ne_argv.symm]
  have hclosed := Heap.store_append_cons hcells none
  have hone : intSucc 0 = some 1 := intSucc_of_lt (by decide)
  rw [List.length_nil] at hclosed
  simp only [makeArray, hone, List.range_one, List.map_cons, List.map_nil,
    Heap.malloc_of_free hcounted.argv_free, if_true,
    Heap.free_of_start hlive, hclosed, Option.bind_eq_bind, Option.bind_some]
  refine ⟨_, rfl, argvCorrect_of_noRuns hnone (funext fun b => ?_)⟩
  by_cases hb : b = a.argv
  · simp [hb]
  · by_cases ht : b = a.t
    · simp [ht, a.t_ne_argv, a.t_free]
    · simp [hb, ht, hblocks]

/-- With a run the array is filled and closed. -/
theorem makeArray_runs {a : ArgvBlocks h} {h₁ : Heap}
    (hcounted : Counted h a.t (s.dropWhile (separates delimiters)) h₁)
    (hs : 0 ∉ s) (hsome : runs s delimiters ≠ []) (hcount : (runs s delimiters).length + 1 < 2 ^ 31) :
    ∃ h', makeArray (s.dropWhile (separates delimiters)) delimiters a.t a.argv a.cells
    (runs s delimiters).length h₁ =
      some ((runs s delimiters).length, h') ∧ ArgvCorrect s delimiters h a h' := by
  obtain ⟨memory, hmemory, hblocks⟩ := hcounted.blocks
  obtain ⟨pos, hsaved⟩ := hcounted.saved
  have hzero : 0 ∉ s.dropWhile (separates delimiters) :=
    fun hmem => hs ((List.dropWhile_sublist _).subset hmem)
  obtain ⟨starts, pre, rest, hfound, hnone⟩ :=
    @exists_allTokensFound delimiters (s.dropWhile (separates delimiters)) [] hzero
  rw [tokens_dropWhile, ← runs] at hfound
  have hlength := hfound.holds.length_eq
  have hf : Filling h a.t a.argv memory ((List.range (starts.length + 1)).map a.cells) pos
      (h₁.setBlock a.argv (some (.pointers ((List.range (starts.length + 1)).map a.cells)))) := {
    chars := by simp [a.t_ne_argv, hblocks]
    pointers := by simp
    saved := hsaved
    others := by
      intro b ht hargv
      simp [hargv, ht, hblocks] }
  rw [← hlength] at hcount ⊢
  cases starts with
  | nil => exact absurd (List.length_eq_zero_iff.mp hlength.symm) hsome
  | cons start starts =>
    obtain ⟨h₂, hfill, hf₂⟩ := hf.fillAll hfound.calls a.t_ne_argv hmemory (by simp)
    have hlast : ((List.range ((start :: starts).length + 1)).map a.cells).drop
        (start :: starts).length =
        [a.cells (start :: starts).length] := by
      rw [List.range_succ, List.map_append]
      exact List.drop_left' (by simp)
    rw [hlast] at hf₂
    have hclosed := Heap.store_append_cons hf₂.pointers none
    rw [List.length_map] at hclosed
    refine ⟨_, ?_, argvCorrect_of_filling hfound hnone hsome (hf₂.setCells a.t_ne_argv _)⟩
    have hsize := intSucc_of_lt hcount
    rw [List.length_cons] at hsize hfill hclosed ⊢
    simp only [makeArray, hsize, Heap.malloc_of_free hcounted.argv_free, Nat.add_one_ne_zero, if_false,
      hfill, hclosed, Option.bind_eq_bind, Option.bind_some]

/-- The copy is made, counted and put into an array, if an `int` has the number of runs. -/
theorem makeargvHeap_eq (hs : 0 ∉ s) (a : ArgvBlocks h) :
    ∃ h₁, Counted h a.t (s.dropWhile (separates delimiters)) h₁ ∧ makeargvHeap s delimiters h a =
      if (runs s delimiters).length < 2 ^ 31 then
        makeArray (s.dropWhile (separates delimiters)) delimiters a.t a.argv a.cells
          (runs s delimiters).length h₁
      else none := by
  rw [runs, ← tokens_dropWhile (p := separates delimiters) s, makeargvHeap]
  have hzero : 0 ∉ s.dropWhile (separates delimiters) :=
    fun hmem => hs ((List.dropWhile_sublist _).subset hmem)
  generalize s.dropWhile (separates delimiters) = snew at hzero ⊢
  have hmalloc : (h.setBlock a.t (some (.chars (malloc a.garbage (snew.length + 1))))).blocks a.t =
      some (.chars (malloc a.garbage (snew.length + 1))) := by
    rw [Heap.setBlock_blocks, Function.update_self]
  have hcopied := Heap.strcpy_of_length hmalloc (length_malloc _ _)
  have hblock : (h.setBlock a.t (some (.chars (snew ++ [0])))).blocks a.t = some
      (.chars (snew ++ [0])) := by
    rw [Heap.setBlock_blocks, Function.update_self]
  obtain ⟨memory, pos, hmemory, hpass⟩ := @countAll_eq delimiters _ a.t snew hblock hzero
  refine ⟨(h.setBlock a.t (some (.chars (snew ++ [0])))).scan a.t memory pos,
    ⟨⟨memory, hmemory, by simp⟩, pos, rfl⟩, ?_⟩
  simp only [Heap.malloc_of_free a.t_free, hcopied, Heap.setBlock_setBlock, hpass, Option.bind_eq_bind,
    Option.bind_some]
  split
  · rfl
  · rfl

/-- `makeargv` makes a correct array if an `int` has its length. -/
theorem makeargvHeap_of_lt (hs : 0 ∉ s) (a : ArgvBlocks h)
    (hcount : (runs s delimiters).length + 1 < 2 ^ 31) :
    ∃ h', makeargvHeap s delimiters h a = some ((runs s delimiters).length, h') ∧
    ArgvCorrect s delimiters h a h' := by
  obtain ⟨h₁, hcounted, hmake⟩ := @makeargvHeap_eq delimiters h s hs a
  rw [hmake, if_pos (by omega)]
  by_cases hruns : runs s delimiters = []
  · rw [hruns]
    exact makeArray_noRuns hcounted hruns
  · exact makeArray_runs hcounted hs hruns hcount

/-- `makeargv` is not defined if an `int` does not have the length of the array. -/
theorem makeargvHeap_of_le (hs : 0 ∉ s) (a : ArgvBlocks h)
    (hcount : 2 ^ 31 ≤ (runs s delimiters).length + 1) :
    makeargvHeap s delimiters h a = none := by
  obtain ⟨h₁, -, hmake⟩ := @makeargvHeap_eq delimiters h s hs a
  rw [hmake, makeArray, intSucc_of_le hcount]
  exact ite_self none

/-- A heap without blocks. -/
def emptyHeap : Heap := ⟨fun _ => none, none⟩

/-- Every address is free. -/
theorem emptyHeap_free (b : ℕ) : emptyHeap.blocks b = none := rfl

/-- The first two addresses of a heap without blocks. -/
def firstBlocks : ArgvBlocks emptyHeap where
  t := 0
  argv := 1
  t_free := emptyHeap_free 0
  argv_free := emptyHeap_free 1
  t_ne_argv := Nat.zero_ne_one
  garbage := fun _ => 0
  cells := fun _ => none

/-- `makeargv` splits a string and its array can be released exactly if an `int` has the length of the
array. -/
theorem splitsAndReleases_iff (hs : 0 ∉ s) (delimiters : CString) :
    SplitsAndReleases s delimiters ↔ (runs s delimiters).length + 1 < 2 ^ 31 := by
  constructor
  · intro hsplits
    by_contra hmany
    obtain ⟨h', hresult, -⟩ := hsplits emptyHeap firstBlocks
    rw [makeargvHeap_of_le hs firstBlocks (Nat.le_of_not_lt hmany)] at hresult
    exact absurd hresult (by simp)
  · intro hcount h a
    obtain ⟨h', hresult, hargv⟩ := makeargvHeap_of_lt hs a hcount
    exact ⟨h', hresult, hargv, hargv.releases⟩

/-- A request line of two words. -/
theorem splitsAndReleases_iff_request : SplitsAndReleases (bytes "GET /x\n") requestDelims :=
  (splitsAndReleases_iff (by decide) requestDelims).mpr (by decide)

/-- A string of words of one character. -/
def manyWords (n : ℕ) : CString := (List.replicate n (bytes "a ")).flatten

/-- Every character but the spaces is a word. -/
theorem length_runs_manyWords (n : ℕ) : (runs (manyWords n) (bytes " ")).length = n := by
  induction n with
  | zero => rfl
  | succ n ih =>
    have hsplit : manyWords (n + 1) = bytes "a" ++ 32 :: manyWords n := rfl
    have hfirst : (tokens (separates (bytes " ")) (bytes "a")).length = 1 := by decide
    rw [runs] at ih
    rw [runs, hsplit, tokens_append_cons _ (by decide), List.length_append, hfirst, ih, Nat.add_comm]

/-- The words have no NUL. -/
theorem zero_not_mem_manyWords (n : ℕ) : 0 ∉ manyWords n := by
  intro hmem
  obtain ⟨word, hword, hzero⟩ := List.mem_flatten.mp hmem
  rw [List.eq_of_mem_replicate hword] at hzero
  exact absurd hzero (by decide)

/-- From `2 ^ 31 - 1` words on the length of the array is more than the largest `int`. -/
theorem not_splitsAndReleases_manyWords : ¬ SplitsAndReleases (manyWords (2 ^ 31 - 1)) (bytes " ") := by
  intro hsplits
  obtain ⟨h', hresult, -⟩ := hsplits emptyHeap firstBlocks
  have hmany : 2 ^ 31 ≤ (runs (manyWords (2 ^ 31 - 1)) (bytes " ")).length + 1 := by
    rw [length_runs_manyWords]
    omega
  rw [makeargvHeap_of_le (zero_not_mem_manyWords _) firstBlocks hmany] at hresult
  exact absurd hresult (by simp)

end Csci4061.WebServer
