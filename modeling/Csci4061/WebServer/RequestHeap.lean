import Csci4061.Lib.Transition
import Csci4061.WebServer.Argv

/-!
# The blocks of the requests

`get_request` opens a stream, and has the line split into a block and an array of pointers. Where it
accepts the line it releases these two and leaves the stream open, and where it refuses the line it
closes the stream and leaves the two. So each request costs the server some blocks. The file names and
return values are those without a heap.

The requests are parsed one after another, as with one dispatcher. Two dispatchers share the position of
`strtok`.
-/

namespace Csci4061.WebServer

open Csci4061.Lib

/-- `fdopen`, which succeeds. A stream and its buffer are one block here, and its contents play no
role. -/
def fdopen (h : Heap) (stream : ℕ) : Heap := h.setBlock stream (some (.chars []))

/-- `fclose`. -/
def fclose (h : Heap) (stream : ℕ) : Option Heap := h.free ⟨stream, 0⟩

/-- The block of the stream, which was not in use, and those which `malloc` returns in `makeargv`. -/
structure RequestBlocks (h : Heap) where
  stream : ℕ
  stream_free : h.blocks stream = none
  argv : ArgvBlocks (fdopen h stream)

/-- `get_request` on the heap, for the bytes which arrive. -/
def getRequestHeap (received : List UInt8) (h : Heap) (a : RequestBlocks h) :
    Option (ParseResult × Heap) :=
  match fgets 2048 received with
  | none => do
    let h ← fclose (fdopen h a.stream) a.stream
    some (⟨-3, none⟩, h)
  | some buf => do
    let (args, h) ← makeargvHeap (cString buf) requestDelims (fdopen h a.stream) a.argv
    if args < 2 then
      let h ← fclose h a.stream
      some (⟨-2, none⟩, h)
    else
      let strings ← h.pointers a.argv.argv
      let result ← checkRequest (heapString h strings 0) (heapString h strings 1)
      if result.ret = 0 then
        -- the stream stays open
        let h ← freemakeargv h (some ⟨a.argv.argv, 0⟩)
        some (result, h)
      else
        let h ← fclose h a.stream
        some (result, h)

/-- The blocks which a request leaves behind: the stream if it is accepted, none if there is no line,
the array if the line has no word, and otherwise the array and the copy. -/
def blocksLost (received : List UInt8) {h : Heap} (a : RequestBlocks h) : List ℕ :=
  match fgets 2048 received with
  | none => []
  | some buf =>
    if (parseRequest received).ret = 0 then [a.stream]
    else if requestWords buf = [] then [a.argv.argv]
    else [a.argv.argv, a.argv.t]

/-- The number of blocks which a request leaves behind. -/
def lossCount (received : List UInt8) : ℕ :=
  match fgets 2048 received with
  | none => 0
  | some buf => if (parseRequest received).ret = 0 then 1 else if requestWords buf = [] then 1 else 2

/-- Heaps which have the same allocated blocks, apart from some new ones. -/
structure Loses (h h' : Heap) (lost : List ℕ) : Prop where
  fresh : ∀ b ∈ lost, h.blocks b = none
  kept : ∀ b, h.blocks b ≠ none → h'.blocks b = h.blocks b
  allocated : ∀ b, h'.blocks b ≠ none ↔ h.blocks b ≠ none ∨ b ∈ lost

variable {h : Heap} {stream buf : List UInt8}

/-- `fgets` stores fewer bytes than its size. -/
theorem fgets_length_lt {size : ℕ} (hsize : 0 < size) (hbuf : fgets size stream = some buf) :
    buf.length < size := by
  have hwindow : (stream.take (size - 1)).length < size := by
    have hle := List.length_take_le (size - 1) stream
    omega
  rw [fgets] at hbuf
  split at hbuf
  · exact absurd hbuf (by simp)
  · simp only at hbuf
    split at hbuf
    · rename_i i _
      obtain rfl := Option.some.inj hbuf
      exact (List.length_take_le' _ _).trans_lt hwindow
    · obtain rfl := Option.some.inj hbuf
      exact hwindow

/-- An `int` has the number of words of a line. -/
theorem length_requestWords_lt (hbuf : fgets 2048 stream = some buf) :
    (requestWords buf).length + 1 < 2 ^ 31 := by
  have hlength : buf.length < 2048 := fgets_length_lt (by decide) hbuf
  have hstring : (cString buf).length ≤ buf.length := (List.takeWhile_sublist _).length_le
  have hwords := length_tokens_le (p := separates requestDelims) (cString buf)
  rw [requestWords]
  omega

/-- A heap with the blocks it had loses nothing. -/
theorem Loses.of_blocks_eq {h' : Heap} (hblocks : h'.blocks = h.blocks) : Loses h h' [] :=
  ⟨by simp, fun b _ => by rw [hblocks], fun b => by simp [hblocks]⟩

/-- An array which is not released is lost, with its copy if there is a word. -/
theorem ArgvCorrect.loses {s delimiters : CString} {a : ArgvBlocks h} {h' : Heap}
    (hargv : ArgvCorrect s delimiters h a h') :
    Loses h h' (if runs s delimiters = [] then [a.argv] else [a.argv, a.t]) where
  fresh b hb := by
    split at hb
    · rw [List.mem_singleton.mp hb]
      exact a.argv_free
    · rcases List.mem_pair.mp hb with rfl | rfl
      · exact a.argv_free
      · exact a.t_free
  kept b hlive := by
    refine hargv.others b ?_ ?_
    · rintro rfl
      exact hlive a.t_free
    · rintro rfl
      exact hlive a.argv_free
  allocated b := by
    rw [hargv.allocated]
    by_cases hruns : runs s delimiters = []
    · simp [hruns]
    · simp [hruns]

/-- What one request after another loses. -/
theorem Loses.trans {h₁ h₂ : Heap} {lost lost' : List ℕ} (hfirst : Loses h h₁ lost)
    (hsecond : Loses h₁ h₂ lost') :
    Loses h h₂ (lost ++ lost') where
  fresh b hb := by
    rcases List.mem_append.mp hb with hold | hnew
    · exact hfirst.fresh b hold
    · by_contra hlive
      exact (hfirst.allocated b).mpr (Or.inl hlive) (hsecond.fresh b hnew)
  kept b hlive := by
    have hlive₁ := (hfirst.allocated b).mpr (Or.inl hlive)
    exact (hsecond.kept b hlive₁).trans (hfirst.kept b hlive)
  allocated b := by rw [hsecond.allocated, hfirst.allocated, List.mem_append, or_assoc]

/-- A stream which is not closed is lost. -/
theorem loses_fdopen {stream : ℕ} (hfree : h.blocks stream = none) :
    Loses h (fdopen h stream) [stream] where
  fresh b hb := List.mem_singleton.mp hb ▸ hfree
  kept b hlive := by
    rw [fdopen, Heap.setBlock_blocks, Function.update_of_ne]
    rintro rfl
    exact hlive hfree
  allocated b := by
    rw [fdopen, Heap.setBlock_blocks]
    by_cases hb : b = stream
    · simp [hb]
    · simp [hb]

/-- A stream is closed, and what was lost since it was opened stays lost. -/
theorem Loses.fclose {stream : ℕ} (hfree : h.blocks stream = none) {h₁ : Heap} {lost : List ℕ}
    (hloses : Loses (fdopen h stream) h₁ lost) : ∃ h', fclose h₁ stream = some h' ∧ Loses h h' lost := by
  have hopen : (fdopen h stream).blocks stream ≠ none := by
    rw [fdopen, Heap.setBlock_blocks, Function.update_self]
    exact Option.some_ne_none _
  have hlive : h₁.blocks stream ≠ none := (hloses.allocated stream).mpr (Or.inl hopen)
  have hsame (b : ℕ) (hb : b ≠ stream) : (fdopen h stream).blocks b = h.blocks b := by
    rw [fdopen, Heap.setBlock_blocks, Function.update_of_ne hb]
  have hlost (b : ℕ) (hb : b ∈ lost) : b ≠ stream := by
    rintro rfl
    exact hopen (hloses.fresh b hb)
  refine ⟨h₁.setBlock stream none, Heap.free_of_start hlive, ?_, ?_, ?_⟩
  · exact fun b hb => (hsame b (hlost b hb)).symm.trans (hloses.fresh b hb)
  · intro b hb
    have hne : b ≠ stream := by
      rintro rfl
      exact hb hfree
    rw [Heap.setBlock_blocks, Function.update_of_ne hne, hloses.kept b (hsame b hne ▸ hb), hsame b hne]
  · intro b
    rw [Heap.setBlock_blocks]
    by_cases hb : b = stream
    · subst hb
      simpa [hfree] using fun hmem => hlost b hmem rfl
    · rw [Function.update_of_ne hb, hloses.allocated, hsame b hb]

/-- The blocks which one request leaves behind were not lost before. -/
theorem Loses.nodup_append {h₁ h₂ : Heap} {lost lost' : List ℕ} (hfirst : Loses h h₁ lost)
    (hsecond : Loses h₁ h₂ lost') (hlost : lost.Nodup) (hlost' : lost'.Nodup) :
    (lost ++ lost').Nodup := by
  refine List.nodup_append.mpr ⟨hlost, hlost', ?_⟩
  rintro b hb _ hb' rfl
  exact (hfirst.allocated b).mpr (Or.inr hb) (hsecond.fresh b hb')

/-- `get_request` on the heap gives what it gives without one, and loses its stream or the blocks of a
line which it refuses. -/
theorem getRequestHeap_eq (received : List UInt8) (h : Heap) (a : RequestBlocks h) :
    ∃ h', getRequestHeap received h a = some (parseRequest received, h') ∧
    Loses h h' (blocksLost received a) := by
  rw [getRequestHeap, blocksLost]
  cases hbuf : fgets 2048 received with
  | none =>
    obtain ⟨h', hclose, hloses⟩ := Loses.fclose a.stream_free (.of_blocks_eq rfl)
    exact ⟨h', by simp only [parseRequest, hbuf, hclose, Option.bind_eq_bind, Option.bind_some], hloses⟩
  | some buf =>
    have hzero := zero_not_mem_cString buf
    obtain ⟨h₁, hmake, hargv⟩ := makeargvHeap_of_lt hzero a.argv (length_requestWords_lt hbuf)
    obtain ⟨cells, hcells, hstrings⟩ := hargv.heapString_eq
    have hloses : Loses (fdopen h a.stream) h₁
        (if requestWords buf = [] then [a.argv.argv] else [a.argv.argv, a.argv.t]) := hargv.loses
    obtain ⟨h', hclose, hlost⟩ := hloses.fclose a.stream_free
    simp only [hmake, Option.bind_eq_bind, Option.bind_some]
    change ∃ h'', (if (requestWords buf).length < 2 then _ else _) = _ ∧ _
    by_cases hshort : (requestWords buf).length < 2
    · rw [if_pos hshort, parseRequest_short hbuf hshort, if_neg (by decide), hclose]
      exact ⟨h', rfl, hlost⟩
    · obtain ⟨command, target, rest, hwords⟩ := exists_words hshort
      have hcommand : heapString h₁ cells 0 = some command := by
        rw [hstrings]
        exact congrArg (·[0]?) hwords
      have htarget : heapString h₁ cells 1 = some target := by
        rw [hstrings]
        exact congrArg (·[1]?) hwords
      rw [if_neg hshort]
      simp only [Heap.pointers_of_block hcells, Option.bind_some, hcommand, htarget,
        checkRequest_words hbuf hwords]
      by_cases haccepted : (parseRequest received).ret = 0
      · obtain ⟨h₂, hfree, hblocks⟩ := hargv.releases
        rw [if_pos haccepted, if_pos haccepted, hfree]
        exact ⟨h₂, rfl, (loses_fdopen a.stream_free).trans (.of_blocks_eq hblocks)⟩
      · rw [if_neg haccepted, if_neg haccepted, hclose]
        exact ⟨h', rfl, hlost⟩

/-- The blocks which a request leaves behind are different, and as many as it loses. -/
theorem blocksLost_count (received : List UInt8) (a : RequestBlocks h) :
    (blocksLost received a).Nodup ∧ (blocksLost received a).length = lossCount received := by
  rw [blocksLost, lossCount]
  cases fgets 2048 received with
  | none => exact ⟨List.nodup_nil, rfl⟩
  | some buf =>
    simp only
    split
    · exact ⟨List.nodup_singleton _, rfl⟩
    · split
      · exact ⟨List.nodup_singleton _, rfl⟩
      · exact ⟨by simpa using a.argv.t_ne_argv.symm, rfl⟩

/-- The dispatcher parses the first lines of its connections, one after another, on one heap. -/
def requestsSystem : TransitionSystem Heap (List UInt8) where
  init _ := True
  step h received h' := ∃ (a : RequestBlocks h) (result : ParseResult),
    getRequestHeap received h a = some (result, h')

/-- After any connections, the blocks which were there are as they were, and the new ones are exactly
those which the requests left behind: the stream of each accepted one, two for each refused line, and
one for a line without a word. -/
theorem requests_lose {h h' : Heap} {lines : List (List UInt8)} (hrun : requestsSystem.Run h lines h') :
    ∃ lost : List ℕ, lost.Nodup ∧ lost.length = (lines.map lossCount).sum ∧ Loses h h' lost := by
  induction hrun with
  | nil => exact ⟨[], List.nodup_nil, rfl, .of_blocks_eq rfl⟩
  | @snoc lines h₁ h₂ line _ hlast ih =>
    obtain ⟨lost, hnodup, hlength, hloses⟩ := ih
    obtain ⟨a, result, hrequest⟩ := hlast
    obtain ⟨h₂', hrequest', hlosesLast⟩ := getRequestHeap_eq line h₁ a
    obtain ⟨-, rfl⟩ := Prod.mk.inj (Option.some.inj (hrequest.symm.trans hrequest'))
    obtain ⟨hnodupLast, hcount⟩ := blocksLost_count line a
    refine ⟨lost ++ blocksLost line a, hloses.nodup_append hlosesLast hnodup hnodupLast, ?_,
      hloses.trans hlosesLast⟩
    rw [List.length_append, hlength, hcount, List.map_append, List.sum_append, List.map_singleton,
      List.sum_singleton]

/-- The three blocks of a request, on a heap where every address from some one on is free. -/
def requestBlocksFrom (h : Heap) (stream : ℕ) (hfree : ∀ b ≥ stream, h.blocks b = none) : RequestBlocks h where
  stream := stream
  stream_free := hfree stream le_rfl
  argv :=
    have hopen (b : ℕ) (hb : b > stream) : (fdopen h stream).blocks b = none := by
      rw [fdopen, Heap.setBlock_blocks, Function.update_of_ne hb.ne', hfree b hb.le]
    { t := stream + 1
      argv := stream + 2
      t_free := hopen _ (Nat.lt_succ_self _)
      argv_free := hopen _ (by omega)
      t_ne_argv := Nat.ne_of_lt (Nat.lt_succ_self _)
      garbage := fun _ => 0
      cells := fun _ => none }

/-- An accepted request leaves its stream on an empty heap, and one which is no GET behind it two blocks
more. -/
theorem requests_lose_getPost : ∃ (h : Heap) (lost : List ℕ), lost.Nodup ∧ lost.length = 3 ∧
    requestsSystem.Run emptyHeap [bytes "GET /x\n", bytes "POST /x\n"] h ∧ Loses emptyHeap h lost := by
  let first := requestBlocksFrom emptyHeap 0 fun b _ => emptyHeap_free b
  obtain ⟨h₁, hget, hloses⟩ := getRequestHeap_eq (bytes "GET /x\n") emptyHeap first
  have hlost : blocksLost (bytes "GET /x\n")
      (requestBlocksFrom emptyHeap 0 fun b _ => emptyHeap_free b) = [0] := by decide +kernel
  have hfree (b : ℕ) (hb : b ≥ 1) : h₁.blocks b = none := by
    by_contra hlive
    rcases (hloses.allocated b).mp hlive with hold | hnew
    · exact hold rfl
    · have hzero : b = 0 := List.mem_singleton.mp (hlost ▸ hnew)
      omega
  let second := requestBlocksFrom h₁ 1 hfree
  obtain ⟨h, hpost, -⟩ := getRequestHeap_eq (bytes "POST /x\n") h₁ second
  have hstart : requestsSystem.Run emptyHeap [] emptyHeap := .nil
  have hrun : requestsSystem.Run emptyHeap [bytes "GET /x\n", bytes "POST /x\n"] h :=
    (hstart.snoc ⟨first, _, hget⟩).snoc ⟨second, _, hpost⟩
  obtain ⟨lost, hnodup, hlength, hlosesAll⟩ := requests_lose hrun
  exact ⟨h, lost, hnodup, hlength.trans (by decide +kernel), hrun, hlosesAll⟩

end Csci4061.WebServer
