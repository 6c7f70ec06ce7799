import Csci4061.WebServer.CacheHeap

/-!
# The blocks of the workers

A worker allocates the path and the bytes of a file, and a copy of an entry for a hit. This is the loop
of the workers on the heap, interleaved as in the system where buffers and contents are values, and what
each operation of it comes to. A worker which could not read a file goes on without releasing its
buffer, to which no pointer is left then.

`malloc` succeeds and returns any addresses which are not in use, and the disk reports what it can.
Under these conditions `Overruns` is all that can go wrong.
-/

namespace Csci4061.WebServer

open Csci4061.Lib

/-- Where a worker stands after it took a request, with the addresses of its blocks. -/
inductive HeapWorker
  | idle
  | missed (request : Request)
  | loaded (request : Request) (absolutePath buf size : ℕ)
  | inserted (request : Request) (absolutePath buf size : ℕ)
  deriving DecidableEq

/-- The block of the path which a worker has. -/
def HeapWorker.path : HeapWorker → Option ℕ
  | .loaded _ absolutePath _ _ => some absolutePath
  | .inserted _ absolutePath _ _ => some absolutePath
  | _ => none

/-- The buffer which a worker has. -/
def HeapWorker.buffer : HeapWorker → Option ℕ
  | .loaded _ _ buf _ => some buf
  | .inserted _ _ buf _ => some buf
  | _ => none

/-- The heap, the cache, the workers, the responses sent so far, and the buffers to which no pointer is
left. -/
structure HeapState (ι : Type) where
  heap : Heap
  cache : HeapCache
  workers : ι → HeapWorker
  sent : List (Request × Response)
  lost : List ℕ

/-- The steps of worker `w`, with what `malloc` returns in them. -/
inductive HeapLabel (ι : Type)
  | lookup (w : ι) (request : Request) (buf : ℕ)
  | load (w : ι) (outcome : DiskOutcome) (absolutePath buf : ℕ)
  | insert (w : ι) (content : ℕ)
  | answer (w : ι)

/-- The step without the addresses. -/
def HeapLabel.values {ι : Type} : HeapLabel ι → WorkerLabel ι
  | .lookup w request _ => .lookup w request
  | .load w outcome _ _ => .load w outcome
  | .insert w _ => .insert w
  | .answer w => .answer w

variable {ι : Type} [DecidableEq ι]

/-- Worker `w` answers a request and returns to the top of its loop. -/
def HeapState.respond (s : HeapState ι) (w : ι) (request : Request) (response : Response) :
    HeapState ι :=
  { s with workers := Function.update s.workers w .idle, sent := s.sent ++ [(request, response)] }

/-- The path of a hit: the content of the entry is copied, sent and released. -/
def heapHit (s : HeapState ι) (w : ι) (request : Request) (i buf : ℕ) : Option (HeapState ι) := do
  let entry ← s.cache.entries[i]?
  let size := toSizeT entry.len
  let h ← s.heap.malloc buf (.chars (List.replicate size 0))
  let h ← h.memcpy buf entry.content size
  let body ← h.chars buf
  let h ← h.free ⟨buf, 0⟩
  some ({ s with heap := h }.respond w request (returnResult (getContentType request.request) body
    (toInt size)))

/-- The accesses to the disk. The path is in a block of its length, and the buffer has one byte more
than the file. If `read` fails, then the buffer is not released. -/
def heapLoad (workingDir : CString) (s : HeapState ι) (w : ι) (request : Request) (outcome : DiskOutcome)
    (absolutePath buf : ℕ) : Option (HeapState ι) := do
  let h ← s.heap.malloc absolutePath (.chars (workingDir ++ request.request ++ [0]))
  match outcome with
  | .statFails =>
    let h ← h.free ⟨absolutePath, 0⟩
    some ({ s with heap := h }.respond w request
      (.error (bytes "Couldn't retrieve file size, file not found")))
  | .readFails size =>
    let h ← h.malloc buf (.chars (List.replicate (size + 1) 0))
    let h ← h.strcpy buf (bytes "Error reading from disk")
    let h ← h.free ⟨absolutePath, 0⟩
    let text ← h.stringAt ⟨buf, 0⟩
    some ({ s with heap := h, lost := s.lost ++ [buf] }.respond w request (.error text))
  | .reads size data =>
    let memory ← memcpy (List.replicate (size + 1) 0) data
    let h ← h.malloc buf (.chars memory)
    some { s with
      heap := h
      workers := Function.update s.workers w (.loaded request absolutePath buf size) }

/-- The answer after a miss, after which both blocks are released. -/
def heapAnswer (s : HeapState ι) (w : ι) (request : Request) (absolutePath buf size : ℕ) :
    Option (HeapState ι) := do
  let body ← s.heap.chars buf
  let h ← s.heap.free ⟨buf, 0⟩
  let h ← h.free ⟨absolutePath, 0⟩
  some ({ s with heap := h }.respond w request (returnResult (getContentType request.request) body
    (toInt size)))

/-- One step of a worker. -/
def heapNext (workingDir : CString) (s : HeapState ι) : HeapLabel ι → Option (HeapState ι)
  | .lookup w request buf =>
    if s.workers w = .idle then
      match OnHeap.getCacheIndex s.cache request.request with
      | (some i, cache) => heapHit { s with cache := cache } w request i buf
      | (none, cache) =>
          some { s with cache := cache, workers := Function.update s.workers w (.missed request) }
    else none
  | .load w outcome absolutePath buf =>
    match s.workers w with
    | .missed request => heapLoad workingDir s w request outcome absolutePath buf
    | _ => none
  | .insert w content =>
    match s.workers w with
    | .loaded request absolutePath buf size =>
      (OnHeap.addIntoCache s.cache request.request buf (toInt size) content s.heap).map fun (cache, h) =>
        { s with heap := h, cache := cache,
                 workers := Function.update s.workers w (.inserted request absolutePath buf size) }
    | _ => none
  | .answer w =>
    match s.workers w with
    | .inserted request absolutePath buf size => heapAnswer s w request absolutePath buf size
    | _ => none

/-- What a step relies on: the addresses which `malloc` returns are not in use, and the disk reports
what it can. -/
def SystemCalls (s : HeapState ι) : HeapLabel ι → Prop
  | .lookup _ _ buf => s.heap.blocks buf = none
  | .load _ outcome absolutePath buf => s.heap.blocks absolutePath = none ∧ s.heap.blocks buf = none ∧
      absolutePath ≠ buf ∧ outcome.Possible
  | .insert _ content => s.heap.blocks content = none
  | .answer _ => True

/-- Any number of workers on one cache and one heap, which is empty before the cache is made. -/
def heapSystem (ι : Type) [DecidableEq ι] (workingDir : CString) (cacheSize : ℕ) :
    TransitionSystem (HeapState ι) (HeapLabel ι) :=
  (TransitionSystem.ofNext (fun s => (∀ w, s.workers w = .idle) ∧ s.sent = [] ∧ s.lost = [] ∧
    ∃ (h : Heap) (address entriesAt : ℕ) (memory : List HeapEntry), (∀ a, h.blocks a = none) ∧
      memory.length = cacheSize ∧ OnHeap.initCache cacheSize address entriesAt memory h = some
        (s.cache, s.heap))
    (heapNext workingDir)).restrict SystemCalls

variable {s : HeapState ι} {w : ι}

/-- The path of a hit sends the content of the entry, and leaves the heap as it was. -/
theorem heapHit_eq {r : Request} {i buf : ℕ} {e : HeapEntry} (hfree : s.heap.blocks buf = none)
    (hentry : s.cache.entries[i]? = some e) (hstored : e.Stored s.heap) :
    heapHit s w r i buf = some (s.respond w r (hitResponse r.request (e.read s.heap))) := by
  obtain ⟨content, hblock, hlength⟩ := hstored
  have hcopy := copyContent hblock hfree (toSizeT e.len)
  rw [if_pos hlength.symm.le] at hcopy
  have hbuf : (s.heap.setBlock buf (some (.chars (content.take (toSizeT e.len))))).chars buf =
      some (content.take (toSizeT e.len)) := Heap.chars_of_block (Function.update_self ..)
  have hrelease := Heap.free_malloc hfree (.chars (content.take (toSizeT e.len)))
  simp only [heapHit, hentry, Option.bind_eq_bind, Option.bind_some, Heap.malloc_of_free hfree, hcopy,
    hbuf, hrelease, HeapEntry.read_of_blocks hblock, hitResponse]

section Load

variable {workingDir : CString} {request : Request} {absolutePath buf size : ℕ}

/-- Without a file, the path is released again. -/
theorem heapLoad_statFails (hpath : s.heap.blocks absolutePath = none) :
    heapLoad workingDir s w request .statFails absolutePath buf =
      some (s.respond w request (missResponse request.request .statFails)) := by
  simp only [heapLoad, Heap.malloc_of_free hpath, Option.bind_eq_bind, Option.bind_some,
    Heap.free_malloc hpath]
  rfl

/-- The text about a file which cannot be read. -/
def readError : CString := bytes "Error reading from disk"

omit [DecidableEq ι] in
/-- The address of the buffer is still free after the path was allocated. -/
theorem buf_free (hbuf : s.heap.blocks buf = none) (hne : absolutePath ≠ buf) (path : Block) :
    (s.heap.setBlock absolutePath (some path)).blocks buf = none := by
  rw [Heap.setBlock_blocks, Function.update_of_ne hne.symm, hbuf]

/-- A file which cannot be read costs its buffer, if the text about it fits there. -/
theorem heapLoad_readFails (hpath : s.heap.blocks absolutePath = none) (hbuf : s.heap.blocks buf = none)
    (hne : absolutePath ≠ buf) (hfits : 23 ≤ size) :
    heapLoad workingDir s w request (.readFails size) absolutePath buf =
      some (({ s with
        heap := s.heap.setBlock buf
          (some (.chars (storeBytes (List.replicate (size + 1) 0) (readError ++ [0])))),
        lost := s.lost ++ [buf] } : HeapState ι).respond w request
          (missResponse request.request (.readFails size))) := by
  have hbuf' := buf_free hbuf hne (.chars (workingDir ++ request.request ++ [0]))
  have hlength : readError.length < (List.replicate (size + 1) (0 : UInt8)).length := by
    rw [List.length_replicate]
    exact Nat.lt_succ_of_le hfits
  have htext : (s.heap.setBlock buf
      (some (.chars (storeBytes (List.replicate (size + 1) 0) (readError ++ [0]))))).stringAt
      ⟨buf, 0⟩ = some readError := by
    refine Heap.stringAt_of_append readError ((List.replicate (size + 1) (0 : UInt8)).drop 24) ?_
      (by decide)
    rw [Heap.setBlock_blocks, Function.update_self, storeBytes, List.append_assoc]
    rfl
  have hcopy := Heap.strcpy_of_lt (h := (s.heap.setBlock absolutePath
    (some (.chars (workingDir ++ request.request ++ [0])))).setBlock buf
      (some (.chars (List.replicate (size + 1) 0))))
    (Function.update_self ..) hlength
  rw [Heap.setBlock_setBlock] at hcopy
  simp only [heapLoad, Heap.malloc_of_free hpath, Heap.malloc_of_free hbuf', Option.bind_eq_bind,
    Option.bind_some]
  change (Heap.strcpy _ buf readError).bind _ = _
  rw [hcopy, Option.bind_some, Heap.free_first hne hpath, Option.bind_some, htext]
  rfl

/-- The text about a file which cannot be read does not fit in a smaller buffer. -/
theorem heapLoad_overruns (hpath : s.heap.blocks absolutePath = none) (hbuf : s.heap.blocks buf = none)
    (hne : absolutePath ≠ buf) (hlt : size < 23) :
    heapLoad workingDir s w request (.readFails size) absolutePath buf = none := by
  have hbuf' := buf_free hbuf hne (.chars (workingDir ++ request.request ++ [0]))
  have hlength : ¬ readError.length < (List.replicate (size + 1) (0 : UInt8)).length := by
    rw [List.length_replicate]
    exact Nat.not_lt.mpr hlt
  have hcopy : ((s.heap.setBlock absolutePath
      (some (.chars (workingDir ++ request.request ++ [0])))).setBlock buf
      (some (.chars (List.replicate (size + 1) 0)))).strcpy buf readError = none := by
    rw [Heap.strcpy, Heap.chars_of_block (Function.update_self ..), Option.bind_some, Lib.strcpy,
      if_neg hlength]
    rfl
  simp only [heapLoad, Heap.malloc_of_free hpath, Heap.malloc_of_free hbuf', Option.bind_eq_bind,
    Option.bind_some]
  change (Heap.strcpy _ buf readError).bind _ = _
  rw [hcopy, Option.bind_none]

/-- The bytes of the buffer behind those which were read, and the one which is never written, are
zero. -/
theorem storeBytes_fileBuffer {data : List UInt8} (hle : data.length ≤ size) :
    storeBytes (List.replicate (size + 1) 0) data = fileBuffer size data ++ [0] := by
  rw [storeBytes, List.drop_replicate, fileBuffer, List.append_assoc, Nat.succ_sub hle,
    List.replicate_succ']

/-- A file which is read is in the buffer. -/
theorem heapLoad_reads {data : List UInt8} (hpath : s.heap.blocks absolutePath = none)
    (hbuf : s.heap.blocks buf = none) (hne : absolutePath ≠ buf) (hle : data.length ≤ size) :
    heapLoad workingDir s w request (.reads size data) absolutePath buf =
      some { s with
        heap := (s.heap.setBlock absolutePath
          (some (.chars (workingDir ++ request.request ++ [0])))).setBlock buf
          (some (.chars (fileBuffer size data ++ [0])))
        workers := Function.update s.workers w (.loaded request absolutePath buf size) } := by
  have hbuf' := buf_free hbuf hne (.chars (workingDir ++ request.request ++ [0]))
  have hcopy : memcpy (List.replicate (size + 1) 0) data = some (fileBuffer size data ++ [0]) := by
    rw [memcpy_of_le (by rw [List.length_replicate]; omega), storeBytes_fileBuffer hle]
  simp only [heapLoad, Heap.malloc_of_free hpath, Heap.malloc_of_free hbuf', Option.bind_eq_bind,
    Option.bind_some, hcopy]

end Load

/-- The answer after a miss releases both blocks of the worker. -/
theorem heapAnswer_eq {request : Request} {absolutePath buf size : ℕ} {data : List UInt8}
    (hbuf : s.heap.blocks buf = some (.chars (data ++ [0]))) (hpath : s.heap.blocks absolutePath ≠ none)
    (hne : buf ≠ absolutePath) (hsize : toSizeT (toInt size) ≤ data.length) :
    heapAnswer s w request absolutePath buf size =
      some (({ s with heap := (s.heap.setBlock buf none).setBlock absolutePath none } :
        HeapState ι).respond w request
        (returnResult (getContentType request.request) data (toInt size))) := by
  have hlive : s.heap.blocks buf ≠ none := hbuf ▸ Option.some_ne_none _
  have hpath' : (s.heap.setBlock buf none).blocks absolutePath ≠ none := by
    rwa [Heap.setBlock_blocks, Function.update_of_ne hne.symm]
  simp only [heapAnswer, Heap.chars_of_block hbuf, Heap.free_of_start hlive, Heap.free_of_start hpath',
    Option.bind_eq_bind, Option.bind_some, returnResult, List.take_append_of_le_length hsize]

/-- The accesses outside of a block: the text about a file which cannot be read is longer than its
buffer. -/
def HeapLabel.Overruns : HeapLabel ι → Prop
  | .load _ (.readFails size) _ _ => size < 23
  | _ => False

/-- The buffers which a step loses. -/
def HeapLabel.loses : HeapLabel ι → List ℕ
  | .load _ (.readFails _) _ buf => [buf]
  | _ => []

end Csci4061.WebServer
