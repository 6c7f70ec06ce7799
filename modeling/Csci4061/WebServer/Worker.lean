import Csci4061.Lib.Transition
import Csci4061.WebServer.Cache
import Csci4061.WebServer.RequestQueue

/-!
# The workers between the queue and the response

After a worker took a request it looks it up under `cacheMtx`, and answers inside that critical
section if the lookup hits. Otherwise it reads the file with no lock held, inserts it under
`cacheMtx` and answers. The lookup and the insertion are separate steps, so other workers may
run in between, and what `stat` and `read` report is part of the label of the step.

A response is what `return_result` or `return_error` is called with; whether the writes of these
functions succeed plays no role here.
-/

namespace Csci4061.WebServer

open Csci4061.Lib

/-- `getContentType`, from the text after the last dot of the request. -/
def getContentType (request : CString) : CString :=
  let fileExtension := (strrchr request 0x2E).getD []
  if fileExtension = bytes ".html" ∨ fileExtension = bytes ".htm" then bytes "text/html"
  else if fileExtension = bytes ".jpg" then bytes "image/jpeg"
  else if fileExtension = bytes ".gif" then bytes "image/gif"
  else bytes "text/plain"

/-- What is sent to a client: a header with the content type and the announced length, and a
body; or an error text. -/
inductive Response
  | result (contentType : CString) (contentLength : ℤ) (body : List UInt8)
  | error (text : CString)
  deriving DecidableEq

/-- `return_result`, which writes `numbytes` bytes of the buffer after the header. -/
def returnResult (contentType : CString) (buf : List UInt8) (numbytes : ℤ) : Response :=
  .result contentType numbytes (buf.take (toSizeT numbytes))

/-- What `stat`, `open` and `read` report for the path of a request. -/
inductive DiskOutcome
  | statFails
  | readFails (size : ℕ)
  | reads (size : ℕ) (data : List UInt8)
  deriving DecidableEq

/-- The count which `readFromDisk` passes to `read`: its parameter `size` is of type `int`. -/
def readCount (size : ℕ) : ℕ := toSizeT (toInt size)

/-- What can be reported. `st_size` is an `off_t`; `read` fails if the count is no `ssize_t`, and
otherwise returns at most as many bytes as it was asked for. -/
def DiskOutcome.Possible : DiskOutcome → Prop
  | .statFails => True
  | .readFails size => size < 2 ^ 63
  | .reads size data => size < 2 ^ 63 ∧ readCount size < 2 ^ 63 ∧ data.length ≤ readCount size

instance : DecidablePred DiskOutcome.Possible
  | .statFails => isTrue trivial
  | .readFails size => inferInstanceAs (Decidable (size < 2 ^ 63))
  | .reads size data =>
    inferInstanceAs (Decidable (size < 2 ^ 63 ∧ readCount size < 2 ^ 63 ∧ data.length ≤ readCount size))

/-- A file can be read only if its size is not negative as an `int`, and then there are as many bytes at
least. -/
theorem readCount_le {size : ℕ} (h : readCount size < 2 ^ 63) :
    0 ≤ toInt size ∧ readCount size ≤ size := by
  have hnonneg : 0 ≤ toInt size := (toSizeT_toInt_lt_iff size).mp h
  refine ⟨hnonneg, ?_⟩
  rw [readCount, toSizeT]
  rw [toInt_eq_emod_sub] at hnonneg ⊢
  omega

/-- The bytes which were read fit in the size of the file. -/
theorem DiskOutcome.Possible.length_le {size : ℕ} {data : List UInt8}
    (h : (DiskOutcome.reads size data).Possible) :
    data.length ≤ size := h.2.2.trans (readCount_le h.2.1).2

/-- The buffer of `size` bytes, cleared and then overwritten from its start by `read`. -/
def fileBuffer (size : ℕ) (data : List UInt8) : List UInt8 :=
  data ++ List.replicate (size - data.length) 0

/-- A buffer of a file has the size of the file. -/
theorem length_fileBuffer {size : ℕ} {data : List UInt8} (hdata : data.length ≤ size) :
    (fileBuffer size data).length = size := by
  rw [fileBuffer, List.length_append, List.length_replicate]
  omega

/-- The answer of the path of a miss. -/
def missResponse (request : CString) : DiskOutcome → Response
  | .statFails => .error (bytes "Couldn't retrieve file size, file not found")
  | .readFails _ => .error (bytes "Error reading from disk")
  | .reads size data => returnResult (getContentType request) (fileBuffer size data) (toInt size)

/-- The answer of the path of a hit: `size` is converted from `int` to `size_t` and back. -/
def hitResponse (request : CString) (entry : CacheEntry) : Response :=
  let size := toSizeT entry.len
  returnResult (getContentType request) (entry.content.take size) (toInt size)

/-- Where a worker stands after it took a request. -/
inductive WorkerState
  /-- At the top of the loop. -/
  | idle
  /-- The lookup missed. -/
  | missed (request : Request)
  /-- The file is in the buffer, and not yet in the cache. -/
  | loaded (request : Request) (buf : List UInt8) (size : ℕ)
  /-- The file was added to the cache, and the answer is not yet sent. -/
  | inserted (request : Request) (buf : List UInt8) (size : ℕ)
  deriving DecidableEq

/-- The cache, the workers and the responses sent so far. -/
structure WorkersState (ι : Type*) where
  cache : Cache
  workers : ι → WorkerState
  sent : List (Request × Response)

/-- The steps of worker `w`. -/
inductive WorkerLabel (ι : Type*)
  /-- The lookup section, for a request from the queue. -/
  | lookup (w : ι) (request : Request)
  /-- The accesses to the disk. -/
  | load (w : ι) (outcome : DiskOutcome)
  /-- The insertion section. -/
  | insert (w : ι)
  /-- The answer after a miss. -/
  | answer (w : ι)

variable {ι : Type*} [DecidableEq ι]

/-- Worker `w` answers a request and returns to the top of its loop. -/
def WorkersState.respond (s : WorkersState ι) (w : ι) (request : Request) (response : Response) :
    WorkersState ι :=
  { s with workers := Function.update s.workers w .idle, sent := s.sent ++ [(request, response)] }

/-- One step of a worker. -/
def workerNext (s : WorkersState ι) : WorkerLabel ι → Option (WorkersState ι)
  | .lookup w request =>
    if s.workers w = .idle then
      match getCacheIndex s.cache request.request with
      | (some i, cache) => cache.entries[i]?.map fun entry =>
          { s with cache := cache }.respond w request (hitResponse request.request entry)
      | (none, cache) =>
          some { s with cache := cache, workers := Function.update s.workers w (.missed request) }
    else none
  | .load w outcome =>
    match s.workers w with
    | .missed request =>
      if outcome.Possible then
        match outcome with
        | .reads size data => some
            { s with
              workers := Function.update s.workers w (.loaded request (fileBuffer size data) size) }
        | failure => some (s.respond w request (missResponse request.request failure))
      else none
    | _ => none
  | .insert w =>
    match s.workers w with
    | .loaded request buf size =>
      (addIntoCache s.cache request.request buf (toInt size)).map fun cache =>
        { s with cache := cache, workers := Function.update s.workers w (.inserted request buf size) }
    | _ => none
  | .answer w =>
    match s.workers w with
    | .inserted request buf size =>
      some (s.respond w request (returnResult (getContentType request.request) buf (toInt size)))
    | _ => none

/-- Any number of workers on one cache, in any order of their steps. -/
def workersSystem (ι : Type*) [DecidableEq ι] (cacheSize : ℕ) :
    TransitionSystem (WorkersState ι) (WorkerLabel ι) :=
  .ofNext (fun s => (∀ w, s.workers w = .idle) ∧ s.sent = [] ∧ ∃ memory : List CacheEntry,
    memory.length = cacheSize ∧ s.cache = initCache cacheSize memory) workerNext

/-- An initial state has an empty cache. -/
theorem workersSystem_init {cacheSize : ℕ} {s : WorkersState ι}
    (h : (workersSystem ι cacheSize).init s) :
    CacheInv cacheSize s.cache ∧ s.cache.occupied = [] := by
  obtain ⟨-, -, memory, hmemory, hcache⟩ := h
  rw [hcache]
  exact ⟨cacheInv_init hmemory, initCache_occupied _ memory⟩

/-- A step of the lookup section: a hit answers at once, a miss remembers the request. -/
theorem lookup_cases {s s' : WorkersState ι} {w : ι} {request : Request}
    (h : workerNext s (.lookup w request) = some s') :
    (∃ i cache entry, getCacheIndex s.cache request.request = (some i, cache) ∧
      cache.entries[i]? = some entry ∧
      s' = { s with cache := cache }.respond w request (hitResponse request.request entry)) ∨
    (∀ e ∈ s.cache.occupied, e.request ≠ request.request) ∧
      s' = { s with workers := Function.update s.workers w (.missed request) } := by
  rw [workerNext] at h
  split at h
  · split at h
    · rename_i i cache hindex
      obtain ⟨entry, hentry, rfl⟩ := Option.map_eq_some_iff.mp h
      exact Or.inl ⟨i, cache, entry, hindex, hentry, rfl⟩
    · rename_i cache hindex
      obtain ⟨habsent, rfl⟩ := getCacheIndex_none hindex
      exact Or.inr ⟨habsent, (Option.some.inj h).symm⟩
  · exact absurd h (by simp)

/-- A step of the disk accesses: the buffer is loaded, or an error is answered. -/
theorem load_cases {s s' : WorkersState ι} {w : ι} {outcome : DiskOutcome}
    (h : workerNext s (.load w outcome) = some s') :
    ∃ request, s.workers w = .missed request ∧ outcome.Possible ∧
      ((∃ size data, outcome = .reads size data ∧ s' =
        { s with
          workers := Function.update s.workers w (.loaded request (fileBuffer size data) size) }) ∨
      s' = s.respond w request (missResponse request.request outcome)) := by
  rw [workerNext] at h
  split at h
  · rename_i request hworker
    split at h
    · rename_i hpossible
      refine ⟨request, hworker, hpossible, ?_⟩
      split at h
      · rename_i size data
        exact Or.inl ⟨size, data, rfl, (Option.some.inj h).symm⟩
      · exact Or.inr (Option.some.inj h).symm
    · exact absurd h (by simp)
  · exact absurd h (by simp)

/-- A step of the insertion section. -/
theorem insert_cases {s s' : WorkersState ι} {w : ι} (h : workerNext s (.insert w) = some s') :
    ∃ request buf size cache, s.workers w = .loaded request buf size ∧
      addIntoCache s.cache request.request buf (toInt size) = some cache ∧
      s' = { s with
        cache := cache
        workers := Function.update s.workers w (.inserted request buf size) } := by
  rw [workerNext] at h
  split at h
  · rename_i request buf size hworker
    obtain ⟨cache, hcache, rfl⟩ := Option.map_eq_some_iff.mp h
    exact ⟨request, buf, size, cache, hworker, hcache, rfl⟩
  · exact absurd h (by simp)

/-- A step which answers after a miss. -/
theorem answer_cases {s s' : WorkersState ι} {w : ι} (h : workerNext s (.answer w) = some s') :
    ∃ request buf size, s.workers w = .inserted request buf size ∧
      s' = s.respond w request (returnResult (getContentType request.request) buf (toInt size)) := by
  rw [workerNext] at h
  split at h
  · rename_i request buf size hworker
    exact ⟨request, buf, size, hworker, (Option.some.inj h).symm⟩
  · exact absurd h (by simp)

/-- No step of a worker leaves the block of entries or breaks the indices. -/
theorem workerNext_cacheInv {cacheSize : ℕ} (hpos : 0 < cacheSize) {s s' : WorkersState ι}
    {label : WorkerLabel ι} (hinv : CacheInv cacheSize s.cache) (h : workerNext s label = some s') :
    CacheInv cacheSize s'.cache := by
  cases label with
  | lookup w request =>
    rcases lookup_cases h with ⟨i, cache, entry, hindex, -, rfl⟩ | ⟨-, rfl⟩
    · have hcache := hinv.getCacheIndex request.request
      rw [hindex] at hcache
      exact hcache
    · exact hinv
  | load w outcome =>
    obtain ⟨request, -, -, ⟨size, data, -, rfl⟩ | rfl⟩ := load_cases h <;> exact hinv
  | insert w =>
    obtain ⟨request, buf, size, cache, -, hadd, rfl⟩ := insert_cases h
    exact (hinv.addIntoCache hpos hadd).1
  | answer w =>
    obtain ⟨request, buf, size, -, rfl⟩ := answer_cases h
    exact hinv

end Csci4061.WebServer
