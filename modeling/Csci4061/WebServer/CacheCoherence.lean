import Csci4061.WebServer.Worker

/-!
# Hits and misses give the same response

The served files are a function from paths to files, which does not change while the server
runs. `Coherent` ties the bytes and the length of every cached entry to the file of its request,
through the buffers which the workers hold between the two critical sections of a miss.

Duplicate entries do no harm here, and neither does an eviction: all that matters is that an
entry is only ever built from a buffer which holds the file.
-/

namespace Csci4061.WebServer

open Csci4061.Lib

/-- What is at a path. -/
inductive DiskFile
  | missing
  | unreadable (size : ℕ)
  | file (content : List UInt8)
  deriving DecidableEq

/-- What `stat` and `read` report for a file: its true size, and all of its bytes. -/
def DiskFile.outcome : DiskFile → DiskOutcome
  | .missing => .statFails
  | .unreadable size => .readFails size
  | .file content => .reads content.length content

/-- The response to a request, from its file alone. -/
def servedResponse (request : CString) : DiskFile → Response
  | .missing => .error (bytes "Couldn't retrieve file size, file not found")
  | .unreadable _ => .error (bytes "Error reading from disk")
  | .file content => .result (getContentType request) content.length content

/-- A length below `2 ^ 31` survives the conversions to `int` and to `size_t`. -/
theorem toSizeT_toInt {n : ℕ} (h : n < 2 ^ 31) : toInt n = n ∧ toSizeT n = n :=
  ⟨toInt_of_lt (by omega) (by omega), toSizeT_natCast (by omega)⟩

/-- A buffer of the right size is sent whole. -/
theorem returnResult_length (contentType : CString) {buf : List UInt8} (h : buf.length < 2 ^ 31) :
    returnResult contentType buf (toInt buf.length) = .result contentType buf.length buf := by
  rw [returnResult, (toSizeT_toInt h).1, (toSizeT_toInt h).2, List.take_length]

/-- Reading all the bytes fills the buffer with them. -/
@[simp] theorem fileBuffer_length (content : List UInt8) :
    fileBuffer content.length content = content := by
  simp [fileBuffer]

/-- The path of a miss sends the file. -/
theorem missResponse_outcome (request : CString) {file : DiskFile}
    (hsize : ∀ content, file = .file content → content.length < 2 ^ 31) :
    missResponse request file.outcome = servedResponse request file := by
  cases file with
  | missing => rfl
  | unreadable size => rfl
  | file content =>
    change returnResult _ (fileBuffer _ content) _ = _
    rw [fileBuffer_length, returnResult_length _ (hsize content rfl)]
    rfl

section Disk

variable (disk : CString → DiskFile) (workingDir : CString)

/-- The entry has the size and the bytes of the file of its request. -/
def HoldsFile (e : CacheEntry) : Prop :=
  disk (workingDir ++ e.request) = .file e.content ∧ e.len = e.content.length

/-- A worker past the disk accesses has the file of its request in its buffer. -/
def CarriesFile : WorkerState → Prop
  | .idle => True
  | .missed _ => True
  | .loaded request buf size => disk (workingDir ++ request.request) = .file buf ∧ size = buf.length
  | .inserted request buf size => disk (workingDir ++ request.request) = .file buf ∧ size = buf.length

variable {ι : Type*} [DecidableEq ι]

/-- The accesses to the disk report the file of the request. -/
def ReportsFile (s : WorkersState ι) : WorkerLabel ι → Prop
  | .load w outcome => ∀ request, s.workers w = .missed request →
      outcome = (disk (workingDir ++ request.request)).outcome
  | _ => True

/-- The invariant: the cache and the workers hold files, and every response was the one of the
file. -/
structure Coherent (cacheSize : ℕ) (s : WorkersState ι) : Prop where
  shape : CacheInv cacheSize s.cache
  entries : ∀ e ∈ s.cache.occupied, HoldsFile disk workingDir e
  workers : ∀ w, CarriesFile disk workingDir (s.workers w)
  sent : ∀ p ∈ s.sent, p.2 = servedResponse p.1.request (disk (workingDir ++ p.1.request))

end Disk

variable {disk : CString → DiskFile} {workingDir : CString} {ι : Type*} [DecidableEq ι]

/-- Counting a hit leaves the file of an entry alone. -/
theorem HoldsFile.hit {e : CacheEntry} (h : HoldsFile disk workingDir e) :
    HoldsFile disk workingDir e.hit := h

/-- An entry which a lookup finds, with the hit counted on it, still holds its file. -/
theorem HoldsFile.of_modify {entries : List CacheEntry} {i : ℕ}
    (h : ∀ e ∈ entries, HoldsFile disk workingDir e) {e : CacheEntry}
    (he : e ∈ entries.modify i CacheEntry.hit) : HoldsFile disk workingDir e := by
  rcases mem_modify he with ⟨hi, rfl⟩ | ⟨j, hj, -, rfl⟩
  · exact (h _ (List.getElem_mem hi)).hit
  · exact h _ (List.getElem_mem hj)

/-- A worker which holds a file makes an entry which holds it. -/
theorem holdsFile_newCacheEntry {request : CString} {buf : List UInt8}
    (hdisk : disk (workingDir ++ request) = .file buf) (hsize : buf.length < 2 ^ 31) :
    HoldsFile disk workingDir (newCacheEntry request buf (toInt buf.length)) := by
  have hentry : newCacheEntry request buf (toInt buf.length) = ⟨buf.length, request, buf, 0⟩ := by
    rw [newCacheEntry, (toSizeT_toInt hsize).1, (toSizeT_toInt hsize).2, List.take_length]
  rw [hentry]
  exact ⟨hdisk, rfl⟩

/-- The path of a hit sends the file. -/
theorem HoldsFile.hitResponse {e : CacheEntry} (h : HoldsFile disk workingDir e)
    (hsize : ∀ path content, disk path = .file content → content.length < 2 ^ 31) :
    hitResponse e.request e = servedResponse e.request (disk (workingDir ++ e.request)) := by
  have hlt := hsize _ _ h.1
  have hlen : toSizeT e.len = e.content.length := by rw [h.2, (toSizeT_toInt hlt).2]
  change returnResult _ (e.content.take (toSizeT e.len)) (toInt (toSizeT e.len)) = _
  rw [hlen, List.take_length, returnResult_length _ hlt, h.1]
  rfl

omit [DecidableEq ι] in
/-- A successful lookup finds an entry for the request, and what it leaves holds files. -/
theorem Coherent.getCacheIndex {cacheSize : ℕ} {s : WorkersState ι}
    (h : Coherent disk workingDir cacheSize s) {request : CString} {i : ℕ} {cache : Cache}
    (hindex : getCacheIndex s.cache request = (some i, cache)) :
    CacheInv cacheSize cache ∧ (∀ e ∈ cache.occupied, HoldsFile disk workingDir e) ∧
      ∃ entry, cache.entries[i]? = some entry ∧ entry.request = request ∧
        HoldsFile disk workingDir entry := by
  obtain ⟨⟨hi, hrequest⟩, hcache, hocc⟩ := getCacheIndex_some hindex
  have hshape := h.shape.getCacheIndex request
  rw [hindex] at hshape
  have hentries : ∀ e ∈ cache.occupied, HoldsFile disk workingDir e := by
    intro e he
    rw [hocc] at he
    exact .of_modify h.entries he
  have hi' : i < cache.occupied.length := by
    rw [hocc, List.length_modify]
    exact hi
  refine ⟨hshape, hentries, cache.occupied[i], ?_, ?_, hentries _ (List.getElem_mem hi')⟩
  · rw [← List.getElem?_eq_getElem hi', Cache.occupied, List.getElem?_take_of_lt]
    rw [Cache.occupied, List.length_take] at hi'
    omega
  · simp only [hocc, List.getElem_modify_eq]
    exact hrequest

/-- Worker `w` moves on to a state in which it carries a file. -/
theorem CarriesFile.update {workers : ι → WorkerState} (h : ∀ v, CarriesFile disk workingDir (workers v))
    {w : ι} {state : WorkerState} (hstate : CarriesFile disk workingDir state) (v : ι) :
    CarriesFile disk workingDir (Function.update workers w state v) := by
  by_cases hv : v = w
  · rw [hv, Function.update_self]
    exact hstate
  · rw [Function.update_of_ne hv]
    exact h v

/-- An answer with the file of the request keeps the invariant. -/
theorem Coherent.respond {cacheSize : ℕ} {s : WorkersState ι} (h : Coherent disk workingDir cacheSize s)
    (w : ι) {request : Request} {response : Response}
    (hresponse : response = servedResponse request.request (disk (workingDir ++ request.request))) :
    Coherent disk workingDir cacheSize (s.respond w request response) where
  shape := h.shape
  entries := h.entries
  workers := CarriesFile.update h.workers trivial
  sent p hp := by
    rcases List.mem_append.mp hp with hold | hnew
    · exact h.sent p hold
    · obtain rfl := List.mem_singleton.mp hnew
      exact hresponse

/-- Every step keeps the invariant, if the disk reports the files. -/
theorem Coherent.step {cacheSize : ℕ} (hpos : 0 < cacheSize)
    (hsize : ∀ path content, disk path = .file content → content.length < 2 ^ 31) {s s' : WorkersState ι}
    {label : WorkerLabel ι} (h : Coherent disk workingDir cacheSize s)
    (hreports : ReportsFile disk workingDir s label) (hstep : workerNext s label = some s') :
    Coherent disk workingDir cacheSize s' := by
  cases label with
  | lookup w request =>
    rcases lookup_cases hstep with ⟨i, cache, entry, hindex, hentry, rfl⟩ | ⟨-, rfl⟩
    · obtain ⟨hshape, hentries, found, hfound, hrequest, hholds⟩ := h.getCacheIndex hindex
      obtain rfl : found = entry := Option.some.inj (hfound.symm.trans hentry)
      have hcache : Coherent disk workingDir cacheSize { s with cache := cache } :=
        ⟨hshape, hentries, h.workers, h.sent⟩
      apply hcache.respond
      rw [← hrequest]
      exact hholds.hitResponse hsize
    · exact ⟨h.shape, h.entries, CarriesFile.update h.workers trivial, h.sent⟩
  | load w outcome =>
    obtain ⟨request, hworker, -, hresult⟩ := load_cases hstep
    have houtcome := hreports request hworker
    rcases hresult with ⟨size, data, hreads, rfl⟩ | rfl
    · have hfile : disk (workingDir ++ request.request) = .file data ∧ size = data.length := by
        cases hdisk : disk (workingDir ++ request.request) <;>
          simp_all [DiskFile.outcome]
      refine ⟨h.shape, h.entries, CarriesFile.update h.workers ?_, h.sent⟩
      obtain ⟨hdisk, rfl⟩ := hfile
      rw [fileBuffer_length]
      exact ⟨hdisk, rfl⟩
    · apply h.respond
      rw [houtcome]
      exact missResponse_outcome _ fun content => hsize _ content
  | insert w =>
    obtain ⟨request, buf, size, cache, hworker, hadd, rfl⟩ := insert_cases hstep
    have hcarries := h.workers w
    rw [hworker] at hcarries
    obtain ⟨hdisk, rfl⟩ := hcarries
    refine ⟨(h.shape.addIntoCache hpos hadd).1, ?_, CarriesFile.update h.workers ⟨hdisk, rfl⟩, h.sent⟩
    intro e he
    rcases h.shape.mem_addIntoCache hpos hadd he with hold | rfl
    · exact h.entries e hold
    · exact holdsFile_newCacheEntry hdisk (hsize _ _ hdisk)
  | answer w =>
    obtain ⟨request, buf, size, hworker, rfl⟩ := answer_cases hstep
    have hcarries := h.workers w
    rw [hworker] at hcarries
    obtain ⟨hdisk, rfl⟩ := hcarries
    apply h.respond
    rw [returnResult_length _ (hsize _ _ hdisk), hdisk]
    rfl

/-- The initial states have no entries and no responses. -/
theorem coherent_init {cacheSize : ℕ} {s : WorkersState ι} (h : (workersSystem ι cacheSize).init s) :
    Coherent disk workingDir cacheSize s where
  shape := (workersSystem_init h).1
  entries e he := by
    rw [(workersSystem_init h).2] at he
    exact absurd he List.not_mem_nil
  workers w := by
    rw [h.1 w]
    trivial
  sent p hp := by
    rw [h.2.1] at hp
    exact absurd hp List.not_mem_nil

/-- In every reachable state the cached entries hold the files of their requests. A hit and a miss
therefore answer with the same response, which is the one of the file, and so did every answer
sent so far. -/
theorem cache_hit_eq_miss {cacheSize : ℕ} (hpos : 0 < cacheSize)
    (hsize : ∀ path content, disk path = .file content → content.length < 2 ^ 31) {s : WorkersState ι}
    (hs : ((workersSystem ι cacheSize).restrict (ReportsFile disk workingDir)).Reachable s) :
    (∀ e ∈ s.cache.occupied, disk (workingDir ++ e.request) = .file e.content ∧
      e.len = e.content.length) ∧
      (∀ request i cache, getCacheIndex s.cache request = (some i, cache) → ∃ entry,
        cache.entries[i]? = some entry ∧
        hitResponse request entry = missResponse request (disk (workingDir ++ request)).outcome) ∧
      (∀ request, missResponse request (disk (workingDir ++ request)).outcome =
        servedResponse request (disk (workingDir ++ request))) ∧
      ∀ p ∈ s.sent, p.2 = servedResponse p.1.request (disk (workingDir ++ p.1.request)) := by
  have hcoherent : Coherent disk workingDir cacheSize s := by
    apply hs.invariant
    · exact fun s₀ hinit => coherent_init hinit
    · exact fun s label s' hinv hstep => hinv.step hpos hsize hstep.1 hstep.2
  have hmiss (request : CString) : missResponse request (disk (workingDir ++ request)).outcome =
      servedResponse request (disk (workingDir ++ request)) :=
    missResponse_outcome request fun content => hsize _ content
  refine ⟨hcoherent.entries, ?_, hmiss, hcoherent.sent⟩
  intro request i cache hindex
  obtain ⟨-, -, entry, hentry, rfl, hholds⟩ := hcoherent.getCacheIndex hindex
  refine ⟨entry, hentry, ?_⟩
  rw [hmiss]
  exact hholds.hitResponse hsize

/-- After a miss on `/a` was inserted into a cache of one slot. -/
theorem cache_hit_eq_miss_oneSlot : ∃ s : WorkersState (Fin 2), s.cache.numCacheEntries = 1 ∧
    (∀ e ∈ s.cache.occupied, e.content = [97]) ∧
    ∀ request i cache, getCacheIndex s.cache request = (some i, cache) → ∃ entry,
    cache.entries[i]? = some entry ∧
      hitResponse request entry = missResponse request (.reads 1 [97]) := by
  let disk : CString → DiskFile := fun _ => .file [97]
  let server := (workersSystem (Fin 2) 1).restrict (ReportsFile disk [])
  let start : WorkersState (Fin 2) := ⟨initCache 1 [⟨0, [], [], 0⟩], fun _ => .idle, []⟩
  have hstart : server.Reachable start := .of_init ⟨fun _ => rfl, rfl, _, rfl, rfl⟩
  have hmissed := hstart.next (.lookup 0 ⟨5, bytes "/a"⟩) trivial rfl
  have hloaded := hmissed.next (.load 0 (.reads 1 [97])) (fun _ _ => rfl) rfl
  have hinserted := hloaded.next (.insert 0) trivial rfl
  have hsize : ∀ path content, disk path = .file content → content.length < 2 ^ 31 := by
    intro path content hfile
    obtain rfl := DiskFile.file.inj hfile
    decide
  obtain ⟨hentries, hhit, -, -⟩ := cache_hit_eq_miss (by decide) hsize hinserted
  refine ⟨_, rfl, ?_, hhit⟩
  exact fun e he => (DiskFile.file.inj (hentries e he).1).symm

end Csci4061.WebServer
