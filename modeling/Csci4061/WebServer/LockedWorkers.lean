import Csci4061.Lib.CriticalSection
import Csci4061.WebServer.Worker

/-!
# The workers with their lock

`getCacheIndex` and `addIntoCache` go over the entries one by one and change the fields of the cache one
after the other, and the answer after a hit is sent before `cacheMtx` is given back. Here each of these
is a step, and other workers go on between any two of them: they read files and answer, or wait for the
lock.

The two sections are atomic, so the workers with the lock do what they do in `workersSystem`, where each
section is one step. And the owner of the lock can always go on alone until it has given it back or is
in `return_result`, whose writes may wait for the client.
-/

namespace Csci4061.WebServer

open Csci4061.Lib

/-- The two sections under `cacheMtx`. -/
inductive SectionLabel
  | lookup (request : Request)
  | insert

/-- What a worker does without the lock. -/
inductive OutsideLabel
  | load (outcome : DiskOutcome)
  | answer

/-- Where a worker is in `getCacheIndex` and behind it, or in `addIntoCache`, with its local
variables. -/
inductive SectionControl
  /-- `strcmp(entry.request, request)`, if `i` is the index of an entry. -/
  | compare (request : CString) (i : ℕ)
  /-- `cache->entries[i].freq_used++`. -/
  | count (request : CString) (i : ℕ)
  /-- `size = cache->entries[cacheIndex].len`. -/
  | measure (request : CString) (i : ℕ)
  /-- `memcpy(buf, cache->entries[cacheIndex].content, size)`. -/
  | copy (request : CString) (i : ℕ) (size : ℕ)
  /-- `return_result`. The step is taken when its writes have returned. -/
  | send (request : CString) (buf : List UInt8) (size : ℕ)
  /-- The new entry is filled. -/
  | make (request : CString) (memory : List UInt8) (memorySize : ℤ)
  /-- `cache->num_cache_entries != cache->cache_size`. -/
  | test (newEntry : CacheEntry)
  /-- `cache->entries[cache->next_slot_to_store] = new_entry`. -/
  | store (newEntry : CacheEntry)
  /-- `cache->num_cache_entries++`. -/
  | countEntry
  /-- `cache->next_slot_to_store` moves on. -/
  | moveSlot
  /-- `evict = cache->entries[0]`. -/
  | evictFirst (newEntry : CacheEntry)
  /-- The loop over the other entries. -/
  | evictNext (newEntry : CacheEntry) (i : ℕ) (evict : CacheEntry) (evictIndex : ℕ)
  /-- `cache->entries[evict_index] = new_entry`. -/
  | replace (newEntry : CacheEntry) (evictIndex : ℕ)

/-- How a section ends. -/
inductive SectionResult
  | missed
  | answered (response : Response)
  | inserted

/-- One step in a section; `none` is an access outside of the block of entries. -/
def sectionCode (c : Cache) : SectionControl → Option (Cache × (SectionControl ⊕ SectionResult))
  | .compare request i =>
    if (i : ℤ) < c.numCacheEntries then
      c.entries[i]?.map fun entry =>
        (c, .inl (if entry.request = request then .count request i else .compare request (i + 1)))
    else some (c, .inr .missed)
  | .count request i =>
    if i < c.entries.length then
      some ({ c with entries := c.entries.modify i CacheEntry.hit }, .inl (.measure request i))
    else none
  | .measure request i => c.entries[i]?.map fun entry => (c, .inl (.copy request i (toSizeT entry.len)))
  | .copy request i size =>
    c.entries[i]?.map fun entry => (c, .inl (.send request (entry.content.take size) size))
  | .send request buf size =>
    some (c, .inr (.answered (returnResult (getContentType request) buf (toInt size))))
  | .make request memory memorySize => some (c, .inl (.test (newCacheEntry request memory memorySize)))
  | .test newEntry =>
    some (c, .inl (if c.numCacheEntries ≠ c.cacheSize then .store newEntry else .evictFirst newEntry))
  | .store newEntry => (writeSlot c.entries c.nextSlotToStore newEntry).map fun entries =>
      ({ c with entries := entries }, .inl .countEntry)
  | .countEntry => some ({ c with numCacheEntries := c.numCacheEntries + 1 }, .inl .moveSlot)
  | .moveSlot =>
    some ({ c with nextSlotToStore := (c.nextSlotToStore + 1).tmod c.cacheSize }, .inr .inserted)
  | .evictFirst newEntry => c.entries[0]?.map fun evict => (c, .inl (.evictNext newEntry 1 evict 0))
  | .evictNext newEntry i evict evictIndex =>
    if (i : ℤ) < c.cacheSize then
      c.entries[i]?.map fun entry =>
        (c, .inl (if entry.freqUsed < evict.freqUsed then .evictNext newEntry (i + 1) entry i
          else .evictNext newEntry (i + 1) evict evictIndex))
    else some (c, .inl (.replace newEntry evictIndex))
  | .replace newEntry evictIndex =>
    if evictIndex < c.entries.length then
      some ({ c with entries := c.entries.set evictIndex newEntry }, .inr .inserted)
    else none

/-- The section is in `return_result`. -/
def SectionControl.Sends : SectionControl → Prop
  | .send _ _ _ => True
  | _ => False

/-- A worker at the top of its loop may begin the lookup for a request, and one which has loaded a file
may begin its insertion. -/
def enterSection : WorkerState → SectionLabel → Option SectionControl
  | .idle, .lookup request => some (.compare request.request 0)
  | .loaded request buf size, .insert => some (.make request.request buf (toInt size))
  | _, _ => none

/-- What is sent at the end of a section, and where the worker stands then. -/
def leaveSection (sent : List (Request × Response)) (worker : WorkerState) :
    SectionLabel → SectionResult → List (Request × Response) × WorkerState
  | .lookup request, .missed => (sent, .missed request)
  | .lookup request, .answered response => (sent ++ [(request, response)], .idle)
  | _, _ =>
    match worker with
    | .loaded request buf size => (sent, .inserted request buf size)
    | _ => (sent, worker)

/-- The accesses to the disk, and the answer after a miss. -/
def outsideSections (sent : List (Request × Response)) :
    WorkerState → OutsideLabel → Option (List (Request × Response) × WorkerState)
  | .missed request, .load outcome =>
    if outcome.Possible then
      match outcome with
      | .reads size data => some (sent, .loaded request (fileBuffer size data) size)
      | failure => some (sent ++ [(request, missResponse request.request failure)], .idle)
    else none
  | .inserted request buf size, .answer =>
    some (sent ++ [(request, returnResult (getContentType request.request) buf (toInt size))], .idle)
  | _, _ => none

/-- A worker. -/
def workerSections :
    Locking Cache SectionControl SectionResult (List (Request × Response)) WorkerState SectionLabel
    OutsideLabel where
  code := sectionCode
  enter := enterSection
  leave := leaveSection
  outside := outsideSections

/-- The cache, the workers and what was sent. -/
def toWorkers {ι : Type*} (s : AtomicState ι Cache (List (Request × Response)) WorkerState) :
    WorkersState ι :=
  ⟨s.shared, s.locals, s.record⟩

/-- The states in which the workers begin. -/
def LockedInit (ι : Type*) [DecidableEq ι] (cacheSize : ℕ)
    (s : AtomicState ι Cache (List (Request × Response)) WorkerState) : Prop :=
  (workersSystem ι cacheSize).init (toWorkers s)

/-- Any number of workers with the lock, in any order of the steps in their sections. -/
def lockedWorkers (ι : Type*) [DecidableEq ι] (cacheSize : ℕ) :=
  workerSections.lockSystem (LockedInit ι cacheSize)

/-- The loop of `getCacheIndex` goes on from the first entry for the request, or ends behind the
entries. -/
theorem search_executes {c t : Cache} {request : CString} {r : SectionResult}
    {entries : List CacheEntry} {i : ℕ} (hentries : c.occupied.drop i = entries)
    (hlength : c.numCacheEntries = c.occupied.length)
    (hrest : match entries.findIdx? fun entry => entry.request = request with
      | some j => workerSections.Executes c (.count request (j + i)) t r
      | none => t = c ∧ r = .missed) :
    workerSections.Executes c (.compare request i) t r := by
  induction entries generalizing i with
  | nil =>
    obtain ⟨rfl, rfl⟩ := hrest
    have hend : ¬ (i : ℤ) < t.numCacheEntries := by
      have hle := List.drop_eq_nil_iff.mp hentries
      omega
    exact .last (if_neg hend)
  | cons entry rest ih =>
    have hlt : i < c.occupied.length := by
      by_contra hge
      simp [List.drop_eq_nil_of_le (Nat.le_of_not_lt hge)] at hentries
    obtain ⟨hentry, htail⟩ := List.cons.inj ((List.drop_eq_getElem_cons hlt).symm.trans hentries)
    have hslot : c.entries[i]? = some entry := by
      have htake := List.getElem?_eq_some_iff.mpr ⟨hlt, hentry⟩
      rw [Cache.occupied, List.getElem?_take] at htake
      split at htake
      · exact htake
      · exact absurd htake (by simp)
    have hstep : sectionCode c (.compare request i) =
        some (c, .inl (if entry.request = request then .count request i
          else .compare request (i + 1))) := by
      have hinside : (i : ℤ) < c.numCacheEntries := by omega
      simp only [sectionCode, hinside, if_true, hslot, Option.map_some]
    refine .more hstep ?_
    rw [List.findIdx?_cons] at hrest
    by_cases hfound : entry.request = request
    · simpa [hfound] using hrest
    · rw [if_neg hfound]
      refine ih htail ?_
      simp only [hfound, decide_false, Bool.false_eq_true, if_false] at hrest
      cases hfind : rest.findIdx? fun entry => entry.request = request with
      | none => simpa [hfind] using hrest
      | some j =>
        have hshift : j + 1 + i = j + (i + 1) := by omega
        simpa [hfind, hshift] using hrest

/-- The count of a cache which keeps its shape is the number of its occupied entries. -/
theorem CacheInv.numCacheEntries_eq {size : ℕ} {c : Cache} (h : CacheInv size c) :
    c.numCacheEntries = c.occupied.length := by
  have hnonneg := h.num_nonneg
  rw [h.occupied_length]
  omega

/-- The section of a lookup which hits is `getCacheIndex` and the answer from the entry which was
found. -/
theorem hit_executes {size : ℕ} {c cache : Cache} (h : CacheInv size c) {request : CString} {i : ℕ}
    {entry : CacheEntry} (hindex : getCacheIndex c request = (some i, cache))
    (hentry : cache.entries[i]? = some entry) :
    workerSections.Executes c (.compare request 0) cache (.answered (hitResponse request entry)) := by
  have hfind : c.occupied.findIdx? (fun entry => entry.request = request) = some i ∧
      cache = { c with entries := c.entries.modify i CacheEntry.hit } := by
    unfold getCacheIndex at hindex
    split at hindex
    · rename_i j hfind
      obtain ⟨hj, hcache⟩ := Prod.mk.inj hindex
      exact ⟨Option.some.inj hj ▸ hfind, Option.some.inj hj ▸ hcache.symm⟩
    · exact absurd (congrArg Prod.fst hindex) (by simp)
  have hinside : i < c.entries.length := by
    have hlt := (List.getElem?_eq_some_iff.mp hentry).1
    simpa [hfind.2] using hlt
  have hcount : sectionCode c (.count request i) = some (cache, .inl (.measure request i)) := by
    rw [sectionCode, if_pos hinside, hfind.2]
  have hmeasure : sectionCode cache (.measure request i) =
      some (cache, .inl (.copy request i (toSizeT entry.len))) := by
    rw [sectionCode, hentry, Option.map_some]
  have hcopy : sectionCode cache (.copy request i (toSizeT entry.len)) =
      some (cache, .inl (.send request (entry.content.take (toSizeT entry.len))
        (toSizeT entry.len))) := by
    rw [sectionCode, hentry, Option.map_some]
  refine search_executes (List.drop_zero ..) h.numCacheEntries_eq ?_
  rw [hfind.1]
  exact .more hcount (.more hmeasure (.more hcopy (.last rfl)))

/-- The section of a lookup which misses changes nothing. -/
theorem miss_executes {size : ℕ} {c cache : Cache} (h : CacheInv size c) {request : CString}
    (hindex : getCacheIndex c request = (none, cache)) :
    workerSections.Executes c (.compare request 0) cache .missed := by
  have hfind : c.occupied.findIdx? (fun entry => entry.request = request) = none ∧ cache = c := by
    unfold getCacheIndex at hindex
    split at hindex
    · exact absurd (congrArg Prod.fst hindex) (by simp)
    · rename_i hfind
      exact ⟨hfind, (congrArg Prod.snd hindex).symm⟩
  refine search_executes (List.drop_zero ..) h.numCacheEntries_eq ?_
  rw [hfind.1]
  exact ⟨hfind.2, rfl⟩

/-- The section of a lookup ends as `getCacheIndex` says. -/
theorem lookup_executes {size : ℕ} {c : Cache} (h : CacheInv size c) (request : CString) :
    (∃ i cache entry, getCacheIndex c request = (some i, cache) ∧ cache.entries[i]? = some entry ∧
      workerSections.Executes c (.compare request 0) cache (.answered (hitResponse request entry))) ∨
    ∃ cache, getCacheIndex c request = (none, cache) ∧
      workerSections.Executes c (.compare request 0) cache .missed := by
  obtain ⟨found, cache, hindex⟩ : ∃ found cache, getCacheIndex c request = (found, cache) := ⟨_, _, rfl⟩
  cases found with
  | some i =>
    obtain ⟨⟨hi, -⟩, hcache, -⟩ := getCacheIndex_some hindex
    have hinside : i < cache.entries.length := by
      rw [hcache, List.length_modify]
      exact lt_of_lt_of_le hi (List.length_take_le' ..)
    have hentry := List.getElem?_eq_getElem hinside
    exact Or.inl ⟨i, cache, _, hindex, hentry, hit_executes h hindex hentry⟩
  | none => exact Or.inr ⟨cache, hindex, miss_executes h hindex⟩

/-- The loop of `addIntoCache` goes on from the entry to evict. -/
theorem evict_executes {c t : Cache} {newEntry evict : CacheEntry} {r : SectionResult}
    {entries : List CacheEntry} {i evictIndex : ℕ} (hentries : c.entries.drop i = entries)
    (hsize : c.cacheSize = c.entries.length)
    (hrest : workerSections.Executes c (.replace newEntry (evictLoop entries i evict evictIndex)) t r) :
    workerSections.Executes c (.evictNext newEntry i evict evictIndex) t r := by
  induction entries generalizing i evict evictIndex with
  | nil =>
    have hend : ¬ (i : ℤ) < c.cacheSize := by
      have hle := List.drop_eq_nil_iff.mp hentries
      omega
    exact .more (if_neg hend) hrest
  | cons entry rest ih =>
    have hlt : i < c.entries.length := by
      by_contra hge
      simp [List.drop_eq_nil_of_le (Nat.le_of_not_lt hge)] at hentries
    obtain ⟨hentry, htail⟩ := List.cons.inj ((List.drop_eq_getElem_cons hlt).symm.trans hentries)
    have hstep : sectionCode c (.evictNext newEntry i evict evictIndex) =
        some (c, .inl (if entry.freqUsed < evict.freqUsed then .evictNext newEntry (i + 1) entry i
          else .evictNext newEntry (i + 1) evict evictIndex)) := by
      have hinside : (i : ℤ) < c.cacheSize := by omega
      have hslot : c.entries[i]? = some entry := List.getElem?_eq_some_iff.mpr ⟨hlt, hentry⟩
      simp only [sectionCode, hinside, if_true, hslot, Option.map_some]
    refine .more hstep ?_
    rw [evictLoop] at hrest
    split
    · rename_i hless
      exact ih htail (by rwa [if_pos hless] at hrest)
    · rename_i hless
      exact ih htail (by rwa [if_neg hless] at hrest)

/-- The section of an insertion is `addIntoCache`. -/
theorem insert_executes {size : ℕ} {c cache : Cache} (h : CacheInv size c) {request : CString}
    {memory : List UInt8} {memorySize : ℤ}
    (hadd : addIntoCache c request memory memorySize = some cache) :
    workerSections.Executes c (.make request memory memorySize) cache .inserted := by
  have hmake : sectionCode c (.make request memory memorySize) =
      some (c, .inl (.test (newCacheEntry request memory memorySize))) := rfl
  refine .more hmake ?_
  rw [addIntoCache] at hadd
  split at hadd
  · rename_i hroom
    obtain ⟨entries, hwrite, rfl⟩ := Option.map_eq_some_iff.mp hadd
    have htest : sectionCode c (.test (newCacheEntry request memory memorySize)) =
        some (c, .inl (.store (newCacheEntry request memory memorySize))) := by
      rw [sectionCode, if_pos hroom]
    have hstore : sectionCode c (.store (newCacheEntry request memory memorySize)) =
        some ({ c with entries := entries }, .inl .countEntry) := by
      rw [sectionCode, hwrite, Option.map_some]
    exact .more htest (.more hstore (.more rfl (.last rfl)))
  · rename_i hfull
    obtain ⟨evictIndex, hslot, rfl⟩ := Option.map_eq_some_iff.mp hadd
    have htest : sectionCode c (.test (newCacheEntry request memory memorySize)) =
        some (c, .inl (.evictFirst (newCacheEntry request memory memorySize))) := by
      rw [sectionCode, if_neg hfull]
    have hsize : c.cacheSize = c.entries.length := by rw [h.size_eq, h.length]
    rw [evictSlot, hsize, Int.toNat_natCast, List.take_length] at hslot
    split at hslot
    · exact absurd hslot (by simp)
    · rename_i evict rest hcons
      obtain rfl := Option.some.inj hslot
      have hfirst : sectionCode c (.evictFirst (newCacheEntry request memory memorySize)) =
          some (c, .inl (.evictNext (newCacheEntry request memory memorySize) 1 evict 0)) := by
        rw [sectionCode, hcons]
        rfl
      have hinside : evictLoop rest 1 evict 0 < c.entries.length := by
        have hlt := @evictLoop_lt rest 1 0 evict Nat.zero_lt_one
        rw [hcons, List.length_cons]
        omega
      refine .more htest (.more hfirst (evict_executes (congrArg (List.drop 1) hcons) hsize (.last ?_)))
      exact if_pos hinside

variable {ι : Type*} [DecidableEq ι]

/-- The step of a worker in `workersSystem`. -/
def workerStep : AtomicLabel ι SectionLabel OutsideLabel → WorkerLabel ι
  | .whole w (.lookup request) => .lookup w request
  | .whole w .insert => .insert w
  | .outside w (.load outcome) => .load w outcome
  | .outside w .answer => .answer w

/-- A lookup which runs alone is the step of `workersSystem`. -/
theorem lookup_whole {size : ℕ} {s : AtomicState ι Cache (List (Request × Response)) WorkerState}
    (h : CacheInv size s.shared) {w : ι} {request : Request} {cache : Cache} {r : SectionResult}
    (hidle : s.locals w = .idle)
    (hexec : workerSections.Executes s.shared (.compare request.request 0) cache r) :
    workerNext (toWorkers s) (.lookup w request) = some ⟨cache,
      Function.update s.locals w (leaveSection s.record (s.locals w) (.lookup request) r).2,
      (leaveSection s.record (s.locals w) (.lookup request) r).1⟩ := by
  have hworker : (toWorkers s).workers w = .idle := hidle
  rw [workerNext, if_pos hworker]
  obtain ⟨i, cache', entry, hindex, hentry, hhit⟩ | ⟨cache', hindex, hmiss⟩ :=
    lookup_executes h request.request
  · obtain ⟨rfl, rfl⟩ := hexec.unique hhit
    have hsame : getCacheIndex (toWorkers s).cache request.request = (some i, cache) := hindex
    simp only [hsame, hentry, Option.map_some]
    rfl
  · obtain ⟨rfl, rfl⟩ := hexec.unique hmiss
    have hsame : getCacheIndex (toWorkers s).cache request.request = (none, cache) := hindex
    rw [hsame]
    rfl

/-- The two ways into a section. -/
theorem enterSection_cases {worker : WorkerState} {label : SectionLabel} {k : SectionControl}
    (h : enterSection worker label = some k) :
    (∃ request, label = .lookup request ∧ worker = .idle ∧ k = .compare request.request 0) ∨
    ∃ request buf n, label = .insert ∧ worker = .loaded request buf n ∧ k = .make request.request buf
    (toInt n) := by
  cases worker <;> cases label <;> simp_all [enterSection]

/-- Without the lock the workers do what they do in `workersSystem`. -/
theorem workerStep_next {size : ℕ} (hpos : 0 < size)
    {s s' : AtomicState ι Cache (List (Request × Response)) WorkerState}
    {label : AtomicLabel ι SectionLabel OutsideLabel} (h : CacheInv size s.shared)
    (hstep : workerSections.AtomicStep s label s') :
    workerNext (toWorkers s) (workerStep label) = some (toWorkers s') := by
  cases hstep with
  | @whole w label k cache r henter hexec =>
    obtain ⟨request, rfl, hidle, rfl⟩ | ⟨request, buf, n, rfl, hloaded, rfl⟩ := enterSection_cases henter
    · exact lookup_whole h hidle hexec
    · obtain ⟨cache', hadd⟩ := h.addIntoCache_isSome hpos request.request buf (toInt n)
      obtain ⟨rfl, rfl⟩ := hexec.unique (insert_executes h hadd)
      have hleave : workerSections.leave s.record (s.locals w) .insert .inserted =
          (s.record, .inserted request buf n) := by
        rw [hloaded]
        rfl
      have hworker : (toWorkers s).workers w = .loaded request buf n := hloaded
      have hsame : addIntoCache (toWorkers s).cache request.request buf (toInt n) = some cache := hadd
      simp only [workerStep, workerNext, hworker, hsame, Option.map_some, hleave]
      rfl
  | @outside w label sent worker hact =>
    have hacts : outsideSections s.record (s.locals w) label = some (sent, worker) := hact
    cases label with
    | load outcome =>
      cases hworker : s.locals w with
      | missed request =>
        have hmissed : (toWorkers s).workers w = .missed request := hworker
        rw [hworker] at hacts
        simp only [workerStep, workerNext, hmissed]
        by_cases hpossible : outcome.Possible
        · simp only [outsideSections, if_pos hpossible] at hacts ⊢
          cases outcome <;> obtain ⟨rfl, rfl⟩ := Prod.mk.inj (Option.some.inj hacts) <;> rfl
        · exact absurd hacts (by simp [outsideSections, hpossible])
      | idle => exact absurd (hworker ▸ hacts) (by simp [outsideSections])
      | loaded _ _ _ => exact absurd (hworker ▸ hacts) (by simp [outsideSections])
      | inserted _ _ _ => exact absurd (hworker ▸ hacts) (by simp [outsideSections])
    | answer =>
      cases hworker : s.locals w with
      | inserted request buf n =>
        have hinserted : (toWorkers s).workers w = .inserted request buf n := hworker
        rw [hworker] at hacts
        simp only [workerStep, workerNext, hinserted]
        obtain ⟨rfl, rfl⟩ := Prod.mk.inj (Option.some.inj hacts)
        rfl
      | idle => exact absurd (hworker ▸ hacts) (by simp [outsideSections])
      | loaded _ _ _ => exact absurd (hworker ▸ hacts) (by simp [outsideSections])
      | missed _ => exact absurd (hworker ▸ hacts) (by simp [outsideSections])

/-- Without the lock the workers are those of `workersSystem`. -/
def workersRefinement (ι : Type*) [DecidableEq ι] {cacheSize : ℕ} (hpos : 0 < cacheSize) :
    TransitionSystem.Refinement (workerSections.atomicSystem (LockedInit ι cacheSize))
    (workersSystem ι cacheSize) where
  inv s := CacheInv cacheSize s.shared
  abs := toWorkers
  visible label := some (workerStep label)
  inv_init _ hinit := (workersSystem_init hinit).1
  inv_step _ _ _ h hstep := workerNext_cacheInv hpos h (workerStep_next hpos h hstep)
  abs_init _ hinit := hinit
  abs_step _ _ _ h hstep := workerStep_next hpos h hstep

omit [DecidableEq ι] in
/-- Every section which can begin comes to an end when it runs alone. -/
theorem sections_end {cacheSize : ℕ} (hpos : 0 < cacheSize)
    {s : AtomicState ι Cache (List (Request × Response)) WorkerState} (h : CacheInv cacheSize s.shared)
    {w : ι} {label : SectionLabel} {k : SectionControl}
    (henter : enterSection (s.locals w) label = some k) :
    ∃ cache r, workerSections.Executes s.shared k cache r := by
  obtain ⟨request, rfl, -, rfl⟩ | ⟨request, buf, n, rfl, -, rfl⟩ := enterSection_cases henter
  · obtain ⟨_, cache, _, -, -, hhit⟩ | ⟨cache, -, hmiss⟩ := lookup_executes h request.request
    · exact ⟨cache, _, hhit⟩
    · exact ⟨cache, _, hmiss⟩
  · obtain ⟨cache, hadd⟩ := h.addIntoCache_isSome hpos request.request buf (toInt n)
    exact ⟨cache, _, insert_executes h hadd⟩

/-- What holds of a run of the workers with their lock. One of them at most is in a section. With each
section as one step, in the order in which the results got known, the workers sent the same answers and
stand where they stand; the cache is the same unless somebody is in a section. And the owner of the lock
can go on alone until it has given it back or is in `return_result`, and it gives it back if that
returns. -/
structure SectionsAtomic (cacheSize : ℕ)
    (s₀ : LockState ι Cache SectionControl (List (Request × Response)) WorkerState SectionLabel)
    (labels : List (LockLabel ι SectionLabel OutsideLabel))
    (s : LockState ι Cache SectionControl (List (Request × Response)) WorkerState SectionLabel) :
    Prop where
  exclusive : ∀ v w, s.phases v ≠ .outside → s.phases w ≠ .outside → v = w
  atomic : ∃ v, (workersSystem ι cacheSize).Run ⟨s₀.shared, s₀.locals, s₀.record⟩
      ((labels.filterMap LockLabel.atomic).map workerStep) v ∧
    v.sent = s.record ∧ v.workers = s.locals ∧ ((∀ w label k, s.phases w ≠ .inside label k) →
      v.cache = s.shared)
  releases : ∀ w, s.owner = some w →
    workerSections.ReleasesUnless (LockedInit ι cacheSize) SectionControl.Sends s w

/-- In every run of any number of workers, with steps of the others between any two accesses of a
section, the sections are atomic and nobody is stuck with the lock outside of `return_result`. -/
theorem lockedWorkers_atomic {cacheSize : ℕ} (hpos : 0 < cacheSize)
    {s₀ s : LockState ι Cache SectionControl (List (Request × Response)) WorkerState SectionLabel}
    {labels : List (LockLabel ι SectionLabel OutsideLabel)} (hinit : (lockedWorkers ι cacheSize).init s₀)
    (hrun : (lockedWorkers ι cacheSize).Run s₀ labels s) : SectionsAtomic cacheSize s₀ labels s := by
  let R := workerSections.atomicRefinement (LockedInit ι cacheSize)
  let W := workersRefinement ι hpos
  have hinv : workerSections.LockInv s := hrun.invariant R.inv_step (R.inv_init s₀ hinit)
  have hatomic : (workerSections.atomicSystem (LockedInit ι cacheSize)).Run s₀.atomic
      (labels.filterMap LockLabel.atomic) s.atomic := R.run (R.inv_init s₀ hinit) hrun
  have hstart : s₀.atomic = ⟨s₀.shared, s₀.record, s₀.locals⟩ := by
    rw [LockState.atomic, LockState.found, hinit.2.2]
  refine ⟨fun v w => hinv.unique, ?_, fun w howner => ?_⟩
  · have hworkers := W.run (W.inv_init _ (R.abs_init s₀ hinit)) hatomic
    have hlabels : (labels.filterMap LockLabel.atomic).filterMap W.visible =
        (labels.filterMap LockLabel.atomic).map workerStep := congrFun List.filterMap_eq_map' _
    have hfrom : W.abs (R.abs s₀) = ⟨s₀.shared, s₀.locals, s₀.record⟩ := congrArg toWorkers hstart
    rw [hlabels, hfrom] at hworkers
    refine ⟨toWorkers s.atomic, hworkers, rfl, rfl, fun hnobody => ?_⟩
    change s.found = s.shared
    rw [LockState.found]
    split
    · rfl
    · rename_i w howner
      split
      · rename_i label k hinside
        exact absurd hinside (hnobody w label k)
      · rfl
  · refine Locking.owner_releases _ (fun t ht v label k henter => ?_) ⟨s₀, labels, hinit, hrun⟩ howner
    exact sections_end hpos (ht.invariant W.inv_init W.inv_step) henter

/-- Two workers and a cache with one slot. -/
def twoIdle : LockState Bool Cache SectionControl
    (List (Request × Response)) WorkerState SectionLabel where
  shared := initCache 1 [⟨0, [], [], 0⟩]
  before := initCache 1 [⟨0, [], [], 0⟩]
  record := []
  locals _ := .idle
  phases _ := .outside
  owner := none

/-- Both workers miss the same file. While the first one is between two accesses of its insertion, the
second one reads the file. -/
def loadBetween : List (LockLabel Bool SectionLabel OutsideLabel) :=
  let request : Request := ⟨4, bytes "/a"⟩
  [.lock true (.lookup request), .commit true (.lookup request), .unlock true,
    .lock false (.lookup request), .commit false (.lookup request), .unlock false,
    .outside true (.load (.reads 1 [0x61])), .lock true .insert, .advance true, .advance true,
      .advance true,
    .outside false (.load (.reads 1 [0x61]))]

/-- The entry is stored and not yet counted, and the run is one of the workers whose sections are single
steps. -/
theorem lockedWorkers_atomic_between :
    ∃ s, (lockedWorkers Bool 1).Run twoIdle loadBetween s ∧ s.owner = some true ∧
    s.shared.numCacheEntries = 0 ∧
      s.shared ≠ s.before ∧ SectionsAtomic 1 twoIdle loadBetween s := by
  have hinit : (lockedWorkers Bool 1).init twoIdle :=
    ⟨⟨fun _ => rfl, rfl, _, rfl, rfl⟩, fun _ => rfl, rfl⟩
  have hrun : (lockedWorkers Bool 1).Run twoIdle loadBetween _ :=
    .cons (.lock rfl rfl rfl) (.cons (.commit rfl rfl) (.cons (.unlock rfl)
      (.cons (.lock rfl rfl rfl) (.cons (.commit rfl rfl) (.cons (.unlock rfl)
        (.cons (.outside rfl rfl)
          (.cons (.lock rfl rfl rfl) (.cons (.advance rfl rfl) (.cons (.advance rfl rfl)
          (.cons (.advance rfl rfl) (.cons (.outside rfl rfl) .nil)))))))))))
  exact ⟨_, hrun, rfl, rfl, by decide, lockedWorkers_atomic Nat.one_pos hinit hrun⟩

end Csci4061.WebServer
