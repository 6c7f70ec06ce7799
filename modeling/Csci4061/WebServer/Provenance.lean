import Csci4061.WebServer.CacheCoherence

/-!
# Where the bytes of a response come from

The files may change while the server runs, and nothing tells the cache. What still holds, for any
outcomes of the accesses to the disk and any order of the workers, is that every response is the one for
a single access to the path of its own request: a hit repeats what one earlier read of this path gave,
and never mixes it with another read or with another request. How old that read is, nothing bounds.

The accesses are recorded beside the state, with the path of the request that each of them was for.
-/

namespace Csci4061.WebServer

open Csci4061.Lib

/-- An access to the disk: the request of the worker and what `stat` and `read` reported. -/
structure Access where
  request : CString
  outcome : DiskOutcome
  deriving DecidableEq

variable {ι : Type*} [DecidableEq ι]

/-- The access which a step makes. -/
def accessOf (s : WorkersState ι) : WorkerLabel ι → List Access
  | .load w outcome =>
    match s.workers w with
    | .missed request => [⟨request.request, outcome⟩]
    | _ => []
  | _ => []

/-- The workers, with the accesses so far. -/
structure Observed (ι : Type*) where
  state : WorkersState ι
  accesses : List Access

/-- A step of a worker, which is recorded if it accesses the disk. -/
def observedNext (s : Observed ι) (label : WorkerLabel ι) : Option (Observed ι) :=
  (workerNext s.state label).map fun state => ⟨state, s.accesses ++ accessOf s.state label⟩

/-- The workers on one cache, with a record of the accesses to the disk. -/
def observedSystem (ι : Type*) [DecidableEq ι] (cacheSize : ℕ) :
    TransitionSystem (Observed ι) (WorkerLabel ι) :=
  .ofNext (fun s => (workersSystem ι cacheSize).init s.state ∧ s.accesses = []) observedNext

/-- What was recorded can be reported by a disk. -/
theorem access_possible {cacheSize : ℕ} {s : Observed ι} (h : (observedSystem ι cacheSize).Reachable s) :
    ∀ access ∈ s.accesses, access.outcome.Possible := by
  refine h.invariant (I := fun s => ∀ access ∈ s.accesses, access.outcome.Possible)
    (fun s hinit access hmem =>
      absurd (hinit.2 ▸ hmem) List.not_mem_nil) fun s label s' hs hstep access hmem => ?_
  obtain ⟨state, hstate, rfl⟩ := Option.map_eq_some_iff.mp
      (show observedNext s label = some s' from hstep)
  rcases List.mem_append.mp hmem with hold | hnew
  · exact hs access hold
  · cases label with
    | lookup w request | insert w | answer w => exact absurd hnew List.not_mem_nil
    | load w outcome =>
      obtain ⟨request, hworker, hpossible, -⟩ := load_cases hstate
      rw [accessOf, hworker] at hnew
      exact List.mem_singleton.mp hnew ▸ hpossible

/-- The bytes of an access which was read, for a request. -/
def ReadFor (accesses : List Access) (request : CString) (buf : List UInt8) (size : ℕ) : Prop :=
  ∃ data, ⟨request, .reads size data⟩ ∈ accesses ∧ buf = fileBuffer size data

/-- The entry was made from one read of its request. -/
def MadeFrom (accesses : List Access) (e : CacheEntry) : Prop :=
  ∃ buf size, ReadFor accesses e.request buf size ∧ e.len = toInt size ∧
    e.content = buf.take (toSizeT (toInt size))

/-- The buffer of the worker was filled by one read for its request. -/
def FilledFrom (accesses : List Access) : WorkerState → Prop
  | .loaded request buf size => ReadFor accesses request.request buf size
  | .inserted request buf size => ReadFor accesses request.request buf size
  | _ => True

/-- The response is the one for one access to the path of the request. -/
def AnswerOf (accesses : List Access) (p : Request × Response) : Prop :=
  ∃ outcome, ⟨p.1.request, outcome⟩ ∈ accesses ∧ p.2 = missResponse p.1.request outcome

/-- Entries, buffers and responses come from the accesses so far. -/
structure Traced (cacheSize : ℕ) (s : Observed ι) : Prop where
  shape : CacheInv cacheSize s.state.cache
  entries : ∀ e ∈ s.state.cache.occupied, MadeFrom s.accesses e
  workers : ∀ w, FilledFrom s.accesses (s.state.workers w)
  sent : ∀ p ∈ s.state.sent, AnswerOf s.accesses p

/-- The conversions from the length of an entry to `size_t` and back lose nothing. -/
theorem toInt_toSizeT_toInt (n : ℤ) : toInt (toSizeT (toInt n)) = toInt n := by
  rw [toSizeT, toInt_eq_emod_sub, toInt_eq_emod_sub]
  omega

/-- A hit on an entry repeats the answer of the miss which made it, for files of any size. -/
theorem MadeFrom.hitResponse {accesses : List Access} {e : CacheEntry} (h : MadeFrom accesses e)
    (fd : ℤ) :
    AnswerOf accesses (⟨fd, e.request⟩, hitResponse e.request e) := by
  obtain ⟨buf, size, ⟨data, hmem, rfl⟩, hlen, hcontent⟩ := h
  refine ⟨_, hmem, ?_⟩
  simp only [WebServer.hitResponse, missResponse, returnResult, hlen, hcontent, toInt_toSizeT_toInt,
    List.take_take, Nat.min_self]

/-- More accesses justify no less. -/
theorem ReadFor.mono {accesses accesses' : List Access} (hsubset : accesses ⊆ accesses')
    {request : CString} {buf : List UInt8} {size : ℕ} (h : ReadFor accesses request buf size) :
    ReadFor accesses' request buf size := by
  obtain ⟨data, hmem, hbuf⟩ := h
  exact ⟨data, hsubset hmem, hbuf⟩

omit [DecidableEq ι] in
/-- More accesses leave everything traced. -/
theorem Traced.mono {cacheSize : ℕ} {state : WorkersState ι} {accesses accesses' : List Access}
    (hsubset : accesses ⊆ accesses') (h : Traced cacheSize ⟨state, accesses⟩) :
    Traced cacheSize ⟨state, accesses'⟩ where
  shape := h.shape
  entries e he := by
    obtain ⟨buf, size, hread, hrest⟩ := h.entries e he
    exact ⟨buf, size, hread.mono hsubset, hrest⟩
  workers w := by
    have hworker := h.workers w
    change FilledFrom accesses' (state.workers w)
    change FilledFrom accesses (state.workers w) at hworker
    cases hstate : state.workers w with
    | idle => trivial
    | missed request => trivial
    | loaded request buf size =>
      rw [hstate] at hworker
      exact ReadFor.mono hsubset hworker
    | inserted request buf size =>
      rw [hstate] at hworker
      exact ReadFor.mono hsubset hworker
  sent p hp := by
    obtain ⟨outcome, hmem, hanswer⟩ := h.sent p hp
    exact ⟨outcome, hsubset hmem, hanswer⟩

/-- One worker moved on, and its buffer is traced. -/
theorem FilledFrom.update {accesses : List Access} {workers : ι → WorkerState}
    (h : ∀ v, FilledFrom accesses (workers v)) {w : ι} {state : WorkerState}
    (hstate : FilledFrom accesses state) (v : ι) :
    FilledFrom accesses (Function.update workers w state v) := by
  by_cases hv : v = w
  · rw [hv, Function.update_self]
    exact hstate
  · rw [Function.update_of_ne hv]
    exact h v

/-- A traced response is sent. -/
theorem Traced.respond {cacheSize : ℕ} {state : WorkersState ι} {accesses : List Access}
    (h : Traced cacheSize ⟨state, accesses⟩) (w : ι) {request : Request} {response : Response}
    (hanswer : AnswerOf accesses (request, response)) :
    Traced cacheSize ⟨state.respond w request response, accesses⟩ where
  shape := h.shape
  entries := h.entries
  workers := FilledFrom.update h.workers trivial
  sent p hp := by
    rcases List.mem_append.mp hp with hold | hnew
    · exact h.sent p hold
    · rw [List.mem_singleton.mp hnew]
      exact hanswer

omit [DecidableEq ι] in
/-- A successful lookup finds an entry for the request, and what it leaves is traced. -/
theorem Traced.getCacheIndex {cacheSize : ℕ} {state : WorkersState ι} {accesses : List Access}
    (h : Traced cacheSize ⟨state, accesses⟩) {request : CString} {i : ℕ} {cache : Cache}
    (hindex : getCacheIndex state.cache request = (some i, cache)) :
    (∀ e ∈ cache.occupied, MadeFrom accesses e) ∧
      ∃ entry, cache.entries[i]? = some entry ∧ entry.request = request ∧ MadeFrom accesses entry := by
  obtain ⟨⟨hi, hrequest⟩, -, hocc⟩ := getCacheIndex_some hindex
  have hentries : ∀ e ∈ cache.occupied, MadeFrom accesses e := by
    intro e he
    rw [hocc] at he
    -- Counting a hit changes neither the length nor the content of the entry.
    rcases mem_modify he with ⟨hj, rfl⟩ | ⟨j, hj, -, rfl⟩
    · exact h.entries state.cache.occupied[i] (List.getElem_mem hj)
    · exact h.entries state.cache.occupied[j] (List.getElem_mem hj)
  have hi' : i < cache.occupied.length := by rwa [hocc, List.length_modify]
  refine ⟨hentries, cache.occupied[i], ?_, ?_, hentries _ (List.getElem_mem hi')⟩
  · rw [← List.getElem?_eq_getElem hi', Cache.occupied, List.getElem?_take_of_lt]
    rw [Cache.occupied, List.length_take] at hi'
    omega
  · simp only [hocc, List.getElem_modify_eq]
    exact hrequest

/-- Every step keeps everything traced. -/
theorem Traced.step {cacheSize : ℕ} (hpos : 0 < cacheSize) {s s' : Observed ι} {label : WorkerLabel ι}
    (h : Traced cacheSize s) (hstep : observedNext s label = some s') : Traced cacheSize s' := by
  obtain ⟨state, hstate, rfl⟩ := Option.map_eq_some_iff.mp hstep
  have hmore : Traced cacheSize ⟨s.state, s.accesses ++ accessOf s.state label⟩ :=
    h.mono (List.subset_append_left _ _)
  cases label with
  | lookup w request =>
    rcases lookup_cases hstate with ⟨i, cache, entry, hindex, hentry, rfl⟩ | ⟨-, rfl⟩
    · obtain ⟨hentries, found, hfound, hrequest, hmade⟩ := hmore.getCacheIndex hindex
      obtain rfl : found = entry := Option.some.inj (hfound.symm.trans hentry)
      have hshape := hmore.shape.getCacheIndex request.request
      rw [hindex] at hshape
      have hcache : Traced cacheSize
          ⟨{ s.state with cache := cache }, s.accesses ++ accessOf s.state (.lookup w request)⟩ :=
        ⟨hshape, hentries, hmore.workers, hmore.sent⟩
      have hanswer := hmade.hitResponse request.fd
      rw [hrequest] at hanswer
      exact hcache.respond w hanswer
    · exact ⟨hmore.shape, hmore.entries, FilledFrom.update hmore.workers trivial, hmore.sent⟩
  | load w outcome =>
    obtain ⟨request, hworker, -, hresult⟩ := load_cases hstate
    have haccess : accessOf s.state (.load w outcome) = [⟨request.request, outcome⟩] := by
      rw [accessOf, hworker]
    have hmem : ⟨request.request, outcome⟩ ∈ s.accesses ++ accessOf s.state (.load w outcome) := by
      simp [haccess]
    rcases hresult with ⟨size, data, rfl, rfl⟩ | rfl
    · exact ⟨hmore.shape, hmore.entries, FilledFrom.update hmore.workers ⟨data, hmem, rfl⟩, hmore.sent⟩
    · exact hmore.respond w ⟨outcome, hmem, rfl⟩
  | insert w =>
    obtain ⟨request, buf, size, cache, hworker, hadd, rfl⟩ := insert_cases hstate
    have hfilled := hmore.workers w
    change FilledFrom _ (s.state.workers w) at hfilled
    rw [hworker] at hfilled
    refine ⟨(hmore.shape.addIntoCache hpos hadd).1, ?_, FilledFrom.update hmore.workers hfilled,
      hmore.sent⟩
    intro e he
    rcases hmore.shape.mem_addIntoCache hpos hadd he with hold | rfl
    · exact hmore.entries e hold
    · exact ⟨buf, size, hfilled, by simp only [newCacheEntry], by simp only [newCacheEntry]⟩
  | answer w =>
    obtain ⟨request, buf, size, hworker, rfl⟩ := answer_cases hstate
    have hfilled := hmore.workers w
    change FilledFrom _ (s.state.workers w) at hfilled
    rw [hworker] at hfilled
    obtain ⟨data, hmem, rfl⟩ := hfilled
    exact hmore.respond w ⟨_, hmem, rfl⟩

/-- In the beginning there is nothing to trace. -/
theorem traced_init {cacheSize : ℕ} {s : Observed ι} (h : (observedSystem ι cacheSize).init s) :
    Traced cacheSize s := by
  obtain ⟨hinit, -⟩ := h
  refine ⟨(workersSystem_init hinit).1, fun e he => ?_, fun w => ?_, fun p hp => ?_⟩
  · rw [(workersSystem_init hinit).2] at he
    exact absurd he List.not_mem_nil
  · rw [hinit.1 w]
    trivial
  · rw [hinit.2.1] at hp
    exact absurd hp List.not_mem_nil

/-- Whatever the files do meanwhile, every response which was sent is the one for a single access to the
path of its own request, and a lookup which hits now would repeat the answer of such an access: the
first one that was read into the entry. -/
theorem responses_have_access {cacheSize : ℕ} (hpos : 0 < cacheSize) {s : Observed ι}
    (hs : (observedSystem ι cacheSize).Reachable s) :
    (∀ p ∈ s.state.sent, ∃ outcome, ⟨p.1.request, outcome⟩ ∈ s.accesses ∧
      p.2 = missResponse p.1.request outcome) ∧
      ∀ request i cache, getCacheIndex s.state.cache request = (some i, cache) → ∃ entry outcome,
        cache.entries[i]? = some entry ∧ ⟨request, outcome⟩ ∈ s.accesses ∧
        hitResponse request entry = missResponse request outcome := by
  have htraced : Traced cacheSize s :=
    hs.invariant (fun _ hinit => traced_init hinit) fun s₁ label s₂ h hstep =>
      Traced.step hpos h (show observedNext s₁ label = some s₂ from hstep)
  refine ⟨htraced.sent, ?_⟩
  intro request i cache hindex
  obtain ⟨-, entry, hentry, rfl, hmade⟩ := htraced.getCacheIndex hindex
  obtain ⟨outcome, hmem, hanswer⟩ := hmade.hitResponse 0
  exact ⟨entry, outcome, hentry, hmem, hanswer⟩

/-- A file of one byte was read and inserted, and the next lookup of its path hits. -/
theorem responses_have_access_inserted : ∃ s :
    Observed (Fin 2), s.accesses = [⟨bytes "/a", .reads 1 [97]⟩] ∧
    (getCacheIndex s.state.cache (bytes "/a")).1 = some 0 ∧
    ∀ request i cache, getCacheIndex s.state.cache request = (some i, cache) → ∃ entry outcome,
      cache.entries[i]? = some entry ∧ ⟨request, outcome⟩ ∈ s.accesses ∧
      hitResponse request entry = missResponse request outcome := by
  let start : Observed (Fin 2) := ⟨⟨initCache 1 [⟨0, [], [], 0⟩], fun _ => .idle, []⟩, []⟩
  have hstart : (observedSystem (Fin 2) 1).Reachable start :=
    .of_init ⟨⟨fun _ => rfl, rfl, _, rfl, rfl⟩, rfl⟩
  have hmissed := hstart.snoc (show observedNext start (.lookup 0 ⟨5, bytes "/a"⟩) = some _ from rfl)
  have hloaded := hmissed.snoc (show observedNext _ (.load 0 (.reads 1 [97])) = some _ from rfl)
  have hinserted := hloaded.snoc (show observedNext _ (.insert 0) = some _ from rfl)
  exact ⟨_, rfl, by decide, (responses_have_access (by decide) hinserted).2⟩

end Csci4061.WebServer
