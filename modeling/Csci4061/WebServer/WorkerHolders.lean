import Csci4061.WebServer.WorkerHeap

/-!
# Who holds the blocks of the workers

Every allocated block has exactly one holder: the cache, the content of an entry, a worker between the
disk and its answer, or, where a file could not be read, nobody in the program. With that the state of
the heap stands for a state of the workers on values, and every step on the heap does what the step on
values does, unless it overruns a buffer.
-/

namespace Csci4061.WebServer

open Csci4061.Lib

variable {ι : Type} [DecidableEq ι]

/-- What holds an allocated block. -/
inductive Holder (ι : Type)
  | cache
  | entries
  | content (i : ℕ)
  | path (w : ι)
  | buffer (w : ι)
  | lost (i : ℕ)
  deriving DecidableEq

/-- The block of a holder. -/
def HeapState.holds (s : HeapState ι) : Holder ι → Option ℕ
  | .cache => some s.cache.address
  | .entries => some s.cache.entriesAt
  | .content i => (s.cache.occupied[i]?).map HeapEntry.content
  | .path w => (s.workers w).path
  | .buffer w => (s.workers w).buffer
  | .lost i => s.lost[i]?

/-- A worker represents one whose buffer is a value. What it inserted, it had. -/
inductive WorkerRep (h : Heap) : HeapWorker → WorkerState → Prop
  | idle : WorkerRep h .idle .idle
  | missed (request : Request) : WorkerRep h (.missed request) (.missed request)
  | loaded {request : Request} {absolutePath buf size : ℕ} {data : List UInt8}
      (hbuf : h.blocks buf = some (.chars (data ++ [0]))) (hlength : data.length = size)
      (hsize : toSizeT (toInt size) ≤ size) :
      WorkerRep h (.loaded request absolutePath buf size) (.loaded request data size)
  | inserted {request : Request} {absolutePath buf size : ℕ} {data : List UInt8}
      (hbuf : h.blocks buf = some (.chars (data ++ [0]))) (hlength : data.length = size)
      (hsize : toSizeT (toInt size) ≤ size) :
      WorkerRep h (.inserted request absolutePath buf size) (.inserted request data size)

/-- The state represents one with values, and each allocated block has one holder. -/
structure HeapRep (cacheSize : ℕ) (s : HeapState ι) (v : WorkersState ι) : Prop where
  shape : CacheInv cacheSize v.cache
  cache : CacheRep s.heap s.cache v.cache
  workers : ∀ w, WorkerRep s.heap (s.workers w) (v.workers w)
  sent : s.sent = v.sent
  owned : s.heap.Owned s.holds

/-- A worker does not depend on other blocks than its buffer. -/
theorem WorkerRep.frame {h h' : Heap} {x : HeapWorker} {y : WorkerState} (hrep : WorkerRep h x y)
    (hblocks : ∀ a, x.buffer = some a → h'.blocks a = h.blocks a) : WorkerRep h' x y := by
  cases hrep with
  | idle => exact .idle
  | missed request => exact .missed request
  | loaded hbuf hlength hsize => exact .loaded ((hblocks _ rfl).trans hbuf) hlength hsize
  | inserted hbuf hlength hsize => exact .inserted ((hblocks _ rfl).trans hbuf) hlength hsize

/-- What a state holds after one worker moved on. -/
theorem holds_update (s : HeapState ι) (w : ι) (x : HeapWorker) :
    ({ s with workers := Function.update s.workers w x } : HeapState ι).holds =
      Function.update (Function.update s.holds (.path w) x.path) (.buffer w) x.buffer := by
  funext o
  cases o with
  | cache => simp [HeapState.holds]
  | entries => simp [HeapState.holds]
  | content i => simp [HeapState.holds]
  | lost i => simp [HeapState.holds]
  | path v =>
    by_cases hv : v = w
    · simp [HeapState.holds, hv]
    · simp [HeapState.holds, hv]
  | buffer v =>
    by_cases hv : v = w
    · simp [HeapState.holds, hv]
    · simp [HeapState.holds, hv]

/-- What a state holds after another buffer was lost. -/
theorem holds_lost (s : HeapState ι) (buf : ℕ) :
    ({ s with lost := s.lost ++ [buf] } : HeapState ι).holds =
    Function.update s.holds (.lost s.lost.length) (some buf) := by
  funext o
  cases o with
  | cache => simp [HeapState.holds]
  | entries => simp [HeapState.holds]
  | content i => simp [HeapState.holds]
  | path v => simp [HeapState.holds]
  | buffer v => simp [HeapState.holds]
  | lost i =>
    by_cases hi : i = s.lost.length
    · simp [HeapState.holds, hi]
    · simp [HeapState.holds, hi, getElem?_append_singleton_of_ne hi]

/-- What a state holds after an entry was written, with a new cache whose other contents are those of
the old one. -/
theorem holds_content (s : HeapState ι) {c : HeapCache} {i : ℕ} {e : HeapEntry}
    (haddress : c.address = s.cache.address) (hentries : c.entriesAt = s.cache.entriesAt)
    (hself : c.occupied[i]? = some e) (hothers : ∀ j, j ≠ i → c.occupied[j]? = s.cache.occupied[j]?) :
    ({ s with cache := c } : HeapState ι).holds = Function.update s.holds (.content i)
    (some e.content) := by
  funext o
  cases o with
  | cache => simp [HeapState.holds, haddress]
  | entries => simp [HeapState.holds, hentries]
  | path v => simp [HeapState.holds]
  | buffer v => simp [HeapState.holds]
  | lost j => simp [HeapState.holds]
  | content j =>
    by_cases hj : j = i
    · simp [HeapState.holds, hj, hself]
    · simp [HeapState.holds, hj, hothers j hj]

variable {cacheSize : ℕ} {s : HeapState ι} {v : WorkersState ι} {w : ι}

omit [DecidableEq ι] in
/-- The contents of the entries are different blocks. -/
theorem HeapState.separate [DecidableEq ι] (hown : s.heap.Owned s.holds) : s.cache.Separate := by
  intro i j e e' he he' heq
  have hi : s.holds (.content i) = some e.content := by simp [HeapState.holds, he]
  have hj : s.holds (.content j) = some e.content := by simp [HeapState.holds, he', heq]
  exact Holder.content.inj (hown.exclusive hi hj)

/-- A worker which moves on with the same blocks. -/
theorem holds_update_same {x : HeapWorker} (hpath : x.path = (s.workers w).path)
    (hbuffer : x.buffer = (s.workers w).buffer) :
    ({ s with workers := Function.update s.workers w x } : HeapState ι).holds = s.holds := by
  have hfirst : Function.update s.holds (.path w) x.path = s.holds :=
    Function.update_eq_self_iff.mpr hpath
  rw [holds_update, hfirst]
  exact Function.update_eq_self_iff.mpr hbuffer

/-- One worker moved on, and the buffers of the others are as they were. -/
theorem HeapRep.update_workers (hrep : HeapRep cacheSize s v) {h : Heap} {x : HeapWorker}
    {y : WorkerState}
    (hxy : WorkerRep h x y) (hblocks : ∀ u a, u ≠ w → s.holds (.buffer u) = some a →
      h.blocks a = s.heap.blocks a)
    (u : ι) : WorkerRep h (Function.update s.workers w x u) (Function.update v.workers w y u) := by
  by_cases hu : u = w
  · rw [hu, Function.update_self, Function.update_self]
    exact hxy
  · rw [Function.update_of_ne hu, Function.update_of_ne hu]
    exact (hrep.workers u).frame fun a ha => hblocks u a hu ha

omit [DecidableEq ι] in
/-- The contents of the entries are as they were. -/
theorem HeapRep.cache_frame (hrep : HeapRep cacheSize s v) {h : Heap}
    (hblocks : ∀ i a, s.holds (.content i) = some a → h.blocks a = s.heap.blocks a) :
    CacheRep h s.cache v.cache := by
  refine hrep.cache.frame fun e he => ?_
  obtain ⟨i, hi⟩ := List.mem_iff_getElem?.mp he
  exact hblocks i e.content (by simp [HeapState.holds, hi])

/-- One worker answers, on both sides. -/
theorem HeapRep.respond (hrep : HeapRep cacheSize s v) {h : Heap} {lost : List ℕ} (request : Request)
    (response : Response)
    (hblocks : ∀ o a, s.holds o = some a → o ≠ .path w → o ≠ .buffer w → h.blocks a = s.heap.blocks a)
    (hown : h.Owned (({ s with heap := h, lost := lost } :
      HeapState ι).respond w request response).holds) :
    HeapRep cacheSize (({ s with heap := h, lost := lost } : HeapState ι).respond w request response)
      (v.respond w request response) where
  shape := hrep.shape
  cache := hrep.cache_frame fun i a ha => hblocks (.content i) a ha (by simp) (by simp)
  workers u := hrep.update_workers .idle (fun u a hu ha => hblocks (.buffer u) a ha (by simp)
    (by simpa using hu)) u
  sent := congrArg (· ++ [(request, response)]) hrep.sent
  owned := hown

/-- A step on the heap and one of the values: both are done, and their states correspond; or neither is
enabled; or the one on the heap would access memory outside of a block. -/
inductive StepsAlike (cacheSize : ℕ) (s : HeapState ι) (v : WorkersState ι) (label : HeapLabel ι) :
    Option (HeapState ι) → Option (WorkersState ι) → Prop
  | both {s' : HeapState ι} {v' : WorkersState ι} (hrep : HeapRep cacheSize s' v')
      (hlost : s'.lost = s.lost ++ label.loses) (hok : ¬ label.Overruns) :
      StepsAlike cacheSize s v label (some s') (some v')
  | neither : StepsAlike cacheSize s v label none none
  | overruns {v' : Option (WorkersState ι)} (hover : label.Overruns) :
    StepsAlike cacheSize s v label none v'

omit [DecidableEq ι] in
/-- A cache with the same contents holds the same blocks. -/
theorem holds_contents (s : HeapState ι) {c : HeapCache} (haddress : c.address = s.cache.address)
    (hentries : c.entriesAt = s.cache.entriesAt)
    (hcontents : c.occupied.map HeapEntry.content = s.cache.occupied.map HeapEntry.content) :
    ({ s with cache := c } : HeapState ι).holds = s.holds := by
  funext o
  cases o with
  | cache => exact congrArg some haddress
  | entries => exact congrArg some hentries
  | path v => rfl
  | buffer v => rfl
  | lost i => rfl
  | content i =>
    simp only [HeapState.holds]
    rw [← List.getElem?_map, ← List.getElem?_map, hcontents]

/-- A lookup does not move the cache. -/
theorem getCacheIndex_addresses (c : HeapCache) (request : CString) :
    (OnHeap.getCacheIndex c request).2.address = c.address ∧
      (OnHeap.getCacheIndex c request).2.entriesAt = c.entriesAt := by
  rw [OnHeap.getCacheIndex]
  split <;> exact ⟨rfl, rfl⟩

omit [DecidableEq ι] in
/-- The state with the cache after a lookup. -/
theorem HeapRep.looked (hrep : HeapRep cacheSize s v) (request : CString) :
    HeapRep cacheSize { s with cache := (OnHeap.getCacheIndex s.cache request).2 }
      { v with cache := (getCacheIndex v.cache request).2 } := by
  obtain ⟨-, hcache, hcontents⟩ := hrep.cache.getCacheIndex request
  obtain ⟨haddress, hentries⟩ := getCacheIndex_addresses s.cache request
  exact ⟨hrep.shape.getCacheIndex request, hcache, hrep.workers, hrep.sent,
    holds_contents s haddress hentries hcontents ▸ hrep.owned⟩

omit [DecidableEq ι] in
/-- The entry which a lookup found, on both sides. -/
theorem HeapRep.found (hrep : HeapRep cacheSize s v) {request : CString} {i : ℕ}
    (hindex : (getCacheIndex v.cache request).1 = some i) :
    ∃ e, (OnHeap.getCacheIndex s.cache request).2.entries[i]? = some e ∧ e.Stored s.heap ∧
      (getCacheIndex v.cache request).2.entries[i]? = some (e.read s.heap) := by
  have hlooked := hrep.looked request
  have hpair : getCacheIndex v.cache request = (some i, (getCacheIndex v.cache request).2) :=
    Prod.ext hindex rfl
  obtain ⟨⟨hi, -⟩, -, hocc⟩ := getCacheIndex_some hpair
  have hvalues : i < (getCacheIndex v.cache request).2.occupied.length := by
    rwa [hocc, List.length_modify]
  have hlength : i < (OnHeap.getCacheIndex s.cache request).2.occupied.length := by
    rwa [hlooked.cache.occupied, List.length_map] at hvalues
  have hentry := List.getElem?_eq_getElem hlength
  have hread : (getCacheIndex v.cache request).2.occupied[i]? =
      some ((OnHeap.getCacheIndex s.cache request).2.occupied[i].read s.heap) := by
    rw [hlooked.cache.occupied, List.getElem?_map, hentry]
    rfl
  refine ⟨_, ?_, hlooked.cache.stored _ (List.getElem_mem hlength), ?_⟩
  · rw [← hentry, HeapCache.occupied, List.getElem?_take_of_lt]
    rw [HeapCache.occupied, List.length_take] at hlength
    omega
  · rw [← hread, Cache.occupied, List.getElem?_take_of_lt]
    rw [Cache.occupied, List.length_take] at hvalues
    omega

/-- Idle workers correspond. -/
theorem WorkerRep.idle_iff {h : Heap} {x : HeapWorker} {y : WorkerState} (hrep : WorkerRep h x y) :
    x = .idle ↔ y = .idle := by
  cases hrep <;> simp

/-- A worker without blocks remembers a request, on both sides. -/
theorem HeapRep.miss (hrep : HeapRep cacheSize s v) (hidle : s.workers w = .idle) (request : Request) :
    HeapRep cacheSize { s with workers := Function.update s.workers w (.missed request) }
      { v with workers := Function.update v.workers w (.missed request) } := by
  refine ⟨hrep.shape, hrep.cache, hrep.update_workers (.missed request) fun _ _ _ _ => rfl, hrep.sent,
    ?_⟩
  rw [holds_update_same (by rw [hidle]; rfl) (by rw [hidle]; rfl)]
  exact hrep.owned

/-- A worker without blocks answers, on both sides. -/
theorem HeapRep.reply (hrep : HeapRep cacheSize s v) (hpath : (s.workers w).path = none)
    (hbuffer : (s.workers w).buffer = none) (request : Request) (response : Response) :
    HeapRep cacheSize (s.respond w request response) (v.respond w request response) := by
  refine hrep.respond request response (fun _ _ _ _ _ => rfl) ?_
  have hholds := holds_update_same (x := .idle) hpath.symm hbuffer.symm
  exact hholds.symm ▸ hrep.owned

/-- The lookup section is done alike. -/
theorem HeapRep.lookup (hrep : HeapRep cacheSize s v) {workingDir : CString} {request : Request}
    {buf : ℕ} (hfree : s.heap.blocks buf = none) :
    StepsAlike cacheSize s v (.lookup w request buf) (heapNext workingDir s (.lookup w request buf))
      (workerNext v (.lookup w request)) := by
  by_cases hidle : s.workers w = .idle
  · have hidle' : v.workers w = .idle := (hrep.workers w).idle_iff.mp hidle
    have hindex := (hrep.cache.getCacheIndex request.request).1
    have hlooked := hrep.looked request.request
    rw [heapNext, if_pos hidle, workerNext, if_pos hidle']
    cases hfound : (OnHeap.getCacheIndex s.cache request.request).1 with
    | none =>
      rw [hfound] at hindex
      rw [← Prod.eta (OnHeap.getCacheIndex s.cache request.request), hfound,
        ← Prod.eta (getCacheIndex v.cache request.request), hindex]
      exact .both (hlooked.miss hidle request) (List.append_nil _).symm id
    | some i =>
      rw [hfound] at hindex
      obtain ⟨e, hentry, hstored, hentry'⟩ := hrep.found hindex
      have hhit := heapHit_eq
          (s := { s with cache := (OnHeap.getCacheIndex s.cache request.request).2 }) (w := w)
        (r := request) hfree hentry hstored
      rw [← Prod.eta (OnHeap.getCacheIndex s.cache request.request), hfound,
        ← Prod.eta (getCacheIndex v.cache request.request), hindex]
      simp only [hentry', Option.map_some, hhit]
      exact .both (hlooked.reply (hidle ▸ rfl) (hidle ▸ rfl) request _) (List.append_nil _).symm id
  · have hidle' : v.workers w ≠ .idle := fun heq => hidle ((hrep.workers w).idle_iff.mpr heq)
    rw [heapNext, if_neg hidle, workerNext, if_neg hidle']
    exact .neither

/-- The states of a worker, on both sides. -/
theorem WorkerRep.states {h : Heap} {x : HeapWorker} {y : WorkerState} (hrep : WorkerRep h x y) :
    (x = .idle ∧ y = .idle) ∨ (∃ request, x = .missed request ∧ y = .missed request) ∨
      (∃ request absolutePath buf size data, x = .loaded request absolutePath buf size ∧
        y = .loaded request data size ∧
        h.blocks buf = some (.chars (data ++ [0])) ∧ data.length = size ∧ toSizeT (toInt size) ≤ size) ∨
      ∃ request absolutePath buf size data, x = .inserted request absolutePath buf size ∧
        y = .inserted request data size ∧ h.blocks buf = some (.chars (data ++ [0])) ∧
          data.length = size ∧
        toSizeT (toInt size) ≤ size := by
  cases hrep with
  | idle => exact Or.inl ⟨rfl, rfl⟩
  | missed request => exact Or.inr (Or.inl ⟨request, rfl, rfl⟩)
  | loaded hbuf hlength hsize =>
    exact Or.inr (Or.inr (Or.inl ⟨_, _, _, _, _, rfl, rfl, hbuf, hlength, hsize⟩))
  | inserted hbuf hlength hsize =>
    exact Or.inr (Or.inr (Or.inr ⟨_, _, _, _, _, rfl, rfl, hbuf, hlength, hsize⟩))

section LoadAlike

variable {workingDir : CString} {request : Request} {absolutePath buf size : ℕ}

/-- A worker which lost its buffer answers, on both sides. -/
theorem HeapRep.loses (hrep : HeapRep cacheSize s v) (hworker : s.workers w = .missed request)
    (hbuf : s.heap.blocks buf = none) (block : Block) (response : Response) :
    HeapRep cacheSize (({ s with heap := s.heap.setBlock buf (some block), lost := s.lost ++ [buf] } :
      HeapState ι).respond w request response) (v.respond w request response) := by
  refine hrep.respond request response ?_ ?_
  · intro o a ho _ _
    exact Function.update_of_ne (hrep.owned.ne_of_free ho hbuf) _ _
  · have hnone : s.holds (.lost s.lost.length) = none := by simp [HeapState.holds]
    have hmalloc := hrep.owned.malloc hbuf hnone block
    have hlost : ({ s with heap := s.heap.setBlock buf (some block), lost := s.lost ++ [buf] } :
        HeapState ι).holds =
        Function.update s.holds (.lost s.lost.length) (some buf) := holds_lost s buf
    have hholds := holds_update_same (x := .idle) (w := w)
      (s := { s with heap := s.heap.setBlock buf (some block), lost := s.lost ++ [buf] })
      (by rw [hworker]; rfl) (by rw [hworker]; rfl)
    rw [hlost] at hholds
    exact hholds.symm ▸ hmalloc

/-- A worker has the file in its buffer, on both sides. -/
theorem HeapRep.loads (hrep : HeapRep cacheSize s v) (hworker : s.workers w = .missed request)
    (hpath : s.heap.blocks absolutePath = none) (hbuf : s.heap.blocks buf = none)
    (hne : absolutePath ≠ buf) (path : Block) {data : List UInt8} (hlength : data.length = size)
    (hsize : toSizeT (toInt size) ≤ size) :
    HeapRep cacheSize
      { s with
        heap := (s.heap.setBlock absolutePath (some path)).setBlock buf (some (.chars (data ++ [0])))
        workers := Function.update s.workers w (.loaded request absolutePath buf size) }
      { v with workers := Function.update v.workers w (.loaded request data size) } := by
  have hframe (o : Holder ι) (a : ℕ) (ho : s.holds o = some a) :
      ((s.heap.setBlock absolutePath (some path)).setBlock buf (some (.chars (data ++ [0])))).blocks a =
        s.heap.blocks a := by
    rw [Heap.setBlock_blocks, Function.update_of_ne (hrep.owned.ne_of_free ho hbuf),
      Heap.setBlock_blocks, Function.update_of_ne (hrep.owned.ne_of_free ho hpath)]
  refine ⟨hrep.shape, hrep.cache_frame fun i a ha => hframe _ a ha,
    hrep.update_workers (.loaded (Function.update_self ..) hlength hsize) fun u a _ ha => hframe _ a ha,
      hrep.sent, ?_⟩
  have hnoPath : s.holds (.path w) = none := by simp [HeapState.holds, hworker, HeapWorker.path]
  have hnoBuffer : s.holds (.buffer w) = none := by simp [HeapState.holds, hworker, HeapWorker.buffer]
  have hfirst := hrep.owned.malloc hpath hnoPath path
  have hsecond := hfirst.malloc (buf_free hbuf hne path) (o := .buffer w)
    (by rw [Function.update_of_ne (by simp), hnoBuffer]) (.chars (data ++ [0]))
  have hholds := holds_update s w (.loaded request absolutePath buf size)
  exact hholds.symm ▸ hsecond

/-- The accesses to the disk are done alike. -/
theorem HeapRep.load (hrep : HeapRep cacheSize s v) {outcome : DiskOutcome}
    (hcalls : SystemCalls s (.load w outcome absolutePath buf)) :
    StepsAlike cacheSize s v (.load w outcome absolutePath buf)
    (heapNext workingDir s (.load w outcome absolutePath buf))
      (workerNext v (.load w outcome)) := by
  obtain ⟨hpath, hbuf, hne, hpossible⟩ := hcalls
  rw [heapNext, workerNext]
  rcases (hrep.workers w).states with ⟨hx, hy⟩ | ⟨request, hx, hy⟩ | ⟨_, _, _, _, _, hx, hy, -⟩ |
    ⟨_, _, _, _, _, hx, hy, -⟩
  · rw [hx, hy]
    exact .neither
  · rw [hx, hy]
    simp only [if_pos hpossible]
    cases outcome with
    | statFails =>
      simp only [heapLoad_statFails hpath]
      exact .both (hrep.reply (hx ▸ rfl) (hx ▸ rfl) request _) (List.append_nil _).symm id
    | readFails size =>
      by_cases hfits : 23 ≤ size
      · simp only [heapLoad_readFails hpath hbuf hne hfits]
        exact .both (hrep.loses hx hbuf _ _) rfl (Nat.not_lt.mpr hfits)
      · simp only [heapLoad_overruns hpath hbuf hne (Nat.not_le.mp hfits)]
        exact .overruns (Nat.not_le.mp hfits)
    | reads size data =>
      have hfits := hpossible.length_le
      simp only [heapLoad_reads hpath hbuf hne hfits]
      exact .both (hrep.loads hx hpath hbuf hne _ (length_fileBuffer hfits)
        (readCount_le hpossible.2.1).2)
        (List.append_nil _).symm id
  · rw [hx, hy]
    exact .neither
  · rw [hx, hy]
    exact .neither

end LoadAlike

omit [DecidableEq ι] in
/-- An addition leaves the blocks which are held alone, those of the contents apart. -/
theorem Adds.frame (hown : s.heap.Owned s.holds) {new : HeapEntry} {bytes : List UInt8} {c : HeapCache}
    {h : Heap} (hadds : Adds new bytes s.cache s.heap c h) (hfree : s.heap.blocks new.content = none)
    {o : Holder ι} {a : ℕ} (ho : s.holds o = some a) (hcontent : ∀ i, o ≠ .content i) :
    h.blocks a = s.heap.blocks a := by
  have hne : a ≠ new.content := hown.ne_of_free ho hfree
  cases hadds with
  | append => rw [Heap.setBlock_blocks, Function.update_of_ne hne]
  | @replace i evict hevict _ =>
    have hi : s.holds (.content i) = some evict.content := by simp [HeapState.holds, hevict]
    rw [Heap.setBlock_blocks, Function.update_of_ne (hown.ne ho hi (hcontent i)), Heap.setBlock_blocks,
      Function.update_of_ne hne]

/-- After an addition, the new content has a holder, which had the content that is released, if
one is. -/
theorem Adds.owned (hown : s.heap.Owned s.holds) {new : HeapEntry} {bytes : List UInt8} {c : HeapCache}
    {h : Heap} (hadds : Adds new bytes s.cache s.heap c h) (hfree : s.heap.blocks new.content = none)
    (haddress : c.address = s.cache.address) (hentries : c.entriesAt = s.cache.entriesAt) :
    h.Owned ({ s with cache := c } : HeapState ι).holds := by
  cases hadds with
  | append hocc =>
    have hnone : s.holds (.content s.cache.occupied.length) = none := by simp [HeapState.holds]
    rw [holds_content s (i := s.cache.occupied.length) (e := new) haddress hentries (by simp [hocc])
      fun j hj => by rw [hocc, getElem?_append_singleton_of_ne hj]]
    exact hown.malloc hfree hnone _
  | @replace i evict hevict hocc =>
    have hi : s.holds (.content i) = some evict.content := by simp [HeapState.holds, hevict]
    have hne : evict.content ≠ new.content := hown.ne_of_free hi hfree
    obtain ⟨hlt, -⟩ := List.getElem?_eq_some_iff.mp hevict
    have hfree' : (s.heap.setBlock evict.content none).blocks new.content = none := by
      rw [Heap.setBlock_blocks, Function.update_of_ne hne.symm, hfree]
    have hboth := (hown.free hi).malloc hfree' (Function.update_self ..) (.chars bytes)
    rw [Function.update_idem] at hboth
    rw [holds_content s (i := i) (e := new) haddress hentries (by rw [hocc, List.getElem?_set_self hlt])
      fun j hj => by rw [hocc, List.getElem?_set_ne hj.symm], Heap.setBlock_comm hne.symm]
    exact hboth

/-- The insertion section is done alike. -/
theorem HeapRep.insert (hpos : 0 < cacheSize) (hrep : HeapRep cacheSize s v) {workingDir : CString}
    {content : ℕ} (hfree : s.heap.blocks content = none) :
    StepsAlike cacheSize s v (.insert w content) (heapNext workingDir s (.insert w content))
      (workerNext v (.insert w)) := by
  rw [heapNext, workerNext]
  rcases (hrep.workers w).states with ⟨hx, hy⟩ | ⟨_, hx, hy⟩ |
    ⟨request, absolutePath, buf, size, data, hx, hy, hbuf, hlength, hsize⟩ | ⟨_, _, _, _, _, hx, hy, -⟩
  · rw [hx, hy]
    exact .neither
  · rw [hx, hy]
    exact .neither
  · rw [hx, hy]
    have hblock : (data ++ [0]).length = size + 1 := by
      rw [List.length_append, hlength, List.length_singleton]
    have hdata : toSizeT (toInt size) ≤ data.length := by
      rw [hlength]
      exact hsize
    have hroom : toSizeT (toInt size) ≤ (data ++ [0]).length := by
      rw [hblock]
      exact Nat.le_succ_of_le hsize
    have htake : (data ++ [0]).take (toSizeT (toInt size)) = data.take (toSizeT (toInt size)) :=
      List.take_append_of_le_length hdata
    obtain ⟨c, h, cv, hadd, haddv, hcache, hadds, haddress, hentries⟩ :=
      hrep.cache.addIntoCache request.request hpos
      hrep.shape (HeapState.separate hrep.owned) hbuf hfree hroom htake
    simp only [hadd, haddv, Option.map_some]
    have hbuffer : s.holds (.buffer w) = some buf := by simp [HeapState.holds, hx, HeapWorker.buffer]
    have hframe (u : ι) (a : ℕ) (ha : s.holds (.buffer u) = some a) : h.blocks a = s.heap.blocks a :=
      hadds.frame hrep.owned hfree ha fun i => by simp
    refine .both ⟨(hrep.shape.addIntoCache hpos haddv).1, hcache,
      hrep.update_workers (.inserted ((hframe w buf hbuffer).trans hbuf) hlength hsize) fun u a _ ha =>
        hframe u a ha,
      hrep.sent, ?_⟩ (List.append_nil _).symm id
    have hown := hadds.owned hrep.owned hfree haddress hentries
    have hholds := holds_update_same (s := { s with heap := h, cache := c }) (w := w)
      (x := .inserted request absolutePath buf size) (by rw [hx]; rfl) (by rw [hx]; rfl)
    exact hholds.symm ▸ hown
  · rw [hx, hy]
    exact .neither

/-- The answer after a miss is done alike. -/
theorem HeapRep.answer (hrep : HeapRep cacheSize s v) {workingDir : CString} :
    StepsAlike cacheSize s v (.answer w) (heapNext workingDir s (.answer w))
    (workerNext v (.answer w)) := by
  rw [heapNext, workerNext]
  rcases (hrep.workers w).states with ⟨hx, hy⟩ | ⟨_, hx, hy⟩ | ⟨_, _, _, _, _, hx, hy, -⟩ |
    ⟨request, absolutePath, buf, size, data, hx, hy, hbuf, hlength, hsize⟩
  · rw [hx, hy]
    exact .neither
  · rw [hx, hy]
    exact .neither
  · rw [hx, hy]
    exact .neither
  · have hpath : s.holds (.path w) = some absolutePath := by simp [HeapState.holds, hx, HeapWorker.path]
    have hbuffer : s.holds (.buffer w) = some buf := by simp [HeapState.holds, hx, HeapWorker.buffer]
    have hne : buf ≠ absolutePath := hrep.owned.ne hbuffer hpath (by simp)
    have hdata : toSizeT (toInt size) ≤ data.length := by
      rw [hlength]
      exact hsize
    rw [hx, hy]
    simp only [heapAnswer_eq hbuf (hrep.owned.live hpath) hne hdata]
    refine .both (hrep.respond request _ ?_ ?_) (List.append_nil _).symm id
    · intro o a ho hopath hobuffer
      rw [Heap.setBlock_blocks, Function.update_of_ne (hrep.owned.ne ho hpath hopath),
        Heap.setBlock_blocks, Function.update_of_ne (hrep.owned.ne ho hbuffer hobuffer)]
    · have hfirst := hrep.owned.free hbuffer
      have hsecond := hfirst.free (o := .path w) (by rw [Function.update_of_ne (by simp), hpath])
      rw [Function.update_comm (by simp)] at hsecond
      exact (holds_update s w .idle).symm ▸ hsecond

/-- Every step is done alike. -/
theorem HeapRep.next (hpos : 0 < cacheSize) (hrep : HeapRep cacheSize s v) (workingDir : CString)
    {label : HeapLabel ι} (hcalls : SystemCalls s label) :
    StepsAlike cacheSize s v label (heapNext workingDir s label) (workerNext v label.values) := by
  cases label with
  | lookup w request buf => exact hrep.lookup hcalls
  | load w outcome absolutePath buf => exact hrep.load hcalls
  | insert w content => exact hrep.insert hpos hcalls
  | answer w => exact hrep.answer

/-- The initial states correspond. -/
theorem heapRep_init {workingDir : CString} {s : HeapState ι}
    (h : (heapSystem ι workingDir cacheSize).init s) :
    ∃ v, (workersSystem ι cacheSize).init v ∧ HeapRep cacheSize s v := by
  obtain ⟨hworkers, hsent, hlost, h₀, address, entriesAt, memory, hempty, hmemory, hcache⟩ := h
  have hdistinct : entriesAt ≠ address := by
    rintro rfl
    have htaken : (h₀.setBlock entriesAt (some (.chars []))).malloc entriesAt (.chars []) = none := by
      rw [Heap.malloc, if_neg]
      rw [Heap.setBlock_blocks, Function.update_self]
      exact Option.some_ne_none _
    simp [OnHeap.initCache, Heap.malloc_of_free (hempty entriesAt), htaken] at hcache
  have hfree : (h₀.setBlock address (some (.chars []))).blocks entriesAt = none := by
    rw [Heap.setBlock_blocks, Function.update_of_ne hdistinct, hempty]
  simp only [OnHeap.initCache, Heap.malloc_of_free (hempty address), Heap.malloc_of_free hfree,
    Option.bind_eq_bind, Option.bind_some, Option.some.injEq, Prod.mk.injEq] at hcache
  obtain ⟨hc, hh⟩ := hcache
  have hblank : h₀.Owned (fun _ : Holder ι => none) :=
    ⟨fun _ _ _ h => by simp at h, fun a => by simp [hempty a]⟩
  have hown := (hblank.malloc (hempty address) (o := .cache) rfl (.chars [])).malloc hfree
      (o := .entries)
    (by rw [Function.update_of_ne (by simp)]) (.chars [])
  have hholds : s.holds = Function.update
      (Function.update (fun _ => none) .cache (some address)) .entries
      (some entriesAt) := by
    funext o
    cases o with
    | cache => simp [HeapState.holds, ← hc]
    | entries => simp [HeapState.holds, ← hc]
    | content i => simp [HeapState.holds, ← hc, HeapCache.occupied]
    | path w => simp [HeapState.holds, hworkers w, HeapWorker.path]
    | buffer w => simp [HeapState.holds, hworkers w, HeapWorker.buffer]
    | lost i => simp [HeapState.holds, hlost]
  let values := memory.map (HeapEntry.read s.heap)
  have hvalues : values.length = cacheSize := by rw [List.length_map, hmemory]
  refine ⟨⟨initCache cacheSize values, fun _ => .idle, []⟩, ⟨fun _ => rfl, rfl, values, hvalues, rfl⟩,
    cacheInv_init hvalues, ?_, ?_, hsent, ?_⟩
  · rw [← hc]
    exact ⟨rfl, rfl, rfl, List.length_map _, rfl, fun e he => absurd he List.not_mem_nil⟩
  · intro w
    rw [hworkers w]
    exact .idle
  · rw [hholds, ← hh]
    exact hown

end Csci4061.WebServer
