import Csci4061.Lib.Lfu
import Csci4061.Lib.Transition
import Csci4061.WebServer.Cache

/-!
# The cache as a least-frequently-used cache

When requests are processed one at a time, each of them is looked up, and read and inserted on a
miss. The occupied entries then go through a run of the policy, with the counters as natural
numbers: an abstract step for every request.

The counters are 32-bit numbers, so the abstraction holds while no entry has `2 ^ 31` hits. The
history of the run says so, and the policy ties that history to the counters.
-/

namespace Csci4061.WebServer

open Csci4061.Lib

/-- Process one request; `file` is the buffer and its size, if the file could be read. The result
is the index of the hit and the cache; `none` is an access outside the block of entries. -/
def serve (c : Cache) (request : CString) (file : Option (List UInt8 × ℤ)) : Option (Option ℕ × Cache) :=
  match getCacheIndex c request with
  | (some i, cache) => some (some i, cache)
  | (none, cache) =>
    match file with
    | none => some (none, cache)
    | some (memory, memorySize) =>
      (addIntoCache cache request memory memorySize).map fun cache => (none, cache)

/-- The operation of the policy which the processing of a request amounts to. -/
def lfuEvent (request : CString) (file : Option (List UInt8 × ℤ)) :
    Option ℕ → LfuLabel CString (ℤ × List UInt8)
  | some _ => .hit request
  | none =>
    match file with
    | none => .miss request
    | some (memory, memorySize) => .insert request (memorySize, memory.take (toSizeT memorySize))

/-- Any sequence of requests, processed one at a time. -/
def sequentialCache (size : ℕ) : TransitionSystem Cache (LfuLabel CString (ℤ × List UInt8)) where
  init c := ∃ memory : List CacheEntry, memory.length = size ∧ c = initCache size memory
  step c label c' := ∃ request file index, serve c request file = some (index, c') ∧
    label = lfuEvent request file index

/-- An entry of the policy: the request, what is stored for it, and the counter. -/
def CacheEntry.toLfu (e : CacheEntry) : LfuEntry CString (ℤ × List UInt8) where
  key := e.request
  value := (e.len, e.content)
  hits := e.freqUsed.toNat

/-- The occupied entries, as entries of the policy. -/
def Cache.lfuEntries (c : Cache) : List (LfuEntry CString (ℤ × List UInt8)) :=
  c.occupied.map CacheEntry.toLfu

/-- The keys of the policy are the cached requests. -/
theorem lfuEntries_keys (c : Cache) : c.lfuEntries.map LfuEntry.key = c.requests := by
  rw [Cache.lfuEntries, List.map_map]
  rfl

/-- The shape of the cache, with counters which are not negative. -/
structure CountingInv (size : ℕ) (c : Cache) : Prop where
  shape : CacheInv size c
  freq_nonneg : ∀ e ∈ c.occupied, 0 ≤ e.freqUsed

/-- A hit does not overflow the counter. -/
def CountFits (c : Cache) : LfuLabel CString (ℤ × List UInt8) → Prop
  | .hit request => ∀ e ∈ c.occupied, e.request = request → e.freqUsed + 1 < 2 ^ 31
  | _ => True

/-- A counter below the maximum counts the hit. -/
theorem hit_freqUsed {e : CacheEntry} (hnonneg : 0 ≤ e.freqUsed) (hfits : e.freqUsed + 1 < 2 ^ 31) :
    e.hit.freqUsed = e.freqUsed + 1 :=
  toInt_of_lt (by omega) hfits

/-- Counting a hit on an entry is counting it in the policy. -/
theorem toLfu_hit {e : CacheEntry} (hnonneg : 0 ≤ e.freqUsed) (hfits : e.freqUsed + 1 < 2 ^ 31) :
    e.hit.toLfu = e.toLfu.hit := by
  have hcount : e.hit.freqUsed.toNat = e.freqUsed.toNat + 1 := by
    rw [hit_freqUsed hnonneg hfits]
    omega
  change LfuEntry.mk e.request (e.len, e.content) e.hit.freqUsed.toNat = ⟨_, _, _ + 1⟩
  rw [hcount]
  rfl

/-- Processing a request never leaves the block of entries, and is a hit, a miss or an insertion. -/
theorem serve_cases {c : Cache} {request : CString} {file : Option (List UInt8 × ℤ)} {index : Option ℕ}
    {c' : Cache} (h : serve c request file = some (index, c')) :
    (∃ i, index = some i ∧ getCacheIndex c request = (some i, c')) ∨
    (∀ e ∈ c.occupied, e.request ≠ request) ∧ index = none ∧
      (file = none ∧ c' = c ∨ ∃ memory memorySize, file = some (memory, memorySize) ∧
        addIntoCache c request memory memorySize = some c') := by
  unfold serve at h
  split at h
  · rename_i i cache hindex
    obtain ⟨rfl, rfl⟩ : some i = index ∧ cache = c' := by simpa using h
    exact Or.inl ⟨i, rfl, hindex⟩
  · rename_i cache hindex
    obtain ⟨habsent, rfl⟩ := getCacheIndex_none hindex
    refine Or.inr ⟨habsent, ?_⟩
    split at h
    · obtain ⟨rfl, rfl⟩ : none = index ∧ cache = c' := by simpa using h
      exact ⟨rfl, Or.inl ⟨rfl, rfl⟩⟩
    · rename_i memory memorySize
      obtain ⟨cache', hadd, heq⟩ := Option.map_eq_some_iff.mp h
      obtain ⟨rfl, rfl⟩ : none = index ∧ cache' = c' := by simpa using heq
      exact ⟨rfl, Or.inr ⟨memory, memorySize, rfl, hadd⟩⟩

/-- Every request can be processed. -/
theorem CacheInv.serve {size : ℕ} {c : Cache} (h : CacheInv size c) (hpos : 0 < size) (request : CString)
    (file : Option (List UInt8 × ℤ)) : ∃ index c', serve c request file = some (index, c') := by
  unfold WebServer.serve
  split
  · exact ⟨_, _, rfl⟩
  · rename_i cache hindex
    obtain ⟨-, rfl⟩ := getCacheIndex_none hindex
    split
    · exact ⟨_, _, rfl⟩
    · rename_i memory memorySize
      obtain ⟨c', hadd⟩ := h.addIntoCache_isSome hpos request memory memorySize
      exact ⟨none, c', by rw [hadd, Option.map_some]⟩

/-- A step keeps the invariant, provided the counter does not overflow. -/
theorem CountingInv.step {size : ℕ} (hpos : 0 < size) {c c' : Cache}
    {label : LfuLabel CString (ℤ × List UInt8)} (h : CountingInv size c) (hfits : CountFits c label)
    (hstep : (sequentialCache size).step c label c') :
    CountingInv size c' := by
  obtain ⟨request, file, index, hserve, rfl⟩ := hstep
  rcases serve_cases hserve with ⟨i, rfl, hindex⟩ |
    ⟨-, rfl, ⟨rfl, rfl⟩ | ⟨memory, memorySize, rfl, hadd⟩⟩
  · obtain ⟨⟨hi, hrequest⟩, -, hocc⟩ := getCacheIndex_some hindex
    have hshape := h.shape.getCacheIndex request
    rw [hindex] at hshape
    refine ⟨hshape, ?_⟩
    intro e he
    rw [hocc] at he
    rcases mem_modify he with ⟨hi', rfl⟩ | ⟨j, hj, -, rfl⟩
    · have hnonneg := h.freq_nonneg _ (List.getElem_mem hi)
      rw [hit_freqUsed hnonneg (hfits _ (List.getElem_mem hi) hrequest)]
      omega
    · exact h.freq_nonneg _ (List.getElem_mem hj)
  · exact h
  · refine ⟨(h.shape.addIntoCache hpos hadd).1, ?_⟩
    intro e he
    rcases h.shape.mem_addIntoCache hpos hadd he with hold | rfl
    · exact h.freq_nonneg e hold
    · exact le_refl _

/-- Processing a request is one step of the policy. -/
theorem CountingInv.lfu_step {size : ℕ} (hpos : 0 < size) {c c' : Cache}
    {label : LfuLabel CString (ℤ × List UInt8)} (h : CountingInv size c) (hfits : CountFits c label)
    (hstep : (sequentialCache size).step c label c') :
    (lfuCache CString (ℤ × List UInt8) size).step c.lfuEntries label c'.lfuEntries := by
  have hkeys {request : CString} (habsent : ∀ e ∈ c.occupied, e.request ≠ request) :
      ∀ e ∈ c.lfuEntries, e.key ≠ request := by
    intro e he
    obtain ⟨e', he', rfl⟩ := List.mem_map.mp he
    exact habsent e' he'
  have hlength : c.lfuEntries.length = c.numCacheEntries.toNat := by
    rw [Cache.lfuEntries, List.length_map, h.shape.occupied_length]
  have hsize := h.shape.size_eq
  have hnonneg := h.shape.num_nonneg
  have hle := h.shape.num_le
  obtain ⟨request, file, index, hserve, rfl⟩ := hstep
  rcases serve_cases hserve with ⟨i, rfl, hindex⟩ |
    ⟨habsent, rfl, ⟨rfl, rfl⟩ | ⟨memory, memorySize, rfl, hadd⟩⟩
  · obtain ⟨⟨hi, hrequest⟩, -, hocc⟩ := getCacheIndex_some hindex
    have hkey : (c.occupied.map CacheEntry.toLfu)[i]? = some c.occupied[i].toLfu := by
      rw [List.getElem?_map, List.getElem?_eq_getElem hi]
      rfl
    obtain ⟨hi', hentry⟩ := List.getElem?_eq_some_iff.mp hkey
    refine ⟨i, hi', (congrArg LfuEntry.key hentry).trans hrequest, ?_⟩
    rw [Cache.lfuEntries, Cache.lfuEntries, hocc]
    apply List.ext_getElem (by simp)
    intro j hj _
    have hj' : j < c.occupied.length := by simpa using hj
    simp only [List.getElem_map, List.getElem_modify]
    split
    · rename_i heq
      subst heq
      exact toLfu_hit (h.freq_nonneg _ (List.getElem_mem hi)) (hfits _ (List.getElem_mem hi) hrequest)
    · rfl
  · exact ⟨hkeys habsent, rfl⟩
  · refine ⟨hkeys habsent, ?_⟩
    obtain ⟨-, ⟨hroom, hocc⟩ | ⟨hfull, i, hmin, hocc⟩⟩ := h.shape.addIntoCache hpos hadd
    · refine Or.inl ⟨by omega, ?_⟩
      rw [Cache.lfuEntries, hocc, List.map_append]
      rfl
    · refine Or.inr ⟨by omega, i, ?_, ?_⟩
      · apply hmin.map
        intro e he e' he'
        have hfreq := h.freq_nonneg e he
        have hfreq' := h.freq_nonneg e' he'
        change e.freqUsed ≤ e'.freqUsed ↔ e.freqUsed.toNat ≤ e'.freqUsed.toNat
        omega
      · rw [Cache.lfuEntries, hocc, List.map_set]
        rfl

/-- While the counters do not overflow, the cache refines the policy. -/
def lfuRefinement (size : ℕ) (hpos : 0 < size) :
    TransitionSystem.Refinement ((sequentialCache size).restrict CountFits)
      (lfuCache CString (ℤ × List UInt8) size) where
  inv := CountingInv size
  abs := Cache.lfuEntries
  visible := some
  inv_init c hc := by
    obtain ⟨memory, hmemory, rfl⟩ := hc
    exact ⟨cacheInv_init hmemory, by simp⟩
  inv_step _ _ _ h hstep := h.step hpos hstep.1 hstep.2
  abs_init c hc := by
    obtain ⟨memory, -, rfl⟩ := hc
    rfl
  abs_step _ _ _ h hstep := h.lfu_step hpos hstep.1 hstep.2

/-- The counters of a cache which a run of the policy matches are the hits of the history. -/
theorem freqUsed_eq_hitsSince {size : ℕ} {labels : List (LfuLabel CString (ℤ × List UInt8))} {c : Cache}
    (h : CountingInv size c) (hlfu : LfuInv size labels c.lfuEntries) {e : CacheEntry}
    (he : e ∈ c.occupied) :
    e.freqUsed = hitsSince labels e.request := by
  have hnonneg := h.freq_nonneg e he
  have hhits : e.freqUsed.toNat = hitsSince labels e.request :=
    hlfu.hits e.toLfu (List.mem_map_of_mem he)
  omega

/-- A run without overflow is a run of the policy. -/
theorem lfuRefinement_run {size : ℕ} (hpos : 0 < size) {c₀ c : Cache}
    {labels : List (LfuLabel CString (ℤ × List UInt8))} (hinit : (sequentialCache size).init c₀)
    (hrun : ((sequentialCache size).restrict CountFits).Run c₀ labels c) :
    CountingInv size c ∧ (lfuCache CString (ℤ × List UInt8) size).Run [] labels c.lfuEntries := by
  let R := lfuRefinement size hpos
  have hstart : R.inv c₀ := R.inv_init c₀ hinit
  have hempty : c₀.lfuEntries = [] := R.abs_init c₀ hinit
  refine ⟨hrun.invariant R.inv_step hstart, ?_⟩
  have habs := R.run hstart hrun
  rw [show labels.filterMap R.visible = labels from List.filterMap_some] at habs
  exact hempty ▸ habs

/-- A run whose history has no `2 ^ 31` hits on an entry overflows no counter. The induction is on
the run, as the counters before a step are the hits of the history up to it. -/
theorem sequentialCache_fits {size : ℕ} (hpos : 0 < size) {c₀ c : Cache}
    {labels : List (LfuLabel CString (ℤ × List UInt8))} (hinit : (sequentialCache size).init c₀)
    (hrun : (sequentialCache size).Run c₀ labels c)
    (hhits : ∀ earlier, earlier <+: labels → ∀ request, hitsSince earlier request < 2 ^ 31) :
    ((sequentialCache size).restrict CountFits).Run c₀ labels c := by
  induction hrun with
  | nil => exact .nil
  | @snoc labels c c' label hprev hlast ih =>
    have hprev' := ih fun earlier hearlier => hhits earlier (hearlier.trans (List.prefix_append _ _))
    obtain ⟨hcounting, hlfu⟩ := lfuRefinement_run hpos hinit hprev'
    refine hprev'.snoc ⟨?_, hlast⟩
    cases label with
    | hit request =>
      intro e he hrequest
      have hcount := hhits _ (List.prefix_refl _) request
      rw [hitsSince_hit, if_pos rfl, ← hrequest] at hcount
      rw [freqUsed_eq_hitsSince hcounting (lfuCache_inv hlfu) he]
      exact_mod_cast hcount
    | miss request => trivial
    | insert request value => trivial

/-- What the cache guarantees after a history of requests. -/
structure LfuContract (size : ℕ) (labels : List (LfuLabel CString (ℤ × List UInt8))) (c : Cache) :
    Prop where
  refines : (lfuCache CString (ℤ × List UInt8) size).Run [] labels c.lfuEntries
  num_nonneg : 0 ≤ c.numCacheEntries
  num_le : c.numCacheEntries ≤ size
  next : c.nextSlotToStore = c.numCacheEntries % size
  distinct : c.requests.Nodup
  freq : ∀ e ∈ c.occupied, e.freqUsed = hitsSince labels e.request
  serves : ∀ request file, ∃ index c', serve c request file = some (index, c')
  lookup : ∀ request i, (getCacheIndex c request).1 = some i ↔ c.requests[i]? = some request
  insert_room : c.numCacheEntries ≠ size → ∀ request memory memorySize, ∃ c',
    addIntoCache c request memory memorySize = some c' ∧
      c'.occupied = c.occupied ++ [newCacheEntry request memory memorySize]
  insert_full : c.numCacheEntries = size → ∀ request memory memorySize, ∃ c' i,
    addIntoCache c request memory memorySize = some c' ∧
      IsFirstMin (fun e => hitsSince labels e.request) c.occupied i ∧
      c'.occupied = c.occupied.set i (newCacheEntry request memory memorySize)

/-- With distinct requests a lookup returns the index of the entry for the request. -/
theorem getCacheIndex_eq_some_iff {c : Cache} (hdistinct : c.requests.Nodup) (request : CString)
    (i : ℕ) :
    (getCacheIndex c request).1 = some i ↔ c.requests[i]? = some request := by
  have hentry {j : ℕ} {cache : Cache} (hindex : getCacheIndex c request = (some j, cache)) :
      c.requests[j]? = some request := by
    obtain ⟨⟨hj, hrequest⟩, -, -⟩ := getCacheIndex_some hindex
    rw [Cache.requests, List.getElem?_map, List.getElem?_eq_getElem hj]
    exact congrArg some hrequest
  constructor
  · intro hi
    exact hentry (Prod.ext hi rfl)
  · intro hi
    cases hindex : (getCacheIndex c request).1 with
    | none =>
      have habsent := (getCacheIndex_none (Prod.ext hindex rfl)).1
      obtain ⟨e, he, hrequest⟩ := List.mem_map.mp (List.mem_of_getElem? hi)
      exact absurd hrequest (habsent e he)
    | some j =>
      have hj := hentry (Prod.ext hindex rfl)
      obtain ⟨hlt, -⟩ := List.getElem?_eq_some_iff.mp hj
      rw [(List.getElem?_inj hlt hdistinct).mp (hj.trans hi.symm)]

/-- After every sequence of requests with fewer than `2 ^ 31` hits on an entry, the cache is in
the state which the policy reaches. -/
theorem cache_refines_lfu {size : ℕ} (hpos : 0 < size) {c₀ c : Cache}
    {labels : List (LfuLabel CString (ℤ × List UInt8))} (hinit : (sequentialCache size).init c₀)
    (hrun : (sequentialCache size).Run c₀ labels c)
    (hhits : ∀ earlier, earlier <+: labels → ∀ request, hitsSince earlier request < 2 ^ 31) :
    LfuContract size labels c := by
  obtain ⟨hcounting, hlfu⟩ := lfuRefinement_run hpos hinit (sequentialCache_fits hpos hinit hrun hhits)
  have hinv := lfuCache_inv hlfu
  have hshape := hcounting.shape
  have hnonneg := hshape.num_nonneg
  have hfreq : ∀ e ∈ c.occupied, e.freqUsed = hitsSince labels e.request :=
    fun e he => freqUsed_eq_hitsSince hcounting hinv he
  have hdistinct : c.requests.Nodup := lfuEntries_keys c ▸ hinv.nodup
  refine
    { refines := hlfu
      num_nonneg := hnonneg
      num_le := hshape.num_le
      next := ?_
      distinct := hdistinct
      freq := hfreq
      serves := hshape.serve hpos
      lookup := getCacheIndex_eq_some_iff hdistinct
      insert_room := ?_
      insert_full := ?_ }
  · rw [hshape.next, Int.natCast_emod, Int.toNat_of_nonneg hnonneg]
  · intro hroom request memory memorySize
    rw [← hshape.size_eq] at hroom
    obtain ⟨c', hadd, -, -, hocc⟩ := hshape.addIntoCache_notFull hroom request memory memorySize
    exact ⟨c', hadd, hocc⟩
  · intro hfull request memory memorySize
    rw [← hshape.size_eq] at hfull
    obtain ⟨c', i, hadd, -, -, hmin, hocc⟩ :=
      hshape.addIntoCache_full hpos hfull request memory memorySize
    refine ⟨c', i, hadd, ?_, hocc⟩
    have hmin' := hmin.map id (fun e => hitsSince labels e.request) fun e he e' he' => by
      rw [hfreq e he, hfreq e' he', Int.ofNat_le]
      rfl
    rwa [List.map_id] at hmin'

/-- Two files are inserted, the first one is hit, and the third one evicts the second one. -/
def evictSecond : List (LfuLabel CString (ℤ × List UInt8)) :=
  [.insert (bytes "/a") (1, [97]), .insert (bytes "/b") (1, [98]), .hit (bytes "/a"),
    .insert (bytes "/c") (1, [99])]

/-- The cache of two slots after these requests. -/
def evictedCache : Cache := ⟨0, 2, 2, [⟨1, bytes "/a", [97], 1⟩, ⟨1, bytes "/c", [99], 0⟩]⟩

/-- The cache does what the policy says. -/
theorem cache_refines_lfu_evicts :
    (sequentialCache 2).Run (initCache 2 (List.replicate 2 ⟨0, [], [], 0⟩)) evictSecond evictedCache ∧
      LfuContract 2 evictSecond evictedCache := by
  have hfirst : (sequentialCache 2).Run (initCache 2 (List.replicate 2 ⟨0, [], [], 0⟩)) [] _ := .nil
  have hrun : (sequentialCache 2).Run
      (initCache 2 (List.replicate 2 ⟨0, [], [], 0⟩)) evictSecond evictedCache :=
    (((hfirst.snoc ⟨bytes "/a", some ([97], 1), none, rfl, rfl⟩).snoc
      ⟨bytes "/b", some ([98], 1), none, rfl, rfl⟩).snoc ⟨bytes "/a", none, some 0, rfl, rfl⟩).snoc
      ⟨bytes "/c", some ([99], 1), none, rfl, rfl⟩
  refine ⟨hrun, cache_refines_lfu (by decide) ⟨_, rfl, rfl⟩ hrun ?_⟩
  intro earlier hearlier request
  calc hitsSince earlier request ≤ earlier.length := hitsSince_le_length earlier request
    _ ≤ evictSecond.length := hearlier.length_le
    _ < 2 ^ 31 := by decide

end Csci4061.WebServer
