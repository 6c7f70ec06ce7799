import Csci4061.Lib.Ownership
import Csci4061.WebServer.CacheCoherence

/-!
# The cache on the heap

An entry has a pointer to its content, which `addIntoCache` allocates and fills, and which is released
when the entry is evicted or the cache is deleted. The functions here are those of the cache with
`malloc`, `memcpy` and `free` in them, and `none` is an access to a block which is not allocated, or
outside of it, or a second release.

`CacheRep` relates such a cache to the one whose entries have their contents as values. Under it the
operations of the two do the same, so what is known of the values holds of the blocks.

A call of `malloc` succeeds, also for no bytes, at an address which is not in use. The two blocks of the
cache itself are allocated, but their fields are those of the record.
-/

namespace Csci4061.WebServer

open Csci4061.Lib

/-- An entity stored within the cache (`cache_entry_t`), with the address of its content. -/
structure HeapEntry where
  len : ℤ
  request : CString
  content : ℕ
  freqUsed : ℤ
  deriving DecidableEq

/-- The cache (`cache_t`), with the addresses of its block and of the block of entries. -/
structure HeapCache where
  address : ℕ
  nextSlotToStore : ℤ
  numCacheEntries : ℤ
  cacheSize : ℤ
  entriesAt : ℕ
  entries : List HeapEntry

namespace HeapCache

/-- The first `num_cache_entries` entries. -/
def occupied (c : HeapCache) : List HeapEntry := c.entries.take c.numCacheEntries.toNat

end HeapCache

/-- `entries[i].freq_used++`, on 32 bits. -/
def HeapEntry.hit (e : HeapEntry) : HeapEntry := { e with freqUsed := toInt (e.freqUsed + 1) }

namespace OnHeap

/-- `initCache`, where `memory` is what `malloc` finds in the block for the entries. -/
def initCache (cacheEntries : ℤ) (address entriesAt : ℕ) (memory : List HeapEntry) (h : Heap) :
    Option (HeapCache × Heap) := do
  let h ← h.malloc address (.chars [])
  let h ← h.malloc entriesAt (.chars [])
  some (⟨address, 0, 0, cacheEntries, entriesAt, memory⟩, h)

/-- `getCacheIndex`. -/
def getCacheIndex (c : HeapCache) (request : CString) : Option ℕ × HeapCache :=
  match c.occupied.findIdx? (fun entry => entry.request = request) with
  | some i => (some i, { c with entries := c.entries.modify i HeapEntry.hit })
  | none => (none, c)

/-- The loop of `addIntoCache` from index `i` on. -/
def evictLoop : List HeapEntry → ℕ → HeapEntry → ℕ → ℕ
  | [], _, _, evictIndex => evictIndex
  | entry :: rest, i, evict, evictIndex =>
    if entry.freqUsed < evict.freqUsed then evictLoop rest (i + 1) entry i
    else evictLoop rest (i + 1) evict evictIndex

/-- The slot which `addIntoCache` evicts from a full cache. -/
def evictSlot (c : HeapCache) : Option ℕ :=
  match c.entries.take c.cacheSize.toNat with
  | [] => none
  | evict :: rest => some (evictLoop rest 1 evict 0)

/-- `addIntoCache`, with `memory` the address of the bytes and `content` what `malloc` returns. -/
def addIntoCache (c : HeapCache) (request : CString) (memory : ℕ) (memorySize : ℤ) (content : ℕ)
    (h : Heap) :
    Option (HeapCache × Heap) := do
  let h ← h.malloc content (.chars (List.replicate (toSizeT memorySize) 0))
  let h ← h.memcpy content memory (toSizeT memorySize)
  let newEntry : HeapEntry := ⟨memorySize, request, content, 0⟩
  if c.numCacheEntries ≠ c.cacheSize then
    let entries ← writeSlot c.entries c.nextSlotToStore newEntry
    some ({ c with
      entries := entries
      numCacheEntries := c.numCacheEntries + 1
      nextSlotToStore := (c.nextSlotToStore + 1).tmod c.cacheSize }, h)
  else
    let evictIndex ← evictSlot c
    let evict ← c.entries[evictIndex]?
    let h ← h.free ⟨evict.content, 0⟩
    some ({ c with entries := c.entries.set evictIndex newEntry }, h)

/-- The loop of `deleteCache`. -/
def freeContents : List HeapEntry → Heap → Option Heap
  | [], h => some h
  | entry :: rest, h => do
    let h ← h.free ⟨entry.content, 0⟩
    freeContents rest h

/-- `deleteCache`. -/
def deleteCache (c : HeapCache) (h : Heap) : Option Heap := do
  let h ← freeContents c.occupied h
  let h ← h.free ⟨c.entriesAt, 0⟩
  h.free ⟨c.address, 0⟩

end OnHeap

/-- The entry with the bytes in the block of its content. -/
def HeapEntry.read (h : Heap) (e : HeapEntry) : CacheEntry :=
  ⟨e.len, e.request, (h.chars e.content).getD [], e.freqUsed⟩

/-- The block of the content has as many bytes as the length says. -/
def HeapEntry.Stored (h : Heap) (e : HeapEntry) : Prop :=
  ∃ content, h.blocks e.content = some (.chars content) ∧ content.length = toSizeT e.len

/-- A cache represents one with values. The entries which are not occupied are any. -/
structure CacheRep (h : Heap) (c : HeapCache) (v : Cache) : Prop where
  next : v.nextSlotToStore = c.nextSlotToStore
  num : v.numCacheEntries = c.numCacheEntries
  size : v.cacheSize = c.cacheSize
  length : v.entries.length = c.entries.length
  occupied : v.occupied = c.occupied.map (HeapEntry.read h)
  stored : ∀ e ∈ c.occupied, e.Stored h

/-- What an entry with a stored content represents. -/
theorem HeapEntry.read_of_blocks {h : Heap} {e : HeapEntry} {content : List UInt8}
    (hblock : h.blocks e.content = some (.chars content)) :
    e.read h = ⟨e.len, e.request, content, e.freqUsed⟩ := by
  rw [HeapEntry.read, Heap.chars_of_block hblock, Option.getD_some]

/-- An entry represents the same in two heaps which agree on its content. -/
theorem HeapEntry.read_congr {h h' : Heap} {e : HeapEntry}
    (hblock : h'.blocks e.content = h.blocks e.content) :
    e.read h' = e.read h := by
  rw [HeapEntry.read, HeapEntry.read, Heap.chars, Heap.chars, hblock]

/-- A cache represents the same in two heaps which agree on its contents. -/
theorem CacheRep.frame {h h' : Heap} {c : HeapCache} {v : Cache} (hrep : CacheRep h c v)
    (hblocks : ∀ e ∈ c.occupied, h'.blocks e.content = h.blocks e.content) : CacheRep h' c v where
  next := hrep.next
  num := hrep.num
  size := hrep.size
  length := hrep.length
  occupied := by
    rw [hrep.occupied]
    exact List.map_congr_left fun e he => (HeapEntry.read_congr (hblocks e he)).symm
  stored e he := by
    obtain ⟨content, hblock, hlength⟩ := hrep.stored e he
    exact ⟨content, (hblocks e he).trans hblock, hlength⟩

/-- The lookup finds the same index. -/
theorem CacheRep.findIdx? {h : Heap} {c : HeapCache} {v : Cache} (hrep : CacheRep h c v)
    (request : CString) :
    v.occupied.findIdx? (fun entry => entry.request = request) =
      c.occupied.findIdx? fun entry => entry.request = request := by
  rw [hrep.occupied, List.findIdx?_map]
  rfl

/-- A lookup does the same on the heap, and touches no block. -/
theorem CacheRep.getCacheIndex {h : Heap} {c : HeapCache} {v : Cache} (hrep : CacheRep h c v)
    (request : CString) :
    (getCacheIndex v request).1 = (OnHeap.getCacheIndex c request).1 ∧
      CacheRep h (OnHeap.getCacheIndex c request).2 (WebServer.getCacheIndex v request).2 ∧
      (OnHeap.getCacheIndex c request).2.occupied.map HeapEntry.content =
        c.occupied.map HeapEntry.content := by
  rw [WebServer.getCacheIndex, OnHeap.getCacheIndex, hrep.findIdx? request]
  cases c.occupied.findIdx? fun entry => entry.request = request with
  | none => exact ⟨rfl, hrep, rfl⟩
  | some i =>
    have hocc : ({ c with entries := c.entries.modify i HeapEntry.hit } : HeapCache).occupied =
        c.occupied.modify i HeapEntry.hit := by
      rw [HeapCache.occupied, HeapCache.occupied, List.take_modify]
    have hocc' : ({ v with entries := v.entries.modify i CacheEntry.hit } : Cache).occupied =
        v.occupied.modify i CacheEntry.hit := by
      rw [Cache.occupied, Cache.occupied, List.take_modify]
    refine ⟨rfl, ⟨hrep.next, hrep.num, hrep.size, ?_, ?_, ?_⟩, ?_⟩
    · simpa using hrep.length
    · rw [hocc, hocc', hrep.occupied]
      exact (map_modify_of_comm (g := HeapEntry.read h) (f := HeapEntry.hit) (k := CacheEntry.hit)
        (fun _ => rfl) c.occupied i).symm
    · intro e he
      rw [hocc] at he
      rcases mem_modify he with ⟨hi, rfl⟩ | ⟨j, hj, -, rfl⟩
      · exact hrep.stored c.occupied[i] (List.getElem_mem hi)
      · exact hrep.stored c.occupied[j] (List.getElem_mem hj)
    · rw [hocc, map_modify_of_comm (f := HeapEntry.hit) (k := id) fun _ => rfl, List.modify_id]

/-- The loop compares counters only. -/
theorem evictLoop_read (h : Heap) (rest : List HeapEntry) (i : ℕ) (evict : HeapEntry) (evictIndex : ℕ) :
    evictLoop (rest.map (HeapEntry.read h)) i (evict.read h) evictIndex =
      OnHeap.evictLoop rest i evict evictIndex := by
  induction rest generalizing i evict evictIndex with
  | nil => rfl
  | cons entry rest ih =>
    rw [List.map_cons, evictLoop, OnHeap.evictLoop, ih, ih]
    rfl

/-- The entry which a full cache evicts is in the same slot. -/
theorem CacheRep.evictSlot {h : Heap} {c : HeapCache} {v : Cache} (hrep : CacheRep h c v)
    (hfull : v.numCacheEntries = v.cacheSize) : evictSlot v = OnHeap.evictSlot c := by
  have hvalues : v.entries.take v.cacheSize.toNat = v.occupied := by rw [Cache.occupied, hfull]
  have hentries : c.entries.take c.cacheSize.toNat = c.occupied := by
    rw [HeapCache.occupied, ← hrep.num, ← hrep.size, hfull]
  rw [WebServer.evictSlot, OnHeap.evictSlot, hvalues, hentries, hrep.occupied]
  cases c.occupied with
  | nil => rfl
  | cons evict rest => exact congrArg some (evictLoop_read h rest 1 evict 0)

/-- The contents of the entries are different blocks. -/
def HeapCache.Separate (c : HeapCache) : Prop :=
  ∀ (i j : ℕ) (e e' : HeapEntry), c.occupied[i]? = some e → c.occupied[j]? = some e' →
    e.content = e'.content → i = j

/-- The entry which `addIntoCache` makes. -/
def newHeapEntry (request : CString) (memorySize : ℤ) (content : ℕ) : HeapEntry :=
  ⟨memorySize, request, content, 0⟩

/-- What an addition does to the occupied entries and to the heap: the new content is allocated, and if
the cache is full, then the content of the evicted entry is released. -/
inductive Adds (new : HeapEntry) (bytes : List UInt8) (c : HeapCache) (h : Heap) :
    HeapCache → Heap → Prop
  | append {c' : HeapCache} (hocc : c'.occupied = c.occupied ++ [new]) :
      Adds new bytes c h c' (h.setBlock new.content (some (.chars bytes)))
  | replace {c' : HeapCache} {i : ℕ} {evict : HeapEntry} (hevict : c.occupied[i]? = some evict)
      (hocc : c'.occupied = c.occupied.set i new) :
      Adds new bytes c h c' ((h.setBlock new.content (some (.chars bytes))).setBlock evict.content none)

section Addition

variable {size : ℕ} {h : Heap} {c : HeapCache} {v : Cache} {request : CString} {memory content : ℕ}
    {memorySize : ℤ}
  {data buf : List UInt8}

/-- The new content is a copy of the bytes, if the memory has as many. -/
theorem copyContent (hmemory : h.blocks memory = some (.chars data)) (hfree : h.blocks content = none)
    (n : ℕ) :
    (h.setBlock content (some (.chars (List.replicate n 0)))).memcpy content memory n =
      if n ≤ data.length then some (h.setBlock content (some (.chars (data.take n)))) else none := by
  have hne : memory ≠ content := by
    rintro rfl
    rw [hfree] at hmemory
    exact absurd hmemory (by simp)
  have hsrc : (h.setBlock content (some (.chars (List.replicate n 0)))).blocks memory = some
      (.chars data) := by
    rw [Heap.setBlock_blocks, Function.update_of_ne hne, hmemory]
  rw [Heap.memcpy_of_length hsrc (Function.update_self ..) (List.length_replicate ..),
    Heap.setBlock_setBlock]

/-- An addition to a cache which is not full appends the entry. -/
theorem addIntoCache_of_room (hmemory : h.blocks memory = some (.chars data))
    (hfree : h.blocks content = none) (hle : toSizeT memorySize ≤ data.length)
    (hroom : c.numCacheEntries ≠ c.cacheSize) :
    OnHeap.addIntoCache c request memory memorySize content h =
      (writeSlot c.entries c.nextSlotToStore
        (newHeapEntry request memorySize content)).map fun entries =>
        ({ c with
          entries := entries
          numCacheEntries := c.numCacheEntries + 1
          nextSlotToStore := (c.nextSlotToStore + 1).tmod c.cacheSize },
        h.setBlock content (some (.chars (data.take (toSizeT memorySize))))) := by
  simp only [OnHeap.addIntoCache, Heap.malloc_of_free hfree, Option.bind_eq_bind, Option.bind_some,
    copyContent hmemory hfree, if_pos hle, if_pos hroom, newHeapEntry]
  cases writeSlot c.entries c.nextSlotToStore ⟨memorySize, request, content, 0⟩ <;> rfl

/-- An addition to a full cache replaces an entry and releases its content. -/
theorem addIntoCache_of_full (hmemory : h.blocks memory = some (.chars data))
    (hfree : h.blocks content = none) (hle : toSizeT memorySize ≤ data.length)
    (hfull : c.numCacheEntries = c.cacheSize) {i : ℕ} {evict : HeapEntry}
    (hslot : OnHeap.evictSlot c = some i) (hevict : c.entries[i]? = some evict)
    (hlive : h.blocks evict.content ≠ none) :
    OnHeap.addIntoCache c request memory memorySize content h =
      some ({ c with entries := c.entries.set i (newHeapEntry request memorySize content) },
        (h.setBlock content
          (some (.chars (data.take (toSizeT memorySize))))).setBlock evict.content none) := by
  have hfull' : ¬ c.numCacheEntries ≠ c.cacheSize := not_not.mpr hfull
  have hne : evict.content ≠ content := by
    intro heq
    rw [heq] at hlive
    exact hlive hfree
  have hrelease : (h.setBlock content (some (.chars (data.take (toSizeT memorySize))))).free
      ⟨evict.content, 0⟩ =
      some ((h.setBlock content
        (some (.chars (data.take (toSizeT memorySize))))).setBlock evict.content none) := by
    apply Heap.free_of_start
    rwa [Heap.setBlock_blocks, Function.update_of_ne hne]
  simp only [OnHeap.addIntoCache, Heap.malloc_of_free hfree, Option.bind_eq_bind, Option.bind_some,
    copyContent hmemory hfree, if_pos hle, if_neg hfull', hslot, hevict, hrelease, newHeapEntry]

/-- The new entry represents the one with the value. -/
theorem read_newHeapEntry (hdata : data.take (toSizeT memorySize) = buf.take (toSizeT memorySize))
    (hblock : h.blocks content = some (.chars (data.take (toSizeT memorySize)))) :
    (newHeapEntry request memorySize content).read h = newCacheEntry request buf memorySize := by
  have hread := HeapEntry.read_of_blocks (e := newHeapEntry request memorySize content) hblock
  rw [hread, hdata]
  rfl

/-- The new content has as many bytes as the length says. -/
theorem stored_newHeapEntry (hle : toSizeT memorySize ≤ data.length)
    (hblock : h.blocks content = some (.chars (data.take (toSizeT memorySize)))) :
    (newHeapEntry request memorySize content).Stored h :=
  ⟨_, hblock, by rw [List.length_take, Nat.min_eq_left hle]; rfl⟩

/-- The content of an entry is not an address which is free. -/
theorem CacheRep.content_ne (hrep : CacheRep h c v) (hfree : h.blocks content = none) {e : HeapEntry}
    (he : e ∈ c.occupied) : e.content ≠ content := by
  intro heq
  obtain ⟨bytes, hblock, -⟩ := hrep.stored e he
  rw [heq, hfree] at hblock
  exact absurd hblock (by simp)

/-- The new content leaves the contents of the entries alone. -/
theorem CacheRep.allocate (hrep : CacheRep h c v) (hfree : h.blocks content = none) (block : Block) :
    CacheRep (h.setBlock content (some block)) c v :=
  hrep.frame fun _ he => Function.update_of_ne (hrep.content_ne hfree he) _ _

/-- Appending an entry on both sides. -/
theorem CacheRep.append {c' : HeapCache} {v' : Cache} {e : HeapEntry} (hrep : CacheRep h c v)
    (hnew : e.Stored h) (hnext : v'.nextSlotToStore = c'.nextSlotToStore)
    (hnum : v'.numCacheEntries = c'.numCacheEntries) (hsize : v'.cacheSize = c'.cacheSize)
    (hlength : v'.entries.length = c'.entries.length) (hocc : c'.occupied = c.occupied ++ [e])
    (hocc' : v'.occupied = v.occupied ++ [e.read h]) :
    CacheRep h c' v' where
  next := hnext
  num := hnum
  size := hsize
  length := hlength
  occupied := by rw [hocc', hocc, hrep.occupied, List.map_append, List.map_singleton]
  stored _ he := by
    rw [hocc] at he
    rcases List.mem_append.mp he with hold | hlast
    · exact hrep.stored _ hold
    · rw [List.mem_singleton.mp hlast]
      exact hnew

/-- Replacing an entry on both sides, after which its content is released. -/
theorem CacheRep.replace {c' : HeapCache} {v' : Cache} {e evict : HeapEntry} {i : ℕ}
    (hrep : CacheRep h c v) (hsep : c.Separate) (hnew : e.Stored h)
    (hevict : c.occupied[i]? = some evict) (hne : e.content ≠ evict.content)
    (hnext : v'.nextSlotToStore = c'.nextSlotToStore) (hnum : v'.numCacheEntries = c'.numCacheEntries)
    (hsize : v'.cacheSize = c'.cacheSize) (hlength : v'.entries.length = c'.entries.length)
    (hocc : c'.occupied = c.occupied.set i e) (hocc' : v'.occupied = v.occupied.set i (e.read h)) :
    CacheRep (h.setBlock evict.content none) c' v' := by
  have hrep' : CacheRep h c' v' := by
    refine ⟨hnext, hnum, hsize, hlength, ?_, ?_⟩
    · rw [hocc', hocc, hrep.occupied, List.map_set]
    · intro e he
      rw [hocc] at he
      rcases List.mem_or_eq_of_mem_set he with hold | rfl
      · exact hrep.stored e hold
      · exact hnew
  refine hrep'.frame fun e he => Function.update_of_ne ?_ _ _
  rw [hocc] at he
  obtain ⟨j, hj⟩ := List.mem_iff_getElem?.mp he
  by_cases hij : i = j
  · subst hij
    obtain ⟨hlt, -⟩ := List.getElem?_eq_some_iff.mp hevict
    rw [List.getElem?_set_self hlt] at hj
    rw [← Option.some.inj hj]
    exact hne
  · rw [List.getElem?_set_ne hij] at hj
    intro heq
    exact hij (hsep i j evict e hevict hj heq.symm)

omit h v request memory content memorySize data buf in
/-- The entries which are occupied after the next slot is filled. -/
theorem occupied_set_next {n : ℕ} {new : HeapEntry} {next : ℤ} (hnum : c.numCacheEntries = n)
    (hlt : n < c.entries.length) :
    ({ c with entries := c.entries.set n new, numCacheEntries := c.numCacheEntries + 1,
              nextSlotToStore := next } : HeapCache).occupied = c.occupied ++ [new] := by
  change (c.entries.set n new).take (c.numCacheEntries + 1).toNat =
    c.entries.take c.numCacheEntries.toNat ++ [new]
  rw [hnum]
  exact take_succ_set hlt new

/-- An addition does the same on the heap: the new entry represents the one with the value, and the
content of an evicted entry is released. -/
theorem CacheRep.addIntoCache (request : CString) (hpos : 0 < size) (hinv : CacheInv size v)
    (hrep : CacheRep h c v) (hsep : c.Separate)
    (hmemory : h.blocks memory = some (.chars data)) (hfree : h.blocks content = none)
    (hle : toSizeT memorySize ≤ data.length)
    (hdata : data.take (toSizeT memorySize) = buf.take (toSizeT memorySize)) :
    ∃ c' h' v', OnHeap.addIntoCache c request memory memorySize content h = some (c', h') ∧
      WebServer.addIntoCache v request buf memorySize = some v' ∧ CacheRep h' c' v' ∧
      Adds (newHeapEntry request memorySize content) (data.take (toSizeT memorySize)) c h c' h' ∧
      c'.address = c.address ∧ c'.entriesAt = c.entriesAt := by
  let new := newHeapEntry request memorySize content
  let h₁ := h.setBlock content (some (.chars (data.take (toSizeT memorySize))))
  have hblock : h₁.blocks content = some (.chars (data.take (toSizeT memorySize))) :=
    Function.update_self ..
  have hnew : new.read h₁ = newCacheEntry request buf memorySize := read_newHeapEntry hdata hblock
  have hstored : new.Stored h₁ := stored_newHeapEntry hle hblock
  have hrep₁ : CacheRep h₁ c v := hrep.allocate hfree _
  by_cases hfull : v.numCacheEntries = v.cacheSize
  · have hfull' : c.numCacheEntries = c.cacheSize := by rw [← hrep.num, ← hrep.size, hfull]
    obtain ⟨i, hslot, hi, -⟩ := hinv.evictSlot hpos
    rw [hrep.length] at hi
    have hnum : c.numCacheEntries.toNat = c.entries.length := by
      rw [← hrep.num, hfull, hinv.size_eq, Int.toNat_natCast, ← hinv.length, hrep.length]
    have hall : c.occupied = c.entries := by rw [HeapCache.occupied, hnum, List.take_length]
    have hevict : c.occupied[i]? = some c.entries[i] := by rw [hall, List.getElem?_eq_getElem hi]
    obtain ⟨bytes, hbytes, -⟩ := hrep.stored _ (List.mem_of_getElem? hevict)
    refine ⟨_, _, { v with entries := v.entries.set i (newCacheEntry request buf memorySize) },
      addIntoCache_of_full hmemory hfree hle hfull' (hrep.evictSlot hfull ▸ hslot)
        (List.getElem?_eq_getElem hi) ?_, ?_,
      hrep₁.replace (e := new) hsep hstored hevict ?_ hrep.next hrep.num hrep.size ?_ List.take_set ?_,
      .replace hevict List.take_set, rfl, rfl⟩
    · rw [hbytes]
      exact Option.some_ne_none _
    · rw [WebServer.addIntoCache, if_neg (not_not.mpr hfull), hslot]
      rfl
    · exact (hrep.content_ne hfree (List.mem_of_getElem? hevict)).symm
    · simpa using hrep.length
    · rw [hnew]
      exact List.take_set
  · have hroom : c.numCacheEntries ≠ c.cacheSize := by rwa [← hrep.num, ← hrep.size]
    obtain ⟨n, hn⟩ := Int.eq_ofNat_of_zero_le hinv.num_nonneg
    have hlt : n < size := by
      have hle := hinv.num_le
      rw [hinv.size_eq, hn] at hfull
      omega
    have hnext : v.nextSlotToStore = (n : ℕ) := by
      rw [hinv.next, hn, Int.toNat_natCast, Nat.mod_eq_of_lt hlt]
    have hnum : c.numCacheEntries = (n : ℕ) := hrep.num.symm.trans hn
    have hlength : n < v.entries.length := hinv.length ▸ hlt
    have hlength' : n < c.entries.length := hrep.length ▸ hlength
    have hwrite := writeSlot_natCast v.entries n (newCacheEntry request buf memorySize) hlength
    have hwrite' := writeSlot_natCast c.entries n new hlength'
    rw [← hnext] at hwrite
    rw [← hnext, hrep.next] at hwrite'
    refine ⟨_, _, _, (addIntoCache_of_room hmemory hfree hle hroom).trans
      (congrArg (Option.map _) hwrite'), (if_pos hfull).trans (congrArg (Option.map _) hwrite),
      hrep₁.append (e := new) hstored ?_ (congrArg (· + 1) hrep.num) hrep.size ?_ ?_ ?_, .append ?_,
        rfl, rfl⟩
    · change (v.nextSlotToStore + 1).tmod v.cacheSize = (c.nextSlotToStore + 1).tmod c.cacheSize
      rw [hrep.next, hrep.size]
    · simpa using hrep.length
    · exact occupied_set_next hnum hlength'
    · rw [hnew]
      change (v.entries.set n _).take (v.numCacheEntries + 1).toNat =
        v.entries.take v.numCacheEntries.toNat ++ _
      rw [hn]
      exact take_succ_set hlength _
    · exact occupied_set_next hnum hlength'

end Addition

end Csci4061.WebServer
