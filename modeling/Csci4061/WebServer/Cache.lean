import Csci4061.Lib.CArray
import Csci4061.Lib.CInt
import Csci4061.Lib.Lfu
import Mathlib.Data.Int.Order.Basic

/-!
# The cache of the web server

`getCacheIndex` searches the occupied entries and counts a hit in the array; `addIntoCache`
fills the next open slot, or replaces the entry with the lowest count once the cache is full.
Each function gets one lemma about the list of occupied entries, and later modules use these
lemmas only.

Contents are values here: `malloc`, `memcpy` and `free` of the file data are the copy of a list.
-/

namespace Csci4061.WebServer

open Csci4061.Lib

/-- An entity stored within the cache (`cache_entry_t`). -/
structure CacheEntry where
  len : ℤ
  request : CString
  content : List UInt8
  freqUsed : ℤ
  deriving DecidableEq

/-- The cache (`cache_t`). -/
structure Cache where
  nextSlotToStore : ℤ
  numCacheEntries : ℤ
  cacheSize : ℤ
  entries : List CacheEntry
  deriving DecidableEq

/-- `initCache`, where `memory` is the block that `malloc` returns for the entries. -/
def initCache (cacheEntries : ℤ) (memory : List CacheEntry) : Cache where
  nextSlotToStore := 0
  numCacheEntries := 0
  cacheSize := cacheEntries
  entries := memory

/-- `entries[i].freq_used++`, on 32 bits. -/
def CacheEntry.hit (e : CacheEntry) : CacheEntry := { e with freqUsed := toInt (e.freqUsed + 1) }

/-- The first `num_cache_entries` entries. -/
def Cache.occupied (c : Cache) : List CacheEntry := c.entries.take c.numCacheEntries.toNat

/-- The requests of the occupied entries. -/
def Cache.requests (c : Cache) : List CString := c.occupied.map CacheEntry.request

/-- `getCacheIndex`: the first occupied entry for the request, with a hit counted on it; `none`
is the result `-1`. -/
def getCacheIndex (c : Cache) (request : CString) : Option ℕ × Cache :=
  match c.occupied.findIdx? (fun entry => entry.request = request) with
  | some i => (some i, { c with entries := c.entries.modify i CacheEntry.hit })
  | none => (none, c)

/-- The loop of `addIntoCache` from index `i` on, with the entry to evict so far and its index. -/
def evictLoop : List CacheEntry → ℕ → CacheEntry → ℕ → ℕ
  | [], _, _, evictIndex => evictIndex
  | entry :: rest, i, evict, evictIndex =>
    if entry.freqUsed < evict.freqUsed then evictLoop rest (i + 1) entry i
    else evictLoop rest (i + 1) evict evictIndex

/-- The entry which `addIntoCache` makes: a copy of `memory_size` bytes, not used yet. -/
def newCacheEntry (request : CString) (memory : List UInt8) (memorySize : ℤ) : CacheEntry where
  len := memorySize
  request := request
  content := memory.take (toSizeT memorySize)
  freqUsed := 0

/-- The slot which `addIntoCache` evicts from a full cache: `evict` starts as `entries[0]`. -/
def evictSlot (c : Cache) : Option ℕ :=
  match c.entries.take c.cacheSize.toNat with
  | [] => none
  | evict :: rest => some (evictLoop rest 1 evict 0)

/-- `addIntoCache`; `none` is an access outside the block of entries. -/
def addIntoCache (c : Cache) (request : CString) (memory : List UInt8) (memorySize : ℤ) : Option Cache :=
  let newEntry := newCacheEntry request memory memorySize
  if c.numCacheEntries ≠ c.cacheSize then
    (writeSlot c.entries c.nextSlotToStore newEntry).map fun entries =>
      { c with
        entries := entries
        numCacheEntries := c.numCacheEntries + 1
        nextSlotToStore := (c.nextSlotToStore + 1).tmod c.cacheSize }
  else
    (evictSlot c).map fun evictIndex => { c with entries := c.entries.set evictIndex newEntry }

/-- What all operations keep: the block has `size` entries, the count fits and the next slot
follows the count. -/
structure CacheInv (size : ℕ) (c : Cache) : Prop where
  size_eq : c.cacheSize = size
  length : c.entries.length = size
  num_nonneg : 0 ≤ c.numCacheEntries
  num_le : c.numCacheEntries ≤ size
  next : c.nextSlotToStore = (c.numCacheEntries.toNat % size : ℕ)

/-- A fresh cache. -/
theorem cacheInv_init {size : ℕ} {memory : List CacheEntry} (hmemory : memory.length = size) :
    CacheInv size (initCache size memory) where
  size_eq := rfl
  length := hmemory
  num_nonneg := le_refl _
  num_le := Int.natCast_nonneg _
  next := by simp [initCache]

/-- A fresh cache has no entries. -/
@[simp] theorem initCache_occupied (cacheEntries : ℤ) (memory : List CacheEntry) :
    (initCache cacheEntries memory).occupied = [] := rfl

/-- There are as many occupied entries as the count says. -/
theorem CacheInv.occupied_length {size : ℕ} {c : Cache} (h : CacheInv size c) :
    c.occupied.length = c.numCacheEntries.toNat := by
  have hnonneg := h.num_nonneg
  have hle := h.num_le
  rw [Cache.occupied, List.length_take, h.length]
  omega

/-- A hit: some entry is for the request, and only its counter changes. -/
theorem getCacheIndex_some {c c' : Cache} {request : CString} {i : ℕ}
    (h : getCacheIndex c request = (some i, c')) :
    (∃ hi : i < c.occupied.length, c.occupied[i].request = request) ∧
      c' = { c with entries := c.entries.modify i CacheEntry.hit } ∧
      c'.occupied = c.occupied.modify i CacheEntry.hit := by
  unfold getCacheIndex at h
  split at h
  · rename_i j hfind
    obtain ⟨rfl, rfl⟩ : j = i ∧ _ = c' := by simpa using h
    obtain ⟨hj, hrequest, -⟩ := List.findIdx?_eq_some_iff_getElem.mp hfind
    exact ⟨⟨hj, by simpa using hrequest⟩, rfl, by rw [Cache.occupied, Cache.occupied, List.take_modify]⟩
  · exact absurd (congrArg Prod.fst h) (by simp)

/-- A miss: no entry is for the request, and nothing changes. -/
theorem getCacheIndex_none {c c' : Cache} {request : CString}
    (h : getCacheIndex c request = (none, c')) :
    (∀ e ∈ c.occupied, e.request ≠ request) ∧ c' = c := by
  unfold getCacheIndex at h
  split at h
  · exact absurd (congrArg Prod.fst h) (by simp)
  · rename_i hfind
    refine ⟨?_, (congrArg Prod.snd h).symm⟩
    intro e he
    simpa using List.findIdx?_eq_none_iff.mp hfind e he

/-- A hit keeps the shape of the cache. -/
theorem CacheInv.getCacheIndex {size : ℕ} {c : Cache} (h : CacheInv size c) (request : CString) :
    CacheInv size (getCacheIndex c request).2 := by
  unfold WebServer.getCacheIndex
  split
  · exact ⟨h.size_eq, by simpa using h.length, h.num_nonneg, h.num_le, h.next⟩
  · exact h

/-- The loop finds the first entry with the lowest count. The induction is on the entries still
to visit, those before them being summed up by the entry to evict so far. -/
theorem evictLoop_isFirstMin {visited rest : List CacheEntry} {evictIndex : ℕ}
    (h : IsFirstMin CacheEntry.freqUsed visited evictIndex) :
    IsFirstMin CacheEntry.freqUsed (visited ++ rest)
      (evictLoop rest visited.length (visited.get ⟨evictIndex, h.1⟩) evictIndex) := by
  induction rest generalizing visited evictIndex with
  | nil => simpa [evictLoop] using h
  | cons entry rest ih =>
    rw [evictLoop, List.append_cons]
    split
    · rename_i hlt
      have hnext := ih (h.append_lt hlt)
      simpa using hnext
    · rename_i hge
      have hnext := ih (h.append_le (not_lt.mp hge))
      simpa [List.getElem_append_left h.1] using hnext

/-- The loop stays inside the array. -/
theorem evictLoop_lt {rest : List CacheEntry} {i evictIndex : ℕ} (evict : CacheEntry)
    (h : evictIndex < i) :
    evictLoop rest i evict evictIndex < i + rest.length := by
  induction rest generalizing i evict evictIndex with
  | nil => exact h
  | cons entry rest ih =>
    rw [evictLoop, List.length_cons, Nat.add_comm rest.length 1, ← Nat.add_assoc]
    split
    · exact ih entry (Nat.lt_succ_self i)
    · exact ih evict (Nat.lt_succ_of_lt h)

/-- An addition writes the new entry into one slot of the block. -/
theorem addIntoCache_entries {c c' : Cache} {request : CString} {memory : List UInt8} {memorySize : ℤ}
    (h : addIntoCache c request memory memorySize = some c') :
    ∃ slot < c.entries.length,
      c'.entries = c.entries.set slot (newCacheEntry request memory memorySize) := by
  rw [addIntoCache] at h
  split at h
  · obtain ⟨entries, hwrite, rfl⟩ := Option.map_eq_some_iff.mp h
    rw [writeSlot] at hwrite
    split at hwrite
    · rename_i hinside
      exact ⟨c.nextSlotToStore.toNat, by omega, (Option.some.inj hwrite).symm⟩
    · exact absurd hwrite (by simp)
  · obtain ⟨slot, hslot, rfl⟩ := Option.map_eq_some_iff.mp h
    refine ⟨slot, ?_, rfl⟩
    rw [evictSlot] at hslot
    split at hslot
    · exact absurd hslot (by simp)
    · rename_i evict rest hcons
      have hlt := @evictLoop_lt rest 1 0 evict Nat.zero_lt_one
      have hlength := congrArg List.length hcons
      rw [List.length_take, List.length_cons] at hlength
      obtain rfl := Option.some.inj hslot
      omega

/-- The evicted slot of a cache which has entries is the first one with the lowest count. -/
theorem CacheInv.evictSlot {size : ℕ} {c : Cache} (h : CacheInv size c) (hpos : 0 < size) :
    ∃ i, evictSlot c = some i ∧ IsFirstMin CacheEntry.freqUsed c.entries i := by
  have hall : c.entries.take c.cacheSize.toNat = c.entries := by
    rw [h.size_eq, Int.toNat_natCast, ← h.length, List.take_length]
  unfold WebServer.evictSlot
  rw [hall]
  split
  · rename_i hnil
    have hlength := h.length
    rw [hnil, List.length_nil] at hlength
    omega
  · rename_i evict rest hcons
    refine ⟨_, rfl, ?_⟩
    rw [hcons]
    exact evictLoop_isFirstMin (isFirstMin_singleton CacheEntry.freqUsed evict)

/-- Adding to a cache which is not full appends the new entry to the occupied ones. -/
theorem CacheInv.addIntoCache_notFull {size : ℕ} {c : Cache} (h : CacheInv size c)
    (hfull : c.numCacheEntries ≠ c.cacheSize) (request : CString) (memory : List UInt8)
    (memorySize : ℤ) :
    ∃ c', addIntoCache c request memory memorySize = some c' ∧ CacheInv size c' ∧
      c'.numCacheEntries = c.numCacheEntries + 1 ∧
      c'.occupied = c.occupied ++ [newCacheEntry request memory memorySize] := by
  obtain ⟨n, hn⟩ := Int.eq_ofNat_of_zero_le h.num_nonneg
  have hle := h.num_le
  have hlt : n < size := by
    rw [h.size_eq, hn] at hfull
    omega
  have hnext : c.nextSlotToStore = (n : ℕ) := by
    rw [h.next, hn, Int.toNat_natCast, Nat.mod_eq_of_lt hlt]
  have hwrite := writeSlot_natCast c.entries n (newCacheEntry request memory memorySize) (h.length ▸ hlt)
  rw [← hnext] at hwrite
  refine ⟨{ c with
      entries := c.entries.set n (newCacheEntry request memory memorySize)
      numCacheEntries := c.numCacheEntries + 1
      nextSlotToStore := (c.nextSlotToStore + 1).tmod c.cacheSize },
    ?_, ⟨h.size_eq, ?_, ?_, ?_, ?_⟩, rfl, ?_⟩
  · exact (if_pos hfull).trans (congrArg (Option.map _) hwrite)
  · exact (List.length_set ..).trans h.length
  · exact Int.add_nonneg h.num_nonneg (by decide)
  · change c.numCacheEntries + 1 ≤ size
    omega
  · change (c.nextSlotToStore + 1).tmod c.cacheSize = ((c.numCacheEntries + 1).toNat % size : ℕ)
    rw [hnext, h.size_eq, natCast_succ_tmod, hn]
    rfl
  · change (c.entries.set n _).take (c.numCacheEntries + 1).toNat = _
    have hsucc : (c.numCacheEntries + 1).toNat = n + 1 := by omega
    have hn' : c.numCacheEntries.toNat = n := by omega
    have hlength : n < c.entries.length := h.length ▸ hlt
    rw [Cache.occupied, hsucc, hn', List.take_add_one, List.take_set_of_le (le_refl n),
      List.getElem?_set_self hlength]
    rfl

/-- Adding to a full cache replaces the first entry with the lowest count. -/
theorem CacheInv.addIntoCache_full {size : ℕ} {c : Cache} (h : CacheInv size c) (hpos : 0 < size)
    (hfull : c.numCacheEntries = c.cacheSize) (request : CString) (memory : List UInt8)
    (memorySize : ℤ) :
    ∃ c' i, addIntoCache c request memory memorySize = some c' ∧ CacheInv size c' ∧
      c'.numCacheEntries = c.numCacheEntries ∧ IsFirstMin CacheEntry.freqUsed c.occupied i ∧
      c'.occupied = c.occupied.set i (newCacheEntry request memory memorySize) := by
  obtain ⟨i, hslot, hmin⟩ := h.evictSlot hpos
  have hnum : c.numCacheEntries.toNat = c.entries.length := by
    rw [hfull, h.size_eq, Int.toNat_natCast, h.length]
  have hall : c.occupied = c.entries := by rw [Cache.occupied, hnum, List.take_length]
  refine ⟨{ c with entries := c.entries.set i (newCacheEntry request memory memorySize) }, i, ?_,
    ⟨h.size_eq, ?_, h.num_nonneg, h.num_le, h.next⟩, rfl, hall ▸ hmin, ?_⟩
  · exact (if_neg (not_not.mpr hfull)).trans (congrArg (Option.map _) hslot)
  · exact (List.length_set ..).trans h.length
  · change (c.entries.set i _).take c.numCacheEntries.toNat = c.occupied.set i _
    rw [hall, hnum, ← List.length_set (i := i) (a := newCacheEntry request memory memorySize),
      List.take_length]

/-- Adding to a cache of at least one slot stays inside the block of entries. -/
theorem CacheInv.addIntoCache_isSome {size : ℕ} {c : Cache} (h : CacheInv size c) (hpos : 0 < size)
    (request : CString) (memory : List UInt8) (memorySize : ℤ) :
    ∃ c', addIntoCache c request memory memorySize = some c' := by
  by_cases hfull : c.numCacheEntries = c.cacheSize
  · obtain ⟨c', -, hadd, -⟩ := h.addIntoCache_full hpos hfull request memory memorySize
    exact ⟨c', hadd⟩
  · obtain ⟨c', hadd, -⟩ := h.addIntoCache_notFull hfull request memory memorySize
    exact ⟨c', hadd⟩

/-- An addition keeps the shape, and appends the entry or replaces the least used one. -/
theorem CacheInv.addIntoCache {size : ℕ} {c c' : Cache} (h : CacheInv size c) (hpos : 0 < size)
    {request : CString} {memory : List UInt8} {memorySize : ℤ}
    (hadd : WebServer.addIntoCache c request memory memorySize = some c') :
    CacheInv size c' ∧
      (c.numCacheEntries ≠ c.cacheSize ∧
        c'.occupied = c.occupied ++ [newCacheEntry request memory memorySize] ∨
      c.numCacheEntries = c.cacheSize ∧ ∃ i, IsFirstMin CacheEntry.freqUsed c.occupied i ∧
        c'.occupied = c.occupied.set i (newCacheEntry request memory memorySize)) := by
  by_cases hfull : c.numCacheEntries = c.cacheSize
  · obtain ⟨c'', i, hc'', hinv, -, hmin, hocc⟩ :=
      h.addIntoCache_full hpos hfull request memory memorySize
    obtain rfl : c'' = c' := Option.some.inj (hc''.symm.trans hadd)
    exact ⟨hinv, Or.inr ⟨hfull, i, hmin, hocc⟩⟩
  · obtain ⟨c'', hc'', hinv, -, hocc⟩ := h.addIntoCache_notFull hfull request memory memorySize
    obtain rfl : c'' = c' := Option.some.inj (hc''.symm.trans hadd)
    exact ⟨hinv, Or.inl ⟨hfull, hocc⟩⟩

/-- An entry of a cache after an addition is an old one or the new one. -/
theorem CacheInv.mem_addIntoCache {size : ℕ} {c c' : Cache} (h : CacheInv size c) (hpos : 0 < size)
    {request : CString} {memory : List UInt8} {memorySize : ℤ}
    (hadd : WebServer.addIntoCache c request memory memorySize = some c') {e : CacheEntry}
    (he : e ∈ c'.occupied) : e ∈ c.occupied ∨ e = newCacheEntry request memory memorySize := by
  obtain ⟨-, ⟨-, hocc⟩ | ⟨-, i, -, hocc⟩⟩ := h.addIntoCache hpos hadd
  · rw [hocc] at he
    simpa using he
  · rw [hocc] at he
    exact List.mem_or_eq_of_mem_set he

end Csci4061.WebServer
