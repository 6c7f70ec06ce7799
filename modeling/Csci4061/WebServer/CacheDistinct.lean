import Csci4061.WebServer.Worker

/-!
# Duplicate entries of the cache

The lookup which misses and the insertion which follows it are two critical sections, and the
insertion does not look again. Two workers which miss on the same request therefore insert it
twice.

`InsertsFresh` says when an insertion does no harm. It is exact: the runs whose insertions all
satisfy it are the runs in which the cached requests stay distinct.
-/

namespace Csci4061.WebServer

open Csci4061.Lib

/-- No two occupied entries are for the same request. -/
abbrev Cache.Distinct (c : Cache) : Prop := c.requests.Nodup

/-- A request which an insertion does not duplicate: it is not cached, or the cache is full and
the first entry with the lowest count is for it. -/
def FreshFor (c : Cache) (request : CString) : Prop :=
  request ∉ c.requests ∨ c.numCacheEntries = c.cacheSize ∧
    ∃ i, IsFirstMin CacheEntry.freqUsed c.occupied i ∧ c.requests[i]? = some request

/-- A hit does not change which requests are cached. -/
theorem map_request_modify_hit (entries : List CacheEntry) (i : ℕ) :
    (entries.modify i CacheEntry.hit).map CacheEntry.request = entries.map CacheEntry.request := by
  apply List.ext_getElem (by simp)
  intro j _ _
  simp only [List.getElem_map, List.getElem_modify]
  split <;> rfl

/-- An insertion into a cache of distinct requests keeps them distinct exactly when it is fresh. -/
theorem CacheInv.addIntoCache_distinct_iff {size : ℕ} {c c' : Cache} (h : CacheInv size c)
    (hpos : 0 < size)
    (hdistinct : c.Distinct) {request : CString} {memory : List UInt8} {memorySize : ℤ}
    (hadd : WebServer.addIntoCache c request memory memorySize = some c') :
    c'.Distinct ↔ FreshFor c request := by
  obtain ⟨-, ⟨hroom, hocc⟩ | ⟨hfull, i, hmin, hocc⟩⟩ := h.addIntoCache hpos hadd
  · have hrequests : c'.requests = c.requests ++ [request] := by
      rw [Cache.requests, hocc, List.map_append]
      rfl
    have hright : FreshFor c request ↔ request ∉ c.requests := by
      constructor
      · rintro (hfresh | ⟨hfull, -⟩)
        · exact hfresh
        · exact absurd hfull hroom
      · exact Or.inl
    rw [hright, Cache.Distinct, hrequests, ← List.concat_eq_append, List.nodup_concat]
    exact and_iff_left hdistinct
  · have hrequests : c'.requests = c.requests.set i request := by
      rw [Cache.requests, hocc, List.map_set]
      rfl
    have hi : i < c.requests.length := by
      rw [Cache.requests, List.length_map]
      exact hmin.1
    rw [Cache.Distinct, hrequests, nodup_set_iff hdistinct hi]
    apply or_congr Iff.rfl
    constructor
    · intro hheld
      exact ⟨hfull, i, hmin, hheld⟩
    · rintro ⟨-, j, hj, hheld⟩
      rwa [hmin.unique hj]

variable {ι : Type*} [DecidableEq ι]

/-- If the step is an insertion, then it is the insertion of a fresh request. -/
def InsertsFresh (s : WorkersState ι) : WorkerLabel ι → Prop
  | .insert w =>
    ∀ request buf size, s.workers w = .loaded request buf size → FreshFor s.cache request.request
  | _ => True

/-- A step keeps the cached requests distinct exactly when it inserts no cached request again. -/
theorem workerNext_distinct_iff {cacheSize : ℕ} (hpos : 0 < cacheSize) {s s' : WorkersState ι}
    {label : WorkerLabel ι} (hinv : CacheInv cacheSize s.cache) (hdistinct : s.cache.Distinct)
    (h : workerNext s label = some s') : s'.cache.Distinct ↔ InsertsFresh s label := by
  cases label with
  | lookup w request =>
    refine iff_of_true ?_ trivial
    rcases lookup_cases h with ⟨i, cache, entry, hindex, -, rfl⟩ | ⟨-, rfl⟩
    · change (cache.occupied.map CacheEntry.request).Nodup
      rw [(getCacheIndex_some hindex).2.2, map_request_modify_hit]
      exact hdistinct
    · exact hdistinct
  | load w outcome =>
    refine iff_of_true ?_ trivial
    obtain ⟨request, -, -, ⟨size, data, -, rfl⟩ | rfl⟩ := load_cases h <;> exact hdistinct
  | insert w =>
    obtain ⟨request, buf, size, cache, hworker, hadd, rfl⟩ := insert_cases h
    rw [hinv.addIntoCache_distinct_iff hpos hdistinct hadd]
    constructor
    · intro hfresh request' buf' size' hworker'
      obtain ⟨rfl, -, -⟩ := WorkerState.loaded.inj (hworker.symm.trans hworker')
      exact hfresh
    · intro hfresh
      exact hfresh request buf size hworker
  | answer w =>
    obtain ⟨request, buf, size, -, rfl⟩ := answer_cases h
    exact iff_of_true hdistinct trivial

/-- The requests of an empty cache are distinct. -/
theorem workersSystem_init_distinct {cacheSize : ℕ} {s : WorkersState ι}
    (h : (workersSystem ι cacheSize).init s) : s.cache.Distinct := by
  rw [Cache.Distinct, Cache.requests, (workersSystem_init h).2]
  exact List.nodup_nil

/-- The runs whose insertions are all fresh are the runs in which the cached requests stay
distinct, and they reach only states in which they are. -/
theorem cache_distinct_iff_insertsFresh {cacheSize : ℕ} (hpos : 0 < cacheSize) :
    (∀ s, ((workersSystem ι cacheSize).restrict InsertsFresh).Reachable s → s.cache.Distinct) ∧
      ∀ s₀ labels s, (workersSystem ι cacheSize).init s₀ →
        (((workersSystem ι cacheSize).restrict InsertsFresh).Run s₀ labels s ↔
          ((workersSystem ι cacheSize).keeping fun s => s.cache.Distinct).Run s₀ labels s) := by
  have hruns : ∀ s₀ labels s, (workersSystem ι cacheSize).init s₀ →
      (((workersSystem ι cacheSize).restrict InsertsFresh).Run s₀ labels s ↔
        ((workersSystem ι cacheSize).keeping fun s => s.cache.Distinct).Run s₀ labels s) := by
    intro s₀ labels s hinit
    apply TransitionSystem.restrict_run_iff_keeping
    · exact fun s label s' hinv h => workerNext_cacheInv hpos hinv h
    · exact fun s label s' hinv hdistinct h => workerNext_distinct_iff hpos hinv hdistinct h
    · exact (workersSystem_init hinit).1
    · exact workersSystem_init_distinct hinit
  refine ⟨?_, hruns⟩
  rintro s ⟨s₀, labels, hinit, hrun⟩
  exact ((hruns s₀ labels s hinit).mp hrun).of_keeping (workersSystem_init_distinct hinit)

/-- Two workers on an empty cache of two slots. -/
def twoWorkers : WorkersState (Fin 2) where
  cache := initCache 2 (List.replicate 2 ⟨0, [], [], 0⟩)
  workers := fun _ => .idle
  sent := []

/-- Two workers miss on different files and insert them into two slots, which no insertion duplicates. -/
theorem cache_distinct_iff_insertsFresh_twoFiles : ∃ s,
    ((workersSystem (Fin 2) 2).restrict InsertsFresh).Reachable s ∧
      s.cache.requests = [bytes "/a", bytes "/b"] ∧ s.cache.Distinct := by
  have hstart : ((workersSystem (Fin 2) 2).restrict InsertsFresh).Reachable twoWorkers :=
    .of_init ⟨fun _ => rfl, rfl, _, rfl, rfl⟩
  have hmissed := hstart.next (.lookup 0 ⟨5, bytes "/a"⟩) trivial rfl
  have hmissedBoth := hmissed.next (.lookup 1 ⟨6, bytes "/b"⟩) trivial rfl
  have hloaded := hmissedBoth.next (.load 0 (.reads 1 [97])) trivial rfl
  have hloadedBoth := hloaded.next (.load 1 (.reads 1 [98])) trivial rfl
  have hinserted := hloadedBoth.next (.insert 0) (fun request buf size hworker => ?_) rfl
  · have hinsertedBoth := hinserted.next (.insert 1) (fun request buf size hworker => ?_) rfl
    · exact ⟨_, hinsertedBoth, by decide +kernel,
        (cache_distinct_iff_insertsFresh (by decide)).1 _ hinsertedBoth⟩
    · exact Or.inl (by cases hworker; decide +kernel)
  · exact Or.inl (by cases hworker; decide +kernel)

/-- Both workers miss on one request before either of them inserts it. -/
def missTwice : List (WorkerLabel (Fin 2)) :=
  [.lookup 0 ⟨5, bytes "/a"⟩, .lookup 1 ⟨6, bytes "/a"⟩, .load 0 (.reads 1 [97]),
    .load 1 (.reads 1 [97]), .insert 0, .insert 1]

/-- The cached requests do not stay distinct in every run: both slots hold the same request. -/
theorem cache_not_distinct :
    ¬ ∀ cacheSize n : ℕ, 0 < cacheSize → ∀ s, (workersSystem (Fin n) cacheSize).Reachable s →
    s.cache.Distinct := by
  intro hall
  obtain ⟨s, hexec, hduplicate⟩ : ∃ s, TransitionSystem.exec workerNext twoWorkers missTwice = some s ∧
      s.cache.requests = [bytes "/a", bytes "/a"] := ⟨_, rfl, by decide⟩
  have hinit : (workersSystem (Fin 2) 2).init twoWorkers := ⟨fun _ => rfl, rfl, _, rfl, rfl⟩
  have hdistinct := hall 2 2 (by decide) s ⟨_, _, hinit, .of_exec hexec⟩
  rw [Cache.Distinct, hduplicate] at hdistinct
  exact absurd hdistinct (by decide)

end Csci4061.WebServer
