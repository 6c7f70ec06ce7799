import Csci4061.WebServer.WorkerHolders

/-!
# What runs of the workers do to the heap

From the steps it follows of all runs: the workers on the heap do what the workers on values do, so no
release takes away what somebody still reads; a step accesses memory outside of a live block only if it
overruns the buffer of a small file; and after `deleteCache` the blocks which are left are the buffers
of the failed reads.
-/

namespace Csci4061.WebServer

open Csci4061.Lib

variable {ι : Type} [DecidableEq ι] {cacheSize : ℕ} {s : HeapState ι} {v : WorkersState ι} {w : ι}

/-- The workers on the heap are simulated by the workers whose buffers and contents are values. -/
def heapSimulation (ι : Type) [DecidableEq ι] (workingDir : CString) {cacheSize : ℕ}
    (hpos : 0 < cacheSize) :
    TransitionSystem.Simulation (heapSystem ι workingDir cacheSize) (workersSystem ι cacheSize) where
  rel := HeapRep cacheSize
  label := HeapLabel.values
  rel_init _ hinit := heapRep_init hinit
  rel_step s label s' v hrep hstep := by
    have halike := hrep.next hpos workingDir hstep.1
    have hnext : heapNext workingDir s label = some s' := hstep.2
    rw [hnext] at halike
    generalize hv : workerNext v label.values = ov at halike
    cases halike with
    | @both _ v' hrep' _ _ => exact ⟨v', hv, hrep'⟩

/-- Every run of the workers on the heap, with any addresses, has a run of the workers on values which
takes the same steps and sends the same responses, and in which each entry has as its value what is in
the block of its content. So no block is released or written to while it is read, and the contents
survive any evictions. -/
theorem heapWorkers_refine {workingDir : CString} (hpos : 0 < cacheSize) {s₀ s : HeapState ι}
    {labels : List (HeapLabel ι)} (hinit : (heapSystem ι workingDir cacheSize).init s₀)
    (hrun : (heapSystem ι workingDir cacheSize).Run s₀ labels s) :
    ∃ v₀ v, (workersSystem ι cacheSize).init v₀ ∧
      (workersSystem ι cacheSize).Run v₀ (labels.map HeapLabel.values) v ∧ s.sent = v.sent ∧
      v.cache.occupied = s.cache.occupied.map (HeapEntry.read s.heap) ∧
      ∀ e ∈ s.cache.occupied, ∃ content, s.heap.blocks e.content = some (.chars content) ∧
        content.length = toSizeT e.len := by
  obtain ⟨v₀, hinit', hrep₀⟩ := heapRep_init hinit
  obtain ⟨v, hrun', hrep⟩ := (heapSimulation ι workingDir hpos).run hrep₀ hrun
  exact ⟨v₀, v, hinit', hrun', hrep.sent, hrep.cache.occupied, hrep.cache.stored⟩

/-- A heap with a cache of one entry, and nothing else. -/
def oneEntryHeap : HeapState (Fin 2) where
  heap := ((⟨fun _ => none, none⟩ : Heap).setBlock 0 (some (.chars []))).setBlock 1 (some (.chars []))
  cache := ⟨0, 0, 0, 1, 1, [⟨0, [], 0, 0⟩]⟩
  workers := fun _ => .idle
  sent := []
  lost := []

/-- It is an initial state. -/
theorem oneEntryHeap_init : (heapSystem (Fin 2) (bytes "/w") 1).init oneEntryHeap :=
  ⟨fun _ => rfl, rfl, rfl, ⟨fun _ => none, none⟩, 0, 1, [⟨0, [], 0, 0⟩], fun _ => rfl, rfl, rfl⟩

/-- The first worker reads a file and inserts it, and the second one finds it. -/
theorem heapWorkers_refine_hit : ∃ (s : HeapState (Fin 2)) (v : WorkersState (Fin 2)),
    (workersSystem (Fin 2) 1).Reachable v ∧ s.sent = v.sent ∧
    s.sent = [(⟨6, bytes "/a"⟩, .result (bytes "text/plain") 1 [97])] ∧
    v.cache.occupied = s.cache.occupied.map (HeapEntry.read s.heap) := by
  have hstart : (heapSystem (Fin 2) (bytes "/w") 1).Run oneEntryHeap [] oneEntryHeap := .nil
  have hmissed := hstart.next (.lookup 0 ⟨5, bytes "/a"⟩ 2) rfl rfl
  have hloaded := hmissed.next (.load 0 (.reads 1 [97]) 2 3) ⟨rfl, rfl, by decide, by decide⟩ rfl
  have hinserted := hloaded.next (.insert 0 4) rfl rfl
  have hhit := hinserted.next (.lookup 1 ⟨6, bytes "/a"⟩ 5) rfl rfl
  obtain ⟨v₀, v, hinit, hrun', hsent, hocc, -⟩ := heapWorkers_refine (by decide) oneEntryHeap_init hhit
  exact ⟨_, v, ⟨v₀, _, hinit, hrun'⟩, hsent, by decide +kernel, hocc⟩

/-- The worker is where a step of its loop starts. -/
def HeapLabel.Enabled (s : HeapState ι) : HeapLabel ι → Prop
  | .lookup w _ _ => s.workers w = .idle
  | .load w _ _ _ => ∃ request, s.workers w = .missed request
  | .insert w _ => ∃ request absolutePath buf size, s.workers w = .loaded request absolutePath buf size
  | .answer w => ∃ request absolutePath buf size, s.workers w = .inserted request absolutePath buf size

/-- A step of the values is enabled where the step of the blocks is. -/
theorem HeapRep.workerNext_isSome (hpos : 0 < cacheSize) (hrep : HeapRep cacheSize s v)
    {label : HeapLabel ι} (hcalls : SystemCalls s label) (henabled : label.Enabled s) :
    ∃ v', workerNext v label.values = some v' := by
  cases label with
  | lookup w request buf =>
    have hidle : v.workers w = .idle := (hrep.workers w).idle_iff.mp henabled
    change ∃ v', workerNext v (.lookup w request) = some v'
    rw [workerNext, if_pos hidle, ← Prod.eta (getCacheIndex v.cache request.request)]
    cases hindex : (getCacheIndex v.cache request.request).1 with
    | none => exact ⟨_, rfl⟩
    | some i =>
      obtain ⟨e, -, -, hentry⟩ := hrep.found hindex
      simp only [hentry]
      exact ⟨_, rfl⟩
  | load w outcome absolutePath buf =>
    obtain ⟨request, hx⟩ := henabled
    rcases (hrep.workers w).states with ⟨hx', -⟩ | ⟨_, -, hy⟩ | ⟨_, _, _, _, _, hx', -⟩ |
      ⟨_, _, _, _, _, hx', -⟩
    · simp [hx] at hx'
    · change ∃ v', workerNext v (.load w outcome) = some v'
      rw [workerNext, hy]
      simp only [if_pos hcalls.2.2.2]
      cases outcome <;> exact ⟨_, rfl⟩
    · simp [hx] at hx'
    · simp [hx] at hx'
  | insert w content =>
    obtain ⟨request, absolutePath, buf, size, hx⟩ := henabled
    rcases (hrep.workers w).states with ⟨hx', -⟩ | ⟨_, hx', -⟩ |
      ⟨request', _, _, size', data, -, hy, -⟩ |
      ⟨_, _, _, _, _, hx', -⟩
    · simp [hx] at hx'
    · simp [hx] at hx'
    · obtain ⟨c, hc⟩ := hrep.shape.addIntoCache_isSome hpos request'.request data (toInt size')
      change ∃ v', workerNext v (.insert w) = some v'
      rw [workerNext, hy]
      simp only [hc, Option.map_some]
      exact ⟨_, rfl⟩
    · simp [hx] at hx'
  | answer w =>
    obtain ⟨request, absolutePath, buf, size, hx⟩ := henabled
    rcases (hrep.workers w).states with ⟨hx', -⟩ | ⟨_, hx', -⟩ | ⟨_, _, _, _, _, hx', -⟩ |
      ⟨_, _, _, _, _, -, hy, -⟩
    · simp [hx] at hx'
    · simp [hx] at hx'
    · simp [hx] at hx'
    · change ∃ v', workerNext v (.answer w) = some v'
      rw [workerNext, hy]
      exact ⟨_, rfl⟩

/-- A reachable state represents one with values, and its lost buffers are those of the failed reads. -/
theorem heapRep_of_run {workingDir : CString} (hpos : 0 < cacheSize) {s₀ s : HeapState ι}
    {labels : List (HeapLabel ι)} (hinit : (heapSystem ι workingDir cacheSize).init s₀)
    (hrun : (heapSystem ι workingDir cacheSize).Run s₀ labels s) :
    ∃ v, HeapRep cacheSize s v ∧ s.lost = labels.flatMap HeapLabel.loses := by
  induction hrun with
  | nil =>
    obtain ⟨v, -, hrep⟩ := heapRep_init hinit
    exact ⟨v, hrep, hinit.2.2.1⟩
  | @snoc labels t u label _ hlast ih =>
    obtain ⟨v, hrep, hlost⟩ := ih
    have halike := hrep.next hpos workingDir hlast.1
    have hnext : heapNext workingDir t label = some u := hlast.2
    rw [hnext] at halike
    generalize workerNext v label.values = ov at halike
    cases halike with
    | @both _ v' hrep' hlost' _ =>
      refine ⟨v', hrep', ?_⟩
      rw [hlost', hlost, List.flatMap_append, List.flatMap_singleton]

/-- As long as `malloc` succeeds, the workers access memory outside of a block in exactly one way: where
the text about a file which cannot be read does not fit in the buffer of a file of fewer than 23 bytes.
No other step of any run uses a block which was released, releases one twice or leaves its block,
whatever the other workers do in between. -/
theorem heapWorkers_fault_iff {workingDir : CString} (hpos : 0 < cacheSize) {s : HeapState ι}
    (hs : (heapSystem ι workingDir cacheSize).Reachable s) {label : HeapLabel ι}
    (henabled : label.Enabled s) (hcalls : SystemCalls s label) :
    heapNext workingDir s label = none ↔ label.Overruns := by
  obtain ⟨s₀, labels, hinit, hrun⟩ := hs
  obtain ⟨v, hrep, -⟩ := heapRep_of_run hpos hinit hrun
  obtain ⟨v', hv'⟩ := hrep.workerNext_isSome hpos hcalls henabled
  have halike := hrep.next hpos workingDir hcalls
  rw [hv'] at halike
  generalize heapNext workingDir s label = os at halike
  cases halike with
  | both _ _ hok => exact iff_of_false (Option.some_ne_none _) hok
  | overruns hover => exact iff_of_true rfl hover

/-- A file of 22 bytes cannot be read, and there is no room for the text about it. -/
theorem heapWorkers_fault_small : ∃ s :
    HeapState (Fin 2), (heapSystem (Fin 2) (bytes "/w") 1).Reachable s ∧
    heapNext (bytes "/w") s (.load 0 (.readFails 22) 2 3) = none := by
  have hstart : (heapSystem (Fin 2) (bytes "/w") 1).Reachable oneEntryHeap := .of_init oneEntryHeap_init
  have hmissed := hstart.next (.lookup 0 ⟨5, bytes "/a"⟩ 2) rfl rfl
  have hfault := heapWorkers_fault_iff (by decide) hmissed
    (show HeapLabel.Enabled _ (.load 0 (.readFails 22) 2 3) from ⟨_, rfl⟩) ⟨rfl, rfl, by decide, by
      decide⟩
  exact ⟨_, hmissed, hfault.mpr (by decide : 22 < 23)⟩

/-- The loop of `deleteCache` releases different blocks which are allocated. -/
theorem freeContents_eq {es : List HeapEntry} {h : Heap} (hnodup : (es.map HeapEntry.content).Nodup)
    (hlive : ∀ e ∈ es, h.blocks e.content ≠ none) :
    ∃ h', OnHeap.freeContents es h = some h' ∧
      ∀ a, h'.blocks a = if a ∈ es.map HeapEntry.content then none else h.blocks a := by
  induction es generalizing h with
  | nil => exact ⟨h, rfl, fun a => by simp⟩
  | cons e es ih =>
    obtain ⟨hnot, hrest⟩ := List.nodup_cons.mp hnodup
    have hlive' : ∀ e' ∈ es, (h.setBlock e.content none).blocks e'.content ≠ none := by
      intro e' he'
      have hne : e'.content ≠ e.content := by
        intro heq
        exact hnot (heq ▸ List.mem_map_of_mem he')
      rw [Heap.setBlock_blocks, Function.update_of_ne hne]
      exact hlive e' (List.mem_cons_of_mem _ he')
    obtain ⟨h', hfree, hblocks⟩ := ih hrest hlive'
    refine ⟨h', ?_, fun a => ?_⟩
    · rw [OnHeap.freeContents, Heap.free_of_start (hlive e List.mem_cons_self)]
      exact hfree
    · rw [hblocks]
      by_cases ha : a = e.content
      · simp [ha]
      · simp [ha]

omit [DecidableEq ι] in
/-- The contents of the entries are different blocks, in a list. -/
theorem HeapCache.Separate.nodup {c : HeapCache} (hsep : c.Separate) :
    (c.occupied.map HeapEntry.content).Nodup := by
  rw [List.nodup_iff_getElem?_ne_getElem?]
  intro i j hij hj heq
  rw [List.length_map] at hj
  have hi : i < c.occupied.length := hij.trans hj
  rw [List.getElem?_map, List.getElem?_map, List.getElem?_eq_getElem hi,
    List.getElem?_eq_getElem hj] at heq
  exact absurd (hsep i j _ _ (List.getElem?_eq_getElem hi) (List.getElem?_eq_getElem hj)
    (Option.some.inj heq)) hij.ne

/-- `deleteCache` releases the contents of the entries and the two blocks of the cache, and nothing
else. -/
theorem deleteCache_eq (hown : s.heap.Owned s.holds) : ∃ h, OnHeap.deleteCache s.cache s.heap = some h ∧
    ∀ a, h.blocks a ≠ none ↔ (∃ w, (s.workers w).path = some a ∨ (s.workers w).buffer = some a) ∨
    a ∈ s.lost := by
  have hentries : s.holds .entries = some s.cache.entriesAt := rfl
  have hcache : s.holds .cache = some s.cache.address := rfl
  have hcontent {e : HeapEntry} (he : e ∈ s.cache.occupied) :
      ∃ i, s.holds (.content i) = some e.content := by
    obtain ⟨i, hi⟩ := List.mem_iff_getElem?.mp he
    exact ⟨i, by simp [HeapState.holds, hi]⟩
  have hkeeps {o : Holder ι} {a : ℕ} (ho : s.holds o = some a) (hne : ∀ i, o ≠ .content i) :
      a ∉ s.cache.occupied.map HeapEntry.content := by
    intro ha
    obtain ⟨e, he, rfl⟩ := List.mem_map.mp ha
    obtain ⟨i, hi⟩ := hcontent he
    exact hne i (hown.exclusive ho hi)
  obtain ⟨h₁, hfree, hblocks⟩ := freeContents_eq (HeapState.separate hown).nodup fun e he => by
    obtain ⟨i, hi⟩ := hcontent he
    exact hown.live hi
  have hentries₁ : h₁.blocks s.cache.entriesAt ≠ none := by
    rw [hblocks, if_neg (hkeeps hentries (by simp))]
    exact hown.live hentries
  have hcache₁ : (h₁.setBlock s.cache.entriesAt none).blocks s.cache.address ≠ none := by
    rw [Heap.setBlock_blocks, Function.update_of_ne (hown.ne hcache hentries (by simp)), hblocks,
      if_neg (hkeeps hcache (by simp))]
    exact hown.live hcache
  refine ⟨(h₁.setBlock s.cache.entriesAt none).setBlock s.cache.address none, ?_, fun a => ?_⟩
  · simp only [OnHeap.deleteCache, hfree, Option.bind_eq_bind, Option.bind_some,
      Heap.free_of_start hentries₁, Heap.free_of_start hcache₁]
  · constructor
    · intro hlive
      rw [Heap.setBlock_blocks] at hlive
      by_cases ha : a = s.cache.address
      · exact absurd (ha ▸ Function.update_self ..) hlive
      rw [Function.update_of_ne ha, Heap.setBlock_blocks] at hlive
      by_cases ha' : a = s.cache.entriesAt
      · exact absurd (ha' ▸ Function.update_self ..) hlive
      rw [Function.update_of_ne ha', hblocks] at hlive
      split at hlive
      · exact absurd rfl hlive
      · rename_i hnot
        obtain ⟨o, ho⟩ := (hown.allocated a).mp hlive
        cases o with
        | cache => exact absurd (Option.some.inj ho).symm ha
        | entries => exact absurd (Option.some.inj ho).symm ha'
        | content i =>
          obtain ⟨e, he, rfl⟩ := Option.map_eq_some_iff.mp ho
          exact absurd (List.mem_map_of_mem (List.mem_of_getElem? he)) hnot
        | path w => exact Or.inl ⟨w, Or.inl ho⟩
        | buffer w => exact Or.inl ⟨w, Or.inr ho⟩
        | lost i => exact Or.inr (List.mem_of_getElem? ho)
    · intro hheld
      have hholder : ∃ o, s.holds o = some a ∧ o ≠ .cache ∧ o ≠ .entries ∧ ∀ i, o ≠ .content i := by
        rcases hheld with ⟨w, hpath | hbuffer⟩ | hlost
        · exact ⟨.path w, hpath, by simp, by simp, by simp⟩
        · exact ⟨.buffer w, hbuffer, by simp, by simp, by simp⟩
        · obtain ⟨i, hi⟩ := List.mem_iff_getElem?.mp hlost
          exact ⟨.lost i, hi, by simp, by simp, by simp⟩
      obtain ⟨o, ho, hocache, hoentries, hocontent⟩ := hholder
      rw [Heap.setBlock_blocks, Function.update_of_ne (hown.ne ho hcache hocache), Heap.setBlock_blocks,
        Function.update_of_ne (hown.ne ho hentries hoentries), hblocks, if_neg (hkeeps ho hocontent)]
      exact hown.live ho

/-- The ledger of the blocks, after any run of any number of workers. Every allocated block is held
exactly once: by the cache, an entry, a worker between the disk and its answer, or by nobody in the
program, and those are the buffers of the reads which failed. Deleting the cache from there succeeds and
leaves exactly the blocks of the workers and the lost buffers. -/
theorem heapWorkers_ledger {workingDir : CString} (hpos : 0 < cacheSize) {s₀ s : HeapState ι}
    {labels : List (HeapLabel ι)} (hinit : (heapSystem ι workingDir cacheSize).init s₀)
    (hrun : (heapSystem ι workingDir cacheSize).Run s₀ labels s) :
    (∀ a, s.heap.blocks a ≠ none ↔ ∃ o, s.holds o = some a) ∧
      (∀ o o' a, s.holds o = some a → s.holds o' = some a → o = o') ∧
      s.lost = labels.flatMap HeapLabel.loses ∧
      ∃ h, OnHeap.deleteCache s.cache s.heap = some h ∧ ∀ a, h.blocks a ≠ none ↔
        (∃ w, (s.workers w).path = some a ∨ (s.workers w).buffer = some a) ∨ a ∈ s.lost := by
  obtain ⟨v, hrep, hlost⟩ := heapRep_of_run hpos hinit hrun
  exact ⟨hrep.owned.allocated, hrep.owned.exclusive, hlost, deleteCache_eq hrep.owned⟩

/-- A file of 30 bytes cannot be read, and its buffer is what is left when the cache was deleted. -/
theorem heapWorkers_ledger_failedRead : ∃ (s : HeapState (Fin 2)) (h : Heap), s.lost = [3] ∧
    OnHeap.deleteCache s.cache s.heap = some h ∧ h.blocks 3 ≠ none := by
  have hstart : (heapSystem (Fin 2) (bytes "/w") 1).Run oneEntryHeap [] oneEntryHeap := .nil
  have hmissed := hstart.next (.lookup 0 ⟨5, bytes "/a"⟩ 2) rfl rfl
  have hfailed := hmissed.next (.load 0 (.readFails 30) 2 3) ⟨rfl, rfl, by decide, by decide⟩ rfl
  obtain ⟨-, -, hlost, h, hdelete, hblocks⟩ := heapWorkers_ledger (by decide) oneEntryHeap_init hfailed
  exact ⟨_, h, hlost, hdelete, (hblocks 3).mpr (Or.inr (hlost.symm ▸ List.mem_singleton_self 3))⟩

end Csci4061.WebServer
