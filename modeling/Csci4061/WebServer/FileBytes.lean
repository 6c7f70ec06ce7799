import Csci4061.WebServer.Worker

/-!
# The size and the bytes of a file

The size of a file comes from `stat` and is converted from `off_t` to `size_t`, to `int` and back
before it reaches the disk, the cache and the client. The bytes come from a later, single `read`, whose
count the worker only compares with `-1`. So a size of which an `int` has another, positive value is
announced wrongly, and a read which returns less than it was asked for is served and cached with zero
bytes behind. For a size which is negative as an `int` the read fails, and nothing is announced.
-/

namespace Csci4061.WebServer

open Csci4061.Lib

/-- What the size of a file which was read becomes in `worker`, `addIntoCache` and `return_result`. -/
structure ServedSizes where
  /-- `new_entry.len`. -/
  entryLen : ℤ
  /-- The bytes which `addIntoCache` allocates and copies. -/
  entryBytes : ℕ
  /-- `size` in the path of a hit. -/
  hitSize : ℕ
  /-- `Content-Length` after a miss, and the count which `write` gets. -/
  missLength : ℤ
  missCount : ℕ
  /-- `Content-Length` after a hit, and the count which `write` gets. -/
  hitLength : ℤ
  hitCount : ℕ
  deriving DecidableEq

/-- The conversions of `size`: the parameters `memory_size` and `numbytes` are of type `int`. -/
def servedSizes (size : ℕ) : ServedSizes :=
  let len := toInt size
  let hitSize := toSizeT len
  { entryLen := len
    entryBytes := toSizeT len
    hitSize := hitSize
    missLength := toInt size
    missCount := toSizeT (toInt size)
    hitLength := toInt hitSize
    hitCount := toSizeT (toInt hitSize) }

/-- What the size of one file becomes in `worker`. -/
structure FileSizes where
  /-- `malloc (size + 1)` in the path of a miss. -/
  allocated : ℕ
  /-- `none` if `read` fails for the count which `readFromDisk` passes to it, and an error is
  answered. -/
  served : Option ServedSizes
  deriving DecidableEq

/-- The conversions of `st.st_size`. -/
def fileSizes (stSize : ℤ) : FileSizes :=
  let size := toSizeT stSize
  { allocated := toSizeT (size + 1)
    served := if readCount size < 2 ^ 63 then some (servedSizes size) else none }

/-- These are the sizes of the entry which a miss stores, and of the answers to the miss and to a hit on
the entry. -/
structure ServedSizes.Announced (sizes : ServedSizes) (size : ℕ) : Prop where
  entry : ∀ (request : CString) (buf : List UInt8), newCacheEntry request buf (toInt size) =
    ⟨sizes.entryLen, request, buf.take sizes.entryBytes, 0⟩
  miss : ∀ (request : CString) (data : List UInt8), missResponse request (.reads size data) =
    .result (getContentType request) sizes.missLength ((fileBuffer size data).take sizes.missCount)
  hit : ∀ (request : CString) (buf : List UInt8),
    hitResponse request (newCacheEntry request buf (toInt size)) =
    .result (getContentType request) sizes.hitLength
      (((buf.take sizes.entryBytes).take sizes.hitSize).take sizes.hitCount)

/-- So are those which are computed from the size. -/
theorem servedSizes_announced (size : ℕ) : (servedSizes size).Announced size where
  entry request buf := by simp only [newCacheEntry, servedSizes]
  miss request data := by simp only [missResponse, returnResult, servedSizes]
  hit request buf := by simp only [hitResponse, newCacheEntry, returnResult, servedSizes]

/-- Every size is that of the file. -/
structure ServedSizes.Exact (sizes : ServedSizes) (s : ℤ) : Prop where
  entryLen : sizes.entryLen = s
  entryBytes : sizes.entryBytes = s
  hitSize : sizes.hitSize = s
  missLength : sizes.missLength = s
  missCount : sizes.missCount = s
  hitLength : sizes.hitLength = s
  hitCount : sizes.hitCount = s

/-- The buffer has one byte more than the file, and every size which there is is that of the file. -/
structure FileSizes.Exact (sizes : FileSizes) (s : ℤ) : Prop where
  allocated : sizes.allocated = s + 1
  served : ∀ served ∈ sizes.served, served.Exact s

/-- The sizes which are announced are that of the file if and only if it fits an `int`. -/
theorem servedSizes_exact_iff {s : ℤ} (h₀ : 0 ≤ s) (h : s < 2 ^ 63) :
    (servedSizes (toSizeT s)).Exact s ↔ s < 2 ^ 31 := by
  have hsize : (toSizeT s : ℤ) = s := toSizeT_of_lt h₀ (by omega)
  constructor
  · intro hexact
    have hlen := hexact.entryLen
    simp only [servedSizes, hsize] at hlen
    rw [← hlen]
    exact toInt_lt s
  · intro hlt
    have hint : toInt s = s := toInt_of_lt h₀ hlt
    constructor <;> simp only [servedSizes, hsize, hint]

/-- The count of `read` is one if and only if bit 31 of the size is not set. -/
theorem readCount_lt_iff {s : ℤ} (h₀ : 0 ≤ s) (h : s < 2 ^ 63) :
    readCount (toSizeT s) < 2 ^ 63 ↔ s % 2 ^ 32 < 2 ^ 31 := by
  have hsize : (toSizeT s : ℤ) = s := toSizeT_of_lt h₀ (by omega)
  rw [readCount, hsize, toSizeT_toInt_lt_iff, toInt_eq_emod_sub]
  omega

/-- The sizes which arise are all that of the file if and only if it fits an `int` or cannot be read, as
it is negative as an `int`. They arise and are that of the file if and only if it fits an `int`. And
whenever something is read they are what the worker announces. -/
theorem fileSizes_exact_iff {s : ℤ} (h₀ : 0 ≤ s) (h : s < 2 ^ 63) :
    ((fileSizes s).Exact s ↔ s < 2 ^ 31 ∨ 2 ^ 31 ≤ s % 2 ^ 32) ∧
      ((∃ served, (fileSizes s).served = some served ∧ served.Exact s) ↔ s < 2 ^ 31) ∧
      ∀ data, (DiskOutcome.reads (toSizeT s) data).Possible →
        ∃ served, (fileSizes s).served = some served ∧ served.Announced (toSizeT s) := by
  have hsize : (toSizeT s : ℤ) = s := toSizeT_of_lt h₀ (by omega)
  have hsucc : (toSizeT (s + 1) : ℤ) = s + 1 := toSizeT_of_lt (by omega) (by omega)
  have hallocated : ((fileSizes s).allocated : ℤ) = s + 1 := by simp only [fileSizes, hsize, hsucc]
  by_cases hcount : readCount (toSizeT s) < 2 ^ 63
  · have hserved : (fileSizes s).served = some (servedSizes (toSizeT s)) := by
      simp only [fileSizes, if_pos hcount]
    have hbit := (readCount_lt_iff h₀ h).mp hcount
    rw [hserved, ← servedSizes_exact_iff h₀ h]
    refine ⟨⟨fun hexact => Or.inl (hexact.served _ hserved), ?_⟩, by simp,
      fun data _ => ⟨_, rfl, servedSizes_announced _⟩⟩
    rintro (hexact | hset)
    · refine ⟨hallocated, fun served hmem => ?_⟩
      obtain rfl := Option.some.inj (hserved.symm.trans hmem)
      exact hexact
    · omega
  · have hserved : (fileSizes s).served = none := by simp only [fileSizes, if_neg hcount]
    have hbit : ¬ s % 2 ^ 32 < 2 ^ 31 := fun hlt => hcount ((readCount_lt_iff h₀ h).mpr hlt)
    rw [hserved]
    refine ⟨iff_of_true ⟨hallocated, by simp [hserved]⟩ (Or.inr (Int.not_lt.mp hbit)), ?_,
      fun data hpossible => ?_⟩
    · refine iff_of_false (by simp) fun hlt => hbit ?_
      omega
    · exact absurd hpossible.2.1 hcount

/-- The sizes of a file of five bytes. -/
theorem fileSizes_exact_iff_five :
    (fileSizes 5).Exact 5 ∧ ∃ served, (fileSizes 5).served = some served ∧ served.Exact 5 :=
  ⟨(fileSizes_exact_iff (by decide) (by decide)).1.mpr (Or.inl (by decide)),
    (fileSizes_exact_iff (by decide) (by decide)).2.1.mpr (by decide)⟩

/-- A file of `2 ^ 32 + 5` bytes is announced with five bytes. -/
theorem not_fileSizes_exact_wrapped : (∃ served, (fileSizes (2 ^ 32 + 5)).served = some served ∧
    served.entryLen = 5 ∧ served.missLength = 5 ∧ served.hitLength = 5) ∧
      ¬ (fileSizes (2 ^ 32 + 5)).Exact (2 ^ 32 + 5) := by
  have hserved : (fileSizes (2 ^ 32 + 5)).served = some (servedSizes (2 ^ 32 + 5)) := by decide
  refine ⟨⟨_, hserved, by decide, by decide, by decide⟩, fun hexact => ?_⟩
  exact absurd (hexact.served _ hserved).missLength (by decide)

/-- The worker which takes a step. -/
def WorkerLabel.worker {ι : Type*} : WorkerLabel ι → ι
  | .lookup w _ => w
  | .load w _ => w
  | .insert w => w
  | .answer w => w

variable {ι : Type*} [DecidableEq ι]

/-- A step of one worker leaves the others where they stand. -/
theorem workerNext_workers {s s' : WorkersState ι} {label : WorkerLabel ι} {w : ι}
    (hw : label.worker ≠ w) (h : workerNext s label = some s') : s'.workers w = s.workers w := by
  cases label with
  | lookup v request =>
    rcases lookup_cases h with ⟨i, cache, entry, -, -, rfl⟩ | ⟨-, rfl⟩ <;>
      exact Function.update_of_ne hw.symm _ _
  | load v outcome =>
    obtain ⟨request, -, -, ⟨size, data, -, rfl⟩ | rfl⟩ := load_cases h <;>
      exact Function.update_of_ne hw.symm _ _
  | insert v =>
    obtain ⟨request, buf, size, cache, -, -, rfl⟩ := insert_cases h
    exact Function.update_of_ne hw.symm _ _
  | answer v =>
    obtain ⟨request, buf, size, -, rfl⟩ := answer_cases h
    exact Function.update_of_ne hw.symm _ _

/-- Any number of steps of the other workers. -/
def Meanwhile (w : ι) (s s' : WorkersState ι) : Prop :=
  ∃ labels, ((workersSystem ι 0).restrict fun _ label => label.worker ≠ w).Run s labels s'

/-- Meanwhile the worker stays where it is. -/
theorem Meanwhile.workers {w : ι} {s s' : WorkersState ι} (h : Meanwhile w s s') :
    s'.workers w = s.workers w := by
  obtain ⟨labels, hrun⟩ := h
  refine hrun.invariant (I := fun t => t.workers w = s.workers w) ?_ rfl
  intro t label u ht hstep
  exact (workerNext_workers hstep.1 hstep.2).trans ht

/-- What a worker does after a miss, if `read` does not fail: the states after the file was read, before
and after the insertion, and before and after the answer. Other workers run in between. -/
structure MissPath (w : ι) (request : Request) (size : ℕ) (data : List UInt8)
    (missed loaded adding added answering answered : WorkersState ι) : Prop where
  worker : missed.workers w = .missed request
  load : workerNext missed (.load w (.reads size data)) = some loaded
  before : Meanwhile w loaded adding
  insert : workerNext adding (.insert w) = some added
  after : Meanwhile w added answering
  answer : workerNext answering (.answer w) = some answered

/-- The response is the bytes which were read, with their number announced, and so is the entry which the
insertion wrote into a slot. -/
structure OnlyBytesRead (request : Request) (data : List UInt8)
    (adding added answering answered : WorkersState ι) :
    Prop where
  response : answered.sent =
    answering.sent ++ [(request, .result (getContentType request.request) data.length data)]
  entry : ∃ slot < adding.cache.entries.length,
    added.cache.entries = adding.cache.entries.set slot ⟨data.length, request.request, data, 0⟩

/-- The disk can report what is read. -/
theorem MissPath.possible {w : ι} {request : Request} {size : ℕ} {data : List UInt8}
    {missed loaded adding added answering answered : WorkersState ι}
    (h : MissPath w request size data missed loaded adding added answering answered) :
    (DiskOutcome.reads size data).Possible := by
  obtain ⟨-, -, hpossible, -⟩ := load_cases h.load
  exact hpossible

/-- What the path stores and answers: both are cut from the buffer at the size converted to `int`. -/
theorem MissPath.stores_and_answers {w : ι} {request : Request} {size : ℕ} {data : List UInt8}
    {missed loaded adding added answering answered : WorkersState ι}
    (h : MissPath w request size data missed loaded adding added answering answered) :
    (∃ slot < adding.cache.entries.length, added.cache.entries =
      adding.cache.entries.set slot (newCacheEntry request.request (fileBuffer size data)
        (toInt size))) ∧
    answered.sent =
      answering.sent ++ [(request, missResponse request.request (.reads size data))] := by
  have hload := h.load
  simp only [workerNext, h.worker, if_pos h.possible] at hload
  have hloaded : loaded.workers w = .loaded request (fileBuffer size data) size := by
    rw [← Option.some.inj hload]
    exact Function.update_self ..
  obtain ⟨request', buf, size', cache, hadding, hadd, rfl⟩ := insert_cases h.insert
  obtain ⟨rfl, rfl, rfl⟩ : request = request' ∧ fileBuffer size data = buf ∧ size = size' := by
    simpa using hloaded.symm.trans (h.before.workers.symm.trans hadding)
  have hadded : answering.workers w = .inserted request (fileBuffer size data) size :=
    h.after.workers.trans (Function.update_self ..)
  obtain ⟨request', buf, size', hanswering, rfl⟩ := answer_cases h.answer
  obtain ⟨rfl, rfl, rfl⟩ : request' = request ∧ buf = fileBuffer size data ∧ size' = size := by
    simpa using hanswering.symm.trans hadded
  exact ⟨addIntoCache_entries hadd, rfl⟩

/-- The answer after a miss has only bytes from the file if and only if `read` returned as many bytes as
it was asked for. -/
theorem onlyBytesRead_iff {w : ι} {request : Request} {size : ℕ} {data : List UInt8}
    {missed loaded adding added answering answered : WorkersState ι}
    (hpath : MissPath w request size data missed loaded adding added answering answered) :
    OnlyBytesRead request data adding added answering answered ↔ data.length = readCount size := by
  obtain ⟨-, hssize, hle⟩ := hpath.possible
  obtain ⟨⟨slot, hslot, hentry⟩, hanswer⟩ := hpath.stores_and_answers
  constructor
  · intro honly
    have hsent := List.append_cancel_left (hanswer.symm.trans honly.response)
    simp only [missResponse, returnResult, List.cons.injEq, Prod.mk.injEq, Response.result.injEq,
      true_and, and_true] at hsent
    rw [readCount, hsent.1, toSizeT_natCast (by omega)]
  · intro hcount
    have hnonneg : 0 ≤ toInt size := (readCount_le hssize).1
    have hlength : toInt size = data.length := by
      rw [hcount, readCount, toSizeT_of_lt hnonneg (by have := toInt_lt size; omega)]
    have hbytes : (fileBuffer size data).take (readCount size) = data := by
      rw [← hcount, fileBuffer, List.take_left]
    constructor
    · rw [hanswer, missResponse, returnResult, ← readCount, hbytes, hlength]
    · refine ⟨slot, hslot, ?_⟩
      rw [hentry, newCacheEntry, ← readCount, hbytes, hlength]

/-- A server with one worker, which missed the file `/a` in a cache of one slot. -/
def missedA : WorkersState Unit where
  cache := initCache 1 [⟨0, [], [], 0⟩]
  workers _ := .missed ⟨5, bytes "/a"⟩
  sent := []

/-- A file on the path of a miss, while no other worker runs. -/
theorem missPath_missedA {size : ℕ} {data : List UInt8} (h : (DiskOutcome.reads size data).Possible) :
    ∃ loaded added answered,
      MissPath () ⟨5, bytes "/a"⟩ size data missedA loaded loaded added added answered := by
  have hload : workerNext missedA (.load () (.reads size data)) = some
      { missedA with
        workers := Function.update missedA.workers ()
          (.loaded ⟨5, bytes "/a"⟩ (fileBuffer size data) size) } :=
    if_pos h
  exact ⟨_, _, _, rfl, hload, ⟨[], .nil⟩, rfl, ⟨[], .nil⟩, rfl⟩

/-- A file of three bytes which is read completely is stored and sent as it is. -/
theorem onlyBytesRead_iff_completeRead : ∃ loaded added answered,
    MissPath () ⟨5, bytes "/a"⟩ 3 [1, 2, 3] missedA loaded loaded added added answered ∧
      OnlyBytesRead ⟨5, bytes "/a"⟩ [1, 2, 3] loaded added added answered := by
  obtain ⟨loaded, added, answered, hpath⟩ :=
    missPath_missedA (show (DiskOutcome.reads 3 [1, 2, 3]).Possible by decide)
  exact ⟨loaded, added, answered, hpath, (onlyBytesRead_iff hpath).mpr (by decide)⟩

/-- A file which is truncated to one byte after `stat` reported three: the answer announces three
bytes. -/
theorem not_onlyBytesRead_shortRead : ∃ loaded added answered,
    MissPath () ⟨5, bytes "/a"⟩ 3 [1] missedA loaded loaded added added answered ∧
      ¬ OnlyBytesRead ⟨5, bytes "/a"⟩ [1] loaded added added answered := by
  obtain ⟨loaded, added, answered, hpath⟩ := missPath_missedA
      (show (DiskOutcome.reads 3 [1]).Possible by decide)
  refine ⟨loaded, added, answered, hpath, fun honly => ?_⟩
  have hsent := List.append_cancel_left (hpath.stores_and_answers.2.symm.trans honly.response)
  exact absurd hsent (by decide)

end Csci4061.WebServer
