import Csci4061.Lib.CArray
import Csci4061.Lib.Fifo
import Csci4061.Lib.Ring

/-!
# The request queue of the web server

Dispatchers store and workers take under `mtx`, so each critical section is one step of the
system below. The circular array with its two slot indices and its count refines the bounded
first-in first-out queue, for any number of threads and any order of their steps.

The block returned by `malloc` is not initialised, and no result depends on what it holds.
-/

namespace Csci4061.WebServer

open Csci4061.Lib

/-- An entity stored within the request buffer (`request_t`): a connection and its path. -/
structure Request where
  fd : ℤ
  request : CString
  deriving DecidableEq

/-- The request buffer (`request_queue_t`). -/
structure RequestQueue where
  nextSlotToStore : ℤ
  nextSlotToService : ℤ
  numRequestsInQueue : ℤ
  requestQueueSize : ℤ
  requests : List Request
  deriving DecidableEq

/-- `initRequestQueue`, where `memory` is the block that `malloc` returns. -/
def initRequestQueue (qlen : ℤ) (memory : List Request) : RequestQueue where
  nextSlotToStore := 0
  nextSlotToService := 0
  numRequestsInQueue := 0
  requestQueueSize := qlen
  requests := memory

/-- The critical section of `dispatch` after its wait loop: store one request. -/
def storeRequest (q : RequestQueue) (newRequest : Request) : Option RequestQueue :=
  (writeSlot q.requests q.nextSlotToStore newRequest).map fun requests =>
    { q with
      requests := requests
      numRequestsInQueue := q.numRequestsInQueue + 1
      nextSlotToStore := (q.nextSlotToStore + 1).tmod q.requestQueueSize }

/-- The critical section of `worker` after its wait loop: take one request. -/
def takeRequest (q : RequestQueue) : Option (Request × RequestQueue) :=
  (readSlot q.requests q.nextSlotToService).map fun request =>
    (request, { q with
      nextSlotToService := (q.nextSlotToService + 1).tmod q.requestQueueSize
      numRequestsInQueue := q.numRequestsInQueue - 1 })

/-- The condition of the wait loop of `dispatch`. -/
def RequestQueue.Full (q : RequestQueue) : Prop := q.numRequestsInQueue = q.requestQueueSize

/-- The condition of the wait loop of `worker`. -/
def RequestQueue.Empty (q : RequestQueue) : Prop := q.numRequestsInQueue = 0

instance (q : RequestQueue) : Decidable q.Full := inferInstanceAs (Decidable (_ = _))

instance (q : RequestQueue) : Decidable q.Empty := inferInstanceAs (Decidable (_ = _))

/-- One critical section, by dispatcher `d` or by worker `w`. -/
inductive QueueLabel (δ ω : Type*)
  | enqueue (d : δ) (request : Request)
  | dequeue (w : ω) (request : Request)

/-- The threads of `δ` and `ω` on one request queue, each critical section one step. -/
def queueSystem (δ ω : Type*) (qlen : ℤ) : TransitionSystem RequestQueue (QueueLabel δ ω) where
  init q := ∃ memory : List Request, (memory.length : ℤ) = qlen ∧ q = initRequestQueue qlen memory
  step q label q' :=
    match label with
    | .enqueue _ request => ¬ q.Full ∧ storeRequest q request = some q'
    | .dequeue _ request => ¬ q.Empty ∧ takeRequest q = some (request, q')

variable {δ ω : Type*}

/-- The operation on the abstract queue which a critical section performs. -/
def QueueLabel.toFifo : QueueLabel δ ω → FifoLabel Request
  | .enqueue _ request => .push request
  | .dequeue _ request => .pop request

/-- The requests stored by the dispatchers, in order. -/
def storedRequests (labels : List (QueueLabel δ ω)) : List Request :=
  labels.filterMap fun label => label.toFifo.pushed

/-- The requests taken by the workers, in order. -/
def takenRequests (labels : List (QueueLabel δ ω)) : List Request :=
  labels.filterMap fun label => label.toFifo.popped

/-- The requests in the occupied slots, from the next one to service on. -/
def RequestQueue.contents (q : RequestQueue) : List Request :=
  (ringWindow q.requests q.nextSlotToService.toNat q.numRequestsInQueue.toNat).reduceOption

/-- The indices, the count and the slots agree with a list of pending requests. -/
structure QueueInv (qlen : ℕ) (q : RequestQueue) (pending : List Request) : Prop where
  size : q.requestQueueSize = qlen
  length : q.requests.length = qlen
  num : q.numRequestsInQueue = pending.length
  room : pending.length ≤ qlen
  slots : ∃ start < qlen, q.nextSlotToService = start ∧
    q.nextSlotToStore = ((start + pending.length) % qlen : ℕ) ∧
    ringWindow q.requests start pending.length = pending.map some

/-- The pending requests are the contents of the occupied slots. -/
theorem QueueInv.contents_eq {qlen : ℕ} {q : RequestQueue} {pending : List Request}
    (h : QueueInv qlen q pending) : q.contents = pending := by
  obtain ⟨start, -, hservice, -, hwindow⟩ := h.slots
  rw [RequestQueue.contents, hservice, h.num, Int.toNat_natCast, Int.toNat_natCast, hwindow]
  change (pending.map some).filterMap id = pending
  rw [List.filterMap_map]
  exact List.filterMap_some

/-- A fresh queue agrees with the empty list. -/
theorem queueInv_init {qlen : ℕ} (hqlen : 0 < qlen) (memory : List Request)
    (hmemory : memory.length = qlen) : QueueInv qlen (initRequestQueue qlen memory) [] where
  size := rfl
  length := hmemory
  num := rfl
  room := Nat.zero_le _
  slots := ⟨0, hqlen, rfl, by simp [initRequestQueue], rfl⟩

/-- The dispatcher's slot is inside the array, and storing appends to the pending requests. -/
theorem QueueInv.store {qlen : ℕ} {q : RequestQueue} {pending : List Request}
    (h : QueueInv qlen q pending) (hfull : ¬ q.Full) (request : Request) :
    ∃ q', storeRequest q request = some q' ∧ QueueInv qlen q' (pending ++ [request]) := by
  obtain ⟨start, hstart, hservice, hstore, hwindow⟩ := h.slots
  have hroom : pending.length < qlen := by
    have hne : (pending.length : ℤ) ≠ qlen := by rw [← h.num, ← h.size]; exact hfull
    have := h.room
    omega
  have hslot : (start + pending.length) % qlen < q.requests.length := by
    rw [h.length]
    exact Nat.mod_lt _ (by omega)
  have hwrite := writeSlot_natCast q.requests _ request hslot
  rw [← hstore] at hwrite
  have hlength : (pending ++ [request]).length = pending.length + 1 := by simp
  refine ⟨_, congrArg (Option.map _) hwrite, h.size, ?_, ?_, ?_, start, hstart, hservice, ?_, ?_⟩
  · rw [List.length_set, h.length]
  · change q.numRequestsInQueue + 1 = _
    rw [h.num, hlength]
    rfl
  · rw [hlength]
    exact hroom
  · change (q.nextSlotToStore + 1).tmod q.requestQueueSize = _
    rw [hstore, h.size, natCast_succ_tmod, Nat.mod_add_mod, hlength, Nat.add_assoc]
  · have hcells : pending.length < q.requests.length := h.length ▸ hroom
    have happend := ringWindow_store q.requests start pending.length request hcells
    rw [h.length] at happend
    rw [hlength, List.map_append, ← hwindow]
    exact happend

/-- The worker's slot is inside the array, and it holds the oldest pending request. -/
theorem QueueInv.take {qlen : ℕ} {q : RequestQueue} {pending : List Request}
    (h : QueueInv qlen q pending) (hempty : ¬ q.Empty) :
    ∃ request rest q', pending = request :: rest ∧ takeRequest q = some (request, q') ∧
      QueueInv qlen q' rest := by
  obtain ⟨start, hstart, hservice, hstore, hwindow⟩ := h.slots
  cases pending with
  | nil => exact absurd h.num hempty
  | cons request rest =>
    rw [List.length_cons, ringWindow_succ, List.map_cons, List.cons.injEq, h.length,
      Nat.mod_eq_of_lt hstart] at hwindow
    have hroom : rest.length + 1 ≤ qlen := h.room
    have hread : readSlot q.requests q.nextSlotToService = some request := by
      rw [hservice, readSlot_natCast, hwindow.1]
    refine ⟨request, rest, _, rfl, congrArg (Option.map _) hread, h.size, h.length, ?_, by omega,
      (start + 1) % qlen, Nat.mod_lt _ (by omega), ?_, ?_, hwindow.2⟩
    · change q.numRequestsInQueue - 1 = _
      rw [h.num, List.length_cons]
      omega
    · change (q.nextSlotToService + 1).tmod q.requestQueueSize = _
      rw [hservice, h.size, natCast_succ_tmod]
    · rw [ring_index_advance]
      exact hstore

/-- Every critical section is one operation of the abstract queue on the pending requests. -/
theorem QueueInv.step {qlen : ℕ} {q q' : RequestQueue} {pending : List Request}
    {label : QueueLabel δ ω} (h : QueueInv qlen q pending)
    (hstep : (queueSystem δ ω qlen).step q label q') :
    ∃ pending', QueueInv qlen q' pending' ∧
      (boundedFifo Request qlen).step pending label.toFifo pending' := by
  cases label with
  | enqueue d request =>
    obtain ⟨hfull, hstored⟩ := hstep
    obtain ⟨q'', hq'', hinv⟩ := h.store hfull request
    obtain rfl : q'' = q' := Option.some.inj (hq''.symm.trans hstored)
    refine ⟨_, hinv, ?_, rfl⟩
    have := hinv.room
    rwa [List.length_append, List.length_singleton] at this
  | dequeue w request =>
    obtain ⟨hempty, htaken⟩ := hstep
    obtain ⟨oldest, rest, q'', rfl, hq'', hinv⟩ := h.take hempty
    obtain ⟨rfl, rfl⟩ := Prod.mk.inj (Option.some.inj (hq''.symm.trans htaken))
    exact ⟨rest, hinv, rfl⟩

/-- The circular array refines the bounded queue, through the contents of its occupied slots. -/
def requestQueueRefinement (δ ω : Type*) (qlen : ℕ) (hqlen : 0 < qlen) :
    TransitionSystem.Refinement (queueSystem δ ω qlen) (boundedFifo Request qlen) where
  inv q := QueueInv qlen q q.contents
  abs := RequestQueue.contents
  visible label := some label.toFifo
  inv_init := by
    rintro _ ⟨memory, hmemory, rfl⟩
    have hinv := queueInv_init hqlen memory (by exact_mod_cast hmemory)
    rwa [hinv.contents_eq]
  inv_step q label q' hinv hstep := by
    obtain ⟨pending', hinv', -⟩ := hinv.step hstep
    rwa [hinv'.contents_eq]
  abs_init := by
    rintro _ ⟨memory, hmemory, rfl⟩
    exact (queueInv_init hqlen memory (by exact_mod_cast hmemory)).contents_eq
  abs_step q label q' hinv hstep := by
    obtain ⟨pending', hinv', hfifo⟩ := hinv.step hstep
    rwa [hinv'.contents_eq]

/-- The state of the queue after `stored` was enqueued and `taken` dequeued: the count and the
slot indices are in range and agree, and the occupied slots hold what was stored and not yet
taken, in the order of storing. -/
structure HoldsPending (q : RequestQueue) (stored taken : List Request) : Prop where
  num_nonneg : 0 ≤ q.numRequestsInQueue
  num_le : q.numRequestsInQueue ≤ q.requestQueueSize
  store_nonneg : 0 ≤ q.nextSlotToStore
  store_lt : q.nextSlotToStore < q.requestQueueSize
  service_nonneg : 0 ≤ q.nextSlotToService
  service_lt : q.nextSlotToService < q.requestQueueSize
  store_eq : q.nextSlotToStore =
    (q.nextSlotToService + q.numRequestsInQueue) % q.requestQueueSize
  slots : ∃ pending, stored = taken ++ pending ∧ (pending.length : ℤ) = q.numRequestsInQueue ∧
    ∀ (k : ℕ) (hk : k < pending.length),
      readSlot q.requests ((q.nextSlotToService + k) % q.requestQueueSize) = some pending[k]

/-- The invariant with the history of a run in place of the pending requests. -/
theorem QueueInv.holdsPending {qlen : ℕ} {q : RequestQueue} {stored taken pending : List Request}
    (h : QueueInv qlen q pending) (hstored : stored = taken ++ pending) :
    HoldsPending q stored taken := by
  obtain ⟨start, hstart, hservice, hstore, hwindow⟩ := h.slots
  have hpos : 0 < qlen := by omega
  have hmod : (start + pending.length) % qlen < qlen := Nat.mod_lt _ hpos
  have hnum := h.num
  have hsize := h.size
  have hroom := h.room
  refine ⟨by omega, by omega, by omega, by omega, by omega, by omega, ?_, pending, hstored, hnum.symm,
    ?_⟩
  · rw [hstore, hservice, hnum, hsize]
    rfl
  · intro k hk
    have hcell := ringWindow_getElem? q.requests start pending.length k hk
    rw [hwindow, List.getElem?_map, List.getElem?_eq_getElem hk, h.length] at hcell
    have hindex : ((start : ℤ) + k) % qlen = ((start + k) % qlen : ℕ) := rfl
    rw [hservice, hsize, hindex, readSlot_natCast]
    exact (Option.some.inj hcell).symm

/-- For every queue length, every number of threads and every interleaving of the critical
sections, the slots hold exactly the requests which were stored and not yet taken, and the
workers take a prefix of what the dispatchers stored. -/
theorem requestQueue_holdsPending {δ ω : Type*} {qlen : ℤ} (hqlen : 1 ≤ qlen) {q₀ q : RequestQueue}
    {labels : List (QueueLabel δ ω)} (hinit : (queueSystem δ ω qlen).init q₀)
    (hrun : (queueSystem δ ω qlen).Run q₀ labels q) :
    q.requestQueueSize = qlen ∧
      HoldsPending q (storedRequests labels) (takenRequests labels) ∧
      takenRequests labels <+: storedRequests labels := by
  lift qlen to ℕ using by omega
  have hpos : 0 < qlen := by omega
  let R := requestQueueRefinement δ ω qlen hpos
  have hinv₀ : R.inv q₀ := R.inv_init q₀ hinit
  have hinv : QueueInv qlen q q.contents := hrun.invariant R.inv_step hinv₀
  have hfifo := R.run hinv₀ hrun
  have hempty : R.abs q₀ = [] := R.abs_init q₀ hinit
  rw [hempty] at hfifo
  have hstored := boundedFifo_pushed_eq hfifo
  rw [List.filterMap_filterMap, List.filterMap_filterMap] at hstored
  have hprefix : storedRequests labels = takenRequests labels ++ q.contents := hstored
  exact ⟨hinv.size, hinv.holdsPending hprefix, ⟨_, hprefix.symm⟩⟩

/-- A queue of one slot: it is filled, emptied and filled again by another dispatcher. -/
theorem requestQueue_holdsPending_oneSlot :
    HoldsPending ⟨0, 0, 1, 1, [⟨5, []⟩]⟩ [⟨4, [0x2F]⟩, ⟨5, []⟩] [⟨4, [0x2F]⟩] := by
  let T := queueSystem (Fin 2) (Fin 1) 1
  have hinit : T.init ⟨0, 0, 0, 1, [⟨0, []⟩]⟩ := ⟨[⟨0, []⟩], rfl, rfl⟩
  have hfirst : T.step ⟨0, 0, 0, 1, [⟨0, []⟩]⟩ (.enqueue 0 ⟨4, [0x2F]⟩) ⟨0, 0, 1, 1, [⟨4, [0x2F]⟩]⟩ :=
    ⟨by decide, rfl⟩
  have htake : T.step ⟨0, 0, 1, 1, [⟨4, [0x2F]⟩]⟩ (.dequeue 0 ⟨4, [0x2F]⟩) ⟨0, 0, 0, 1, [⟨4, [0x2F]⟩]⟩ :=
    ⟨by decide, rfl⟩
  have hsecond : T.step ⟨0, 0, 0, 1, [⟨4, [0x2F]⟩]⟩ (.enqueue 1 ⟨5, []⟩) ⟨0, 0, 1, 1, [⟨5, []⟩]⟩ :=
    ⟨by decide, rfl⟩
  exact (requestQueue_holdsPending (by decide) hinit
    (((.snoc (.snoc (.snoc .nil hfirst) htake) hsecond)))).2.1

end Csci4061.WebServer
