import Csci4061.Lib.CondVar
import Csci4061.WebServer.RequestQueue

/-!
# The mutex and the two condition variables

Dispatchers wait on `freed` while the queue is full and workers wait on `filled` while it is
empty. Both signal the other side after they released `mtx`, so a signal may find nobody
asleep, and a thread which never slept may take what a woken thread was signalled for. Counting
the signals still to be sent and the threads still to recheck shows that no wake-up is lost.

The two sides run the same code with the roles of full and empty exchanged, hence one
definition with the side as a parameter.
-/

namespace Csci4061.WebServer

open Csci4061.Lib

/-- The two kinds of threads. -/
inductive Side
  | dispatcher
  | worker
  deriving DecidableEq

/-- The side which a thread signals. -/
def Side.other : Side → Side
  | .dispatcher => .worker
  | .worker => .dispatcher

/-- Where a thread stands with respect to `mtx` and its condition variable. -/
inductive ThreadState
  /-- Outside the critical section. -/
  | running
  /-- Holding `mtx`, before the first test of the wait condition. -/
  | holding
  /-- In `pthread_cond_wait`, with `mtx` released. -/
  | asleep
  /-- Woken by a signal or spuriously, not yet holding `mtx` again. -/
  | woken
  /-- Woken and holding `mtx` again, before it rechecks the wait condition. -/
  | rechecking
  /-- Past the critical section with `mtx` released, the signal not yet sent. -/
  | signalling
  deriving DecidableEq

/-- A thread about to signal the other side. -/
def ThreadState.isSignalling : ThreadState → Bool
  | .signalling => true
  | _ => false

/-- A thread which was woken and has not rechecked its wait condition yet. -/
def ThreadState.isWoken : ThreadState → Bool
  | .woken => true
  | .rechecking => true
  | _ => false

/-- A thread about to test its wait condition. -/
def ThreadState.isTesting : ThreadState → Bool
  | .holding => true
  | .rechecking => true
  | _ => false

/-- The request queue, the owner of `mtx` and the state of every thread. -/
structure Monitor where
  queue : RequestQueue
  mtx : Option (Side × ℕ)
  threads : Side → List ThreadState

/-- The condition of a side's wait loop: full for dispatchers, empty for workers. -/
def Blocked (q : RequestQueue) : Side → Prop
  | .dispatcher => q.Full
  | .worker => q.Empty

/-- What a side waits for: free slots for dispatchers, requests for workers. -/
def available (q : RequestQueue) : Side → ℤ
  | .dispatcher => q.requestQueueSize - q.numRequestsInQueue
  | .worker => q.numRequestsInQueue

instance (q : RequestQueue) : (side : Side) → Decidable (Blocked q side)
  | .dispatcher => inferInstanceAs (Decidable q.Full)
  | .worker => inferInstanceAs (Decidable q.Empty)

/-- Replace the states of one side. -/
def Monitor.setSide (s : Monitor) (side : Side) (ts : List ThreadState) : Monitor :=
  { s with threads := Function.update s.threads side ts }

/-- Move thread `i` of a side to another state. -/
def Monitor.setThread (s : Monitor) (side : Side) (i : ℕ) (t : ThreadState) : Monitor :=
  s.setSide side ((s.threads side).set i t)

/-- The steps of the threads. -/
inductive MonitorLabel
  /-- `pthread_mutex_lock` returns. -/
  | lock (side : Side) (i : ℕ)
  /-- A woken thread gets `mtx` back inside `pthread_cond_wait`. -/
  | relock (side : Side) (i : ℕ)
  /-- The wait condition holds: `pthread_cond_wait` releases `mtx` and sleeps. -/
  | sleep (side : Side) (i : ℕ)
  /-- A dispatcher finds a free slot, stores its request and unlocks. -/
  | store (i : ℕ) (request : Request)
  /-- A worker finds a request, takes it and unlocks. -/
  | take (i : ℕ) (request : Request)
  /-- `pthread_cond_signal` on the condition variable of the other side. -/
  | signal (side : Side) (i : ℕ)
  /-- A sleeper is woken without a signal. -/
  | spurious (side : Side) (i : ℕ)

/-- The threads of the web server at the request queue, for any number of threads per side. -/
def monitorSystem (qlen : ℤ) : TransitionSystem Monitor MonitorLabel where
  init s := s.mtx = none ∧ (∀ side, ∀ t ∈ s.threads side, t = .running) ∧
    ∃ memory : List Request, (memory.length : ℤ) = qlen ∧ s.queue = initRequestQueue qlen memory
  step s label s' :=
    match label with
    | .lock side i => s.mtx = none ∧ (s.threads side)[i]? = some .running ∧
        s' = { s.setThread side i .holding with mtx := some (side, i) }
    | .relock side i => s.mtx = none ∧ (s.threads side)[i]? = some .woken ∧
        s' = { s.setThread side i .rechecking with mtx := some (side, i) }
    | .sleep side i => (∃ t, (s.threads side)[i]? = some t ∧ t.isTesting) ∧ Blocked s.queue side ∧
        s' = { s.setThread side i .asleep with mtx := none }
    | .store i request => (∃ t, (s.threads .dispatcher)[i]? = some t ∧ t.isTesting) ∧
        ¬ Blocked s.queue .dispatcher ∧ ∃ q, storeRequest s.queue request = some q ∧
        s' = { s.setThread .dispatcher i .signalling with mtx := none, queue := q }
    | .take i request => (∃ t, (s.threads .worker)[i]? = some t ∧ t.isTesting) ∧
        ¬ Blocked s.queue .worker ∧ ∃ q, takeRequest s.queue = some (request, q) ∧
        s' = { s.setThread .worker i .signalling with mtx := none, queue := q }
    | .signal side i => (s.threads side)[i]? = some .signalling ∧
        ∃ woken, Wakes .asleep .woken (s.threads side.other) woken ∧
        s' = (s.setThread side i .running).setSide side.other woken
    | .spurious side i => (s.threads side)[i]? = some .asleep ∧ s' = s.setThread side i .woken

/-- The threads of a side which have unlocked and not yet signalled. -/
def Monitor.signalsPending (s : Monitor) (side : Side) : ℕ :=
  (s.threads side).countP ThreadState.isSignalling

/-- The threads of a side which were woken and have not yet rechecked. -/
def Monitor.wokenPending (s : Monitor) (side : Side) : ℕ :=
  (s.threads side).countP ThreadState.isWoken

/-- If a thread of a side sleeps, then whatever it waits for is covered by wake-ups in flight:
signals of the other side still to be sent, or woken threads still to recheck. -/
def Monitor.Covered (s : Monitor) (side : Side) : Prop :=
  .asleep ∈ s.threads side →
    available s.queue side ≤ s.signalsPending side.other + s.wokenPending side

/-- What holds of a side and of the side it signals holds of both sides. -/
theorem Side.forall_of_both {P : Side → Prop} (side : Side) (hown : P side) (hother : P side.other) :
    ∀ x, P x := by
  intro x
  cases side <;> cases x <;> first | exact hown | exact hother

/-- The other side of the other side. -/
@[simp] theorem Side.other_other (side : Side) : side.other.other = side := by cases side <;> rfl

/-- The two sides differ. -/
theorem Side.other_ne (side : Side) : side.other ≠ side := by cases side <;> decide

/-- The states of the replaced side. -/
@[simp] theorem setSide_threads_self (s : Monitor) (side : Side) (ts : List ThreadState) :
    (s.setSide side ts).threads side = ts := by
  simp [Monitor.setSide]

/-- Replacing the states of one side leaves the other alone. -/
theorem setSide_threads_ne (s : Monitor) {side x : Side} (h : x ≠ side) (ts : List ThreadState) :
    (s.setSide side ts).threads x = s.threads x := by
  simp [Monitor.setSide, h]

/-- The moved thread, in the list of its side. -/
@[simp] theorem setThread_threads_self (s : Monitor) (side : Side) (i : ℕ) (t : ThreadState) :
    (s.setThread side i t).threads side = (s.threads side).set i t :=
  setSide_threads_self s side _

/-- Moving a thread leaves the other side alone. -/
theorem setThread_threads_ne (s : Monitor) {side x : Side} (h : x ≠ side) (i : ℕ) (t : ThreadState) :
    (s.setThread side i t).threads x = s.threads x :=
  setSide_threads_ne s h _

/-- Storing a request uses one free slot. -/
theorem available_of_store {q q' : RequestQueue} {request : Request}
    (h : storeRequest q request = some q') :
    available q' .worker = available q .worker + 1 ∧
      available q' .dispatcher = available q .dispatcher - 1 := by
  obtain ⟨requests, -, rfl⟩ := Option.map_eq_some_iff.mp h
  refine ⟨rfl, ?_⟩
  change q.requestQueueSize - (q.numRequestsInQueue + 1) = q.requestQueueSize - q.numRequestsInQueue - 1
  omega

/-- Taking a request frees one slot. -/
theorem available_of_take {q q' : RequestQueue} {request : Request}
    (h : takeRequest q = some (request, q')) :
    available q' .worker = available q .worker - 1 ∧
      available q' .dispatcher = available q .dispatcher + 1 := by
  obtain ⟨taken, -, heq⟩ := Option.map_eq_some_iff.mp h
  obtain ⟨-, rfl⟩ := Prod.mk.inj heq
  refine ⟨rfl, ?_⟩
  change q.requestQueueSize - (q.numRequestsInQueue - 1) = q.requestQueueSize - q.numRequestsInQueue + 1
  omega

/-- A side whose wait condition holds has nothing to wait for. -/
theorem available_of_blocked {q : RequestQueue} {side : Side} (h : Blocked q side) :
    available q side = 0 := by
  cases side with
  | dispatcher =>
    have hfull : q.numRequestsInQueue = q.requestQueueSize := h
    simp [available, hfull]
  | worker => exact h

/-- One thread moves. Its own side stays covered if nothing is available there or if the woken
threads make up for what became available; the other side, if the pending signals do. -/
theorem covered_of_move {s s' : Monitor} {side : Side} {i : ℕ} {a b : ThreadState}
    (hs : ∀ x, s.Covered x) (hthread : (s.threads side)[i]? = some a)
    (hthreads : s'.threads = (s.setThread side i b).threads)
    (hown : available s'.queue side ≤ 0 ∨ b ≠ .asleep ∧
      available s'.queue side + a.isWoken.toNat ≤ available s.queue side + b.isWoken.toNat)
    (hother : available s'.queue side.other + a.isSignalling.toNat ≤
      available s.queue side.other + b.isSignalling.toNat) :
    ∀ x, s'.Covered x := by
  have hself : s'.threads side = (s.threads side).set i b := by
    rw [hthreads, setThread_threads_self]
  have hrest : s'.threads side.other = s.threads side.other := by
    rw [hthreads, setThread_threads_ne s side.other_ne]
  have hwoken := countP_set_add ThreadState.isWoken b hthread
  have hsignal := countP_set_add ThreadState.isSignalling b hthread
  rw [← hself] at hwoken hsignal
  refine Side.forall_of_both (P := s'.Covered) side ?_ ?_
  · intro hasleep
    simp only [Monitor.signalsPending, Monitor.wokenPending, hrest]
    rcases hown with hnone | ⟨hb, hown⟩
    · omega
    · rw [hself] at hasleep
      have hcovered := hs side (mem_of_mem_set_ne hb.symm hasleep)
      simp only [Monitor.signalsPending, Monitor.wokenPending] at hcovered
      omega
  · intro hasleep
    rw [hrest] at hasleep
    have hcovered := hs side.other hasleep
    simp only [Monitor.signalsPending, Monitor.wokenPending, Side.other_other, hrest] at hcovered ⊢
    omega

/-- A signal is spent, and if the other side has sleepers then one of them is woken instead. -/
theorem covered_of_signal {s s' : Monitor} {side : Side} {i : ℕ} {woken : List ThreadState}
    (hs : ∀ x, s.Covered x) (hthread : (s.threads side)[i]? = some .signalling)
    (hwakes : Wakes .asleep .woken (s.threads side.other) woken)
    (hself : s'.threads side = (s.threads side).set i .running)
    (hrest : s'.threads side.other = woken) (hqueue : s'.queue = s.queue) :
    ∀ x, s'.Covered x := by
  have hwoken := countP_set_add ThreadState.isWoken .running hthread
  have hsignal := countP_set_add ThreadState.isSignalling .running hthread
  rw [← hself] at hwoken hsignal
  simp only [ThreadState.isWoken, ThreadState.isSignalling, Bool.toNat_false,
    Bool.toNat_true] at hwoken hsignal
  refine Side.forall_of_both (P := s'.Covered) side ?_ ?_
  · intro hasleep
    rw [hself] at hasleep
    have hcovered := hs side (mem_of_mem_set_ne (by decide) hasleep)
    have hsame : woken.countP ThreadState.isSignalling = _ := hwakes.countP_eq rfl
    simp only [Monitor.signalsPending, Monitor.wokenPending, hrest, hqueue, hsame] at hcovered ⊢
    omega
  · intro hasleep
    rw [hrest] at hasleep
    have hslept := hwakes.mem_asleep (by decide) hasleep
    have hcovered := hs side.other hslept
    have hmore : _ < woken.countP ThreadState.isWoken := hwakes.countP_lt rfl rfl hslept
    simp only [Monitor.signalsPending, Monitor.wokenPending, Side.other_other, hrest,
      hqueue] at hcovered ⊢
    omega

/-- A thread about to test its wait condition was counted as woken at most once, and is not
about to signal. -/
theorem isTesting_counts {t : ThreadState} (h : t.isTesting = true) :
    t.isWoken.toNat ≤ 1 ∧ t.isSignalling.toNat = 0 := by
  cases t <;> simp_all [ThreadState.isTesting, ThreadState.isWoken, ThreadState.isSignalling]

/-- Every step of every thread keeps both sides covered. -/
theorem covered_step {qlen : ℤ} {s s' : Monitor} {label : MonitorLabel} (hs : ∀ x, s.Covered x)
    (hstep : (monitorSystem qlen).step s label s') : ∀ x, s'.Covered x := by
  cases label with
  | lock side i =>
    obtain ⟨-, hthread, rfl⟩ := hstep
    exact covered_of_move hs hthread rfl (Or.inr ⟨by decide, le_refl _⟩) (le_refl _)
  | relock side i =>
    obtain ⟨-, hthread, rfl⟩ := hstep
    exact covered_of_move hs hthread rfl (Or.inr ⟨by decide, le_refl _⟩) (le_refl _)
  | sleep side i =>
    obtain ⟨⟨t, hthread, ht⟩, hblocked, rfl⟩ := hstep
    have hsignal := (isTesting_counts ht).2
    refine covered_of_move hs hthread rfl (Or.inl (available_of_blocked hblocked).le) ?_
    rw [hsignal]
    exact le_refl _
  | store i request =>
    obtain ⟨⟨t, hthread, ht⟩, -, q, hq, rfl⟩ := hstep
    obtain ⟨hwoken, hsignal⟩ := isTesting_counts ht
    obtain ⟨hworker, hdispatcher⟩ := available_of_store hq
    refine covered_of_move hs hthread rfl (Or.inr ⟨by decide, ?_⟩) ?_
    · change available q .dispatcher + t.isWoken.toNat ≤ available s.queue .dispatcher + (0 : ℕ)
      omega
    · change available q .worker + t.isSignalling.toNat ≤ available s.queue .worker + (1 : ℕ)
      omega
  | take i request =>
    obtain ⟨⟨t, hthread, ht⟩, -, q, hq, rfl⟩ := hstep
    obtain ⟨hwoken, hsignal⟩ := isTesting_counts ht
    obtain ⟨hworker, hdispatcher⟩ := available_of_take hq
    refine covered_of_move hs hthread rfl (Or.inr ⟨by decide, ?_⟩) ?_
    · change available q .worker + t.isWoken.toNat ≤ available s.queue .worker + (0 : ℕ)
      omega
    · change available q .dispatcher + t.isSignalling.toNat ≤ available s.queue .dispatcher + (1 : ℕ)
      omega
  | signal side i =>
    obtain ⟨hthread, woken, hwakes, rfl⟩ := hstep
    refine covered_of_signal hs hthread hwakes ?_ (setSide_threads_self _ _ _) rfl
    rw [setSide_threads_ne _ side.other_ne.symm, setThread_threads_self]
  | spurious side i =>
    obtain ⟨hthread, rfl⟩ := hstep
    refine covered_of_move hs hthread rfl (Or.inr ⟨by decide, ?_⟩) (le_refl _)
    exact Int.add_le_add_left (by decide) _

/-- The threads between their lock and their next test are the owner of `mtx`. -/
def Monitor.Exclusive (s : Monitor) : Prop :=
  ∀ side i t, (s.threads side)[i]? = some t → t.isTesting → s.mtx = some (side, i)

/-- A thread in the list of one side after thread `i` of a side moved. -/
theorem setThread_getElem? {s : Monitor} {side x : Side} {i j : ℕ} {t u : ThreadState}
    (h : ((s.setThread side i t).threads x)[j]? = some u) :
    (x = side ∧ j = i ∧ u = t) ∨ ((x ≠ side ∨ j ≠ i) ∧ (s.threads x)[j]? = some u) := by
  by_cases hx : x = side
  · subst hx
    rw [setThread_threads_self, List.getElem?_set] at h
    split at h
    · split at h
      · exact Or.inl ⟨rfl, by omega, by simpa using h.symm⟩
      · simp at h
    · exact Or.inr ⟨Or.inr (by omega), h⟩
  · rw [setThread_threads_ne s hx] at h
    exact Or.inr ⟨Or.inl hx, h⟩

/-- A thread which gets the free `mtx` becomes its owner. -/
theorem Monitor.Exclusive.acquire {s : Monitor} (hs : s.Exclusive) (hfree : s.mtx = none)
    (side : Side) (i : ℕ) (t : ThreadState) :
    Monitor.Exclusive { s.setThread side i t with mtx := some (side, i) } := by
  intro x j u hu htesting
  rcases setThread_getElem? hu with ⟨rfl, rfl, -⟩ | ⟨-, hold⟩
  · rfl
  · have hmtx := hs x j u hold htesting
    rw [hfree] at hmtx
    exact absurd hmtx (by simp)

/-- The owner of `mtx` releases it as it leaves the tests. -/
theorem Monitor.Exclusive.release {s : Monitor} (hs : s.Exclusive) {side : Side} {i : ℕ}
    {a t : ThreadState} (hthread : (s.threads side)[i]? = some a) (ha : a.isTesting)
    (ht : t.isTesting = false) (q : RequestQueue) :
    Monitor.Exclusive { s.setThread side i t with mtx := none, queue := q } := by
  intro x j u hu htesting
  rcases setThread_getElem? hu with ⟨-, -, rfl⟩ | ⟨hne, hold⟩
  · rw [ht] at htesting
    exact absurd htesting (by decide)
  · have howner := hs side i a hthread ha
    have hmtx := hs x j u hold htesting
    rw [howner] at hmtx
    obtain ⟨rfl, rfl⟩ := Prod.mk.inj (Option.some.inj hmtx)
    exact absurd hne (by simp)

/-- A thread which moves outside the critical section leaves the owner alone. -/
theorem Monitor.Exclusive.outside {s : Monitor} (hs : s.Exclusive) (side : Side) (i : ℕ)
    {t : ThreadState} (ht : t.isTesting = false) : (s.setThread side i t).Exclusive := by
  intro x j u hu htesting
  rcases setThread_getElem? hu with ⟨-, -, rfl⟩ | ⟨-, hold⟩
  · rw [ht] at htesting
    exact absurd htesting (by decide)
  · exact hs x j u hold htesting

/-- A woken list has no thread between lock and test which the old one did not have. -/
theorem isTesting_of_wakes {before after : List ThreadState}
    (h : Wakes .asleep .woken before after) {j : ℕ} {u : ThreadState} (hu : after[j]? = some u)
    (htesting : u.isTesting) : before[j]? = some u := by
  have hmoves := h.moves
  clear h
  induction hmoves generalizing j with
  | nil => simp at hu
  | cons hmove _ ih =>
    cases j with
    | zero =>
      obtain rfl : _ = u := by simpa using hu
      rcases hmove with rfl | ⟨-, rfl⟩
      · rfl
      · exact absurd htesting (by decide)
    | succ j => exact ih (by simpa using hu)

/-- Every step keeps the ownership of `mtx` exclusive. -/
theorem exclusive_step {qlen : ℤ} {s s' : Monitor} {label : MonitorLabel} (hs : s.Exclusive)
    (hstep : (monitorSystem qlen).step s label s') : s'.Exclusive := by
  cases label with
  | lock side i =>
    obtain ⟨hfree, -, rfl⟩ := hstep
    exact hs.acquire hfree side i _
  | relock side i =>
    obtain ⟨hfree, -, rfl⟩ := hstep
    exact hs.acquire hfree side i _
  | sleep side i =>
    obtain ⟨⟨t, hthread, ht⟩, -, rfl⟩ := hstep
    exact hs.release hthread ht rfl s.queue
  | store i request =>
    obtain ⟨⟨t, hthread, ht⟩, -, q, -, rfl⟩ := hstep
    exact hs.release hthread ht rfl q
  | take i request =>
    obtain ⟨⟨t, hthread, ht⟩, -, q, -, rfl⟩ := hstep
    exact hs.release hthread ht rfl q
  | signal side i =>
    obtain ⟨-, woken, hwakes, rfl⟩ := hstep
    intro x j u hu htesting
    refine hs.outside side i (t := .running) rfl x j u ?_ htesting
    by_cases hx : x = side.other
    · subst hx
      rw [setSide_threads_self] at hu
      rw [setThread_threads_ne s side.other_ne]
      exact isTesting_of_wakes hwakes hu htesting
    · rwa [setSide_threads_ne _ hx] at hu
  | spurious side i =>
    obtain ⟨-, rfl⟩ := hstep
    exact hs.outside side i rfl

/-- The critical sections exclude each other: at most one thread is between its lock and its
next test, which is what lets the queue system take a critical section as one step. -/
theorem monitor_mutual_exclusion {qlen : ℤ} {s : Monitor} (h : (monitorSystem qlen).Reachable s)
    {side side' : Side} {i i' : ℕ} {t t' : ThreadState} (ht : (s.threads side)[i]? = some t)
    (ht' : (s.threads side')[i']? = some t') (htest : t.isTesting) (htest' : t'.isTesting) :
    side = side' ∧ i = i' := by
  have hexclusive : s.Exclusive := by
    refine h.invariant ?_ fun s label t hs hstep => exclusive_step hs hstep
    intro s hs x j u hu htesting
    rw [hs.2.1 x u (List.mem_of_getElem? hu)] at htesting
    exact absurd htesting (by decide)
  have howner := hexclusive side i t ht htest
  rw [hexclusive side' i' t' ht' htest'] at howner
  obtain ⟨rfl, rfl⟩ := Prod.mk.inj (Option.some.inj howner)
  exact ⟨rfl, rfl⟩

/-- The critical section which a step of the threads performs, if it performs one. -/
def MonitorLabel.section? : MonitorLabel → Option (QueueLabel ℕ ℕ)
  | .store i request => some (.enqueue i request)
  | .take i request => some (.dequeue i request)
  | _ => none

/-- The threads with their mutex and condition variables refine the atomic critical sections. -/
def monitorRefinement (qlen : ℤ) :
    TransitionSystem.Refinement (monitorSystem qlen) (queueSystem ℕ ℕ qlen) where
  inv _ := True
  abs s := s.queue
  visible := MonitorLabel.section?
  inv_init _ _ := trivial
  inv_step _ _ _ _ _ := trivial
  abs_init s hs := hs.2.2
  abs_step s label s' _ hstep := by
    cases label with
    | store i request =>
      obtain ⟨-, hfull, q, hq, rfl⟩ := hstep
      exact ⟨hfull, hq⟩
    | take i request =>
      obtain ⟨-, hempty, q, hq, rfl⟩ := hstep
      exact ⟨hempty, hq⟩
    | lock side i =>
      obtain ⟨-, -, rfl⟩ := hstep
      rfl
    | relock side i =>
      obtain ⟨-, -, rfl⟩ := hstep
      rfl
    | sleep side i =>
      obtain ⟨-, -, rfl⟩ := hstep
      rfl
    | signal side i =>
      obtain ⟨-, woken, -, rfl⟩ := hstep
      rfl
    | spurious side i =>
      obtain ⟨-, rfl⟩ := hstep
      rfl

/-- Through the waiting, the signals and the spurious wake-ups, the requests stored are the
requests taken followed by the contents of the queue. -/
theorem monitor_stored_eq {qlen : ℕ} (hqlen : 0 < qlen) {s₀ s : Monitor} {labels : List MonitorLabel}
    (hinit : (monitorSystem qlen).init s₀) (hrun : (monitorSystem qlen).Run s₀ labels s) :
    storedRequests (labels.filterMap MonitorLabel.section?) =
      takenRequests (labels.filterMap MonitorLabel.section?) ++ s.queue.contents := by
  let R := (requestQueueRefinement ℕ ℕ qlen hqlen).comp (monitorRefinement qlen)
  have hfifo := R.run (R.inv_init s₀ hinit) hrun
  have hempty : R.abs s₀ = [] := R.abs_init s₀ hinit
  rw [hempty] at hfifo
  have hstored := boundedFifo_pushed_eq hfifo
  rw [List.filterMap_filterMap, List.filterMap_filterMap] at hstored
  simp only [storedRequests, takenRequests, List.filterMap_filterMap]
  simpa [R, TransitionSystem.Refinement.comp, requestQueueRefinement, monitorRefinement,
    Option.bind_assoc] using hstored

/-- No wake-up is lost. In every reachable state, the requests a sleeping worker could take are
at most the dispatchers which still have to signal `filled` and the workers which still have to
recheck; likewise the free slots for a sleeping dispatcher. -/
theorem monitor_no_lost_wakeup {qlen : ℤ} {s : Monitor} (h : (monitorSystem qlen).Reachable s) :
    (.asleep ∈ s.threads .worker →
      s.queue.numRequestsInQueue ≤ s.signalsPending .dispatcher + s.wokenPending .worker) ∧
    (.asleep ∈ s.threads .dispatcher →
      s.queue.requestQueueSize - s.queue.numRequestsInQueue ≤
        s.signalsPending .worker + s.wokenPending .dispatcher) ∧
    ¬ (0 < s.queue.numRequestsInQueue ∧ .asleep ∈ s.threads .worker ∧
      s.signalsPending .dispatcher = 0 ∧ s.wokenPending .worker = 0) := by
  have hcovered : ∀ x, s.Covered x := by
    refine h.invariant (I := fun s => ∀ x, s.Covered x) ?_ fun s label t hs hstep =>
      covered_step hs hstep
    intro s hs x hasleep
    exact absurd (hs.2.1 x _ hasleep) (by decide)
  have hworker := hcovered .worker
  refine ⟨hworker, hcovered .dispatcher, ?_⟩
  rintro ⟨hqueued, hasleep, hsignals, hwoken⟩
  have hle : s.queue.numRequestsInQueue ≤ s.signalsPending .dispatcher + s.wokenPending .worker :=
    hworker hasleep
  omega

/-- The states of one dispatcher and one worker. -/
def oneEach (d w : ThreadState) : Side → List ThreadState
  | .dispatcher => [d]
  | .worker => [w]

/-- The worker sleeps and the dispatcher stores and unlocks: one request, one signal in flight. -/
theorem monitor_no_lost_wakeup_inFlight :
    let s : Monitor := ⟨⟨0, 0, 1, 1, [⟨4, []⟩]⟩, none, oneEach .signalling .asleep⟩
    s.queue.numRequestsInQueue ≤ s.signalsPending .dispatcher + s.wokenPending .worker := by
  let T := monitorSystem 1
  let q : RequestQueue := ⟨0, 0, 0, 1, [⟨0, []⟩]⟩
  let q' : RequestQueue := ⟨0, 0, 1, 1, [⟨4, []⟩]⟩
  have hinit : T.init ⟨q, none, oneEach .running .running⟩ :=
    ⟨rfl, by rintro (_ | _) <;> simp [oneEach], [⟨0, []⟩], rfl, rfl⟩
  have hlockW : T.step ⟨q, none, oneEach .running .running⟩ (.lock .worker 0)
      ⟨q, some (.worker, 0), oneEach .running .holding⟩ :=
    ⟨rfl, rfl, congrArg (Monitor.mk q _) (funext fun x => by cases x <;> rfl)⟩
  have hsleep : T.step ⟨q, some (.worker, 0), oneEach .running .holding⟩ (.sleep .worker 0)
      ⟨q, none, oneEach .running .asleep⟩ :=
    ⟨⟨_, rfl, rfl⟩, rfl, congrArg (Monitor.mk q _) (funext fun x => by cases x <;> rfl)⟩
  have hlockD : T.step ⟨q, none, oneEach .running .asleep⟩ (.lock .dispatcher 0)
      ⟨q, some (.dispatcher, 0), oneEach .holding .asleep⟩ :=
    ⟨rfl, rfl, congrArg (Monitor.mk q _) (funext fun x => by cases x <;> rfl)⟩
  have hstore : T.step ⟨q, some (.dispatcher, 0), oneEach .holding .asleep⟩ (.store 0 ⟨4, []⟩)
      ⟨q', none, oneEach .signalling .asleep⟩ :=
    ⟨⟨_, rfl, rfl⟩, by decide, q', rfl,
      congrArg (Monitor.mk q' _) (funext fun x => by cases x <;> rfl)⟩
  exact (monitor_no_lost_wakeup
    ((((TransitionSystem.Reachable.of_init hinit).snoc hlockW).snoc hsleep).snoc hlockD |>.snoc hstore)).1
      (by decide)

end Csci4061.WebServer
