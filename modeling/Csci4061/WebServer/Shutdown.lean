import Csci4061.Lib.Cancellation
import Csci4061.WebServer.Monitor
import Mathlib.Data.List.FinRange

/-!
# The shutdown of the web server

After SIGINT the main thread cancels all dispatchers and workers and then releases the queue and the
cache, without waiting for any of them. A thread goes on to its next cancellation point, and some paths
through the loops come to the queue or to the cache before.

The threads are given by their control flow, so that whatever they find in the queue, in the cache or
on the disk is one of the runs.
-/

namespace Csci4061.WebServer

open Csci4061.Lib

/-- The mutexes of the server. -/
inductive Mutex
  | acceptConMutex
  | mtx
  | cacheMtx
  | logMtx
  deriving DecidableEq

/-- What the main thread releases. -/
inductive Structure
  | queue
  | cache
  deriving DecidableEq

/-- The positions in `dispatch` and in `worker`. Both sides lock `mtx`, test the queue, wait, access the
queue, unlock and signal. -/
inductive Position
  | lockAccept
  | accept
  | unlockAccept
  | getRequest
  | lock (side : Side)
  | test (side : Side)
  /-- `pthread_cond_wait` is called, and unlocks `mtx`. -/
  | wait (side : Side)
  /-- The thread is blocked in `pthread_cond_wait`, which is a cancellation point. -/
  | asleep (side : Side)
  /-- `pthread_cond_wait` gets `mtx` again. -/
  | woken (side : Side)
  /-- A dispatcher stores its request, a worker takes one. -/
  | access (side : Side)
  | unlock (side : Side)
  | signal (side : Side)
  | getContentType
  | lockCache
  | getCacheIndex
  /-- The entry is copied after a hit. -/
  | copyEntry
  /-- `return_result` after a hit, inside the critical section. -/
  | returnHit
  | unlockCache (hit : Bool)
  | stat
  | readFromDisk
  | returnError
  | lockCacheAgain
  | addIntoCache
  | unlockCacheAgain
  | returnResult
  | lockLog
  | log
  | unlockLog
  deriving DecidableEq

/-- The positions which may come next, whatever the tests and the calls find. -/
def Position.next : Position → List Position
  | .lockAccept => [.accept]
  | .accept => [.unlockAccept]
  | .unlockAccept => [.getRequest, .lockAccept]
  | .getRequest => [.lock .dispatcher, .lockAccept]
  | .lock side => [.test side]
  | .test side => [.wait side, .access side]
  | .wait side => [.asleep side]
  | .asleep side => [.woken side]
  | .woken side => [.test side]
  | .access side => [.unlock side]
  | .unlock side => [.signal side]
  | .signal .dispatcher => [.lockAccept]
  | .signal .worker => [.getContentType]
  | .getContentType => [.lockCache]
  | .lockCache => [.getCacheIndex]
  | .getCacheIndex => [.copyEntry, .unlockCache false]
  | .copyEntry => [.returnHit]
  | .returnHit => [.unlockCache true]
  | .unlockCache true => [.lockLog]
  | .unlockCache false => [.stat]
  | .stat => [.returnError, .readFromDisk]
  | .readFromDisk => [.returnError, .lockCacheAgain]
  | .returnError => [.lockLog]
  | .lockCacheAgain => [.addIntoCache]
  | .addIntoCache => [.unlockCacheAgain]
  | .unlockCacheAgain => [.returnResult]
  | .returnResult => [.lockLog]
  | .lockLog => [.log]
  | .log => [.unlockLog]
  | .unlockLog => [.lock .worker]

/-- What a thread does at a position. Calls which read or write files or sockets are cancellation
points. -/
def Position.effect : Position → Effect Mutex Structure
  | .lockAccept => .lock .acceptConMutex
  | .accept => .io
  | .unlockAccept => .unlock .acceptConMutex
  | .getRequest => .io
  | .lock _ => .lock .mtx
  | .test _ => .use .queue
  | .wait _ => .wait .mtx
  | .asleep _ => .asleep .mtx
  | .woken _ => .lock .mtx
  | .access _ => .use .queue
  | .unlock _ => .unlock .mtx
  | .signal _ => .plain
  | .getContentType => .plain
  | .lockCache => .lock .cacheMtx
  | .getCacheIndex => .use .cache
  | .copyEntry => .use .cache
  | .returnHit => .io
  | .unlockCache _ => .unlock .cacheMtx
  | .stat => .io
  | .readFromDisk => .io
  | .returnError => .io
  | .lockCacheAgain => .lock .cacheMtx
  | .addIntoCache => .use .cache
  | .unlockCacheAgain => .unlock .cacheMtx
  | .returnResult => .io
  | .lockLog => .lock .logMtx
  | .log => .io
  | .unlockLog => .unlock .logMtx

/-- The mutex which a thread has at a position. -/
def Position.held : Position → Option Mutex
  | .accept | .unlockAccept => some .acceptConMutex
  | .test _ | .wait _ | .access _ | .unlock _ => some .mtx
  | .getCacheIndex | .copyEntry | .returnHit | .unlockCache _ | .addIntoCache | .unlockCacheAgain =>
    some .cacheMtx
  | .log | .unlockLog => some .logMtx
  | _ => none

/-- Along the control flow a thread has the mutexes which it locked. -/
theorem Position.held_next (p : Position) : ∀ q ∈ p.next, q.held = p.effect.held p.held := by
  cases p with
  | signal side => cases side <;> decide
  | unlockCache hit => cases hit <;> decide
  | lock side | test side | wait side | asleep side | woken side | access side | unlock side =>
    cases side <;> decide
  | _ => decide

/-- A thread unlocks only the mutex which it has. -/
theorem Position.held_unlock (p : Position) (m : Mutex) (h : p.effect = .unlock m) :
    p.held = some m := by
  cases p <;> simp_all [Position.effect, Position.held]

/-- A thread waits with the mutex which it has. -/
theorem Position.held_wait (p : Position) (m : Mutex) (h : p.effect = .wait m) : p.held = some m := by
  cases p <;> simp_all [Position.effect, Position.held]

/-- The control flow of the threads. -/
def serverThreads : Program Position Mutex Structure where
  next := Position.next
  effect := Position.effect
  held := Position.held
  held_next := Position.held_next
  held_unlock := Position.held_unlock
  held_wait := Position.held_wait

/-- The threads: `num_dispatcher` dispatchers and `num_workers` workers. -/
abbrev ServerThread (numDispatcher numWorkers : ℕ) := Fin numDispatcher ⊕ Fin numWorkers

/-- The threads in the order in which they are cancelled. -/
def cancelOrder (numDispatcher numWorkers : ℕ) : List (ServerThread numDispatcher numWorkers) :=
  (List.finRange numDispatcher).map Sum.inl ++ (List.finRange numWorkers).map Sum.inr

/-- Where the main thread is. -/
inductive MainState (τ : Type*)
  /-- Before the signal. -/
  | blocked
  /-- These threads are still to be cancelled. -/
  | cancelling (rest : List τ)
  /-- After `deleteRequestQueue`. -/
  | queueDeleted
  /-- After `deleteCache`. -/
  | cacheDeleted
  deriving DecidableEq

/-- The main thread and the others. -/
structure Shutdown (numDispatcher numWorkers : ℕ) where
  main : MainState (ServerThread numDispatcher numWorkers)
  threads : Threads (ServerThread numDispatcher numWorkers) Position Mutex

/-- The steps of the threads and of the main thread. -/
inductive ShutdownLabel (numDispatcher numWorkers : ℕ)
  | move (t : ServerThread numDispatcher numWorkers) (q : Position)
  | stop (t : ServerThread numDispatcher numWorkers)
  | sigint
  | cancel
  | deleteRequestQueue
  | deleteCache

variable {numDispatcher numWorkers : ℕ}

/-- One step. -/
def shutdownNext (s : Shutdown numDispatcher numWorkers) :
    ShutdownLabel numDispatcher numWorkers → Option (Shutdown numDispatcher numWorkers)
  | .move t q => (serverThreads.move s.threads t q).map fun threads => { s with threads := threads }
  | .stop t => (serverThreads.stop s.threads t).map fun threads => { s with threads := threads }
  | .sigint =>
    match s.main with
    | .blocked => some { s with main := .cancelling (cancelOrder numDispatcher numWorkers) }
    | _ => none
  | .cancel =>
    match s.main with
    | .cancelling (t :: rest) => some ⟨.cancelling rest, s.threads.cancel t⟩
    | _ => none
  | .deleteRequestQueue =>
    match s.main with
    | .cancelling [] => some { s with main := .queueDeleted }
    | _ => none
  | .deleteCache =>
    match s.main with
    | .queueDeleted => some { s with main := .cacheDeleted }
    | _ => none

/-- The positions at which the loops start. -/
def startPosition : ServerThread numDispatcher numWorkers → Position
  | .inl _ => .lockAccept
  | .inr _ => .lock .worker

/-- All threads start, and run in any order. -/
def shutdownSystem (numDispatcher numWorkers : ℕ) :
    TransitionSystem (Shutdown numDispatcher numWorkers) (ShutdownLabel numDispatcher numWorkers) :=
  .ofNext (fun s => s = ⟨.blocked, ⟨fun t => some (startPosition t), fun _ => false,
    fun _ => none⟩⟩) shutdownNext

/-- The main thread has released the structure. -/
def MainState.Released {τ : Type*} : MainState τ → Structure → Prop
  | .queueDeleted, .queue => True
  | .cacheDeleted, _ => True
  | _, _ => False

/-- The next step of no thread is an access to a structure which was released. -/
def Shutdown.UsesNothingReleased (s : Shutdown numDispatcher numWorkers) : Prop :=
  ∀ t p r, s.threads.pos t = some p → s.main.Released r → p.effect ≠ .use r

/-- A structure is released only when no thread may still come to it: every thread has stopped, or comes
to a cancellation point, or to a mutex which its owner will not unlock, before an access. -/
def ReleasesSafely (s : Shutdown numDispatcher numWorkers) :
    ShutdownLabel numDispatcher numWorkers → Prop
  | .deleteRequestQueue => serverThreads.Safe s.threads .queue
  | .deleteCache => serverThreads.Safe s.threads .cache
  | _ => True

/-- The positions from which a thread comes to a structure without a cancellation point before. -/
def Position.inWindow : Structure → Position → Bool
  | .queue, .lock _ | .queue, .test _ | .queue, .woken _ | .queue, .access _ | .queue, .unlockLog => true
  | .cache, .unlockLog | .cache, .lock .worker | .cache, .test .worker | .cache, .woken .worker
  | .cache, .access .worker | .cache, .unlock .worker | .cache, .signal .worker => true
  | .cache, .getContentType | .cache, .lockCache | .cache, .getCacheIndex | .cache, .copyEntry => true
  | .cache, .lockCacheAgain | .cache, .addIntoCache => true
  | _, _ => false

/-- The window has every position before one of its own, apart from cancellation points. -/
theorem Position.inWindow_back (r : Structure) (p : Position) (hpoint : ¬ p.effect.CancelPoint) :
    ∀ q ∈ p.next, q.inWindow r = true → p.inWindow r = true := by
  revert hpoint
  cases p with
  | lock side | test side | wait side | asleep side
  | woken side | access side | unlock side | signal side =>
    cases r <;> cases side <;> decide
  | unlockCache hit => cases r <;> cases hit <;> decide
  | _ => cases r <;> decide

/-- A thread which may come to a structure stands in its window. -/
theorem inWindow_of_mayUse {dead : Mutex → Prop} {r : Structure} {p : Position}
    (h : serverThreads.MayUse dead r p) : p.inWindow r = true := by
  refine h.mem_window (fun p => p.inWindow r = true) ?_ (Position.inWindow_back r)
  intro p huse
  cases p <;> cases r <;> simp_all [serverThreads, Position.effect, Position.inWindow]

/-- A thread may come from a position to a structure, if it gets every mutex. -/
def Position.ComesTo (p : Position) (r : Structure) : Prop := serverThreads.MayUse (fun _ => False) r p

/-- A thread goes on from a position which is no cancellation point. -/
theorem Position.ComesTo.before {r : Structure} {p q : Position} (h : q.ComesTo r)
    (hpoint : ¬ p.effect.CancelPoint) (hq : q ∈ p.next) :
    p.ComesTo r := .later hpoint (fun _ _ => not_false) hq h

/-- A thread which gets every mutex comes to a structure from everywhere in its window. -/
theorem comesTo_of_inWindow {r : Structure} {p : Position} (h : p.inWindow r = true) : p.ComesTo r := by
  cases r with
  | queue =>
    have htest (side : Side) : (Position.test side).ComesTo .queue := .here rfl
    have hlock (side : Side) : (Position.lock side).ComesTo .queue :=
      (htest side).before (by cases side <;> decide) (by simp [Position.next])
    cases p with
    | test side => exact htest side
    | lock side => exact hlock side
    | woken side => exact (htest side).before (by cases side <;> decide) (by simp [Position.next])
    | access side => exact .here rfl
    | unlockLog => exact (hlock .worker).before (by decide) (by decide)
    | _ => exact absurd h (by simp [Position.inWindow])
  | cache =>
    have hlockCache : Position.lockCache.ComesTo .cache :=
      .before (q := .getCacheIndex) (.here rfl) (by decide) (by decide)
    have hcontentType : Position.getContentType.ComesTo .cache := hlockCache.before (by decide)
        (by decide)
    have hsignal : (Position.signal .worker).ComesTo .cache := hcontentType.before (by decide)
        (by decide)
    have hunlock : (Position.unlock .worker).ComesTo .cache := hsignal.before (by decide) (by decide)
    have haccess : (Position.access .worker).ComesTo .cache := hunlock.before (by decide) (by decide)
    have htest : (Position.test .worker).ComesTo .cache := haccess.before (by decide) (by decide)
    have hlock : (Position.lock .worker).ComesTo .cache := htest.before (by decide) (by decide)
    cases p with
    | getCacheIndex | copyEntry | addIntoCache => exact .here rfl
    | lockCache => exact hlockCache
    | lockCacheAgain => exact .before (q := .addIntoCache) (.here rfl) (by decide) (by decide)
    | getContentType => exact hcontentType
    | unlockLog => exact hlock.before (by decide) (by decide)
    | lock side | test side | woken side | access side | unlock side | signal side =>
      cases side with
      | dispatcher => exact absurd h (by simp [Position.inWindow])
      | worker => first
        | exact hsignal
        | exact hunlock
        | exact haccess
        | exact htest
        | exact hlock
        | exact htest.before (by decide) (by decide)
    | _ => exact absurd h (by simp [Position.inWindow])

/-- If no thread stands in the window of a structure, none may come to it. -/
theorem safe_of_window {numDispatcher numWorkers : ℕ}
    {s : Threads (ServerThread numDispatcher numWorkers) Position Mutex} {r : Structure}
    (h : ∀ t p, s.pos t = some p → p.inWindow r = false) : serverThreads.Safe s r := by
  intro t p hp huse
  exact absurd ((h t p hp).symm.trans (inWindow_of_mayUse huse)) Bool.false_ne_true

/-- The thread is still to be cancelled. -/
def MainState.WillCancel {τ : Type*} (main : MainState τ) (t : τ) : Prop :=
  match main with
  | .blocked => True
  | .cancelling rest => t ∈ rest
  | _ => False

/-- What holds in every state if structures are released safely: mutexes are owned by the threads in
their sections, every thread was cancelled in time, and none may come to what was released. -/
structure ShutdownInv (s : Shutdown numDispatcher numWorkers) : Prop where
  owns : serverThreads.Owns s.threads
  cancelled : ∀ t, s.main.WillCancel t ∨ s.threads.cancelled t = true
  safe : ∀ r, s.main.Released r → serverThreads.Safe s.threads r

/-- After the release of a structure every thread was cancelled. -/
theorem ShutdownInv.all_cancelled {s : Shutdown numDispatcher numWorkers} (h : ShutdownInv s)
    {r : Structure} (hreleased : s.main.Released r) (t : ServerThread numDispatcher numWorkers) :
    s.threads.cancelled t = true := by
  refine (h.cancelled t).resolve_left ?_
  cases hmain : s.main with
  | blocked | cancelling rest =>
    rw [hmain] at hreleased
    exact hreleased.elim
  | queueDeleted | cacheDeleted => exact not_false

/-- In the beginning no mutex is owned and nothing was released. -/
theorem shutdownInv_init {s : Shutdown numDispatcher numWorkers}
    (h : (shutdownSystem numDispatcher numWorkers).init s) : ShutdownInv s := by
  obtain rfl := h
  refine ⟨?_, fun t => Or.inl trivial, fun r hreleased => hreleased.elim⟩
  intro t p m hp hm
  obtain rfl : startPosition t = p := Option.some.inj hp
  cases t with
  | inl k | inr k => exact absurd hm (by simp [serverThreads, startPosition, Position.held])

/-- Every step keeps the invariant, if it releases structures safely. -/
theorem ShutdownInv.step {s s' : Shutdown numDispatcher numWorkers}
    {label : ShutdownLabel numDispatcher numWorkers} (h : ShutdownInv s)
    (hguard : ReleasesSafely s label) (hnext : shutdownNext s label = some s') :
    ShutdownInv s' := by
  cases label with
  | move t q =>
    obtain ⟨threads, hmove, rfl⟩ := Option.map_eq_some_iff.mp hnext
    refine ⟨h.owns.move hmove, ?_, ?_⟩
    · intro u
      simpa only [Program.move_cancelled hmove] using h.cancelled u
    · intro r hreleased
      exact (h.safe r hreleased).move h.owns (h.all_cancelled hreleased t) hmove
  | stop t =>
    obtain ⟨threads, hstop, rfl⟩ := Option.map_eq_some_iff.mp hnext
    refine ⟨h.owns.stop hstop, ?_, ?_⟩
    · intro u
      simpa only [Program.stop_cancelled hstop] using h.cancelled u
    · exact fun r hreleased => (h.safe r hreleased).stop hstop
  | sigint =>
    simp only [shutdownNext] at hnext
    split at hnext
    · obtain rfl := Option.some.inj hnext
      refine ⟨h.owns, ?_, fun r hreleased => hreleased.elim⟩
      intro t
      left
      cases t with
      | inl k | inr k => simp [MainState.WillCancel, cancelOrder]
    · exact absurd hnext (by simp)
  | cancel =>
    simp only [shutdownNext] at hnext
    split at hnext
    · rename_i t rest hmain
      obtain rfl := Option.some.inj hnext
      refine ⟨h.owns, ?_, fun r hreleased => hreleased.elim⟩
      intro u
      have hu := h.cancelled u
      rw [hmain] at hu
      rw [Threads.cancel_cancelled]
      rcases hu with hmem | hcancelled
      · exact (List.mem_cons.mp hmem).symm.imp id Or.inl
      · exact Or.inr (Or.inr hcancelled)
    · exact absurd hnext (by simp)
  | deleteRequestQueue =>
    simp only [shutdownNext] at hnext
    split at hnext
    · rename_i hmain
      obtain rfl := Option.some.inj hnext
      refine ⟨h.owns, ?_, ?_⟩
      · intro u
        right
        have hu := h.cancelled u
        rw [hmain] at hu
        exact hu.resolve_left List.not_mem_nil
      · intro r hreleased
        cases r with
        | queue => exact hguard
        | cache => exact hreleased.elim
    · exact absurd hnext (by simp)
  | deleteCache =>
    simp only [shutdownNext] at hnext
    split at hnext
    · rename_i hmain
      obtain rfl := Option.some.inj hnext
      have hreleased : s.main.Released .queue := by rw [hmain]; trivial
      refine ⟨h.owns, fun u => Or.inr (h.all_cancelled hreleased u), ?_⟩
      intro r _
      cases r with
      | queue => exact h.safe .queue hreleased
      | cache => exact hguard
    · exact absurd hnext (by simp)

/-- In every run which releases the queue and the cache safely no thread uses them afterwards. -/
theorem usesNothingReleased {s : Shutdown numDispatcher numWorkers}
    (h : ((shutdownSystem numDispatcher numWorkers).restrict ReleasesSafely).Reachable s) :
    s.UsesNothingReleased := by
  have hinv : ShutdownInv s := by
    have hinit (s : Shutdown numDispatcher numWorkers)
        (hs : ((shutdownSystem numDispatcher numWorkers).restrict ReleasesSafely).init s) :
        ShutdownInv s :=
      shutdownInv_init hs
    refine h.invariant hinit ?_
    intro s label s' hs hstep
    exact hs.step hstep.1 hstep.2
  intro t p r hp hreleased huse
  exact hinv.safe r hreleased t p hp (.here huse)

/-- A server with a dispatcher and a worker which was just started. -/
def startedServer : Shutdown 1 1 :=
  ⟨.blocked, ⟨fun t => some (startPosition t), fun _ => false, fun _ => none⟩⟩

/-- SIGINT arrives while the dispatcher accepts and the worker sleeps. -/
def cancelIdle : List (ShutdownLabel 1 1) :=
  [.move (.inl 0) .accept, .move (.inr 0) (.test .worker), .move (.inr 0) (.wait .worker),
    .move (.inr 0) (.asleep .worker), .sigint, .cancel, .cancel]

/-- The queue and the cache of an idle server are released safely. -/
theorem usesNothingReleased_idle : ∃ s, ((shutdownSystem 1 1).restrict ReleasesSafely).Reachable s ∧
    s.main = .cacheDeleted ∧ s.UsesNothingReleased := by
  have hrun : (TransitionSystem.exec shutdownNext startedServer cancelIdle).map
      (fun s => (s.main, s.threads.pos (.inl 0), s.threads.pos (.inr 0))) =
        some (.cancelling [], some .accept, some (.asleep .worker)) := by decide +kernel
  obtain ⟨s, hexec, hs⟩ := Option.map_eq_some_iff.mp hrun
  obtain ⟨hmain, hdispatcher, hworker⟩ :
      s.main = .cancelling [] ∧ s.threads.pos (.inl 0) = some .accept ∧
      s.threads.pos (.inr 0) = some (.asleep .worker) := by simpa using hs
  have hsafe (r : Structure) : serverThreads.Safe s.threads r := by
    apply safe_of_window
    intro t p hp
    cases t with
    | inl k =>
      rw [Fin.fin_one_eq_zero k, hdispatcher] at hp
      obtain rfl := Option.some.inj hp
      cases r <;> rfl
    | inr k =>
      rw [Fin.fin_one_eq_zero k, hworker] at hp
      obtain rfl := Option.some.inj hp
      cases r <;> rfl
  have hlabels : ∀ label ∈ cancelIdle, ∀ u, ReleasesSafely u label := by
    simp [cancelIdle, ReleasesSafely]
  have hcancelled : ((shutdownSystem 1 1).restrict ReleasesSafely).Reachable s :=
    ⟨startedServer, cancelIdle, rfl, (TransitionSystem.Run.of_exec hexec).restrict hlabels⟩
  have hqueue : ((shutdownSystem 1 1).restrict ReleasesSafely).Reachable
      { s with main := .queueDeleted } :=
    hcancelled.next .deleteRequestQueue (hsafe .queue) (by simp only [shutdownNext, hmain])
  have hcache : ((shutdownSystem 1 1).restrict ReleasesSafely).Reachable
      { s with main := .cacheDeleted } :=
    hqueue.next .deleteCache (hsafe .cache) rfl
  exact ⟨_, hcache, rfl, usesNothingReleased hcache⟩

/-- SIGINT arrives after the worker locked `mtx`: it tests the queue which was released. -/
theorem not_usesNothingReleased_test :
    ∃ s, (shutdownSystem 1 1).Reachable s ∧ ¬ s.UsesNothingReleased := by
  have hrun : (TransitionSystem.exec shutdownNext startedServer
      [.move (.inr 0) (.test .worker), .sigint, .cancel, .cancel, .deleteRequestQueue]).map
      (fun s => (s.main, s.threads.pos (.inr 0))) = some (.queueDeleted, some (.test .worker)) := by
    decide +kernel
  obtain ⟨s, hexec, hs⟩ := Option.map_eq_some_iff.mp hrun
  obtain ⟨hmain, hworker⟩ : s.main = .queueDeleted ∧ s.threads.pos (.inr 0) = some (.test .worker) := by
    simpa using hs
  refine ⟨s, ⟨startedServer, _, rfl, .of_exec hexec⟩, fun hall => ?_⟩
  exact hall (.inr 0) (.test .worker) .queue hworker (by rw [hmain]; trivial) rfl

end Csci4061.WebServer
