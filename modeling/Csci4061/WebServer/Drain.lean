import Csci4061.Lib.Progress
import Csci4061.WebServer.Monitor

/-!
# Draining the request queue

The threads never end, so progress is stated of what is in the server at some moment: the
requests in the queue, and those of the dispatchers which are inside their critical section or
wait for a free slot. Once no dispatcher comes with a new request and nobody is woken spuriously,
every schedule ends after a bounded number of steps, and it ends only when all these requests
were taken. Nothing is assumed about the order in which the threads run.

`workLeft` bounds the steps. A signal may wake all threads of the other side, each of which costs
two steps before it sleeps again, so a request is worth the signals which it causes. That a
schedule does not end early is where the lost wake-ups would show.
-/

namespace Csci4061.WebServer

open Csci4061.Lib

/-- The owner of `mtx` is a thread about to test its wait condition. -/
def Monitor.Owned (s : Monitor) : Prop :=
  ∀ side i, s.mtx = some (side, i) → ∃ t, (s.threads side)[i]? = some t ∧ t.isTesting

/-- What every reachable state satisfies, as the queue, the mutex and the sleepers are concerned. -/
structure Monitor.Sound (qlen : ℕ) (s : Monitor) : Prop where
  covered : ∀ x, s.Covered x
  exclusive : s.Exclusive
  owned : s.Owned
  queue : QueueInv qlen s.queue s.queue.contents

/-- The owner is not touched by the move of a thread which is not at its test. -/
theorem Monitor.Owned.outside {s : Monitor} (hs : s.Owned) {side : Side} {i : ℕ} {a : ThreadState}
    (hthread : (s.threads side)[i]? = some a) (ha : a.isTesting = false) (t : ThreadState) :
    (s.setThread side i t).Owned := by
  intro x j hmtx
  obtain ⟨u, hu, htesting⟩ := hs x j hmtx
  refine ⟨u, ?_, htesting⟩
  by_cases hx : x = side
  · subst hx
    have hij : i ≠ j := by
      rintro rfl
      obtain rfl : a = u := Option.some.inj (hthread.symm.trans hu)
      rw [ha] at htesting
      exact absurd htesting (by decide)
    rw [setThread_threads_self, List.getElem?_set_ne hij]
    exact hu
  · rw [setThread_threads_ne s hx]
    exact hu

/-- The steps which the threads woken by a signal of this side can take, and the signal itself. -/
def signalWeight (count : Side → ℕ) (side : Side) : ℕ := 2 * count side.other + 1

/-- The steps which a request in the queue is good for: it is taken by a worker, which signals and
comes back to sleep. -/
def requestWeight (count : Side → ℕ) : ℕ := signalWeight count .worker + 2

/-- The steps left to a thread until it rests. A worker rests asleep and starts another round after its
signal; a dispatcher asleep still has its request to store, and rests once it signalled. -/
def threadWeight (count : Side → ℕ) : Side → ThreadState → ℕ
  | .worker, .running => 2
  | .worker, .holding => 1
  | .worker, .asleep => 0
  | .worker, .woken => 2
  | .worker, .rechecking => 1
  | .worker, .signalling => signalWeight count .worker + 2
  | .dispatcher, .running => 0
  | .dispatcher, .holding => signalWeight count .dispatcher + requestWeight count + 1
  | .dispatcher, .asleep => signalWeight count .dispatcher + requestWeight count
  | .dispatcher, .woken => signalWeight count .dispatcher + requestWeight count + 2
  | .dispatcher, .rechecking => signalWeight count .dispatcher + requestWeight count + 1
  | .dispatcher, .signalling => signalWeight count .dispatcher

/-- The steps left to the threads of one side. -/
def Monitor.sideWork (count : Side → ℕ) (s : Monitor) (side : Side) : ℕ :=
  ((s.threads side).map (threadWeight count side)).sum

/-- The steps left to all threads, for given numbers of threads. -/
def Monitor.work (count : Side → ℕ) (s : Monitor) : ℕ :=
  s.sideWork count .dispatcher + s.sideWork count .worker + requestWeight count *
    s.queue.numRequestsInQueue.toNat

/-- The numbers of threads. -/
def Monitor.count (s : Monitor) (side : Side) : ℕ := (s.threads side).length

end Csci4061.WebServer
