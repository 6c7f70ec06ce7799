import Csci4061.WebServer.Service

/-!
# Every request is served once

At every moment a request which was stored is in the queue, in the hands of one worker, or finished.
A finished one was answered by one call and has one line in the log. The lines of a worker are numbered
from 1 on.

Where a request is follows from the tickets. What was done for it is followed along the iteration of
its worker: the call is made while the worker has the request, and the line is written when it gives
it back.
-/

namespace Csci4061.WebServer

open Csci4061.Lib

variable {δ ω : Type*}

/-- A request is in the queue, in the hands of a worker, or finished. -/
def Service.At (s : Service ω) (ticket : ℕ) : Place ω → Prop
  | .waiting => s.taken ≤ ticket ∧ s.queue.contents[ticket - s.taken]? = s.stored[ticket]?
  | .held w => (s.workers w).held = some ticket ∧ s.stored[ticket]? = some (s.workers w).request
  | .done => ∃ line, (ticket, line) ∈ s.log

/-- A log line is the one for a request and for the call which answered it. -/
structure Records (line : LogLine ω) (call : Call) (request : Request) : Prop where
  fd : line.fd = request.fd
  path : line.request = request.request
  answered : call.request = request
  hit : line.hit = call.fromCache
  error : ∀ text, line.result = .error text ↔ call.response = .error text

variable [DecidableEq ω]

/-- The lines of a worker. -/
def Service.linesOf (s : Service ω) (w : ω) : List (LogLine ω) :=
  (s.log.map Prod.snd).filter fun line => line.thread = w

/-- The numbers from 1 to `n`. -/
def numbersTo (n : ℕ) : List ℤ := (List.range n).map fun i : ℕ => (i : ℤ) + 1

/-- One number more. -/
theorem numbersTo_succ (n : ℕ) : numbersTo (n + 1) = numbersTo n ++ [(n : ℤ) + 1] := by
  rw [numbersTo, List.range_succ, List.map_append, numbersTo]
  rfl

/-- Every request is at one place; for a finished one there was one call, with its descriptor, and one
line; and the lines of every worker carry the numbers from 1 on. -/
structure ServedOnce (s : Service ω) : Prop where
  placed : ∀ ticket < s.stored.length, ∃! place, s.At ticket place
  finished : ∀ ticket line, (ticket, line) ∈ s.log → ∃ request call, s.stored[ticket]? = some request ∧
    s.calls.filter (fun call => call.ticket = ticket) = [call] ∧
    s.log.filter (fun entry => entry.1 = ticket) = [(ticket, line)] ∧ Records line call request
  numbered : ∀ w, (s.linesOf w).map LogLine.reqNum = numbersTo (s.linesOf w).length

/-- What was done for the requests which are not in the queue. -/
structure Recorded (s : Service ω) : Prop where
  held : ∀ w ticket, (s.workers w).held = some ticket → s.stored[ticket]? = some (s.workers w).request
  calls_nodup : (s.calls.map Call.ticket).Nodup
  called : ∀ call ∈ s.calls, call.ticket ∈ s.tickets.done ∨
    ∃ w response size, (s.workers w).stage = .answered response size ∧ (s.workers w).ticket = call.ticket
  answered : ∀ w response size, (s.workers w).stage = .answered response size →
    ⟨(s.workers w).ticket, (s.workers w).request, response,
      logsHit (s.workers w).cacheIndex response⟩ ∈ s.calls
  logged : ∀ entry ∈ s.log, ∃ request call, s.stored[entry.1]? = some request ∧ call ∈ s.calls ∧
    call.ticket = entry.1 ∧ Records entry.2 call request

/-- The numbers on the lines of a worker, and the one it counts at present. -/
def Numbered (s : Service ω) : Prop :=
  ∀ w, (s.linesOf w).map LogLine.reqNum = numbersTo (s.linesOf w).length ∧
    (s.workers w).reqNum = (s.linesOf w).length + if (s.workers w).stage = .top then 0 else 1

omit [DecidableEq ω] in
/-- The line of an answer records it. -/
theorem logLine_records (w : ω) (vars : WorkerVars) (response : Response) (size : ℕ) (micros : ℤ) :
    Records (logLine w vars response size micros)
      ⟨vars.ticket, vars.request, response, logsHit vars.cacheIndex response⟩ vars.request where
  fd := rfl
  path := rfl
  answered := rfl
  hit := rfl
  error text := by cases response <;> simp [logLine]

omit [DecidableEq ω] in
/-- What is known does not depend on the cache. -/
theorem Recorded.setCache {s : Service ω} (h : Recorded s) (cache : Cache) :
    Recorded { s with cache := cache } :=
  ⟨h.held, h.calls_nodup, h.called, h.answered, h.logged⟩

section Update

variable {s : Service ω} {w : ω} {vars : WorkerVars}

/-- What the workers hold, after one of them changed its variables. -/
theorem Recorded.held_update (h : Recorded s)
    (hown : ∀ ticket, vars.held = some ticket → s.stored[ticket]? = some vars.request) (w' : ω) :
    ∀ ticket, (Function.update s.workers w vars w').held = some ticket →
      s.stored[ticket]? = some (Function.update s.workers w vars w').request :=
  (Function.forall_update_iff s.workers fun _ vars =>
    ∀ ticket, vars.held = some ticket → s.stored[ticket]? = some vars.request).mpr
      ⟨hown, fun w' _ => h.held w'⟩ w'

/-- The calls of the workers, after one of them changed its variables. -/
theorem Recorded.answered_update (h : Recorded s) {calls : List Call} (hsubset : s.calls ⊆ calls)
    (hown : ∀ response size, vars.stage = .answered response size →
      ⟨vars.ticket, vars.request, response, logsHit vars.cacheIndex response⟩ ∈ calls) (w' : ω) :
    ∀ response size, (Function.update s.workers w vars w').stage = .answered response size →
      ⟨(Function.update s.workers w vars w').ticket, (Function.update s.workers w vars w').request,
        response, logsHit (Function.update s.workers w vars w').cacheIndex response⟩ ∈ calls :=
  (Function.forall_update_iff s.workers fun _ vars => ∀ response size,
    vars.stage = .answered response size →
    ⟨vars.ticket, vars.request, response, logsHit vars.cacheIndex response⟩ ∈ calls).mpr
      ⟨hown, fun w' _ response size hstage => hsubset (h.answered w' response size hstage)⟩ w'

/-- A call which another worker made is still that of a finished request, or of the other worker. -/
theorem Recorded.called_update (h : Recorded s) {call : Call} (hcall : call ∈ s.calls)
    (hown : ∀ response size, (s.workers w).stage = .answered response size →
      (s.workers w).ticket ≠ call.ticket) :
    call.ticket ∈ s.tickets.done ∨ ∃ w' response size,
      (Function.update s.workers w vars w').stage = .answered response size ∧
        (Function.update s.workers w vars w').ticket = call.ticket := by
  refine (h.called call hcall).imp_right ?_
  rintro ⟨w', response, size, hstage, hticket⟩
  have hw : w' ≠ w := by
    rintro rfl
    exact hown response size hstage hticket
  refine ⟨w', response, size, ?_, ?_⟩
  · rw [Function.update_of_ne hw, hstage]
  · rw [Function.update_of_ne hw, hticket]

end Update

/-- A worker which keeps its request and has no answer keeps what is known. -/
theorem Recorded.setWorker {s : Service ω} (h : Recorded s) {w : ω} {vars : WorkerVars}
    (hheld : vars.held = (s.workers w).held) (hrequest : vars.request = (s.workers w).request)
    (hbefore : ∀ response size, (s.workers w).stage ≠ .answered response size)
    (hafter : ∀ response size, vars.stage ≠ .answered response size) :
    Recorded (s.setWorker w vars) where
  held := h.held_update fun ticket hticket => hrequest ▸ h.held w ticket (hheld ▸ hticket)
  calls_nodup := h.calls_nodup
  called _ hcall := h.called_update hcall fun response size hstage =>
    absurd hstage (hbefore response size)
  answered := h.answered_update (List.Subset.refl _) fun response size hstage =>
    absurd hstage (hafter response size)
  logged := h.logged

omit [DecidableEq ω] in
/-- A worker which has not answered its request has no call for it. -/
theorem Recorded.not_called {s : Service ω} (h : Recorded s) (htickets : TicketsInv s.tickets) {w : ω}
    (hserving : (s.workers w).stage.Serving) : (s.workers w).ticket ∉ s.calls.map Call.ticket := by
  intro hmem
  obtain ⟨call, hcall, hticket⟩ := List.mem_map.mp hmem
  have hheld : s.tickets.held w = some (s.workers w).ticket := WorkerVars.held_of_serving hserving
  rcases h.called call hcall with hdone | ⟨w', response, size, hstage, hticket'⟩
  · exact htickets.not_done w _ hheld (hticket ▸ hdone)
  · have hheld' : s.tickets.held w' = some (s.workers w).ticket := by
      simp only [Service.tickets, WorkerVars.held, hstage, hticket', hticket]
    obtain rfl := htickets.held_inj w' w _ hheld' hheld
    rcases hserving with htaken | hmissed
    · exact absurd (htaken.symm.trans hstage) (by simp)
    · rw [hstage] at hmissed
      exact hmissed

/-- A worker which answers its request makes the one call for it. -/
theorem Recorded.respond {s : Service ω} (h : Recorded s) (htickets : TicketsInv s.tickets) {w : ω}
    (hserving : (s.workers w).stage.Serving) (cacheIndex : Option ℕ) (response : Response) (size : ℕ) :
    Recorded (s.respond w { s.workers w with cacheIndex := cacheIndex } response size
      (logsHit cacheIndex response)) where
  held := h.held_update fun ticket hticket =>
    h.held w ticket ((WorkerVars.held_of_serving hserving).trans hticket)
  calls_nodup := by
    simp only [Service.respond, List.map_append, List.map_cons, List.map_nil]
    refine List.nodup_append.mpr ⟨h.calls_nodup, List.nodup_singleton _,
      fun ticket hold ticket' hnew heq => ?_⟩
    rw [heq, List.mem_singleton.mp hnew] at hold
    exact h.not_called htickets hserving hold
  called call hcall := by
    rcases List.mem_append.mp hcall with hold | hnew
    · have hnone := h.not_called htickets hserving
      exact h.called_update hold fun _ _ _ hticket => hnone (List.mem_map.mpr ⟨call, hold, hticket.symm⟩)
    · rw [List.mem_singleton.mp hnew]
      refine Or.inr ⟨w, response, size, ?_, ?_⟩ <;>
        simp only [Service.respond, Service.setWorker, Function.update_self]
  answered := by
    refine h.answered_update (List.subset_append_left _ _) fun response' size' hstage => ?_
    obtain ⟨rfl, rfl⟩ := Stage.answered.inj hstage
    exact List.mem_append_right _ (List.mem_singleton_self _)
  logged entry hentry := by
    obtain ⟨request, call, hstored, hcall, hrecords⟩ := h.logged entry hentry
    exact ⟨request, call, hstored, List.mem_append_left _ hcall, hrecords⟩

/-- A worker which takes the next request has it, and no answer for it. -/
theorem Recorded.take {s : Service ω} (h : Recorded s) {w : ω} {request : Request} {queue : RequestQueue}
    (hstage : (s.workers w).stage = .waiting) (hrequest : s.stored[s.taken]? = some request) :
    Recorded { s.setWorker w
      { s.workers w with request := request, stage := .taken, ticket := s.taken } with
      queue := queue
      taken := s.taken + 1 } where
  held := h.held_update fun ticket hticket => by
    rw [← Option.some.inj hticket]
    exact hrequest
  calls_nodup := h.calls_nodup
  called _ hcall := h.called_update hcall fun _ _ hstage' => absurd (hstage.symm.trans hstage') (by simp)
  answered := h.answered_update (List.Subset.refl _) fun _ _ hstage' => absurd hstage' (by simp)
  logged := h.logged

/-- A worker which logs its request has an answer, which the line records. -/
theorem Recorded.log {s : Service ω} (h : Recorded s) {w : ω} {response : Response} {size : ℕ}
    (micros : ℤ) (hstage : (s.workers w).stage = .answered response size) :
    Recorded { s.setWorker w { s.workers w with stage := .top } with
      log := s.log ++ [((s.workers w).ticket, logLine w (s.workers w) response size micros)] } where
  held := h.held_update fun _ hticket => absurd hticket (by simp [WorkerVars.held])
  calls_nodup := h.calls_nodup
  called call hcall := by
    simp only [Service.tickets, List.map_append, List.mem_append]
    by_cases hticket : (s.workers w).ticket = call.ticket
    · exact Or.inl (Or.inr (by simp [hticket]))
    · exact (h.called_update hcall fun _ _ _ => hticket).imp_left Or.inl
  answered := h.answered_update (List.Subset.refl _) fun _ _ hstage' => absurd hstage' (by simp)
  logged entry hentry := by
    rcases List.mem_append.mp hentry with hold | hnew
    · exact h.logged entry hold
    · rw [List.mem_singleton.mp hnew]
      have hheld : (s.workers w).held = some (s.workers w).ticket := by rw [WorkerVars.held, hstage]
      exact ⟨_, _, h.held w _ hheld, h.answered w response size hstage, rfl,
        logLine_records w (s.workers w) response size micros⟩

/-- Every step keeps what is known. -/
theorem Recorded.step {qlen : ℕ} {s s' : Service ω} {ticket : Option (TicketLabel ω)} (h : Recorded s)
    (hinv : ServiceInv qlen s) (htickets : TicketsInv s.tickets) (hstep : ServiceStep s ticket s') :
    Recorded s' := by
  cases hstep with
  | ignore => exact h
  | store request queue =>
    have hkeeps {n : ℕ} {r : Request} (hn : s.stored[n]? = some r) :
        (s.stored ++ [request])[n]? = some r := by
      rw [List.getElem?_append_left (List.getElem?_eq_some_iff.mp hn).1]
      exact hn
    refine ⟨fun w n hn => hkeeps (h.held w n hn), h.calls_nodup, h.called, h.answered,
      fun entry hentry => ?_⟩
    obtain ⟨r, call, hstored, hcall⟩ := h.logged entry hentry
    exact ⟨r, call, hkeeps hstored, hcall⟩
  | count w hstage =>
    refine h.setWorker ?_ rfl ?_ ?_
    · simp only [WorkerVars.held, hstage]
    · simp [hstage]
    · simp
  | take w request queue hstage hempty htake => exact h.take hstage (hinv.takeRequest hempty htake).2.1
  | work w stage cacheIndex cache hserving hmissed =>
    refine (h.setCache cache).setWorker ?_ rfl ?_ ?_
    · exact (WorkerVars.held_of_serving (Or.inr hmissed)).trans
        (WorkerVars.held_of_serving hserving).symm
    · intro response size hstage
      rcases hserving with htaken | hmissed'
      · exact absurd (htaken.symm.trans hstage) (by simp)
      · simp only at hstage
        rw [hstage] at hmissed'
        exact hmissed'
    · intro response size hstage
      simp only at hstage
      rw [hstage] at hmissed
      exact hmissed
  | respond w cacheIndex cache response size hserving =>
    exact @Recorded.respond ω _ { s with cache := cache }
      (h.setCache cache) htickets w hserving cacheIndex response size
  | log w response size micros hstage => exact h.log micros hstage

omit [DecidableEq ω] in
/-- In the beginning nothing was done. -/
theorem recorded_init {qlen cacheSize : ℕ} {s : Service ω} (h : ServiceInit qlen cacheSize s) :
    Recorded s := by
  have hheld (w : ω) : (s.workers w).held = none := by rw [WorkerVars.held, (h.workers w).1]
  constructor
  · exact fun w ticket hticket => absurd ((hheld w).symm.trans hticket) (by simp)
  · simp [h.calls]
  · simp [h.calls]
  · exact fun w response size hstage => absurd ((h.workers w).1.symm.trans hstage) (by simp)
  · simp [h.log]

/-- A worker which counts only at the top of its loop keeps the numbers right. -/
theorem Numbered.setWorker {s s' : Service ω} (h : Numbered s) {w : ω} {vars : WorkerVars}
    (hworkers : s'.workers = Function.update s.workers w vars) (hlog : s'.log = s.log)
    (hcount : vars.reqNum - (if vars.stage = .top then 0 else 1) =
      (s.workers w).reqNum - if (s.workers w).stage = .top then 0 else 1) : Numbered s' := by
  intro w'
  have hlines : s'.linesOf w' = s.linesOf w' := by rw [Service.linesOf, Service.linesOf, hlog]
  obtain ⟨hnumbers, hnow⟩ := h w'
  rw [hlines, hworkers]
  refine ⟨hnumbers, ?_⟩
  by_cases hw : w' = w
  · subst hw
    rw [Function.update_self]
    omega
  · rw [Function.update_of_ne hw]
    exact hnow

omit [DecidableEq ω] in
/-- A line says which worker wrote it. -/
@[simp] theorem logLine_thread (w : ω) (vars : WorkerVars) (response : Response) (size : ℕ)
    (micros : ℤ) :
    (logLine w vars response size micros).thread = w := rfl

omit [DecidableEq ω] in
/-- A line has the number which the worker counted. -/
@[simp] theorem logLine_reqNum (w : ω) (vars : WorkerVars) (response : Response) (size : ℕ)
    (micros : ℤ) :
    (logLine w vars response size micros).reqNum = vars.reqNum := rfl

/-- The lines after a worker wrote one. -/
theorem linesOf_append (s : Service ω) {s' : Service ω} {ticket : ℕ} {line : LogLine ω}
    (hlog : s'.log = s.log ++ [(ticket, line)]) (w : ω) :
    s'.linesOf w = s.linesOf w ++ if line.thread = w then [line] else [] := by
  rw [Service.linesOf, hlog, List.map_append, List.filter_append, ← Service.linesOf]
  congr 1
  split
  · rename_i hthread
    exact List.filter_cons_of_pos (decide_eq_true hthread)
  · rename_i hthread
    exact List.filter_cons_of_neg (by simpa using hthread)

/-- A worker which logs its request adds the next number to its lines. -/
theorem Numbered.log {s s' : Service ω} (h : Numbered s) {w : ω} {response : Response} {size : ℕ}
    {micros : ℤ} (hstage : (s.workers w).stage = .answered response size)
    (hworkers : s'.workers = Function.update s.workers w { s.workers w with stage := .top })
    (hlog : s'.log = s.log ++ [((s.workers w).ticket, logLine w (s.workers w) response size micros)]) :
    Numbered s' := by
  intro w'
  obtain ⟨hnumbers, hnow⟩ := h w'
  rw [linesOf_append s hlog, hworkers]
  by_cases hw : w' = w
  · subst hw
    rw [hstage, if_neg (by simp)] at hnow
    rw [logLine_thread, if_pos rfl, List.map_append, List.length_append, List.length_singleton,
      numbersTo_succ, hnumbers, Function.update_self, if_pos rfl]
    refine ⟨?_, ?_⟩
    · rw [List.map_singleton, logLine_reqNum, hnow]
    · rw [hnow]
      omega
  · rw [logLine_thread, if_neg (Ne.symm hw), List.append_nil, Function.update_of_ne hw]
    exact ⟨hnumbers, hnow⟩

/-- Every step keeps the numbers right. -/
theorem Numbered.step {s s' : Service ω} {ticket : Option (TicketLabel ω)} (h : Numbered s)
    (hstep : ServiceStep s ticket s') : Numbered s' := by
  -- A worker which serves a request is not at the top of its loop.
  have hbusy {w : ω} (hserving : (s.workers w).stage.Serving) : (s.workers w).stage ≠ .top := by
    intro htop
    rcases hserving with htaken | hmissed
    · exact absurd (htop.symm.trans htaken) (by simp)
    · rw [htop] at hmissed
      exact hmissed
  cases hstep with
  | ignore | store => exact h
  | count w hstage => exact h.setWorker rfl rfl (by simp [hstage])
  | take w request queue hstage => exact h.setWorker rfl rfl (by simp [hstage])
  | work w stage cacheIndex cache hserving hmissed =>
    refine h.setWorker rfl rfl ?_
    have hstage : stage ≠ .top := by
      rintro rfl
      exact hmissed
    simp only [hstage, hbusy hserving, if_false]
  | respond w cacheIndex cache response size hserving =>
    refine h.setWorker rfl rfl ?_
    simp only [hbusy hserving, if_false, reduceCtorEq]
  | log w response size micros hstage => exact h.log hstage rfl rfl

/-- In the beginning nothing is numbered. -/
theorem numbered_init {qlen cacheSize : ℕ} {s : Service ω} (h : ServiceInit qlen cacheSize s) :
    Numbered s := by
  intro w
  simp [Service.linesOf, numbersTo, h.log, (h.workers w).1, (h.workers w).2]

/-- In every reachable state the places of the requests are those of their tickets. -/
theorem service_tickets {qlen cacheSize : ℕ} (hqlen : 0 < qlen) {s : Service ω}
    (h : (serviceSystem δ ω qlen cacheSize).Reachable s) : ServiceInv qlen s ∧ TicketsInv s.tickets :=
  ⟨h.invariant (serviceTickets δ ω qlen cacheSize hqlen).inv_init
    (serviceTickets δ ω qlen cacheSize hqlen).inv_step,
    ticketsInv_reachable ((serviceTickets δ ω qlen cacheSize hqlen).reachable h)⟩

/-- In every reachable state it is known what was done, and the numbers are right. -/
theorem service_recorded {qlen cacheSize : ℕ} (hqlen : 0 < qlen) {s : Service ω}
    (h : (serviceSystem δ ω qlen cacheSize).Reachable s) : Recorded s ∧ Numbered s := by
  have hinit (s : Service ω) (hs : (serviceSystem δ ω qlen cacheSize).init s) :
      Recorded s ∧ Numbered s :=
    ⟨recorded_init hs, numbered_init hs⟩
  have hstep (s : Service ω) (label : ServiceLabel δ ω) (s' : Service ω)
      (hreachable : (serviceSystem δ ω qlen cacheSize).Reachable s) (hknown : Recorded s ∧ Numbered s)
      (hnext : (serviceSystem δ ω qlen cacheSize).step s label s') : Recorded s' ∧ Numbered s' := by
    obtain ⟨hinv, htickets⟩ := service_tickets hqlen hreachable
    have hcases := serviceNext_step hinv.known hnext
    exact ⟨hknown.1.step hinv htickets hcases, hknown.2.step hcases⟩
  exact h.invariant_of_reachable hinit hstep

omit [DecidableEq ω] in
/-- A request which was stored is where its ticket is. -/
theorem at_iff_tickets {qlen : ℕ} {s : Service ω} (hinv : ServiceInv qlen s) (hrecorded : Recorded s)
    {ticket : ℕ} (place : Place ω) : s.At ticket place ↔ s.tickets.At ticket place := by
  cases place with
  | waiting =>
    refine and_iff_left_of_imp fun hwaiting => ?_
    rw [hinv.queue.contents_eq, List.getElem?_drop, Nat.add_sub_cancel' hwaiting]
  | held w => exact and_iff_left_of_imp fun hheld => hrecorded.held w ticket hheld
  | done =>
    simp only [Service.At, Tickets.At, Service.tickets, List.mem_map, Prod.exists]
    constructor
    · rintro ⟨line, hline⟩
      exact ⟨ticket, line, hline, rfl⟩
    · rintro ⟨_, line, hline, rfl⟩
      exact ⟨line, hline⟩

omit [DecidableEq ω] in
/-- Every call is for the request with its ticket. -/
theorem Recorded.call_request {s : Service ω} (h : Recorded s) {call : Call} (hcall : call ∈ s.calls) :
    s.stored[call.ticket]? = some call.request := by
  have hunique {call' : Call} (hcall' : call' ∈ s.calls) (hticket : call'.ticket = call.ticket) :
      call' = call :=
    List.inj_on_of_nodup_map h.calls_nodup hcall' hcall hticket
  rcases h.called call hcall with hdone | ⟨w, response, size, hstage, hticket⟩
  · obtain ⟨entry, hentry, hticket⟩ := List.mem_map.mp hdone
    obtain ⟨request, call', hstored, hcall', hticket', hrecords⟩ := h.logged entry hentry
    obtain rfl := hunique hcall' (hticket'.trans hticket)
    rw [hticket', hstored, hrecords.answered]
  · have hheld : (s.workers w).held = some (s.workers w).ticket := by rw [WorkerVars.held, hstage]
    obtain rfl := hunique (h.answered w response size hstage) hticket
    exact h.held w _ hheld

/-- A worker which has a request and does not serve it has answered it. -/
theorem WorkerVars.answered_of_held {vars : WorkerVars} {ticket : ℕ} (hheld : vars.held = some ticket)
    (hserving : ¬ vars.stage.Serving) : ∃ response size, vars.stage = .answered response size := by
  rw [WorkerVars.held] at hheld
  cases hstage : vars.stage with
  | top | waiting => simp [hstage] at hheld
  | taken | missed | loaded | inserted =>
    exact absurd hserving (by simp [Stage.Serving, Stage.Missed, hstage])
  | answered response size => exact ⟨response, size, rfl⟩

omit [DecidableEq ω] in
/-- A request which was stored has its call, or it is still on its way. -/
theorem Recorded.called_or_pending {qlen : ℕ} {s : Service ω} (h : Recorded s) (hinv : ServiceInv qlen s)
    (htickets : TicketsInv s.tickets) (ticket : ℕ) :
    (∃ call ∈ s.calls, call.ticket = ticket) ∨
      s.At ticket .waiting ∨ ∃ w, s.At ticket (.held w) ∧ (s.workers w).stage.Serving := by
  obtain ⟨place, hplace, -⟩ := htickets.existsUnique_place ticket
  rw [← at_iff_tickets hinv h] at hplace
  cases place with
  | waiting => exact Or.inr (Or.inl hplace)
  | held w =>
    by_cases hserving : (s.workers w).stage.Serving
    · exact Or.inr (Or.inr ⟨w, hplace, hserving⟩)
    · obtain ⟨response, size, hstage⟩ := WorkerVars.answered_of_held hplace.1 hserving
      have hcall := h.answered w response size hstage
      have hticket : (s.workers w).ticket = ticket := by simpa [WorkerVars.held, hstage] using hplace.1
      exact Or.inl ⟨_, hcall, hticket⟩
  | done =>
    obtain ⟨line, hline⟩ := hplace
    obtain ⟨request, call, -, hcall, hticket, -⟩ := h.logged _ hline
    exact Or.inl ⟨call, hcall, hticket⟩

/-- For any number of threads, any order of their steps and any outcome of their calls, every request
is served once. -/
theorem requests_served_once {qlen cacheSize : ℕ} (hqlen : 1 ≤ qlen) {s : Service ω}
    (h : (serviceSystem δ ω qlen cacheSize).Reachable s) : ServedOnce s := by
  obtain ⟨hinv, htickets⟩ := service_tickets hqlen h
  obtain ⟨hrecorded, hnumbered⟩ := service_recorded hqlen h
  refine ⟨fun ticket _ => ?_, fun ticket line hline => ?_, fun w => (hnumbered w).1⟩
  · simp only [at_iff_tickets hinv hrecorded]
    exact htickets.existsUnique_place ticket
  · obtain ⟨request, call, hstored, hcall, hticket, hrecords⟩ := hrecorded.logged (ticket, line) hline
    simp only at hticket
    subst hticket
    exact ⟨request, call, hstored, filter_eq_singleton hrecorded.calls_nodup hcall,
      filter_eq_singleton htickets.done_nodup hline, hrecords⟩

/-- A server which was just started, with one slot in the queue and one in the cache. -/
def freshService : Service Unit where
  queue := initRequestQueue 1 [⟨0, []⟩]
  cache := initCache 1 [⟨0, [], [], 0⟩]
  workers _ := ⟨0, ⟨0, []⟩, none, .top, 0⟩
  stored := []
  taken := 0
  calls := []
  log := []

/-- The file is requested twice: it is read from the disk, and then found in the cache. -/
def twoRequests : List (ServiceLabel Unit Unit) :=
  [.dispatch () 4 (some (bytes "/a")), .count (), .take (), .dispatch () 5 (some (bytes "/a")),
    .lookup (), .load () (.reads 1 [0x78]), .insert (), .answer (), .log () 7,
    .count (), .take (), .lookup (), .log () 3]

/-- Both requests are served once, and the second one is a hit. -/
theorem requests_served_twice : ∃ s, (serviceSystem Unit Unit 1 1).Reachable s ∧ ServedOnce s ∧
    s.log.map (fun entry => (entry.1, entry.2.reqNum, entry.2.fd, entry.2.hit)) = [(0, 1, 4, false),
      (1, 2, 5, true)] := by
  have hrun : (TransitionSystem.exec serviceNext freshService twoRequests).map
      (fun s => s.log.map fun entry => (entry.1, entry.2.reqNum, entry.2.fd, entry.2.hit)) =
        some [(0, 1, 4, false), (1, 2, 5, true)] := by decide +kernel
  obtain ⟨s, hexec, hlog⟩ := Option.map_eq_some_iff.mp hrun
  have hinit : ServiceInit 1 1 freshService :=
    ⟨⟨_, rfl, rfl⟩, ⟨_, rfl, rfl⟩, fun _ => ⟨rfl, rfl⟩, rfl, rfl, rfl, rfl⟩
  have hreachable : (serviceSystem Unit Unit 1 1).Reachable s :=
    ⟨freshService, twoRequests, hinit, .of_exec hexec⟩
  exact ⟨s, hreachable, requests_served_once (le_refl 1) hreachable, hlog⟩

end Csci4061.WebServer
