import Csci4061.Lib.Tickets
import Csci4061.WebServer.Worker

/-!
# The threads of the web server together

Dispatchers store requests in the queue, and every worker takes one, answers it and logs it, over and
over. A worker's iteration leaves its body at four places: after a hit, after a failure of `stat` or of
the read, and after the file was sent. Each of them answers and then logs.

A request is told apart from others of the same descriptor and path by its place in the order in which
the requests were stored. This place, and the record of the calls which answer, are not variables of
the program. What `stat`, `open` and `read` report is part of a label, and whether the writes of an
answer succeed makes no difference to a worker. The log file opens.
-/

namespace Csci4061.WebServer

open Csci4061.Lib

/-- The place in a worker's loop. -/
inductive Stage
  /-- Before the request is counted. -/
  | top
  /-- Before a request is taken. -/
  | waiting
  /-- Before the lookup. -/
  | taken
  /-- After a lookup which missed. -/
  | missed
  /-- The file is in the buffer, and not yet in the cache. -/
  | loaded (buf : List UInt8) (size : ℕ)
  /-- The file was added to the cache, and is not yet sent. -/
  | inserted (buf : List UInt8) (size : ℕ)
  /-- After the answer, before it is logged. -/
  | answered (response : Response) (size : ℕ)
  deriving DecidableEq

/-- The variables of a worker, and the place of its request in the order of the requests. -/
structure WorkerVars where
  reqNum : ℤ
  request : Request
  cacheIndex : Option ℕ
  stage : Stage
  ticket : ℕ

/-- A call of `return_result` or of `return_error` with the descriptor of a request, and whether what
is sent was found in the cache. -/
structure Call where
  ticket : ℕ
  request : Request
  response : Response
  fromCache : Bool

/-- What a log line says of an answer: the size of the file, or the text of the error. -/
inductive LogResult
  | size (n : ℕ)
  | error (text : CString)
  deriving DecidableEq

/-- A line of the log. -/
structure LogLine (ω : Type*) where
  thread : ω
  reqNum : ℤ
  fd : ℤ
  request : CString
  result : LogResult
  micros : ℤ
  hit : Bool
  deriving DecidableEq

/-- The queue, the cache and the workers; and all requests which were stored, how many of them were
taken, the calls and the log. -/
structure Service (ω : Type*) where
  queue : RequestQueue
  cache : Cache
  workers : ω → WorkerVars
  stored : List Request
  taken : ℕ
  calls : List Call
  log : List (ℕ × LogLine ω)

/-- The steps of the threads. `accept_connection` returns `fd` and `get_request` the request, if it
returns `0`. -/
inductive ServiceLabel (δ ω : Type*)
  | dispatch (d : δ) (fd : ℤ) (buf : Option CString)
  | count (w : ω)
  | take (w : ω)
  | lookup (w : ω)
  | load (w : ω) (outcome : DiskOutcome)
  | insert (w : ω)
  | answer (w : ω)
  | log (w : ω) (micros : ℤ)

variable {δ ω : Type*} [DecidableEq ω]

/-- Assign to the variables of a worker. -/
def Service.setWorker (s : Service ω) (w : ω) (vars : WorkerVars) : Service ω :=
  { s with workers := Function.update s.workers w vars }

/-- A worker answers its request. -/
def Service.respond (s : Service ω) (w : ω) (vars : WorkerVars) (response : Response) (size : ℕ)
    (fromCache : Bool) : Service ω :=
  { s.setWorker w { vars with stage := .answered response size } with
    calls := s.calls ++ [⟨vars.ticket, vars.request, response, fromCache⟩] }

/-- What the line of an answer says of the cache: `MISS` after an error, and otherwise what the index
of the entry says. -/
def logsHit (cacheIndex : Option ℕ) : Response → Bool
  | .error _ => false
  | .result _ _ _ => cacheIndex.isSome

/-- The line which a worker logs. -/
def logLine (w : ω) (vars : WorkerVars) (response : Response) (size : ℕ) (micros : ℤ) : LogLine ω where
  thread := w
  reqNum := vars.reqNum
  fd := vars.request.fd
  request := vars.request.request
  result := match response with
    | .error text => .error text
    | .result _ _ _ => .size size
  micros := micros
  hit := logsHit vars.cacheIndex response

/-- One step. A dispatcher waits while the queue is full, and a worker while it is empty. Counting
beyond the largest `int` is undefined. -/
def serviceNext (s : Service ω) : ServiceLabel δ ω → Option (Service ω)
  | .dispatch _ fd buf =>
    if 0 < fd then
      match buf with
      | none => some s
      | some buf =>
        if s.queue.Full then none
        else (storeRequest s.queue ⟨fd, buf⟩).map fun queue =>
          { s with queue := queue, stored := s.stored ++ [⟨fd, buf⟩] }
    else some s
  | .count w =>
    let vars := s.workers w
    match vars.stage with
    | .top =>
      if vars.reqNum + 1 < 2 ^ 31 then
        some (s.setWorker w { vars with reqNum := vars.reqNum + 1, stage := .waiting })
      else none
    | _ => none
  | .take w =>
    let vars := s.workers w
    match vars.stage with
    | .waiting =>
      if s.queue.Empty then none
      else (takeRequest s.queue).map fun (request, queue) =>
        { s.setWorker w { vars with request := request, stage := .taken, ticket := s.taken } with
          queue := queue
          taken := s.taken + 1 }
    | _ => none
  | .lookup w =>
    let vars := s.workers w
    match vars.stage with
    | .taken =>
      match getCacheIndex s.cache vars.request.request with
      | (some i, cache) => cache.entries[i]?.map fun entry =>
          { s with cache := cache }.respond w { vars with cacheIndex := some i }
            (hitResponse vars.request.request entry) (toSizeT entry.len) true
      | (none, cache) =>
          some ({ s with cache := cache }.setWorker w { vars with cacheIndex := none, stage := .missed })
    | _ => none
  | .load w outcome =>
    let vars := s.workers w
    match vars.stage with
    | .missed =>
      if outcome.Possible then
        match outcome with
        | .reads size data =>
          some (s.setWorker w { vars with stage := .loaded (fileBuffer size data) size })
        | .readFails size =>
          some (s.respond w vars (missResponse vars.request.request outcome) size false)
        | .statFails => some (s.respond w vars (missResponse vars.request.request outcome) 0 false)
      else none
    | _ => none
  | .insert w =>
    let vars := s.workers w
    match vars.stage with
    | .loaded buf size =>
      (addIntoCache s.cache vars.request.request buf (toInt size)).map fun cache =>
        { s with cache := cache }.setWorker w { vars with stage := .inserted buf size }
    | _ => none
  | .answer w =>
    let vars := s.workers w
    match vars.stage with
    | .inserted buf size =>
      some (s.respond w vars (returnResult (getContentType vars.request.request) buf
        (toInt size)) size false)
    | _ => none
  | .log w micros =>
    let vars := s.workers w
    match vars.stage with
    | .answered response size => some { s.setWorker w { vars with stage := .top } with
        log := s.log ++ [(vars.ticket, logLine w vars response size micros)] }
    | _ => none

/-- The queue and the cache are new, and every worker is about to count its first request. -/
structure ServiceInit (qlen cacheSize : ℕ) (s : Service ω) : Prop where
  queue : ∃ memory : List Request, memory.length = qlen ∧ s.queue = initRequestQueue qlen memory
  cache : ∃ memory : List CacheEntry, memory.length = cacheSize ∧ s.cache = initCache cacheSize memory
  workers : ∀ w, (s.workers w).stage = .top ∧ (s.workers w).reqNum = 0
  stored : s.stored = []
  taken : s.taken = 0
  calls : s.calls = []
  log : s.log = []

/-- Any number of dispatchers and workers, in any order of their steps. -/
def serviceSystem (δ ω : Type*) [DecidableEq ω] (qlen cacheSize : ℕ) :
    TransitionSystem (Service ω) (ServiceLabel δ ω) :=
  .ofNext (ServiceInit qlen cacheSize) serviceNext

/-- The lookup has missed, and the answer is not yet sent. -/
def Stage.Missed : Stage → Prop
  | .missed => True
  | .loaded _ _ => True
  | .inserted _ _ => True
  | _ => False

/-- The worker has a request which it has not answered. -/
def Stage.Serving (stage : Stage) : Prop := stage = .taken ∨ stage.Missed

/-- The place of the request which a worker has. -/
def WorkerVars.held (vars : WorkerVars) : Option ℕ :=
  match vars.stage with
  | .top => none
  | .waiting => none
  | _ => some vars.ticket

/-- A worker which serves a request has one. -/
theorem WorkerVars.held_of_serving {vars : WorkerVars} (h : vars.stage.Serving) :
    vars.held = some vars.ticket := by
  rw [WorkerVars.held]
  cases hstage : vars.stage with
  | top => exact absurd h (by simp [Stage.Serving, Stage.Missed, hstage])
  | waiting => exact absurd h (by simp [Stage.Serving, Stage.Missed, hstage])
  | taken | missed | loaded | inserted | answered => rfl

/-- After a miss the index of the entry says so. -/
def MissesKnown (workers : ω → WorkerVars) : Prop :=
  ∀ w, (workers w).stage.Missed → (workers w).cacheIndex = none

/-- The steps, by what they do to the requests: one is stored, counted, taken, worked on, answered or
logged. -/
inductive ServiceStep (s : Service ω) : Option (TicketLabel ω) → Service ω → Prop
  | ignore : ServiceStep s none s
  | store (request : Request) (queue : RequestQueue) :
    ¬ s.queue.Full → storeRequest s.queue request = some queue →
      ServiceStep s (some .issue) { s with queue := queue, stored := s.stored ++ [request] }
  | count (w : ω) : (s.workers w).stage = .top →
      ServiceStep s none
        (s.setWorker w { s.workers w with reqNum := (s.workers w).reqNum + 1, stage := .waiting })
  | take (w : ω) (request : Request) (queue : RequestQueue) :
    (s.workers w).stage = .waiting → ¬ s.queue.Empty →
      takeRequest s.queue = some (request, queue) → ServiceStep s (some (.take w))
        { s.setWorker w { s.workers w with request := request, stage := .taken, ticket := s.taken } with
          queue := queue
          taken := s.taken + 1 }
  | work (w : ω) (stage : Stage) (cacheIndex : Option ℕ) (cache : Cache) : (s.workers w).stage.Serving →
      stage.Missed → cacheIndex = none →
      ServiceStep s none
        ({ s with cache := cache }.setWorker w
          { s.workers w with cacheIndex := cacheIndex, stage := stage })
  | respond (w : ω) (cacheIndex : Option ℕ) (cache : Cache) (response : Response) (size : ℕ) :
      (s.workers w).stage.Serving → ServiceStep s none ({ s with cache := cache }.respond w
        { s.workers w with cacheIndex := cacheIndex } response size (logsHit cacheIndex response))
  | log (w : ω) (response : Response) (size : ℕ) (micros : ℤ) :
    (s.workers w).stage = .answered response size →
      ServiceStep s (some (.finish w)) { s.setWorker w { s.workers w with stage := .top } with
        log := s.log ++ [((s.workers w).ticket, logLine w (s.workers w) response size micros)] }

/-- What a step does to the places of the requests. -/
def ServiceLabel.ticket : ServiceLabel δ ω → Option (TicketLabel ω)
  | .dispatch _ fd (some _) => if 0 < fd then some .issue else none
  | .take w => some (.take w)
  | .log w _ => some (.finish w)
  | _ => none

section Cases

variable {s s' : Service ω} {w : ω}

/-- A dispatcher stores the request of a valid connection. -/
theorem serviceNext_dispatch_cases {d : δ} {fd : ℤ} {buf : Option CString}
    (h : serviceNext s (.dispatch d fd buf) = some s') :
    (ServiceLabel.dispatch d fd buf : ServiceLabel δ ω).ticket = none ∧ s' = s ∨
    ∃ text queue, buf = some text ∧ 0 < fd ∧ ¬ s.queue.Full ∧
    storeRequest s.queue ⟨fd, text⟩ = some queue ∧
      s' = { s with queue := queue, stored := s.stored ++ [⟨fd, text⟩] } := by
  simp only [serviceNext] at h
  cases buf with
  | none => exact Or.inl ⟨rfl, by split at h <;> exact (Option.some.inj h).symm⟩
  | some text =>
    split at h
    · rename_i hfd
      simp only at h
      split at h
      · exact absurd h (by simp)
      · rename_i hfull
        obtain ⟨queue, hstore, rfl⟩ := Option.map_eq_some_iff.mp h
        exact Or.inr ⟨text, queue, rfl, hfd, hfull, hstore, rfl⟩
    · rename_i hfd
      refine Or.inl ⟨?_, (Option.some.inj h).symm⟩
      rw [ServiceLabel.ticket, if_neg hfd]

/-- A worker counts its next request at the top of its loop. -/
theorem serviceNext_count_cases (h : serviceNext s (.count w : ServiceLabel δ ω) = some s') :
    (s.workers w).stage = .top ∧
      s' = s.setWorker w { s.workers w with reqNum := (s.workers w).reqNum + 1, stage := .waiting } := by
  simp only [serviceNext] at h
  split at h
  · rename_i hstage
    split at h
    · exact ⟨hstage, (Option.some.inj h).symm⟩
    · exact absurd h (by simp)
  · exact absurd h (by simp)

/-- A waiting worker takes the request at the front of the queue. -/
theorem serviceNext_take_cases (h : serviceNext s (.take w : ServiceLabel δ ω) = some s') :
    (s.workers w).stage = .waiting ∧ ¬ s.queue.Empty ∧
      ∃ request queue, takeRequest s.queue = some (request, queue) ∧
        s' = { s.setWorker w
          { s.workers w with request := request, stage := .taken, ticket := s.taken } with
          queue := queue
          taken := s.taken + 1 } := by
  simp only [serviceNext] at h
  split at h
  · rename_i hstage
    split at h
    · exact absurd h (by simp)
    · rename_i hempty
      obtain ⟨⟨request, queue⟩, htake, rfl⟩ := Option.map_eq_some_iff.mp h
      exact ⟨hstage, hempty, request, queue, htake, rfl⟩
  · exact absurd h (by simp)

/-- The lookup finds an entry, which is the answer, or none. -/
theorem serviceNext_lookup_cases (h : serviceNext s (.lookup w : ServiceLabel δ ω) = some s') :
    (s.workers w).stage = .taken ∧
      ((∃ i cache entry, getCacheIndex s.cache (s.workers w).request.request = (some i, cache) ∧
          cache.entries[i]? = some entry ∧
          s' = { s with cache := cache }.respond w { s.workers w with cacheIndex := some i }
            (hitResponse (s.workers w).request.request entry) (toSizeT entry.len) true) ∨
        ∃ cache, getCacheIndex s.cache (s.workers w).request.request = (none, cache) ∧
          s' = { s with cache := cache }.setWorker w
            { s.workers w with cacheIndex := none, stage := .missed }) := by
  simp only [serviceNext] at h
  split at h
  · rename_i hstage
    refine ⟨hstage, ?_⟩
    split at h
    · rename_i i cache hindex
      obtain ⟨entry, hentry, rfl⟩ := Option.map_eq_some_iff.mp h
      exact Or.inl ⟨i, cache, entry, hindex, hentry, rfl⟩
    · rename_i cache hindex
      exact Or.inr ⟨cache, hindex, (Option.some.inj h).symm⟩
  · exact absurd h (by simp)

/-- After a miss the file is loaded, and if it cannot be loaded this is the answer. -/
theorem serviceNext_load_cases {outcome : DiskOutcome}
    (h : serviceNext s (.load w outcome : ServiceLabel δ ω) = some s') :
    (s.workers w).stage = .missed ∧ outcome.Possible ∧
      ((∃ size data, outcome = .reads size data ∧
          s' = s.setWorker w { s.workers w with stage := .loaded (fileBuffer size data) size }) ∨
        (∃ size, outcome = .readFails size ∧
          s' = s.respond w (s.workers w)
            (missResponse (s.workers w).request.request outcome) size false) ∨
        outcome = .statFails ∧
          s' = s.respond w (s.workers w)
            (missResponse (s.workers w).request.request outcome) 0 false) := by
  simp only [serviceNext] at h
  split at h
  · rename_i hstage
    split at h
    · rename_i hpossible
      refine ⟨hstage, hpossible, ?_⟩
      cases outcome with
      | reads size data => exact Or.inl ⟨size, data, rfl, (Option.some.inj h).symm⟩
      | readFails size => exact Or.inr (Or.inl ⟨size, rfl, (Option.some.inj h).symm⟩)
      | statFails => exact Or.inr (Or.inr ⟨rfl, (Option.some.inj h).symm⟩)
    · exact absurd h (by simp)
  · exact absurd h (by simp)

/-- A loaded file is stored in the cache. -/
theorem serviceNext_insert_cases (h : serviceNext s (.insert w : ServiceLabel δ ω) = some s') :
    ∃ buf size cache, (s.workers w).stage = .loaded buf size ∧
      addIntoCache s.cache (s.workers w).request.request buf (toInt size) = some cache ∧
      s' = { s with cache := cache }.setWorker w { s.workers w with stage := .inserted buf size } := by
  simp only [serviceNext] at h
  split at h
  · rename_i buf size hstage
    obtain ⟨cache, hadd, rfl⟩ := Option.map_eq_some_iff.mp h
    exact ⟨buf, size, cache, hstage, hadd, rfl⟩
  · exact absurd h (by simp)

/-- A file which was stored is the answer. -/
theorem serviceNext_answer_cases (h : serviceNext s (.answer w : ServiceLabel δ ω) = some s') :
    ∃ buf size, (s.workers w).stage = .inserted buf size ∧
      s' = s.respond w (s.workers w)
        (returnResult (getContentType (s.workers w).request.request) buf (toInt size)) size false := by
  simp only [serviceNext] at h
  split at h
  · rename_i buf size hstage
    exact ⟨buf, size, hstage, (Option.some.inj h).symm⟩
  · exact absurd h (by simp)

/-- After the answer its line is written to the log. -/
theorem serviceNext_log_cases {micros : ℤ}
    (h : serviceNext s (.log w micros : ServiceLabel δ ω) = some s') :
    ∃ response size, (s.workers w).stage = .answered response size ∧
      s' = { s.setWorker w { s.workers w with stage := .top } with
        log := s.log ++ [((s.workers w).ticket, logLine w (s.workers w) response size micros)] } := by
  simp only [serviceNext] at h
  split at h
  · rename_i response size hstage
    exact ⟨response, size, hstage, (Option.some.inj h).symm⟩
  · exact absurd h (by simp)

end Cases

/-- Every step is one of these. -/
theorem serviceNext_step {s s' : Service ω} {label : ServiceLabel δ ω} (hknown : MissesKnown s.workers)
    (h : serviceNext s label = some s') : ServiceStep s label.ticket s' := by
  cases label with
  | dispatch d fd buf =>
    obtain ⟨hnone, rfl⟩ | ⟨text, queue, rfl, hfd, hfull, hstore, rfl⟩ := serviceNext_dispatch_cases h
    · rw [hnone]
      exact .ignore
    · rw [ServiceLabel.ticket, if_pos hfd]
      exact .store ⟨fd, text⟩ queue hfull hstore
  | count w =>
    obtain ⟨hstage, rfl⟩ := serviceNext_count_cases h
    exact .count w hstage
  | take w =>
    obtain ⟨hstage, hempty, request, queue, htake, rfl⟩ := serviceNext_take_cases h
    exact .take w request queue hstage hempty htake
  | lookup w =>
    obtain ⟨hstage, ⟨i, cache, entry, -, -, rfl⟩ | ⟨cache, -, rfl⟩⟩ := serviceNext_lookup_cases h
    · exact .respond w (some i) cache (hitResponse (s.workers w).request.request entry)
        (toSizeT entry.len) (Or.inl hstage)
    · exact .work w .missed none cache (Or.inl hstage) trivial rfl
  | load w outcome =>
    obtain ⟨hstage, -, hload⟩ := serviceNext_load_cases h
    have hmissed : (s.workers w).stage.Missed := by rw [hstage]; trivial
    obtain ⟨size, data, -, rfl⟩ | ⟨size, rfl, rfl⟩ | ⟨rfl, rfl⟩ := hload
    · exact .work w (.loaded (fileBuffer size data) size) _ s.cache (Or.inr hmissed) trivial
        (hknown w hmissed)
    · exact .respond w _ s.cache (missResponse (s.workers w).request.request (.readFails size)) size
        (Or.inr hmissed)
    · exact .respond w _ s.cache (missResponse (s.workers w).request.request .statFails) 0
        (Or.inr hmissed)
  | insert w =>
    obtain ⟨buf, size, cache, hstage, -, rfl⟩ := serviceNext_insert_cases h
    have hmissed : (s.workers w).stage.Missed := by rw [hstage]; trivial
    exact .work w (.inserted buf size) _ cache (Or.inr hmissed) trivial (hknown w hmissed)
  | answer w =>
    obtain ⟨buf, size, hstage, rfl⟩ := serviceNext_answer_cases h
    have hmissed : (s.workers w).stage.Missed := by rw [hstage]; trivial
    have hmiss (response : Response) : logsHit (s.workers w).cacheIndex response = false := by
      rw [hknown w hmissed]
      cases response <;> rfl
    have hrespond := ServiceStep.respond w (s.workers w).cacheIndex s.cache
      (returnResult (getContentType (s.workers w).request.request) buf (toInt size)) size
        (Or.inr hmissed)
    rw [hmiss] at hrespond
    exact hrespond
  | log w micros =>
    obtain ⟨response, size, hstage, rfl⟩ := serviceNext_log_cases h
    exact .log w response size micros hstage

/-- What a worker does to its variables keeps the knowledge of misses. -/
theorem MissesKnown.update {workers : ω → WorkerVars} (h : MissesKnown workers) {w : ω}
    {vars : WorkerVars} (hvars : vars.stage.Missed → vars.cacheIndex = none) :
    MissesKnown (Function.update workers w vars) := by
  intro w' hmissed
  by_cases hw : w' = w
  · subst hw
    rw [Function.update_self] at hmissed ⊢
    exact hvars hmissed
  · rw [Function.update_of_ne hw] at hmissed ⊢
    exact h w' hmissed

/-- The array holds the requests which were stored and not taken. -/
structure ServiceInv (qlen : ℕ) (s : Service ω) : Prop where
  known : MissesKnown s.workers
  taken_le : s.taken ≤ s.stored.length
  queue : QueueInv qlen s.queue (s.stored.drop s.taken)

omit [DecidableEq ω] in
/-- A request which is taken is the oldest one which was not. -/
theorem ServiceInv.takeRequest {qlen : ℕ} {s : Service ω} (h : ServiceInv qlen s)
    (hempty : ¬ s.queue.Empty) {request : Request} {queue : RequestQueue}
    (htake : takeRequest s.queue = some (request, queue)) :
    s.taken < s.stored.length ∧ s.stored[s.taken]? = some request ∧
      QueueInv qlen queue (s.stored.drop (s.taken + 1)) := by
  obtain ⟨request', rest, queue', hpending, htake', hqueue⟩ := h.queue.take hempty
  obtain ⟨rfl, rfl⟩ := Prod.mk.inj (Option.some.inj (htake'.symm.trans htake))
  have hfirst : s.stored[s.taken]? = some request' := by
    rw [← List.head?_drop, hpending, List.head?_cons]
  have hrest : s.stored.drop (s.taken + 1) = rest := by
    rw [← List.tail_drop, hpending, List.tail_cons]
  exact ⟨(List.getElem?_eq_some_iff.mp hfirst).1, hfirst, hrest ▸ hqueue⟩

/-- Every step keeps the invariant. -/
theorem ServiceInv.step {qlen : ℕ} {s s' : Service ω} {ticket : Option (TicketLabel ω)}
    (h : ServiceInv qlen s) (hstep : ServiceStep s ticket s') : ServiceInv qlen s' := by
  cases hstep with
  | ignore => exact h
  | store request queue hfull hstore =>
    obtain ⟨queue', hstore', hqueue⟩ := h.queue.store hfull request
    obtain rfl := Option.some.inj (hstore'.symm.trans hstore)
    refine ⟨h.known, ?_, ?_⟩
    · rw [List.length_append]
      exact Nat.le_add_right_of_le h.taken_le
    · rw [List.drop_append_of_le_length h.taken_le]
      exact hqueue
  | count w hstage => exact ⟨h.known.update fun hmissed => hmissed.elim, h.taken_le, h.queue⟩
  | take w request queue hstage hempty htake =>
    obtain ⟨hlt, -, hqueue⟩ := h.takeRequest hempty htake
    exact ⟨h.known.update fun hmissed => hmissed.elim, hlt, hqueue⟩
  | work w stage cacheIndex cache hserving hmissed hindex =>
    exact ⟨h.known.update fun _ => hindex, h.taken_le, h.queue⟩
  | respond w cacheIndex cache response size hserving =>
    exact ⟨h.known.update fun hmissed => hmissed.elim, h.taken_le, h.queue⟩
  | log w response size micros hstage =>
    exact ⟨h.known.update fun hmissed => hmissed.elim, h.taken_le, h.queue⟩

omit [DecidableEq ω] in
/-- The invariant holds in the beginning. -/
theorem serviceInv_init {qlen cacheSize : ℕ} (hqlen : 0 < qlen) {s : Service ω}
    (h : ServiceInit qlen cacheSize s) :
    ServiceInv qlen s := by
  obtain ⟨memory, hmemory, hqueue⟩ := h.queue
  refine ⟨fun w hmissed => ?_, ?_, ?_⟩
  · rw [(h.workers w).1] at hmissed
    exact hmissed.elim
  · rw [h.taken]
    exact Nat.zero_le _
  · rw [h.stored, h.taken, hqueue]
    exact queueInv_init hqlen memory hmemory

/-- The places of the requests as tickets. -/
def Service.tickets (s : Service ω) : Tickets ω where
  issued := s.stored.length
  taken := s.taken
  held w := (s.workers w).held
  done := s.log.map Prod.fst

/-- What is read off the variables of the workers after one of them changed its own. -/
theorem map_setWorker {α : Type*} (f : WorkerVars → α) (workers : ω → WorkerVars) (w : ω)
    (vars : WorkerVars) :
    (fun w' => f (Function.update workers w vars w')) =
      Function.update (fun w' => f (workers w')) w (f vars) :=
  Function.comp_update f workers w vars

/-- What does not change for the worker itself does not change. -/
theorem map_setWorker_of_eq {α : Type*} {f : WorkerVars → α} {workers : ω → WorkerVars} {w : ω}
    {vars : WorkerVars} (h : f vars = f (workers w)) :
    (fun w' => f (Function.update workers w vars w')) = fun w' => f (workers w') := by
  rw [map_setWorker, h]
  exact Function.update_eq_self w _

/-- The tickets after a step with a label, or without one. -/
def TicketsFollow (t : Tickets ω) : Option (TicketLabel ω) → Tickets ω → Prop
  | none, t' => t' = t
  | some l, t' => ticketNext t l = some t'

/-- Storing, taking and logging a request are the steps of its ticket, and the others do not move it. -/
theorem tickets_step {qlen : ℕ} {s s' : Service ω} {ticket : Option (TicketLabel ω)}
    (h : ServiceInv qlen s) (hstep : ServiceStep s ticket s') :
    TicketsFollow s.tickets ticket s'.tickets := by
  cases hstep with
  | ignore => rfl
  | store request queue =>
    simp only [TicketsFollow, ticketNext, Service.tickets, List.length_append, List.length_singleton]
  | count w hstage =>
    have hheld : (s.workers w).held = none := by rw [WorkerVars.held, hstage]
    simp only [TicketsFollow, Service.tickets, Service.setWorker, Tickets.mk.injEq, true_and, and_true]
    exact map_setWorker_of_eq (by rw [hheld, WorkerVars.held])
  | take w request queue hstage hempty htake =>
    have hheld : (s.workers w).held = none := by rw [WorkerVars.held, hstage]
    have hlt := (h.takeRequest hempty htake).1
    simp only [TicketsFollow, ticketNext, Service.tickets, Service.setWorker, hheld, hlt, and_self,
      if_true, map_setWorker WorkerVars.held]
    rfl
  | work w stage cacheIndex cache hserving hmissed =>
    simp only [TicketsFollow, Service.tickets, Service.setWorker, Tickets.mk.injEq, true_and, and_true]
    exact map_setWorker_of_eq
      (by rw [WorkerVars.held_of_serving hserving, WorkerVars.held_of_serving (Or.inr hmissed)])
  | respond w cacheIndex cache response size hserving =>
    simp only [TicketsFollow, Service.tickets, Service.respond, Service.setWorker, Tickets.mk.injEq,
      true_and, and_true]
    exact map_setWorker_of_eq (by rw [WorkerVars.held_of_serving hserving, WorkerVars.held])
  | log w response size micros hstage =>
    have hheld : (s.workers w).held = some (s.workers w).ticket := by rw [WorkerVars.held, hstage]
    simp only [TicketsFollow, ticketNext, Service.tickets, Service.setWorker, hheld,
      map_setWorker WorkerVars.held, Option.map_some, List.map_append, List.map_cons, List.map_nil]
    rfl

/-- The requests are tickets of the workers. -/
def serviceTickets (δ ω : Type*) [DecidableEq ω] (qlen cacheSize : ℕ) (hqlen : 0 < qlen) :
    TransitionSystem.Refinement (serviceSystem δ ω qlen cacheSize) (ticketSystem ω) where
  inv := ServiceInv qlen
  abs := Service.tickets
  visible := ServiceLabel.ticket
  inv_init _ hinit := serviceInv_init hqlen hinit
  inv_step _ _ _ hinv hnext := hinv.step (serviceNext_step hinv.known hnext)
  abs_init s hinit := by
    refine ⟨?_, hinit.taken, fun w => ?_, ?_⟩
    · rw [Service.tickets, hinit.stored, List.length_nil]
    · simp only [Service.tickets, WorkerVars.held, (hinit.workers w).1]
    · rw [Service.tickets, hinit.log, List.map_nil]
  abs_step s label s' hinv hnext := by
    have hfollow := tickets_step hinv (serviceNext_step hinv.known hnext)
    cases hlabel : label.ticket with
    | none =>
      rw [hlabel] at hfollow
      exact hfollow
    | some l =>
      rw [hlabel] at hfollow
      exact hfollow

/-- A worker's place in its loop, as far as its request and the cache are concerned. -/
def WorkerVars.work (vars : WorkerVars) : WorkerState :=
  match vars.stage with
  | .missed => .missed vars.request
  | .loaded buf size => .loaded vars.request buf size
  | .inserted buf size => .inserted vars.request buf size
  | _ => .idle

/-- The cache, what the workers do with it, and what was sent. -/
def Service.work (s : Service ω) : WorkersState ω where
  cache := s.cache
  workers w := (s.workers w).work
  sent := s.calls.map fun call => (call.request, call.response)

end Csci4061.WebServer
