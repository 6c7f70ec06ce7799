import Csci4061.Lib.Descriptor
import Csci4061.WebServer.GetRequest
import Csci4061.WebServer.ServedOnce

/-!
# The descriptors of the connections

A dispatcher accepts a connection and reads its first line with `get_request`, which closes it if the
request is refused. Otherwise the descriptor goes through the queue to a worker, and `return_result`
or `return_error` closes it. So three functions on two threads have to close it once between them.

The dispatcher takes a descriptor for an error unless it is positive, while `accept_connection` may
return 0. And `get_request` closes its stream also if `fdopen` did not give it one.
-/

namespace Csci4061.WebServer

open Csci4061.Lib TransitionSystem

/-- `get_request` and what it does with the descriptor. Every error closes the stream, and a request
which is accepted leaves it open. -/
def getRequestOps (opens : Bool) (stream : List UInt8) : Option CString × List DescriptorOp :=
  if opens then
    match getRequest stream with
    | some ⟨0, some filename⟩ => (some filename, [.fdopen true, .fgets])
    | _ => (none, [.fdopen true, .fgets, .fclose])
  else (none, [.fdopen false, .fclose])

/-- Whether the calls of `return_result` or of `return_error` succeed. -/
structure RespondOutcome where
  fdopen : Bool
  fprintf : Bool
  fflush : Bool
  write : Bool

/-- What both functions do with the descriptor: after an error they close it and return. -/
def respondOps (outcome : RespondOutcome) : List DescriptorOp :=
  if !outcome.fdopen then [.fdopen false, .close]
  else if !outcome.fprintf then [.fdopen true, .fprintf, .close]
  else if !outcome.fflush then [.fdopen true, .fprintf, .fflush, .close]
  else if !outcome.write then [.fdopen true, .fprintf, .fflush, .write, .close]
  else [.fdopen true, .fprintf, .fflush, .write, .fclose]

/-- `return_result`, on its descriptor. -/
def returnResultOps (outcome : RespondOutcome) : List DescriptorOp := respondOps outcome

/-- `return_error`, on its descriptor. -/
def returnErrorOps (outcome : RespondOutcome) : List DescriptorOp := respondOps outcome

/-- The operations of a call. -/
def callOps (outcome : RespondOutcome) : Response → List DescriptorOp
  | .result _ _ _ => returnResultOps outcome
  | .error _ => returnErrorOps outcome

/-- What became of a connection. -/
inductive ConnectionStatus
  /-- The dispatcher took the descriptor for an error. -/
  | ignored
  /-- `get_request` returned an error. -/
  | refused
  /-- The dispatcher is about to store the request. -/
  | storing (buf : CString)
  /-- The request was stored. -/
  | stored (ticket : ℕ)
  deriving DecidableEq

/-- A descriptor from `accept_connection`: whether `fdopen` succeeds on it in `get_request`, what the
dispatcher did with it and what became of it. -/
structure Connection where
  fd : ℤ
  opens : Bool
  ops : List DescriptorOp
  status : ConnectionStatus
  deriving DecidableEq

/-- The dispatcher between `accept_connection` and the queue. -/
def dispatchConnection (fd : ℤ) (opens : Bool) (stream : List UInt8) : Connection :=
  if 0 < fd then
    match getRequestOps opens stream with
    | (some buf, ops) => ⟨fd, opens, ops, .storing buf⟩
    | (none, ops) => ⟨fd, opens, ops, .refused⟩
  else ⟨fd, opens, [], .ignored⟩

/-- The service, all connections in the order in which they were accepted, and the calls which answer
with the outcomes of what they do. -/
structure Connections (ω : Type*) where
  service : Service ω
  accepted : List Connection
  exchanges : List (Call × RespondOutcome)

/-- The steps: a dispatcher accepts a connection, a dispatcher stores the request of the connection `i`,
or a worker does one of its steps. -/
inductive ConnectionsLabel (δ ω : Type*)
  | accept (fd : ℤ) (opens : Bool) (stream : List UInt8)
  | store (d : δ) (i : ℕ)
  | work (label : ServiceLabel δ ω) (outcome : RespondOutcome)

variable {δ ω : Type*}

/-- The step is one of a dispatcher. -/
def ServiceLabel.isDispatch : ServiceLabel δ ω → Bool
  | .dispatch _ _ _ => true
  | _ => false

variable [DecidableEq ω]

/-- One step. -/
def connectionsNext (s : Connections ω) : ConnectionsLabel δ ω → Option (Connections ω)
  | .accept fd opens stream =>
    if fd < 0 then some s
    else some { s with accepted := s.accepted ++ [dispatchConnection fd opens stream] }
  | .store d i =>
    match s.accepted[i]? with
    | some ⟨fd, opens, ops, .storing buf⟩ =>
      (serviceNext s.service (.dispatch d fd (some buf) : ServiceLabel δ ω)).map fun service =>
        { s with
          service := service
          accepted := s.accepted.set i ⟨fd, opens, ops, .stored s.service.stored.length⟩ }
    | _ => none
  | .work label outcome =>
    if label.isDispatch then none
    else (serviceNext s.service label).map fun service =>
      { s with
        service := service
        exchanges := s.exchanges ++ (service.calls.drop s.service.calls.length).map fun call =>
          (call, outcome) }

/-- Any number of dispatchers and workers. -/
def connectionsSystem (δ ω : Type*) [DecidableEq ω] (qlen cacheSize : ℕ) :
    TransitionSystem (Connections ω) (ConnectionsLabel δ ω) :=
  .ofNext (fun s => ServiceInit qlen cacheSize s.service ∧ s.accepted = [] ∧
    s.exchanges = []) connectionsNext

/-- The calls for a request. -/
def Connections.exchangesOf (s : Connections ω) (ticket : ℕ) : List (Call × RespondOutcome) :=
  s.exchanges.filter fun exchange => exchange.1.ticket = ticket

/-- What was done with the descriptor of a connection, by its dispatcher and then by its worker. -/
def Connections.opsOf (s : Connections ω) (c : Connection) : List DescriptorOp :=
  match c.status with
  | .stored ticket =>
    c.ops ++ (s.exchangesOf ticket).flatMap fun exchange => callOps exchange.2 exchange.1.response
  | _ => c.ops

/-- The request of a connection is still on its way: a dispatcher or a worker has it, or it waits in the
queue. -/
def Connections.Pending (s : Connections ω) (c : Connection) : Prop :=
  match c.status with
  | .storing _ => True
  | .stored ticket => s.service.At ticket .waiting ∨
      ∃ w, s.service.At ticket (.held w) ∧ (s.service.workers w).stage.Serving
  | _ => False

/-- The `i`-th connection is closed once, or not yet while its request is on its way: no operation is on
a closed descriptor or on a null stream, and the worker's operations are on its descriptor and for no
other connection. -/
structure Connections.ClosedOnce (s : Connections ω) (i : ℕ) (c : Connection) : Prop where
  accepted : ∃ h, exec handleNext .fresh (s.opsOf c) = some h
  once : ClosesLast (s.opsOf c) ∨ s.Pending c ∧ ∀ op ∈ s.opsOf c, ¬ op.Closes
  descriptor : ∀ exchange ∈ s.exchanges, c.status = .stored exchange.1.ticket →
    exchange.1.request.fd = c.fd
  own : ∀ (j : ℕ) (c' : Connection) (ticket : ℕ), s.accepted[j]? = some c' →
    c.status = .stored ticket → c'.status = .stored ticket → j = i

/-- What is known of a connection: its operations follow from what became of it, and a request which was
stored has its descriptor. -/
inductive Connection.Traced (stored : List Request) : Connection → Prop
  | ignored (opens : Bool) : Traced stored ⟨0, opens, [], .ignored⟩
  | unopened (fd : ℤ) : 0 < fd → Traced stored ⟨fd, false, [.fdopen false, .fclose], .refused⟩
  | refused (fd : ℤ) : 0 < fd → Traced stored ⟨fd, true, [.fdopen true, .fgets, .fclose], .refused⟩
  | storing (fd : ℤ) (buf : CString) :
    0 < fd → Traced stored ⟨fd, true, [.fdopen true, .fgets], .storing buf⟩
  | stored (fd : ℤ) (ticket : ℕ) (request : Request) : 0 < fd → stored[ticket]? = some request →
      request.fd = fd → Traced stored ⟨fd, true, [.fdopen true, .fgets], .stored ticket⟩

/-- What is known of the connections: the calls are those of the service, and a ticket belongs to one
connection. -/
structure ConnectionsInv (s : Connections ω) : Prop where
  exchanges : s.exchanges.map Prod.fst = s.service.calls
  traced : ∀ c ∈ s.accepted, c.Traced s.service.stored
  distinct : ∀ (i j : ℕ) (c c' : Connection) (ticket : ℕ), s.accepted[i]? = some c →
    s.accepted[j]? = some c' → c.status = .stored ticket → c'.status = .stored ticket → j = i

omit [DecidableEq ω] in
/-- A dispatcher leaves a connection which is not negative in a known state. -/
theorem dispatchConnection_traced {fd : ℤ} (hfd : 0 ≤ fd) (opens : Bool) (stream : List UInt8)
    (stored : List Request) : (dispatchConnection fd opens stream).Traced stored := by
  rw [dispatchConnection]
  by_cases hpos : 0 < fd
  · rw [if_pos hpos]
    cases opens with
    | false => exact .unopened fd hpos
    | true =>
      rw [getRequestOps, if_pos rfl]
      split
      · rename_i buf ops hops
        split at hops
        · obtain ⟨-, rfl⟩ := Prod.mk.inj hops
          exact .storing fd buf hpos
        · exact absurd (congrArg Prod.fst hops) (by simp)
      · rename_i ops hops
        split at hops
        · exact absurd (congrArg Prod.fst hops) (by simp)
        · obtain ⟨-, rfl⟩ := Prod.mk.inj hops
          exact .refused fd hpos
  · obtain rfl : fd = 0 := Int.le_antisymm (Int.not_lt.mp hpos) hfd
    exact .ignored opens

omit [DecidableEq ω] in
/-- A dispatcher which got a request has not stored it yet. -/
theorem dispatchConnection_not_stored (fd : ℤ) (opens : Bool) (stream : List UInt8) (ticket : ℕ) :
    (dispatchConnection fd opens stream).status ≠ .stored ticket := by
  rw [dispatchConnection]
  split
  · split <;> simp
  · simp

omit [DecidableEq ω] in
/-- More stored requests do not change what is known. -/
theorem Connection.Traced.append {stored : List Request} {c : Connection} (h : c.Traced stored)
    (more : List Request) : c.Traced (stored ++ more) := by
  cases h with
  | ignored opens => exact .ignored opens
  | unopened fd hpos => exact .unopened fd hpos
  | refused fd hpos => exact .refused fd hpos
  | storing fd buf hpos => exact .storing fd buf hpos
  | stored fd ticket request hpos hrequest hfd =>
    refine .stored fd ticket request hpos ?_ hfd
    rw [List.getElem?_append_left (List.getElem?_eq_some_iff.mp hrequest).1]
    exact hrequest

/-- A dispatcher which stores a request makes no call. -/
theorem serviceNext_dispatch {s s' : Service ω} {d : δ} {fd : ℤ} {buf : CString} (hfd : 0 < fd)
    (h : serviceNext s (.dispatch d fd (some buf)) = some s') :
    s'.stored = s.stored ++ [⟨fd, buf⟩] ∧ s'.calls = s.calls := by
  obtain ⟨hnone, -⟩ | ⟨text, queue, heq, -, -, -, rfl⟩ := serviceNext_dispatch_cases h
  · rw [ServiceLabel.ticket, if_pos hfd] at hnone
    exact absurd hnone (by simp)
  · obtain rfl := Option.some.inj heq
    exact ⟨rfl, rfl⟩

/-- A step of a worker stores no request and makes calls only. -/
theorem serviceNext_work {s s' : Service ω} {label : ServiceLabel δ ω} (hknown : MissesKnown s.workers)
    (hlabel : label.isDispatch = false) (h : serviceNext s label = some s') :
    s'.stored = s.stored ∧ s.calls <+: s'.calls := by
  have hissue : label.ticket ≠ some .issue := by
    cases label with
    | dispatch d fd buf => exact absurd hlabel (by simp [ServiceLabel.isDispatch])
    | _ => simp [ServiceLabel.ticket]
  generalize hticket : label.ticket = ticket at hissue
  cases hticket ▸ serviceNext_step hknown h with
  | store => exact absurd rfl hissue
  | respond => exact ⟨rfl, List.prefix_append _ _⟩
  | ignore | count | take | work | log => exact ⟨rfl, List.prefix_rfl⟩

omit [DecidableEq ω] in
/-- A stored request has a ticket which was handed out. -/
theorem Connection.Traced.ticket_lt {stored : List Request} {c : Connection} (h : c.Traced stored)
    {ticket : ℕ} (hstatus : c.status = .stored ticket) : ticket < stored.length := by
  cases h with
  | stored fd ticket' request hpos hrequest hfd =>
    obtain rfl := ConnectionStatus.stored.inj hstatus
    exact (List.getElem?_eq_some_iff.mp hrequest).1
  | _ => exact absurd hstatus (by simp)

/-- In the beginning there are no connections. -/
theorem connectionsInv_init {qlen cacheSize : ℕ} {s : Connections ω}
    (h : (connectionsSystem δ ω qlen cacheSize).init s) : ConnectionsInv s := by
  obtain ⟨hservice, haccepted, hexchanges⟩ := h
  constructor
  · rw [hexchanges, hservice.calls, List.map_nil]
  · simp [haccepted]
  · simp [haccepted]

omit [DecidableEq ω] in
/-- A dispatcher which accepts a connection keeps what is known. -/
theorem ConnectionsInv.accept {s : Connections ω} (h : ConnectionsInv s) {fd : ℤ} (hfd : 0 ≤ fd)
    (opens : Bool) (stream : List UInt8) :
    ConnectionsInv { s with accepted := s.accepted ++ [dispatchConnection fd opens stream] } where
  exchanges := h.exchanges
  traced c hc := by
    rcases List.mem_append.mp hc with hold | hnew
    · exact h.traced c hold
    · rw [List.mem_singleton.mp hnew]
      exact dispatchConnection_traced hfd opens stream _
  distinct i j c c' ticket hi hj hc hc' := by
    have hold {n : ℕ} {x : Connection}
        (hn : (s.accepted ++ [dispatchConnection fd opens stream])[n]? = some x)
        (hx : x.status = .stored ticket) : s.accepted[n]? = some x := by
      rw [List.getElem?_append] at hn
      split at hn
      · exact hn
      · obtain rfl := List.mem_singleton.mp (List.mem_of_getElem? hn)
        exact absurd hx (dispatchConnection_not_stored fd opens stream ticket)
    exact h.distinct i j c c' ticket (hold hi hc) (hold hj hc') hc hc'

omit [DecidableEq ω] in
/-- A dispatcher which stores a request keeps what is known: the ticket is a new one. -/
theorem ConnectionsInv.store {s : Connections ω} (h : ConnectionsInv s) {i : ℕ} {fd : ℤ} {opens : Bool}
    {ops : List DescriptorOp} {buf : CString} (hi : s.accepted[i]? = some ⟨fd, opens, ops, .storing buf⟩)
    {service : Service ω} (hstored : service.stored = s.service.stored ++ [⟨fd, buf⟩])
    (hcalls : service.calls = s.service.calls) :
    ConnectionsInv { s with
      service := service
      accepted := s.accepted.set i ⟨fd, opens, ops, .stored s.service.stored.length⟩ } where
  exchanges := h.exchanges.trans hcalls.symm
  traced c hc := by
    rw [hstored]
    rcases List.mem_or_eq_of_mem_set hc with hold | rfl
    · exact (h.traced c hold).append _
    · cases h.traced _ (List.mem_of_getElem? hi) with
      | storing _ _ hpos => exact .stored fd _ ⟨fd, buf⟩ hpos (by simp) rfl
  distinct i' j c c' ticket hi' hj hc hc' := by
    have hcases {n : ℕ} {x : Connection}
        (hn : (s.accepted.set i ⟨fd, opens, ops, .stored s.service.stored.length⟩)[n]? = some x)
        (hx : x.status = .stored ticket) :
        n = i ∧ ticket = s.service.stored.length ∨
          s.accepted[n]? = some x ∧ ticket < s.service.stored.length := by
      rw [List.getElem?_set] at hn
      split at hn
      · rename_i heq
        split at hn
        · obtain rfl := Option.some.inj hn
          exact Or.inl ⟨heq.symm, (ConnectionStatus.stored.inj hx).symm⟩
        · exact absurd hn (by simp)
      · exact Or.inr ⟨hn, (h.traced x (List.mem_of_getElem? hn)).ticket_lt hx⟩
    rcases hcases hi' hc with ⟨rfl, hnew⟩ | ⟨hold, hlt⟩
    · rcases hcases hj hc' with ⟨rfl, -⟩ | ⟨-, hlt⟩
      · rfl
      · omega
    · rcases hcases hj hc' with ⟨rfl, hnew⟩ | ⟨hold', -⟩
      · omega
      · exact h.distinct i' j c c' ticket hold hold' hc hc'

omit [DecidableEq ω] in
/-- A worker keeps what is known. -/
theorem ConnectionsInv.work {s : Connections ω} (h : ConnectionsInv s) {service : Service ω}
    (hstored : service.stored = s.service.stored) (hcalls : s.service.calls <+: service.calls)
    (outcome : RespondOutcome) :
    ConnectionsInv { s with
      service := service
      exchanges := s.exchanges ++
        (service.calls.drop s.service.calls.length).map fun call => (call, outcome) } where
  exchanges := by
    obtain ⟨new, hnew⟩ := hcalls
    rw [List.map_append, h.exchanges, ← hnew, List.drop_left, List.map_map]
    exact congrArg _ (List.map_id new)
  traced c hc := hstored ▸ h.traced c hc
  distinct := h.distinct

/-- Every step keeps what is known, and is one of the service or leaves it as it is. -/
theorem connectionsNext_spec {s s' : Connections ω} {label : ConnectionsLabel δ ω}
    (hknown : MissesKnown s.service.workers) (hinv : ConnectionsInv s)
    (h : connectionsNext s label = some s') :
    ConnectionsInv s' ∧ (s'.service = s.service ∨
      ∃ served : ServiceLabel δ ω, serviceNext s.service served = some s'.service) := by
  cases label with
  | accept fd opens stream =>
    rw [connectionsNext] at h
    split at h
    · obtain rfl := Option.some.inj h
      exact ⟨hinv, Or.inl rfl⟩
    · rename_i hfd
      obtain rfl := Option.some.inj h
      exact ⟨hinv.accept (Int.not_lt.mp hfd) opens stream, Or.inl rfl⟩
  | store d i =>
    rw [connectionsNext] at h
    split at h
    · rename_i fd opens ops buf hi
      obtain ⟨service, hservice, rfl⟩ := Option.map_eq_some_iff.mp h
      cases hinv.traced _ (List.mem_of_getElem? hi) with
      | storing _ _ hpos =>
        obtain ⟨hstored, hcalls⟩ := serviceNext_dispatch hpos hservice
        exact ⟨hinv.store hi hstored hcalls, Or.inr ⟨_, hservice⟩⟩
    · exact absurd h (by simp)
  | work label outcome =>
    rw [connectionsNext] at h
    split at h
    · exact absurd h (by simp)
    · rename_i hlabel
      obtain ⟨service, hservice, rfl⟩ := Option.map_eq_some_iff.mp h
      obtain ⟨hstored, hcalls⟩ := serviceNext_work hknown (Bool.eq_false_iff.mpr hlabel) hservice
      exact ⟨hinv.work hstored hcalls outcome, Or.inr ⟨label, hservice⟩⟩

/-- What is known in every reachable state. -/
theorem connectionsInv_reachable {qlen cacheSize : ℕ} (hqlen : 0 < qlen) {s : Connections ω}
    (h : (connectionsSystem δ ω qlen cacheSize).Reachable s) :
    (serviceSystem δ ω qlen cacheSize).Reachable s.service ∧ ConnectionsInv s := by
  refine h.invariant (I := fun s => (serviceSystem δ ω qlen cacheSize).Reachable s.service ∧
    ConnectionsInv s) ?_ ?_
  · intro s hinit
    exact ⟨.of_init hinit.1, connectionsInv_init hinit⟩
  · rintro s label s' ⟨hservice, hinv⟩ hstep
    obtain ⟨hinv', hsame | ⟨served, hserved⟩⟩ :=
      connectionsNext_spec (service_tickets hqlen hservice).1.known hinv hstep
    · exact ⟨hsame ▸ hservice, hinv'⟩
    · exact ⟨hservice.snoc hserved, hinv'⟩

omit [DecidableEq ω] in
/-- With a call for its request a connection is closed, and the call is the only one. -/
theorem ConnectionsInv.exchangesOf_eq {s : Connections ω} (h : ConnectionsInv s)
    (hrecorded : Recorded s.service) {call : Call} (hcall : call ∈ s.service.calls) :
    ∃ outcome, s.exchangesOf call.ticket = [(call, outcome)] := by
  rw [← h.exchanges] at hcall
  obtain ⟨⟨_, outcome⟩, hexchange, rfl⟩ := List.mem_map.mp hcall
  have hnodup : (s.exchanges.map fun exchange => exchange.1.ticket).Nodup := by
    have hcalls := hrecorded.calls_nodup
    rw [← h.exchanges, List.map_map] at hcalls
    exact hcalls
  exact ⟨outcome, filter_eq_singleton hnodup hexchange⟩

omit [DecidableEq ω] in
/-- Without a call for its request a connection is as its dispatcher left it. -/
theorem ConnectionsInv.exchangesOf_eq_nil {s : Connections ω} (h : ConnectionsInv s) {ticket : ℕ}
    (hnone : ∀ call ∈ s.service.calls, call.ticket ≠ ticket) : s.exchangesOf ticket = [] := by
  rw [Connections.exchangesOf, List.filter_eq_nil_iff]
  intro exchange hexchange
  have hcall : exchange.1 ∈ s.service.calls := h.exchanges ▸ List.mem_map_of_mem hexchange
  simpa using hnone exchange.1 hcall

/-- A worker closes a descriptor which the dispatcher left open, whatever fails. -/
theorem exec_callOps (outcome : RespondOutcome) (response : Response) : ∃ h,
    exec handleNext .fresh ([.fdopen true, .fgets] ++ callOps outcome response) = some h ∧
    h.isOpen = false := by
  obtain ⟨fdopen, fprintf, fflush, write⟩ := outcome
  cases response <;> cases fdopen <;> cases fprintf <;> cases fflush <;> cases write <;>
    exact ⟨_, rfl, rfl⟩

omit [DecidableEq ω] in
/-- What was done with the descriptor of a stored request: its worker has answered, or the request is
still on its way. -/
theorem ConnectionsInv.opsOf_stored {qlen : ℕ} {s : Connections ω} (h : ConnectionsInv s)
    (hrecorded : Recorded s.service) (hservice : ServiceInv qlen s.service)
    (htickets : TicketsInv s.service.tickets) {c : Connection} {ticket : ℕ}
    (hstatus : c.status = .stored ticket) :
    (∃ outcome response, s.opsOf c = c.ops ++ callOps outcome response) ∨ s.opsOf c = c.ops ∧
    s.Pending c := by
  simp only [Connections.opsOf, Connections.Pending, hstatus]
  by_cases hcalled : ∃ call ∈ s.service.calls, call.ticket = ticket
  · obtain ⟨call, hcall, rfl⟩ := hcalled
    obtain ⟨outcome, hexchanges⟩ := h.exchangesOf_eq hrecorded hcall
    refine Or.inl ⟨outcome, call.response, ?_⟩
    rw [hexchanges, List.flatMap_singleton]
  · have hnone : s.exchangesOf ticket = [] :=
      h.exchangesOf_eq_nil fun call hcall hticket => hcalled ⟨call, hcall, hticket⟩
    have hpending := (hrecorded.called_or_pending hservice htickets ticket).resolve_left hcalled
    refine Or.inr ⟨?_, hpending⟩
    rw [hnone, List.flatMap_nil, List.append_nil]

/-- Every connection is closed once, except for a descriptor 0 and for one on which `fdopen` fails in
`get_request`. -/
theorem closedOnce_iff {qlen cacheSize : ℕ} (hqlen : 1 ≤ qlen) {s : Connections ω}
    (h : (connectionsSystem δ ω qlen cacheSize).Reachable s) {i : ℕ} {c : Connection}
    (hc : s.accepted[i]? = some c) :
    s.ClosedOnce i c ↔ c.fd ≠ 0 ∧ c.opens = true := by
  obtain ⟨hservice, hinv⟩ := connectionsInv_reachable hqlen h
  obtain ⟨hserviceInv, htickets⟩ := service_tickets hqlen hservice
  have hrecorded := (service_recorded hqlen hservice).1
  cases hinv.traced c (List.mem_of_getElem? hc) with
  | ignored opens =>
    refine iff_of_false ?_ (by simp)
    rintro ⟨-, ⟨pre, op, hops, -⟩ | hpending, -, -⟩
    · exact absurd hops (by simp [Connections.opsOf])
    · exact hpending.1
  | unopened fd hpos =>
    refine iff_of_false ?_ (by simp)
    rintro ⟨⟨_, hexec⟩, -, -, -⟩
    exact absurd hexec (by simp [Connections.opsOf, exec, handleNext, Handle.fresh])
  | refused fd hpos =>
    have hexec : exec handleNext .fresh [.fdopen true, .fgets, .fclose] = some ⟨false, true⟩ := rfl
    refine iff_of_true ⟨⟨_, hexec⟩, Or.inl (exec_handleNext_closed rfl hexec rfl), ?_, ?_⟩
      ⟨hpos.ne', rfl⟩
    · exact fun exchange _ hstatus => absurd hstatus (by simp)
    · exact fun j c' ticket _ hstatus => absurd hstatus (by simp)
  | storing fd buf hpos =>
    refine iff_of_true ⟨⟨_, rfl⟩, Or.inr ⟨trivial, ?_⟩, ?_, ?_⟩ ⟨hpos.ne', rfl⟩
    · simp [Connections.opsOf, DescriptorOp.Closes]
    · exact fun exchange _ hstatus => absurd hstatus (by simp)
    · exact fun j c' ticket _ hstatus => absurd hstatus (by simp)
  | stored fd ticket request hpos hrequest hfd =>
    have hdescriptor :
        ∀ exchange ∈ s.exchanges, ConnectionStatus.stored ticket = .stored exchange.1.ticket →
        exchange.1.request.fd = fd := by
      intro exchange hexchange hstatus
      have hcall : exchange.1 ∈ s.service.calls := hinv.exchanges ▸ List.mem_map_of_mem hexchange
      have hown := hrecorded.call_request hcall
      rw [← ConnectionStatus.stored.inj hstatus, hrequest] at hown
      rw [← Option.some.inj hown, hfd]
    have hown (j : ℕ) (c' : Connection) (ticket' : ℕ) (hj : s.accepted[j]? = some c')
        (hstatus : ConnectionStatus.stored ticket = .stored ticket')
        (hstatus' : c'.status = .stored ticket') : j = i :=
      hinv.distinct i j _ c' ticket' hc hj hstatus hstatus'
    refine iff_of_true ?_ ⟨hpos.ne', rfl⟩
    have hstatus : (⟨fd, true, [.fdopen true, .fgets], .stored ticket⟩ : Connection).status =
        .stored ticket := rfl
    rcases hinv.opsOf_stored hrecorded hserviceInv htickets hstatus with ⟨outcome, response, hops⟩ |
      ⟨hops, hpending⟩
    · obtain ⟨handle, hexec, hclosed⟩ := exec_callOps outcome response
      rw [← hops] at hexec
      exact ⟨⟨handle, hexec⟩, Or.inl (exec_handleNext_closed rfl hexec hclosed), hdescriptor, hown⟩
    · refine ⟨⟨⟨true, true⟩, ?_⟩, Or.inr ⟨hpending, ?_⟩, hdescriptor, hown⟩
      · rw [hops]
        rfl
      · rw [hops]
        simp [DescriptorOp.Closes]

/-- A server with one thread of each kind which was just started, and no connection yet. -/
def freshConnections : Connections Unit := ⟨freshService, [], []⟩

/-- Nothing was done yet. -/
theorem connectionsSystem_init_fresh : (connectionsSystem Unit Unit 1 1).init freshConnections :=
  ⟨⟨⟨_, rfl, rfl⟩, ⟨_, rfl, rfl⟩, fun _ => ⟨rfl, rfl⟩, rfl, rfl, rfl, rfl⟩, rfl, rfl⟩

/-- A request for a file which is not there; every call on the descriptor succeeds. -/
def notFound : List (ConnectionsLabel Unit Unit) :=
  let succeeds := ⟨true, true, true, true⟩
  [.accept 5 true (bytes "GET /a\n"), .store () 0, .work (.count ()) succeeds, .work (.take ()) succeeds,
    .work (.lookup ()) succeeds, .work (.load () .statFails) succeeds]

/-- The connection of this request is closed once. -/
theorem closedOnce_iff_notFound : ∃ s, (connectionsSystem Unit Unit 1 1).Reachable s ∧
    s.ClosedOnce 0 ⟨5, true, [.fdopen true, .fgets], .stored 0⟩ := by
  have hrun : (exec connectionsNext freshConnections notFound).map Connections.accepted =
      some [⟨5, true, [.fdopen true, .fgets], .stored 0⟩] := by decide +kernel
  obtain ⟨s, hexec, haccepted⟩ := Option.map_eq_some_iff.mp hrun
  have hreachable : (connectionsSystem Unit Unit 1 1).Reachable s :=
    ⟨freshConnections, notFound, connectionsSystem_init_fresh, .of_exec hexec⟩
  exact ⟨s, hreachable, (closedOnce_iff (le_refl 1) hreachable (by rw [haccepted]; rfl)).mpr
    ⟨by decide, rfl⟩⟩

/-- The descriptor 0 is never closed. -/
theorem not_closedOnce_zero : ∃ s, (connectionsSystem Unit Unit 1 1).Reachable s ∧
    ∃ c, s.accepted[0]? = some c ∧ c.fd = 0 ∧ ¬ s.ClosedOnce 0 c := by
  have hreachable : (connectionsSystem Unit Unit 1 1).Reachable
      { freshConnections with accepted := [⟨0, true, [], .ignored⟩] } :=
    ⟨freshConnections, [.accept 0 true (bytes "GET /a\n")], connectionsSystem_init_fresh, .of_exec rfl⟩
  refine ⟨_, hreachable, _, rfl, rfl, ?_⟩
  rintro ⟨-, ⟨pre, op, hops, -⟩ | hpending, -, -⟩
  · exact absurd hops (by simp [Connections.opsOf])
  · exact hpending.1

end Csci4061.WebServer
