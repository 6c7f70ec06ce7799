import Csci4061.Chat.Commands
import Csci4061.Lib.Transition

/-!
# The loop of the chat server

One iteration of the loop admits a user, handles a line of the administrator and polls the full
slots. Each of these is a step, and so is the return to the top of the loop. A step is labelled
with what its system calls report, so a run covers any connections, inputs and failures.

The system hands out descriptors which are not open and process numbers of no child which was not
waited for. The child of a connection leaves this loop, and is modelled with the relay.
-/

namespace Csci4061.Chat

open Csci4061.Lib

/-- The two descriptors of a pipe. -/
structure PipeEnds where
  readEnd : ℤ
  writeEnd : ℤ
  deriving DecidableEq

/-- Where the server stands in its loop. The slots which are still to be polled are given. -/
inductive Phase
  | top
  | admin
  | polling (slots : List (Fin maxUser))
  | exited
  deriving DecidableEq

/-- The table and the variables of `main`. -/
structure Server where
  table : Table
  phase : Phase
  childpid : ℤ
  buf : List UInt8
  userId : List UInt8
  serverReadingFromChild : PipeEnds
  serverWritingToChild : PipeEnds
  childWritingToUser : PipeEnds
  childReadingFromUser : PipeEnds

/-- What the calls for an accepted connection report: the descriptors, the bytes which are sent for
the name, and the process number, with `none` for a failure. `stack` is what the name of the local
structure of `add_user` holds before. -/
structure Connection where
  cfd : ℤ
  childReadingFromUser : Option PipeEnds
  childWritingToUser : Option PipeEnds
  sent : Option (List UInt8)
  serverReadingFromChild : Option PipeEnds
  serverWritingToChild : Option PipeEnds
  pid : Option ℤ
  stack : List UInt8
  sent_length : ∀ data ∈ sent, data.length ≤ maxUserId
  stack_length : stack.length = maxUserId

/-- What a `read` of at most `MAX_MSG` bytes delivers. -/
abbrev Input := { data : List UInt8 // data.length ≤ maxMsg }

/-- The system hands out a descriptor. -/
def Table.openFd (t : Table) (fd : ℤ) : Option Table :=
  if 0 ≤ fd ∧ fd ∉ t.openFds then some { t with openFds := insert fd t.openFds } else none

/-- A `pipe` which succeeds. -/
def Table.openPipe (t : Table) (ends : PipeEnds) : Option Table :=
  (t.openFd ends.readEnd).bind fun t => t.openFd ends.writeEnd

/-- `get_connection`, after `accept` succeeded. -/
def getConnection (c : Connection) (s : Server) : Option (ℤ × Server) :=
  (s.table.openFd c.cfd).bind fun t =>
    match c.childReadingFromUser with
    | none => some (-1, { s with table := t })
    | some p => (t.openPipe p).bind fun t =>
      match c.childWritingToUser with
      | none => some (-1, { s with table := t, childReadingFromUser := p })
      | some q => (t.openPipe q).bind fun t =>
        match c.sent with
        | none => some (-1, { s with table := t, childReadingFromUser := p, childWritingToUser := q })
        | some data => some (0, { s with
            table := t.closeFd c.cfd
            childReadingFromUser := p
            childWritingToUser := q
            userId := storeBytes s.userId data })

/-- The two calls of `pipe` for a new child. A failure leaves the arrays as they are. -/
def initializePipes (c : Connection) (s : Server) : Option Server :=
  match c.serverReadingFromChild with
  | none => some s
  | some p => (s.table.openPipe p).bind fun t =>
    match c.serverWritingToChild with
    | none => some { s with table := t, serverReadingFromChild := p }
    | some q => (t.openPipe q).map fun t =>
        { s with table := t, serverReadingFromChild := p, serverWritingToChild := q }

/-- The call of `fork` for slot `idx`. -/
def forkChild (idx : Fin maxUser) (c : Connection) (s : Server) : Option Server :=
  match c.pid with
  | none => some { s with table := s.table.record (.forked idx (-1)), childpid := -1 }
  | some pid =>
    if 0 < pid ∧ pid ∉ s.table.children then
      let t := s.table.record (.forked idx pid)
      some { s with table := { t with children := insert pid t.children }, childpid := pid }
    else none

/-- What the server does after `fork`: it closes the ends which are not its own and adds the user. -/
def registerUser (idx : Fin maxUser) (c : Connection) (s : Server) : Option Server :=
  let t := (s.table.closeFd s.serverReadingFromChild.writeEnd).closeFd s.serverWritingToChild.readEnd
  let t := (t.closeFd s.childReadingFromUser.readEnd).closeFd s.childWritingToUser.writeEnd
  (addUser idx s.childpid
    (cString s.userId) s.serverWritingToChild.writeEnd s.serverReadingFromChild.readEnd
    c.stack t).map fun t => { s with table := t, buf := List.replicate maxMsg 0 }

/-- The admission of a user to slot `idx`. -/
def admitUser (idx : Fin maxUser) (c : Connection) (s : Server) : Option Server :=
  (initializePipes c s).bind fun s => (forkChild idx c s).bind fun s => registerUser idx c s

/-- The part of an iteration which handles a new connection; `none` if `accept` fails. -/
def acceptUser (outcome : Option Connection) (s : Server) : Option Server :=
  match outcome with
  | none => some s
  | some c => (getConnection c s).bind fun (result, s) =>
    if result = -1 then some s
    else
      let t := (s.table.closeFd s.childReadingFromUser.writeEnd).closeFd s.childWritingToUser.readEnd
      let s := { s with table := t }
      match findEmptySlot s.table.users with
      | none => some s
      | some idx =>
        if findUserIndex s.table.users (cString s.userId) ≠ none then some s
        else admitUser idx c s

/-- The switch on a line of the administrator. -/
def adminCommand (buf : CString) (outcomes : Fin maxUser → SlotOutcome) (s : Server) : Option Server :=
  (getCommandType buf).bind fun type =>
    match type with
    | .list => (listUsers none s.table).map fun t => { s with table := t }
    | .kick => (extractName buf s.userId).bind fun name =>
      match name with
      | none => some s
      | some userId =>
        match findUserIndex s.table.users (cString userId) with
        | none => some { s with userId := userId }
        | some idx => some { s with userId := userId, table := kickUser idx (outcomes idx) s.table }
    | .exit => some { s with table := cleanupUsers outcomes s.table, phase := .exited }
    | _ =>
      let notice := bytes "admin-notice: " ++ buf
      if notice.length < maxMsg + (bytes "admin-notice: ").length then
        some { s with table := (broadcastMsg notice none outcomes s.table).2 }
      else none

/-- The line which was entered on a terminal, from the contents of the buffer: `some none` for an empty
one. The buffer has to be terminated, and `buf[strlen(buf) - 1]` is undefined for no bytes. -/
def enteredLine (memory : List UInt8) : Option (Option CString) :=
  if maxMsg ≤ (cString memory).length then none
  else
    (cString memory).getLast?.map fun last =>
      if last = 0x0A then
        if (cString memory).length = 1 then none else some (cString memory).dropLast
      else some (cString memory)

/-- The part of an iteration which handles a line of the administrator; `none` if there is none. An
empty line goes back to the top of the loop. -/
def pollAdmin (input : Option Input) (outcomes : Fin maxUser → SlotOutcome) (s : Server) :
    Option Server :=
  match input with
  | none => some { s with phase := .polling (List.finRange maxUser) }
  | some data => (enteredLine (storeBytes s.buf data)).bind fun line =>
    match line with
    | none => some { s with buf := storeBytes s.buf data, phase := .top }
    | some line =>
      (adminCommand line outcomes { s with phase := .polling (List.finRange maxUser) }).map fun s =>
        { s with buf := List.replicate maxMsg 0 }

/-- The part of an iteration which polls slot `i`; `none` if there is nothing to read. -/
def pollUser (i : Fin maxUser) (input : Option Input) (outcomes : Fin maxUser → SlotOutcome)
    (s : Server) :
    Option Server :=
  if s.table.Full i then
    match input with
    | none => some s
    | some data =>
      let message := cString (storeBytes s.buf data)
      (userCommand i message outcomes (s.table.record (.handled i message))).map fun t =>
        { s with table := t, buf := List.replicate maxMsg 0 }
  else some s

/-- The steps of the server. -/
inductive ServerLabel
  | accept (outcome : Option Connection)
  | admin (input : Option Input) (outcomes : Fin maxUser → SlotOutcome)
  | poll (input : Option Input) (outcomes : Fin maxUser → SlotOutcome)
  | sleep

/-- One step. A process which is not in the role of the server only sleeps. -/
def serverNext (s : Server) : ServerLabel → Option Server
  | .accept outcome =>
    if s.phase = .top ∧ 0 < s.childpid then (acceptUser outcome s).map fun s =>
      { s with phase := .admin } else none
  | .admin input outcomes => if s.phase = .admin then pollAdmin input outcomes s else none
  | .poll input outcomes =>
    match s.phase with
    | .polling (i :: slots) =>
      (pollUser i input outcomes s).map fun s => { s with phase := .polling slots }
    | _ => none
  | .sleep =>
    match s.phase with
    | .polling [] => some { s with phase := .top }
    | .top => if 0 < s.childpid then none else some s
    | _ => none

/-- The server after `setup_connection` and `init_user_list`, with its listening socket `gSfd`. -/
def ServerInit (s : Server) : Prop :=
  ∃ gSfd : ℤ, 2 < gSfd ∧ s.table = ⟨initUserList, {0, 1, 2, gSfd}, ∅, []⟩ ∧ s.phase = .top ∧
    s.childpid = 1 ∧ s.buf.length = maxMsg ∧ s.userId.length = maxUserId

/-- The server, for any connections and inputs and any outcome of its system calls. -/
def serverSystem : TransitionSystem Server ServerLabel := .ofNext ServerInit serverNext

/-- A connection is handled at the top of the loop, by the process in the role of the server. -/
theorem serverNext_accept {s s' : Server} {outcome : Option Connection}
    (h : serverNext s (.accept outcome) = some s') : (s.phase = .top ∧ 0 < s.childpid) ∧
      ∃ s₁, acceptUser outcome s = some s₁ ∧ s' = { s₁ with phase := .admin } := by
  simp only [serverNext] at h
  split at h
  · rename_i hturn
    obtain ⟨s₁, haccept, rfl⟩ := Option.map_eq_some_iff.mp h
    exact ⟨hturn, s₁, haccept, rfl⟩
  · exact absurd h (by simp)

/-- Then a line of the administrator is handled. -/
theorem serverNext_admin {s s' : Server} {input : Option Input} {outcomes : Fin maxUser → SlotOutcome}
    (h : serverNext s (.admin input outcomes) = some s') :
    s.phase = .admin ∧ pollAdmin input outcomes s = some s' := by
  simp only [serverNext] at h
  split at h
  · rename_i hphase
    exact ⟨hphase, h⟩
  · exact absurd h (by simp)

/-- Then the first slot which is left is polled. -/
theorem serverNext_poll {s s' : Server} {input : Option Input} {outcomes : Fin maxUser → SlotOutcome}
    (h : serverNext s (.poll input outcomes) = some s') : ∃ i slots s₁, s.phase = .polling (i :: slots) ∧
      pollUser i input outcomes s = some s₁ ∧ s' = { s₁ with phase := .polling slots } := by
  simp only [serverNext] at h
  split at h
  · rename_i i slots hphase
    obtain ⟨s₁, hpoll, rfl⟩ := Option.map_eq_some_iff.mp h
    exact ⟨i, slots, s₁, hphase, hpoll, rfl⟩
  · exact absurd h (by simp)

/-- Sleeping leads back to the top of the loop. -/
theorem serverNext_sleep {s s' : Server} (h : serverNext s .sleep = some s') :
    s' = { s with phase := .top } := by
  simp only [serverNext] at h
  split at h
  · exact (Option.some.inj h).symm
  · rename_i hphase
    split at h
    · exact absurd h (by simp)
    · rw [← Option.some.inj h, ← hphase]
  · exact absurd h (by simp)

/-- A descriptor which is handed out was not open. -/
theorem openFd_cases {t t' : Table} {fd : ℤ} (h : t.openFd fd = some t') :
    fd ∉ t.openFds ∧ t' = { t with openFds := insert fd t.openFds } := by
  rw [Table.openFd] at h
  split at h
  · rename_i hunused
    exact ⟨hunused.2, (Option.some.inj h).symm⟩
  · exact absurd h (by simp)

/-- The ends of a new pipe were not open, and differ. -/
theorem openPipe_cases {t t' : Table} {ends : PipeEnds} (h : t.openPipe ends = some t') :
    ends.readEnd ∉ t.openFds ∧ ends.writeEnd ∉ insert ends.readEnd t.openFds ∧
      t' = { t with openFds := insert ends.writeEnd (insert ends.readEnd t.openFds) } := by
  obtain ⟨t₁, hread, hwrite⟩ := Option.bind_eq_some_iff.mp h
  obtain ⟨hnew, rfl⟩ := openFd_cases hread
  obtain ⟨hnew', rfl⟩ := openFd_cases hwrite
  exact ⟨hnew, hnew', rfl⟩

/-- Between two states of one iteration only the variables for connections and the open descriptors
changed, and nothing was closed which was open before. -/
structure Undisturbed (s s' : Server) : Prop where
  eq : s' = { s with
    table := { s.table with openFds := s'.table.openFds }
    userId := s'.userId
    childReadingFromUser := s'.childReadingFromUser
    childWritingToUser := s'.childWritingToUser }
  openFds : s.table.openFds ⊆ s'.table.openFds

/-- The slots are as they were. -/
theorem Undisturbed.users {s s' : Server} (h : Undisturbed s s') : s'.table.users = s.table.users := by
  rw [h.eq]

/-- The children are as they were. -/
theorem Undisturbed.children {s s' : Server} (h : Undisturbed s s') :
    s'.table.children = s.table.children := by
  rw [h.eq]

/-- There are no new events. -/
theorem Undisturbed.events {s s' : Server} (h : Undisturbed s s') :
    s'.table.events = s.table.events := by rw [h.eq]

/-- The process keeps its role. -/
theorem Undisturbed.childpid {s s' : Server} (h : Undisturbed s s') : s'.childpid = s.childpid := by
  rw [h.eq]

/-- The descriptors of the two pipes of a user. -/
def Server.userEnds (s : Server) : List ℤ :=
  [s.childReadingFromUser.readEnd, s.childReadingFromUser.writeEnd, s.childWritingToUser.readEnd,
    s.childWritingToUser.writeEnd]

/-- The descriptors of the two pipes between the server and a child. -/
def Server.childEnds (s : Server) : List ℤ :=
  [s.serverReadingFromChild.readEnd, s.serverReadingFromChild.writeEnd, s.serverWritingToChild.readEnd,
    s.serverWritingToChild.writeEnd]

/-- The connection is complete: both pipes of the user were made and its name was read. -/
def Connection.Complete (c : Connection) : Prop :=
  c.childReadingFromUser ≠ none ∧ c.childWritingToUser ≠ none ∧ c.sent ≠ none

/-- A connection fails, or makes two pipes of new descriptors and stores the bytes of the name. -/
theorem getConnection_cases {c : Connection} {s s' : Server} {result : ℤ}
    (h : getConnection c s = some (result, s')) :
    Undisturbed s s' ∧ (result = -1 ∧ ¬ c.Complete ∨ result = 0 ∧ c.Complete ∧
      s'.userId = storeBytes s.userId (c.sent.getD []) ∧
      s'.userEnds.Nodup ∧ (∀ fd ∈ s'.userEnds, fd ∉ s.table.openFds) ∧
      ∀ fd, fd ∈ s'.table.openFds ↔ fd ∈ s.table.openFds ∨ fd ∈ s'.userEnds) := by
  rw [getConnection] at h
  obtain ⟨t₁, hcfd, h⟩ := Option.bind_eq_some_iff.mp h
  obtain ⟨hcfd, rfl⟩ := openFd_cases hcfd
  split at h
  · rename_i hnone
    obtain ⟨rfl, rfl⟩ := Prod.mk.inj (Option.some.inj h)
    exact ⟨⟨rfl, Finset.subset_insert _ _⟩, Or.inl ⟨rfl, fun hcomplete => hcomplete.1 hnone⟩⟩
  · rename_i p hp
    obtain ⟨t₂, hpipe, h⟩ := Option.bind_eq_some_iff.mp h
    obtain ⟨hpread, hpwrite, rfl⟩ := openPipe_cases hpipe
    split at h
    · rename_i hnone
      obtain ⟨rfl, rfl⟩ := Prod.mk.inj (Option.some.inj h)
      refine ⟨⟨rfl, ?_⟩, Or.inl ⟨rfl, fun hcomplete => hcomplete.2.1 hnone⟩⟩
      intro fd hfd
      simp [hfd]
    · rename_i q hq
      obtain ⟨t₃, hpipe', h⟩ := Option.bind_eq_some_iff.mp h
      obtain ⟨hqread, hqwrite, rfl⟩ := openPipe_cases hpipe'
      split at h
      · rename_i hnone
        obtain ⟨rfl, rfl⟩ := Prod.mk.inj (Option.some.inj h)
        refine ⟨⟨rfl, ?_⟩, Or.inl ⟨rfl, fun hcomplete => hcomplete.2.2 hnone⟩⟩
        intro fd hfd
        simp [hfd]
      · rename_i data hdata
        obtain ⟨rfl, rfl⟩ := Prod.mk.inj (Option.some.inj h)
        refine ⟨⟨rfl, ?_⟩, Or.inr ⟨rfl, ⟨by simp [hp], by simp [hq], by simp [hdata]⟩, by simp [hdata],
          ?_, ?_, ?_⟩⟩
        · intro fd hfd
          simp only [Table.closeFd]
          grind
        · simp only [Server.userEnds]
          grind
        · simp only [Server.userEnds]
          grind
        · intro fd
          simp only [Server.userEnds, Table.closeFd]
          grind

/-- Both calls of `pipe` for the child and `fork` succeed. -/
def Connection.Succeeds (c : Connection) : Prop :=
  c.serverReadingFromChild ≠ none ∧ c.serverWritingToChild ≠ none ∧ c.pid ≠ none

/-- The calls of `pipe` change the two arrays and the open descriptors only. If both succeed there are
four new descriptors, and otherwise at most those of the first pipe. -/
theorem initializePipes_cases {c : Connection} {s s' : Server} (h : initializePipes c s = some s') :
    s' = { s with
      table := { s.table with openFds := s'.table.openFds }
      serverReadingFromChild := s'.serverReadingFromChild
      serverWritingToChild := s'.serverWritingToChild } ∧
    s.table.openFds ⊆ s'.table.openFds ∧
    (c.serverReadingFromChild ≠ none → c.serverWritingToChild ≠ none →
      s'.childEnds.Nodup ∧ (∀ fd ∈ s'.childEnds, fd ∉ s.table.openFds) ∧
        ∀ fd, fd ∈ s'.table.openFds ↔ fd ∈ s.table.openFds ∨ fd ∈ s'.childEnds) ∧
    (c.serverReadingFromChild = none ∨ c.serverWritingToChild = none → ∀ fd ∈ s'.table.openFds,
      fd ∈ s.table.openFds ∨ fd = s'.serverReadingFromChild.readEnd ∨
        fd = s'.serverReadingFromChild.writeEnd) := by
  rw [initializePipes] at h
  split at h
  · rename_i hnone
    obtain rfl := Option.some.inj h
    exact ⟨rfl, subset_rfl, fun hsome => absurd hnone hsome, fun _ fd hfd => Or.inl hfd⟩
  · rename_i p hp
    obtain ⟨t₁, hpipe, h⟩ := Option.bind_eq_some_iff.mp h
    obtain ⟨hpread, hpwrite, rfl⟩ := openPipe_cases hpipe
    split at h
    · rename_i hnone
      obtain rfl := Option.some.inj h
      refine ⟨rfl, ?_, fun _ hsome => absurd hnone hsome, fun _ fd hfd => ?_⟩
      · intro fd hfd
        simp [hfd]
      · grind
    · rename_i q hq
      obtain ⟨t₂, hpipe', rfl⟩ := Option.map_eq_some_iff.mp h
      obtain ⟨hqread, hqwrite, rfl⟩ := openPipe_cases hpipe'
      refine ⟨rfl, ?_, fun _ _ => ⟨?_, ?_, ?_⟩, ?_⟩
      · intro fd hfd
        simp [hfd]
      · simp only [Server.childEnds]
        grind
      · simp only [Server.childEnds]
        grind
      · simp only [Server.childEnds]
        grind
      · rintro (hnone | hnone)
        · exact absurd hnone (by simp [hp])
        · exact absurd hnone (by simp [hq])

/-- The call of `fork` sets the variable `childpid` and adds a child if it succeeds. -/
theorem forkChild_cases {idx : Fin maxUser} {c : Connection} {s s' : Server}
    (h : forkChild idx c s = some s') :
    s' = { s with
      table := { s.table with
        children := s'.table.children
        events := s.table.events ++ [.forked idx s'.childpid] }
      childpid := s'.childpid } ∧
    (c.pid = none ∧ s'.childpid = -1 ∧ s'.table.children = s.table.children ∨
      c.pid ≠ none ∧ 0 < s'.childpid ∧ s'.childpid ∉ s.table.children ∧
        s'.table.children = insert s'.childpid s.table.children) := by
  rw [forkChild] at h
  split at h
  · rename_i hnone
    obtain rfl := Option.some.inj h
    exact ⟨rfl, Or.inl ⟨hnone, rfl, rfl⟩⟩
  · rename_i pid hpid
    split at h
    · rename_i hnew
      obtain rfl := Option.some.inj h
      exact ⟨rfl, Or.inr ⟨by simp [hpid], hnew.1, hnew.2, rfl⟩⟩
    · exact absurd h (by simp)

/-- After `fork` the slot is assigned, and the ends which are not the server's own are closed. -/
theorem registerUser_cases {idx : Fin maxUser} {c : Connection} {s s' : Server}
    (h : registerUser idx c s = some s') :
    ∃ copied : List UInt8, cString copied = cString s.userId ∧ copied.length = maxUserId ∧
      s' = { s with
        table := { s.table with
          users := Function.update s.table.users idx ⟨s.childpid, copied,
            s.serverWritingToChild.writeEnd, s.serverReadingFromChild.readEnd, .full⟩
          openFds := (((s.table.openFds.erase s.serverReadingFromChild.writeEnd).erase
            s.serverWritingToChild.readEnd).erase s.childReadingFromUser.readEnd).erase
            s.childWritingToUser.writeEnd }
        buf := List.replicate maxMsg 0 } := by
  obtain ⟨t, hadd, rfl⟩ := Option.map_eq_some_iff.mp h
  obtain ⟨copied, hcopied, rfl⟩ := Option.map_eq_some_iff.mp hadd
  obtain ⟨hname, hlength⟩ := strcpy_eq_some (zero_not_mem_cString _) hcopied
  exact ⟨copied, hname, hlength.trans c.stack_length, rfl⟩

/-- An admission assigns slot `idx`, with what `fork` reported and two ends of the pipes of the child. -/
theorem admitUser_cases {idx : Fin maxUser} {c : Connection} {s s' : Server}
    (h : admitUser idx c s = some s') :
    ∃ user : User, s'.table.users = Function.update s.table.users idx user ∧ user.status = .full ∧
      user.pid = s'.childpid ∧ user.name = cString s.userId ∧
        user.fdToUser = s'.serverWritingToChild.writeEnd ∧
      user.fdToServer = s'.serverReadingFromChild.readEnd ∧
      s'.table.events = s.table.events ++ [.forked idx s'.childpid] ∧
      (c.pid = none ∧ s'.childpid = -1 ∧ s'.table.children = s.table.children ∨
        c.pid ≠ none ∧ 0 < s'.childpid ∧ s'.childpid ∉ s.table.children ∧
          s'.table.children = insert s'.childpid s.table.children) := by
  obtain ⟨s₁, hpipes, h⟩ := Option.bind_eq_some_iff.mp h
  obtain ⟨s₂, hfork, h⟩ := Option.bind_eq_some_iff.mp h
  obtain ⟨hframe, -, -, -⟩ := initializePipes_cases hpipes
  obtain ⟨hforked, hpid⟩ := forkChild_cases hfork
  obtain ⟨copied, hname, -, rfl⟩ := registerUser_cases h
  refine ⟨⟨s₂.childpid, copied, s₂.serverWritingToChild.writeEnd, s₂.serverReadingFromChild.readEnd,
    .full⟩, ?_, rfl, rfl, ?_, rfl, rfl, ?_, ?_⟩
  · rw [hforked, hframe]
  · rw [User.name, hname, hforked, hframe]
  · rw [hforked, hframe]
  · rw [hframe] at hpid
    exact hpid

/-- What an admission does to the descriptors. If both calls of `pipe` succeed, two new ones stay open
and those of the user's pipes are closed; otherwise at most one new descriptor stays open. -/
theorem admitUser_openFds {idx : Fin maxUser} {c : Connection} {s s' : Server}
    (h : admitUser idx c s = some s') (hread : s.childReadingFromUser.readEnd ∈ s.table.openFds)
    (hwrite : s.childWritingToUser.writeEnd ∈ s.table.openFds) :
    (c.serverReadingFromChild ≠ none → c.serverWritingToChild ≠ none →
      s'.serverWritingToChild.writeEnd ≠ s'.serverReadingFromChild.readEnd ∧
      s'.serverWritingToChild.writeEnd ∉ s.table.openFds ∧
        s'.serverReadingFromChild.readEnd ∉ s.table.openFds ∧
      ∀ fd, fd ∈ s'.table.openFds ↔ (fd ∈ s.table.openFds ∧ fd ≠ s.childReadingFromUser.readEnd ∧
        fd ≠ s.childWritingToUser.writeEnd) ∨ fd = s'.serverWritingToChild.writeEnd ∨
          fd = s'.serverReadingFromChild.readEnd) ∧
    (c.serverReadingFromChild = none ∨ c.serverWritingToChild = none → ∀ fd ∈ s'.table.openFds,
      (fd ∈ s.table.openFds ∧ fd ≠ s.childReadingFromUser.readEnd ∧ fd ≠ s.childWritingToUser.writeEnd) ∨
        fd = s'.serverReadingFromChild.readEnd) := by
  obtain ⟨s₁, hpipes, h⟩ := Option.bind_eq_some_iff.mp h
  obtain ⟨s₂, hfork, h⟩ := Option.bind_eq_some_iff.mp h
  obtain ⟨hframe, -, hboth, hfails⟩ := initializePipes_cases hpipes
  obtain ⟨hforked, -⟩ := forkChild_cases hfork
  obtain ⟨copied, -, -, rfl⟩ := registerUser_cases h
  have hopen : s₂.table.openFds = s₁.table.openFds := by rw [hforked]
  have hreading : s₂.serverReadingFromChild = s₁.serverReadingFromChild := by rw [hforked]
  have hwriting : s₂.serverWritingToChild = s₁.serverWritingToChild := by rw [hforked]
  have hfromUser : s₂.childReadingFromUser = s.childReadingFromUser := by rw [hforked, hframe]
  have htoUser : s₂.childWritingToUser = s.childWritingToUser := by rw [hforked, hframe]
  simp only [hopen, hreading, hwriting, hfromUser, htoUser]
  constructor
  · intro hsome hsome'
    obtain ⟨hends, hnew, hall⟩ := hboth hsome hsome'
    simp only [Server.childEnds] at hends hnew hall
    refine ⟨?_, ?_, ?_, fun fd => ?_⟩ <;> grind
  · intro hnone fd hfd
    have hold := hfails hnone fd
    grind

/-- The name which a complete connection brings. -/
def sentName (c : Connection) (s : Server) : CString := cString (storeBytes s.userId (c.sent.getD []))

/-- A connection gets as far as the admission: it is complete, there is room and its name is not
taken. -/
def Admissible (c : Connection) (s : Server) (idx : Fin maxUser) : Prop :=
  c.Complete ∧ findEmptySlot s.table.users = some idx ∧ findUserIndex s.table.users (sentName c s) = none

/-- A new connection leaves the table alone, unless it is admissible. Then a user is admitted from a
state in which two new descriptors are open, the ends of the user's pipes which the child needs. -/
theorem acceptUser_cases {outcome : Option Connection} {s s' : Server}
    (h : acceptUser outcome s = some s') :
    (∀ c idx, outcome = some c → ¬ Admissible c s idx) ∧ Undisturbed s s' ∨
      ∃ c idx s₁, outcome = some c ∧ Admissible c s idx ∧ Undisturbed s s₁ ∧
        cString s₁.userId = sentName c s ∧
        s₁.childReadingFromUser.readEnd ∉ s.table.openFds ∧
          s₁.childWritingToUser.writeEnd ∉ s.table.openFds ∧
        (∀ fd, fd ∈ s₁.table.openFds ↔ fd ∈ s.table.openFds ∨ fd = s₁.childReadingFromUser.readEnd ∨
          fd = s₁.childWritingToUser.writeEnd) ∧ admitUser idx c s₁ = some s' := by
  unfold acceptUser at h
  split at h
  · obtain rfl := Option.some.inj h
    exact Or.inl ⟨by simp, ⟨rfl, subset_rfl⟩⟩
  · rename_i c
    obtain ⟨⟨result, s₀⟩, hconnection, h⟩ := Option.bind_eq_some_iff.mp h
    obtain ⟨hframe, ⟨rfl, hfails⟩ | ⟨rfl, hcomplete, huserId, hends, hnew, hopen⟩⟩ :=
      getConnection_cases hconnection
    · obtain rfl := Option.some.inj h
      exact Or.inl ⟨fun c' idx hc hadmissible => hfails (Option.some.inj hc ▸ hadmissible.1), hframe⟩
    · have husers : s₀.table.users = s.table.users := by rw [hframe.eq]
      have hname : cString s₀.userId = sentName c s := by rw [huserId, sentName]
      have hclosed (fd : ℤ) : fd ∈ ((s₀.table.openFds.erase s₀.childReadingFromUser.writeEnd).erase
          s₀.childWritingToUser.readEnd) ↔ fd ∈ s.table.openFds ∨ fd = s₀.childReadingFromUser.readEnd ∨
            fd = s₀.childWritingToUser.writeEnd := by
        simp only [Server.userEnds] at hends hnew hopen
        grind
      have hframe' : Undisturbed s { s₀ with
          table := (s₀.table.closeFd s₀.childReadingFromUser.writeEnd).closeFd
            s₀.childWritingToUser.readEnd } := by
        refine ⟨?_, fun fd hfd => (hclosed fd).mpr (Or.inl hfd)⟩
        rw [hframe.eq]
        rfl
      simp only [if_neg (by decide : ¬ (0 : ℤ) = -1)] at h
      split at h
      · rename_i hfull
        obtain rfl := Option.some.inj h
        refine Or.inl ⟨fun c' idx hc hadmissible => ?_, hframe'⟩
        have hroom := hadmissible.2.1
        rw [← husers] at hroom
        exact absurd (hroom.symm.trans hfull) (by simp)
      · rename_i idx hidx
        split at h
        · rename_i htaken
          obtain rfl := Option.some.inj h
          refine Or.inl ⟨fun c' idx hc hadmissible => ?_, hframe'⟩
          obtain rfl := Option.some.inj hc
          refine htaken ?_
          have hfree := hadmissible.2.2
          rw [← husers, ← hname] at hfree
          exact hfree
        · rename_i hfree
          refine Or.inr ⟨c, idx, _, rfl, ⟨hcomplete, ?_, ?_⟩, hframe', hname, ?_, ?_, hclosed, h⟩
          · rw [← husers]
            exact hidx
          · rw [← husers, ← hname]
            exact not_not.mp hfree
          · exact hnew _ (by simp [Server.userEnds])
          · exact hnew _ (by simp [Server.userEnds])

/-- A server which was just started. -/
def freshServer : Server where
  table := ⟨initUserList, {0, 1, 2, 3}, ∅, []⟩
  phase := .top
  childpid := 1
  buf := List.replicate maxMsg 0
  userId := List.replicate maxUserId 0
  serverReadingFromChild := ⟨-1, -1⟩
  serverWritingToChild := ⟨-1, -1⟩
  childWritingToUser := ⟨-1, -1⟩
  childReadingFromUser := ⟨-1, -1⟩

/-- A server which was just started is in an initial state. -/
theorem freshServer_init : ServerInit freshServer :=
  ⟨3, by decide, rfl, rfl, rfl, List.length_replicate, List.length_replicate⟩

/-- A connection for the name `ann`. -/
def annConnection (serverWritingToChild : Option PipeEnds) (pid : Option ℤ) : Connection where
  cfd := 4
  childReadingFromUser := some ⟨5, 6⟩
  childWritingToUser := some ⟨7, 8⟩
  sent := some (bytes "ann" ++ [0])
  serverReadingFromChild := some ⟨4, 6⟩
  serverWritingToChild := serverWritingToChild
  pid := pid
  stack := List.replicate maxUserId 0
  sent_length := by decide
  stack_length := List.length_replicate

/-- An array of zeros for a name has its length. -/
theorem length_zeroStack : (List.replicate maxUserId (0 : UInt8)).length = maxUserId :=
  List.length_replicate

/-- A connection for the name `bob`, behind that of `ann`. -/
def bobConnection : Connection where
  cfd := 5
  childReadingFromUser := some ⟨6, 7⟩
  childWritingToUser := some ⟨8, 10⟩
  sent := some (bytes "bob" ++ [0])
  serverReadingFromChild := some ⟨5, 7⟩
  serverWritingToChild := some ⟨8, 11⟩
  pid := some 101
  stack := List.replicate maxUserId 0
  sent_length := by decide
  stack_length := length_zeroStack

end Csci4061.Chat
