import Csci4061.Chat.Relay
import Csci4061.Chat.Removal

/-!
# A client, its child and the server

The client reads lines from its terminal and writes them to its child, which passes the bytes on to
the server; the server runs the switch on what it reads for the slot of the user. Neither of the two
pipes has message boundaries, so what one `read` returns need not be what one `write` wrote.

The server is the one with all its other users and its administrator. A session starts in any
reachable state in which the slot is full and the pipes to the server are empty.

A terminal delivers no NUL. With this the buffer of the loop holds nothing behind what is read.
-/

namespace Csci4061.Chat

open Csci4061.Lib Csci4061.Lib.TransitionSystem

/-- A buffer which was cleared, or into which an empty line was read since then. -/
def IdleBuffer (buf : List UInt8) : Prop :=
  ∃ line : CString, (line = [] ∨ line = [0x0A]) ∧ buf = line ++ List.replicate (maxMsg - line.length) 0

/-- A buffer which was cleared. -/
theorem idleBuffer_replicate : IdleBuffer (List.replicate maxMsg 0) := ⟨[], Or.inl rfl, rfl⟩

/-- Behind its first byte an idle buffer has zeros. -/
theorem IdleBuffer.drop_eq {buf : List UInt8} (h : IdleBuffer buf) {n : ℕ} (hn : 0 < n) :
    buf.drop n = List.replicate (maxMsg - n) 0 := by
  obtain ⟨line, hline, rfl⟩ := h
  have hshort : line.length ≤ n := by
    rcases hline with rfl | rfl
    · exact Nat.zero_le _
    · exact hn
  rw [List.drop_append, List.drop_eq_nil_of_le hshort, List.nil_append, List.drop_replicate]
  congr 1
  omega

/-- Behind what is read into an idle buffer there are zeros. -/
theorem IdleBuffer.storeBytes_eq {buf data : List UInt8} (h : IdleBuffer buf) (hne : data ≠ []) :
    storeBytes buf data = data ++ List.replicate (maxMsg - data.length) 0 := by
  rw [storeBytes, h.drop_eq (List.length_pos_iff.mpr hne)]

/-- What is read into an idle buffer is the string in it. -/
theorem IdleBuffer.cString_storeBytes {buf data : List UInt8} (h : IdleBuffer buf) (hne : data ≠ [])
    (hzero : 0 ∉ data) : cString (storeBytes buf data) = data := by
  rw [h.storeBytes_eq hne]
  cases maxMsg - data.length with
  | zero => rw [List.replicate_zero, List.append_nil, cString_of_not_mem hzero]
  | succ n => exact cString_append_zero hzero _

/-- The input of the administrator has no NUL. -/
def ServerLabel.Typed : ServerLabel → Prop
  | .admin (some data) _ => 0 ∉ data.val
  | _ => True

instance : (label : ServerLabel) → Decidable label.Typed
  | .admin (some data) _ => inferInstanceAs (Decidable (0 ∉ data.val))
  | .admin none _ => isTrue trivial
  | .accept _ => isTrue trivial
  | .poll _ _ => isTrue trivial
  | .sleep => isTrue trivial

/-- The server with an administrator at a terminal. -/
def typedServerSystem : TransitionSystem Server ServerLabel :=
  serverSystem.restrict fun _ label => label.Typed

/-- An empty line leaves the buffer idle. -/
theorem IdleBuffer.blank {buf data : List UInt8} (h : IdleBuffer buf) (hzero : 0 ∉ data)
    (hblank : enteredLine (storeBytes buf data) = some none) : IdleBuffer (storeBytes buf data) := by
  cases data with
  | nil => exact h
  | cons c data =>
    have hne := List.cons_ne_nil c data
    rw [enteredLine, h.cString_storeBytes hne hzero] at hblank
    split at hblank
    · exact absurd hblank (by simp)
    · obtain ⟨last, hlast, hblank⟩ := Option.map_eq_some_iff.mp hblank
      split at hblank
      · rename_i hnewline
        split at hblank
        · rename_i hlength
          obtain rfl : data = [] := by simpa using hlength
          obtain rfl : c = last := by simpa using hlast
          rw [h.storeBytes_eq hne, hnewline]
          exact ⟨[0x0A], Or.inr rfl, rfl⟩
        · exact absurd hblank (by simp)
      · exact absurd hblank (by simp)

/-- The admission of a user clears the buffer. -/
theorem admitUser_buf {idx : Fin maxUser} {c : Connection} {s s' : Server}
    (h : admitUser idx c s = some s') :
    s'.buf = List.replicate maxMsg 0 := by
  obtain ⟨s₁, -, h⟩ := Option.bind_eq_some_iff.mp h
  obtain ⟨s₂, -, h⟩ := Option.bind_eq_some_iff.mp h
  obtain ⟨copied, -, -, rfl⟩ := registerUser_cases h
  rfl

/-- The buffer of the server stays idle. -/
theorem serverNext_idleBuffer {s s' : Server} {label : ServerLabel} (h : IdleBuffer s.buf)
    (htyped : label.Typed) (hstep : serverNext s label = some s') : IdleBuffer s'.buf := by
  cases label with
  | accept outcome =>
    obtain ⟨-, s₁, haccept, rfl⟩ := serverNext_accept hstep
    rcases acceptUser_cases haccept with ⟨-, hframe⟩ | ⟨c, idx, s₂, -, -, hframe, -, -, -, -, hadmission⟩
    · rw [hframe.eq]
      exact h
    · rw [admitUser_buf hadmission]
      exact idleBuffer_replicate
  | admin input outcomes =>
    obtain ⟨-, hadmin⟩ := serverNext_admin hstep
    cases input with
    | none =>
      obtain rfl := Option.some.inj hadmin
      exact h
    | some data =>
      obtain ⟨line, hline, hadmin⟩ := Option.bind_eq_some_iff.mp hadmin
      cases line with
      | none =>
        obtain rfl := Option.some.inj hadmin
        exact h.blank htyped hline
      | some line =>
        obtain ⟨s₁, -, rfl⟩ := Option.map_eq_some_iff.mp hadmin
        exact idleBuffer_replicate
  | poll input outcomes =>
    obtain ⟨i, slots, s₁, -, hpoll, rfl⟩ := serverNext_poll hstep
    unfold pollUser at hpoll
    split at hpoll
    · cases input with
      | none =>
        obtain rfl := Option.some.inj hpoll
        exact h
      | some data =>
        obtain ⟨t, -, rfl⟩ := Option.map_eq_some_iff.mp hpoll
        exact idleBuffer_replicate
    · obtain rfl := Option.some.inj hpoll
      exact h
  | sleep =>
    obtain rfl := serverNext_sleep hstep
    exact h

/-- A step which fills the first slot clears the buffer. -/
theorem idleBuffer_of_filled {s s' : Server} {label : ServerLabel} (hstep : serverNext s label = some s')
    (hbefore : ∀ j, ¬ s.table.Full j) {i : Fin maxUser} (hfull : s'.table.Full i) :
    IdleBuffer s'.buf := by
  by_cases hlabel : ∃ outcome, label = .accept outcome
  · obtain ⟨outcome, rfl⟩ := hlabel
    obtain ⟨-, s₁, haccept, rfl⟩ := serverNext_accept hstep
    rcases acceptUser_cases haccept with ⟨-, hframe⟩ | ⟨c, idx, s₂, -, -, hframe, -, -, -, -, hadmission⟩
    · rw [Table.Full, hframe.users] at hfull
      exact absurd hfull (hbefore i)
    · rw [admitUser_buf hadmission]
      exact idleBuffer_replicate
  · obtain ⟨-, slots, t, hquiet, htable, -⟩ :=
      serverNext_removesOnly hstep fun outcome heq => hlabel ⟨outcome, heq⟩
    rw [htable] at hfull
    have hfull' : t.Full i := full_of_cleanupLoop hfull
    rw [Table.Full, hquiet.users] at hfull'
    exact absurd hfull' (hbefore i)

/-- A server which has a user has an idle buffer. -/
theorem idleBuffer_of_full {s : Server} (h : typedServerSystem.Reachable s) {i : Fin maxUser}
    (hfull : s.table.Full i) :
    IdleBuffer s.buf := by
  have hinit (s : Server) (hs : typedServerSystem.init s) (i : Fin maxUser) :
      s.table.Full i → IdleBuffer s.buf := by
    obtain ⟨gSfd, -, htable, -⟩ := hs
    rw [htable]
    exact fun hfull => absurd hfull (by simp [Table.Full, initUserList, emptyUser])
  have hstep (s : Server) (label : ServerLabel) (s' : Server)
      (ih : ∀ i, s.table.Full i → IdleBuffer s.buf)
      (hnext : typedServerSystem.step s label s') (i : Fin maxUser) (hfull : s'.table.Full i) :
      IdleBuffer s'.buf := by
    by_cases hbefore : ∃ j, s.table.Full j
    · obtain ⟨j, hj⟩ := hbefore
      exact serverNext_idleBuffer (ih j hj) hnext.1 hnext.2
    · exact idleBuffer_of_filled hnext.2 (not_exists.mp hbefore) hfull
  exact h.invariant hinit hstep i hfull

/-- What the client does with a line: it asks for another one, it writes data and goes on, it writes
data and quits, or it dies. -/
inductive ClientAction
  | blank
  | send (data : List UInt8)
  | exit (data : List UInt8)
  | crash
  deriving DecidableEq

/-- The client reads `data` from its terminal. It writes the bytes before the last one which it read. -/
def clientInput (buf data : List UInt8) : Option ClientAction :=
  let memory := storeBytes buf data
  (enteredLine memory).bind fun line =>
    match line with
    | none => some .blank
    | some line => (getCommandType line).map fun type =>
      let written := (memory.set line.length 0).take (data.length - 1)
      match type with
      | .exit => .exit written
      | .seg => .crash
      | _ => .send written

/-- A client, its child and the server. While `reading`, the slot is full and its descriptor is the
read end of the pipe of this child. `sent` are the lines the client wrote, and `handled` the messages
for which the server ran its switch. -/
structure Session where
  server : Server
  relay : Relay
  alive : Bool
  reading : Bool
  clientBuf : List UInt8
  sent : List CString
  handled : List CString

/-- The steps of a session: a line is entered at the client, the client reads from its child, a step
of the child, a step of the server which reads nothing from this user, a read of the server from this
user, and a write of the server to the child, which may come at any time. -/
inductive SessionLabel
  | line (line : CString)
  | display (n : ℕ)
  | child (n : ℕ)
  | server (label : ServerLabel)
  | poll (n : ℕ) (outcomes : Fin maxUser → SlotOutcome)
  | deliver (data : List UInt8)

/-- What the client wrote, if there was room for it. -/
def Relay.acceptedLine (r : Relay) (data : List UInt8) : List CString :=
  if r.childReadingFromUser.Fits data then [data] else []

/-- The effect of an action of the client, after it read `data`. -/
def Session.act (s : Session) (data : List UInt8) : ClientAction → Session
  | .blank => { s with clientBuf := storeBytes s.clientBuf data }
  | .send written => { s with
      relay := { s.relay with childReadingFromUser := s.relay.childReadingFromUser.tryWrite written }
      clientBuf := List.replicate maxMsg 0
      sent := s.sent ++ s.relay.acceptedLine written }
  | .exit written => { s with
      relay := { s.relay with
        childReadingFromUser := s.relay.childReadingFromUser.tryWrite written
        userOpen := false }
      sent := s.sent ++ s.relay.acceptedLine written }
  | .crash => { s with relay := { s.relay with userOpen := false } }

/-- After a step of the server: the child was killed if its number was taken from the slot. -/
def Session.observe (s : Session) (slot : Fin maxUser) (server : Server) : Session :=
  let user := s.server.table.users slot
  let user' := server.table.users slot
  { s with
    server := server
    alive := s.alive && decide (user'.pid = user.pid)
    reading := s.reading && decide (user'.status = .full ∧ user'.fdToServer = user.fdToServer) }

/-- The server polls this user. -/
def Session.Polls (s : Session) (slot : Fin maxUser) : Prop :=
  match s.server.phase with
  | .polling (i :: _) => i = slot ∧ s.reading = true
  | _ => False

instance (s : Session) (slot : Fin maxUser) : Decidable (s.Polls slot) :=
  match h : s.server.phase with
  | .polling (i :: _) => decidable_of_iff (i = slot ∧ s.reading = true) (by rw [Session.Polls, h])
  | .polling [] => isFalse (by rw [Session.Polls, h]; exact id)
  | .top => isFalse (by rw [Session.Polls, h]; exact id)
  | .admin => isFalse (by rw [Session.Polls, h]; exact id)
  | .exited => isFalse (by rw [Session.Polls, h]; exact id)

/-- As far as the pipe of this user is concerned, the server may take a step with this label. It finds
nothing when it polls an empty pipe. The end of file at a child which is gone is undefined, since the
message has no first word. -/
def Session.Permits (s : Session) (slot : Fin maxUser) : ServerLabel → Prop
  | .poll input _ =>
    s.Polls slot → input = none ∧ s.alive = true ∧ s.relay.serverReadingFromChild.contents = []
  | _ => True

instance (s : Session) (slot : Fin maxUser) : (label : ServerLabel) → Decidable (s.Permits slot label)
  | .poll input _ => inferInstanceAs
      (Decidable (s.Polls slot → input = none ∧ s.alive = true ∧
        s.relay.serverReadingFromChild.contents = []))
  | .accept _ => isTrue trivial
  | .admin _ _ => isTrue trivial
  | .sleep => isTrue trivial

/-- The server reads data for the slot. -/
def Session.receive (s : Session) (slot : Fin maxUser) (n : ℕ) (data : Input)
    (outcomes : Fin maxUser → SlotOutcome) : Option Session :=
  (serverNext s.server (.poll (some data) outcomes)).map fun server =>
    { s.observe slot server with
      relay := { s.relay with serverReadingFromChild := s.relay.serverReadingFromChild.read n }
      handled := s.handled ++ [cString (storeBytes s.server.buf data)] }

/-- One step. A client whose child is gone reads the end of file and quits. -/
def sessionNext (slot : Fin maxUser) (s : Session) : SessionLabel → Option Session
  | .line line =>
    if s.relay.userOpen = true ∧ line.length < maxMsg then
      (clientInput s.clientBuf (line ++ [0x0A])).map (s.act (line ++ [0x0A]))
    else none
  | .display n =>
    if s.relay.userOpen = true ∧ MayRead s.relay.childWritingToUser n then
      some { s with
        relay := { s.relay with childWritingToUser := s.relay.childWritingToUser.read n }
        clientBuf := List.replicate maxMsg 0 }
    else if s.alive = false ∧ s.relay.childWritingToUser.contents = [] then
      some { s with relay := { s.relay with userOpen := false } }
    else none
  | .child n =>
    if s.alive = true then (childNext s.relay n).map fun relay => { s with relay := relay } else none
  | .server label =>
    if label.Typed ∧ s.Permits slot label then (serverNext s.server label).map (s.observe slot) else none
  | .poll n outcomes =>
    if h : s.Polls slot ∧ MayRead s.relay.serverReadingFromChild n then
      s.receive slot n ⟨s.relay.serverReadingFromChild.contents.take n, by
        rw [List.length_take]
        exact (Nat.min_le_left _ _).trans h.2.2.1⟩ outcomes
    else none
  | .deliver data => some { s with
      relay := { s.relay with serverWritingToChild := s.relay.serverWritingToChild.tryWrite data } }

/-- The slot is full, and nothing is on the way from its user to the server. -/
structure SessionInit (slot : Fin maxUser) (s : Session) : Prop where
  reachable : typedServerSystem.Reachable s.server
  full : s.server.table.Full slot
  nothingSent : s.relay.childReadingFromUser.writes = []
  nothingHeld : ∀ buf, s.relay.child ≠ .writeServer buf
  nothingPassed : s.relay.serverReadingFromChild.writes = []
  nothingHandled : s.handled = []

/-- A session with the user of one slot. -/
def sessionSystem (slot : Fin maxUser) : TransitionSystem Session SessionLabel :=
  .ofNext (SessionInit slot) (sessionNext slot)

/-- A step of the server which reads nothing from this user is seen in its slot only. -/
theorem sessionNext_server {slot : Fin maxUser} {s s' : Session} {label : ServerLabel}
    (h : sessionNext slot s (.server label) = some s') :
    label.Typed ∧ ∃ server, serverNext s.server label = some server ∧ s' = s.observe slot server := by
  rw [sessionNext] at h
  split at h
  · rename_i hpermitted
    obtain ⟨server, hserver, rfl⟩ := Option.map_eq_some_iff.mp h
    exact ⟨hpermitted.1, server, hserver, rfl⟩
  · exact absurd h (by simp)

/-- A read of the server from this user takes bytes from the pipe and handles the message they are. -/
theorem sessionNext_poll {slot : Fin maxUser} {s s' : Session} {n : ℕ}
    {outcomes : Fin maxUser → SlotOutcome} (h : sessionNext slot s (.poll n outcomes) = some s') :
    MayRead s.relay.serverReadingFromChild n ∧ ∃ data server,
      data.val = s.relay.serverReadingFromChild.contents.take n ∧
      serverNext s.server (.poll (some data) outcomes) = some server ∧ s' = { s.observe slot server with
        relay := { s.relay with serverReadingFromChild := s.relay.serverReadingFromChild.read n }
        handled := s.handled ++
          [cString (storeBytes s.server.buf (s.relay.serverReadingFromChild.contents.take n))] } := by
  simp only [sessionNext] at h
  split at h
  · rename_i hread
    obtain ⟨server, hserver, rfl⟩ := Option.map_eq_some_iff.mp h
    exact ⟨hread.2, _, server, rfl, hserver, rfl⟩
  · exact absurd h (by simp)

/-- Apart from a read of the server, nothing is handled, and the lines which were sent stay. -/
theorem sessionNext_frame {slot : Fin maxUser} {s s' : Session} {label : SessionLabel}
    (h : sessionNext slot s label = some s') (hlabel : ∀ n outcomes, label ≠ .poll n outcomes) :
    s'.handled = s.handled ∧ s.sent <+: s'.sent := by
  cases label with
  | line line =>
    rw [sessionNext] at h
    split at h
    · obtain ⟨action, -, rfl⟩ := Option.map_eq_some_iff.mp h
      cases action with
      | blank | crash => exact ⟨rfl, List.prefix_rfl⟩
      | send | exit => exact ⟨rfl, List.prefix_append _ _⟩
    · exact absurd h (by simp)
  | display n =>
    rw [sessionNext] at h
    split at h
    · exact Option.some.inj h ▸ ⟨rfl, List.prefix_rfl⟩
    · split at h
      · exact Option.some.inj h ▸ ⟨rfl, List.prefix_rfl⟩
      · exact absurd h (by simp)
  | child n =>
    rw [sessionNext] at h
    split at h
    · obtain ⟨relay, -, rfl⟩ := Option.map_eq_some_iff.mp h
      exact ⟨rfl, List.prefix_rfl⟩
    · exact absurd h (by simp)
  | server label =>
    obtain ⟨-, server, -, rfl⟩ := sessionNext_server h
    exact ⟨rfl, List.prefix_rfl⟩
  | poll n outcomes => exact absurd rfl (hlabel n outcomes)
  | deliver data => exact Option.some.inj h ▸ ⟨rfl, List.prefix_rfl⟩

/-- What the server handles is what it read, if its buffer is idle and no NUL was sent. -/
theorem handled_eq {s : Session} {n : ℕ} (hidle : IdleBuffer s.server.buf)
    (hread : MayRead s.relay.serverReadingFromChild n)
    (hzero : 0 ∉ s.relay.serverReadingFromChild.contents) :
    cString (storeBytes s.server.buf (s.relay.serverReadingFromChild.contents.take n)) =
      s.relay.serverReadingFromChild.contents.take n :=
  hidle.cString_storeBytes hread.take_ne_nil fun hmem => hzero (List.mem_of_mem_take hmem)

/-- The buffer of the server stays idle in a session. -/
theorem sessionNext_idleBuffer {slot : Fin maxUser} {s s' : Session} {label : SessionLabel}
    (hidle : IdleBuffer s.server.buf) (h : sessionNext slot s label = some s') :
    IdleBuffer s'.server.buf := by
  cases label with
  | line line =>
    rw [sessionNext] at h
    split at h
    · obtain ⟨action, -, rfl⟩ := Option.map_eq_some_iff.mp h
      cases action <;> exact hidle
    · exact absurd h (by simp)
  | display n =>
    rw [sessionNext] at h
    split at h
    · exact Option.some.inj h ▸ hidle
    · split at h
      · exact Option.some.inj h ▸ hidle
      · exact absurd h (by simp)
  | child n =>
    rw [sessionNext] at h
    split at h
    · obtain ⟨relay, -, rfl⟩ := Option.map_eq_some_iff.mp h
      exact hidle
    · exact absurd h (by simp)
  | server label =>
    obtain ⟨htyped, server, hserver, rfl⟩ := sessionNext_server h
    exact serverNext_idleBuffer hidle htyped hserver
  | poll n outcomes =>
    obtain ⟨-, data, server, -, hserver, rfl⟩ := sessionNext_poll h
    exact @serverNext_idleBuffer _ _ (.poll (some data) outcomes) hidle trivial hserver
  | deliver data => exact Option.some.inj h ▸ hidle

/-- Two users connect, and nothing else happens until the slots are polled again. -/
def admitPair : List ServerLabel :=
  [.accept (some (annConnection (some ⟨7, 9⟩) (some 100))), .admin none allSucceed] ++
  List.replicate maxUser (.poll none allSucceed) ++ [.sleep, .accept (some bobConnection),
    .admin none allSucceed]

/-- A server which is about to poll two users. -/
def pairServer : Server := (exec serverNext freshServer admitPair).getD freshServer

/-- The two users can be admitted so, and the first one has the first slot. -/
theorem pairServer_reachable : typedServerSystem.Reachable pairServer ∧ pairServer.table.Full 0 := by
  have hexec : exec serverNext freshServer admitPair = some pairServer := exec_getD (by decide +kernel)
  have htyped : ∀ label ∈ admitPair, ∀ u : Server, label.Typed := by
    have hlabels : ∀ label ∈ admitPair, label.Typed := by decide
    exact fun label hmem _ => hlabels label hmem
  have hrun : typedServerSystem.Run freshServer admitPair pairServer :=
    Run.restrict (Run.of_exec hexec) htyped
  refine ⟨⟨freshServer, admitPair, freshServer_init, hrun⟩, ?_⟩
  decide +kernel

/-- A session which was just started, with pipes which never fill. -/
def freshSession (userOpen : Bool) : Session where
  server := pairServer
  relay := ⟨⟨none, []⟩, ⟨none, []⟩, ⟨none, []⟩, ⟨none, []⟩, userOpen, .readUser⟩
  alive := true
  reading := true
  clientBuf := List.replicate maxMsg 0
  sent := []
  handled := []

/-- A session which was just started is in an initial state. -/
theorem freshSession_init (userOpen : Bool) : SessionInit 0 (freshSession userOpen) where
  reachable := pairServer_reachable.1
  full := pairServer_reachable.2
  nothingSent := rfl
  nothingHeld _ := by simp [freshSession]
  nothingPassed := rfl
  nothingHandled := rfl

end Csci4061.Chat
