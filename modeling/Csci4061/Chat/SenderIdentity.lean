import Csci4061.Chat.Broadcast
import Csci4061.Chat.Session
import Csci4061.Lib.Bracket

/-!
# Who sent a message

A message goes to other users behind the name of its sender and a colon, and a notice of the
administrator behind a fixed word and a colon. Names are accepted as they are sent, and the text behind
the colon is free. In a broadcast it begins with a space, which no name has. So two senders are told
apart as long as no private message comes from a user whose name is the other one's up to a colon in it,
and no user has the word of the administrator for a name.
-/

namespace Csci4061.Chat

open Csci4061.Lib Csci4061.Lib.TransitionSystem

/-- The words in front of a notice of the administrator. -/
def adminTag : CString := bytes "admin-notice"

/-- Among what was done between two tables is a write of some bytes to a slot other than that of the
sender. -/
def Handed (sender : Option (Fin maxUser)) (t t' : Table) (data : List UInt8) : Prop :=
  ∃ new j fd, t'.events = t.events ++ new ∧ .wrote j fd data ∈ new ∧ sender ≠ some j

/-- A message of a user, or of the administrator, is relayed as some bytes: it is a broadcast or a
private message, and the bytes are written to the pipe of a recipient. -/
def Relays (s : Server) : Option (Fin maxUser) → CString → List UInt8 → Prop
  | none, message, data =>
    ∃ outcomes s', adminCommand message outcomes s = some s' ∧ Handed none s.table s'.table data
  | some i, message, data =>
    ∃ outcomes t', userCommand i message outcomes s.table = some t' ∧ Handed (some i) s.table t' data

/-- A private message does not come from a user whose name begins another one up to a colon. -/
def PrivateApart (name name' message : CString) : Prop :=
  getCommandType message = some .p2p → ¬ name ++ bytes ":" <+: name'

/-- Two senders can be told apart by their messages: if a user sends a private message, then its name
does not begin that of the other user up to a colon; and a user does not have the name of the
administrator. -/
def ToldApart (users : Fin maxUser → User) (message message' : CString) :
    Option (Fin maxUser) → Option (Fin maxUser) → Prop
  | none, none => True
  | none, some i => (users i).name ≠ adminTag
  | some i, none => (users i).name ≠ adminTag
  | some i, some j =>
    PrivateApart (users i).name (users j).name message ∧ PrivateApart (users j).name
      (users i).name message'

/-- Every write to a slot other than that of the sender has a text with a property. -/
def WritesOnly (sender : Option (Fin maxUser)) (P : List UInt8 → Prop) (t t' : Table) : Prop :=
  ∃ new, t'.events = t.events ++ new ∧ ∀ j fd data, .wrote j fd data ∈ new → sender ≠ some j → P data

variable {sender : Option (Fin maxUser)} {P : List UInt8 → Prop} {t t' : Table}

/-- What was written has the property. -/
theorem WritesOnly.handed (h : WritesOnly sender P t t') {data : List UInt8}
    (hhanded : Handed sender t t' data) :
    P data := by
  obtain ⟨new, hevents, hall⟩ := h
  obtain ⟨new', j, fd, hevents', hmem, hsender⟩ := hhanded
  obtain rfl := List.append_cancel_left (hevents.symm.trans hevents')
  exact hall j fd data hmem hsender

/-- A weaker property. -/
theorem WritesOnly.mono {Q : List UInt8 → Prop} (h : WritesOnly sender P t t')
    (himp : ∀ data, P data → Q data) :
    WritesOnly sender Q t t' := by
  obtain ⟨new, hevents, hall⟩ := h
  exact ⟨new, hevents, fun j fd data hmem hsender => himp data (hall j fd data hmem hsender)⟩

/-- Nothing was written. -/
theorem WritesOnly.of_killed {new : List Event} (hevents : t'.events = t.events ++ new)
    (hkilled : ∀ event ∈ new, ∃ i pid, event = .killed i pid) : WritesOnly sender P t t' := by
  refine ⟨new, hevents, fun j fd data hmem _ => ?_⟩
  obtain ⟨i, pid, heq⟩ := hkilled _ hmem
  exact absurd heq (by simp)

/-- The cleanup loop only sends signals. -/
theorem cleanupLoop_events (outcomes : Fin maxUser → SlotOutcome) (slots : List (Fin maxUser))
    (t : Table) :
    ∃ new, (cleanupLoop outcomes slots t).events = t.events ++ new ∧ ∀ event ∈ new, ∃ i pid,
    event = .killed i pid := by
  induction slots generalizing t with
  | nil => exact ⟨[], (List.append_nil _).symm, by simp⟩
  | cons i slots ih =>
    rw [cleanupLoop]
    split
    · obtain ⟨new, hevents, hkilled⟩ := ih (kickUser i (outcomes i) t)
      refine ⟨.killed i (t.users i).pid :: new, ?_, List.forall_mem_cons.mpr ⟨⟨i, _, rfl⟩, hkilled⟩⟩
      rw [hevents, kickUser_events, List.append_assoc]
      rfl
    · exact ih t

/-- A write to the sender's own slot does not count. -/
theorem WritesOnly.write_self (i : Fin maxUser) (data : List UInt8) :
    WritesOnly (some i) P t (t.write i data) := by
  refine ⟨_, Table.write_events t i data, fun j fd data' hmem hsender => ?_⟩
  obtain ⟨rfl, -⟩ := Event.wrote.inj (List.mem_singleton.mp hmem)
  exact absurd rfl hsender

/-- A write of a text with the property. -/
theorem WritesOnly.write {data : List UInt8} (hdata : P data) (i : Fin maxUser) :
    WritesOnly sender P t (t.write i data) := by
  refine ⟨_, Table.write_events t i data, fun j fd data' hmem _ => ?_⟩
  obtain ⟨-, -, rfl⟩ := Event.wrote.inj (List.mem_singleton.mp hmem)
  exact hdata

/-- A broadcast of a text with the property. -/
theorem WritesOnly.broadcastMsg {buf : CString} (hbuf : P buf) (origin : Option (Fin maxUser))
    (outcomes : Fin maxUser → SlotOutcome) :
    WritesOnly sender P t (broadcastMsg buf origin outcomes t).2 := by
  refine ⟨_, (broadcastLoop_attempts buf origin outcomes (List.finRange maxUser) t).1,
    fun j fd data hmem _ => ?_⟩
  obtain ⟨i, -, heq⟩ := List.mem_map.mp hmem
  obtain ⟨-, -, rfl⟩ := Event.wrote.inj heq
  exact hbuf

/-- A private message goes to another user behind the name of its sender and a colon. -/
theorem sendP2pMsg_writesOnly {i : Fin maxUser} {buf : CString} (h : sendP2pMsg i buf t = some t') :
    WritesOnly (some i) (fun data => ∃ rest, data = (t.users i).name ++ 0x3A :: rest) t t' := by
  obtain ⟨receiver, -, h⟩ := Option.bind_eq_some_iff.mp h
  cases receiver with
  | none => exact Option.some.inj h ▸ .write_self i _
  | some receiver =>
    simp only at h
    split at h
    · exact Option.some.inj h ▸ .write_self i _
    · rename_i index hindex
      split at h
      · exact Option.some.inj h ▸ .write_self i _
      · obtain ⟨message, -, h⟩ := Option.bind_eq_some_iff.mp h
        cases message with
        | none => exact Option.some.inj h ▸ .write_self i _
        | some message =>
          simp only at h
          split at h
          · refine Option.some.inj h ▸ .write ⟨cString message, ?_⟩ index
            rw [List.append_assoc]
            rfl
          · exact absurd h (by simp)

/-- What follows the colon behind the name of a user. In a broadcast it begins with a space. -/
def Follows (message rest : CString) : Prop :=
  getCommandType message = some .p2p ∨ ∃ text, rest = 0x20 :: text

/-- What a user's message hands to others begins with the name of the user and a colon. -/
theorem userCommand_writesOnly {i : Fin maxUser} {message : CString}
    {outcomes : Fin maxUser → SlotOutcome} (h : userCommand i message outcomes t = some t') :
    WritesOnly (some i) (fun data => ∃ rest, data = (t.users i).name ++ 0x3A :: rest ∧
      Follows message rest) t t' := by
  obtain ⟨type, htype, h⟩ := Option.bind_eq_some_iff.mp h
  cases type with
  | list =>
    obtain ⟨text, -, rfl⟩ := Option.map_eq_some_iff.mp h
    exact .write_self i _
  | p2p =>
    refine (sendP2pMsg_writesOnly h).mono fun data hdata => ?_
    obtain ⟨rest, rfl⟩ := hdata
    exact ⟨rest, rfl, Or.inl htype⟩
  | exit =>
    obtain rfl := Option.some.inj h
    exact .of_killed (kickUser_events i _ t) (by simp)
  | kick | seg | broadcast =>
    simp only at h
    split at h
    · refine Option.some.inj h ▸ .broadcastMsg ⟨0x20 :: message, ?_, Or.inr ⟨message, rfl⟩⟩ _ _
      rw [List.append_assoc]
      rfl
    · exact absurd h (by simp)

/-- What a line of the administrator hands to users begins with the words of a notice, a colon and a
space. -/
theorem adminCommand_writesOnly {s s' : Server} {message : CString}
    {outcomes : Fin maxUser → SlotOutcome} (h : adminCommand message outcomes s = some s') :
    WritesOnly none (fun data => ∃ rest, data = adminTag ++ 0x3A :: 0x20 :: rest) s.table s'.table := by
  have hnothing (t' : Table) (hevents : t'.events = s.table.events) :
      WritesOnly none (fun data => ∃ rest, data = adminTag ++ 0x3A :: 0x20 :: rest) s.table t' :=
    .of_killed (hevents.trans (List.append_nil _).symm) (by simp)
  obtain ⟨type, -, h⟩ := Option.bind_eq_some_iff.mp h
  cases type with
  | list =>
    obtain ⟨t, hlist, rfl⟩ := Option.map_eq_some_iff.mp h
    obtain ⟨text, -, rfl⟩ := Option.map_eq_some_iff.mp hlist
    exact hnothing _ rfl
  | kick =>
    obtain ⟨name, -, h⟩ := Option.bind_eq_some_iff.mp h
    cases name with
    | none => exact Option.some.inj h ▸ hnothing _ rfl
    | some userId =>
      simp only at h
      split at h
      · exact Option.some.inj h ▸ hnothing _ rfl
      · rename_i idx hidx
        obtain rfl := Option.some.inj h
        exact .of_killed (kickUser_events idx _ s.table) (by simp)
  | exit =>
    obtain rfl := Option.some.inj h
    obtain ⟨new, hevents, hkilled⟩ := cleanupLoop_events outcomes (List.finRange maxUser) s.table
    exact .of_killed hevents hkilled
  | p2p | seg | broadcast =>
    simp only at h
    split at h
    · refine Option.some.inj h ▸ .broadcastMsg ⟨message, ?_⟩ _ _
      rfl
    · exact absurd h (by simp)

/-- A text with a space behind the first colon does not begin with a longer name without a space. -/
theorem no_longer_name {name name' middle text rest : CString} (hspace : 0x20 ∉ name')
    (hlonger : name' = name ++ 0x3A :: middle) (hrest : 0x20 :: text = middle ++ 0x3A :: rest) :
    False := by
  cases middle with
  | nil => exact absurd (List.cons.inj hrest).1 (by decide)
  | cons c middle =>
    obtain rfl := (List.cons.inj hrest).1
    exact hspace (by simp [hlonger])

/-- A notice of the administrator is no message of a user with another name, if the name has no space. -/
theorem notice_ne_message {name rest text : CString} (hspace : 0x20 ∉ name) (hname : name ≠ adminTag) :
    adminTag ++ 0x3A :: 0x20 :: rest ≠ name ++ 0x3A :: text := by
  intro heq
  rcases append_cons_eq_append_cons heq with ⟨htag, -⟩ | ⟨middle, hlonger, hrest⟩ | ⟨middle, hshorter, -⟩
  · exact hname htag.symm
  · exact no_longer_name hspace hlonger hrest
  · have hcolon : 0x3A ∈ adminTag := by simp [hshorter]
    exact absurd hcolon (by decide)

/-- A message does not begin with a longer name, if its sender is told apart. -/
theorem Follows.not_longer {name name' middle message rest rest' : CString}
    (hfollows : Follows message rest) (hspace : 0x20 ∉ name')
    (happart : PrivateApart name name' message) (hlonger : name' = name ++ 0x3A :: middle)
    (hrest : rest = middle ++ 0x3A :: rest') : False := by
  rcases hfollows with hp2p | ⟨text, rfl⟩
  · exact happart hp2p ⟨middle, by rw [hlonger, List.append_assoc]; rfl⟩
  · exact no_longer_name hspace hlonger hrest

/-- Messages of users with other names who are told apart are different. -/
theorem message_ne_message {name name' message message' text text' : CString} (hne : name ≠ name')
    (hspace : 0x20 ∉ name) (hspace' : 0x20 ∉ name') (hfollows : Follows message text)
    (hfollows' : Follows message' text') (happart : PrivateApart name name' message)
    (happart' : PrivateApart name' name message') : name ++ 0x3A :: text ≠ name' ++ 0x3A :: text' := by
  intro heq
  rcases append_cons_eq_append_cons heq with ⟨hsame, -⟩ | ⟨middle, hlonger, hrest⟩ |
    ⟨middle, hshorter, hrest⟩
  · exact hne hsame
  · exact hfollows.not_longer hspace' happart hlonger hrest
  · exact hfollows'.not_longer hspace happart' hshorter hrest

/-- With distinct names without spaces, the bytes of two different senders who can be told apart by their
messages are different. -/
theorem relayed_bytes_differ {s : Server} (hnames : NamesDistinct s.table.users)
    (hspaces : ∀ i, s.table.Full i → 0x20 ∉ (s.table.users i).name)
    {sender sender' : Option (Fin maxUser)}
    (hfull : ∀ i, sender = some i ∨ sender' = some i → s.table.Full i) (hne : sender ≠ sender')
    {message message' : CString} (happart : ToldApart s.table.users message message' sender sender')
    {data data' : List UInt8} (hdata : Relays s sender message data)
    (hdata' : Relays s sender' message' data') : data ≠ data' := by
  cases sender with
  | none =>
    obtain ⟨outcomes, s₁, hcommand, hhanded⟩ := hdata
    obtain ⟨rest, rfl⟩ := (adminCommand_writesOnly hcommand).handed hhanded
    cases sender' with
    | none => exact absurd rfl hne
    | some j =>
      obtain ⟨outcomes', t', hcommand', hhanded'⟩ := hdata'
      obtain ⟨text, rfl, -⟩ := (userCommand_writesOnly hcommand').handed hhanded'
      exact notice_ne_message (hspaces j (hfull j (Or.inr rfl))) happart
  | some i =>
    obtain ⟨outcomes, t, hcommand, hhanded⟩ := hdata
    obtain ⟨text, rfl, hfollows⟩ := (userCommand_writesOnly hcommand).handed hhanded
    have hspace := hspaces i (hfull i (Or.inl rfl))
    cases sender' with
    | none =>
      obtain ⟨outcomes', s₁, hcommand', hhanded'⟩ := hdata'
      obtain ⟨rest, rfl⟩ := (adminCommand_writesOnly hcommand').handed hhanded'
      exact (notice_ne_message hspace happart).symm
    | some j =>
      obtain ⟨outcomes', t', hcommand', hhanded'⟩ := hdata'
      obtain ⟨text', rfl, hfollows'⟩ := (userCommand_writesOnly hcommand').handed hhanded'
      have hspace' := hspaces j (hfull j (Or.inr rfl))
      refine message_ne_message (fun heq => ?_) hspace hspace' hfollows hfollows' happart.1 happart.2
      have hsame : i = j := hnames i j (hfull i (Or.inl rfl)) (hfull j (Or.inr rfl)) heq
      exact hne (congrArg some hsame)

/-- The events of a line of the administrator show what is relayed. -/
theorem relays_of_adminEvents {s : Server} {message data : CString}
    {outcomes : Fin maxUser → SlotOutcome} {new : List Event}
    (h : (adminCommand message outcomes s).map (fun s' => s'.table.events) =
      some (s.table.events ++ new))
    {j : Fin maxUser} {fd : ℤ} (hmem : .wrote j fd data ∈ new) :
    Relays s none message data := by
  obtain ⟨s', hcommand, hevents⟩ := Option.map_eq_some_iff.mp h
  exact ⟨outcomes, s', hcommand, new, j, fd, hevents, hmem, Option.some_ne_none j |>.symm⟩

/-- The events of a message of a user show what is relayed. -/
theorem relays_of_userEvents {s : Server} {message data : CString} {outcomes : Fin maxUser → SlotOutcome}
    {i : Fin maxUser} {new : List Event}
    (h : (userCommand i message outcomes s.table).map (fun t => t.events) =
      some (s.table.events ++ new))
    {j : Fin maxUser} {fd : ℤ} (hmem : .wrote j fd data ∈ new) (hne : i ≠ j) :
    Relays s (some i) message data := by
  obtain ⟨t, hcommand, hevents⟩ := Option.map_eq_some_iff.mp h
  exact ⟨outcomes, t, hcommand, new, j, fd, hevents, hmem, fun heq => hne (Option.some.inj heq)⟩

/-- Two users connect, and nothing else happens until the slots are polled again. -/
def admitBoth (first second : Connection) : List ServerLabel :=
  [.accept (some first), .admin none allSucceed] ++ List.replicate maxUser (.poll none allSucceed) ++
    [.sleep, .accept (some second), .admin none allSucceed]

/-- A connection for the name `ann:bob`. -/
def annBobConnection : Connection :=
  { bobConnection with
    sent := some (bytes "ann:bob" ++ [0])
    sent_length := by decide }

/-- A server with two users, the name of one of whom begins that of the other up to a colon. -/
def prefixServer : Server :=
  (exec serverNext freshServer
    (admitBoth (annConnection (some ⟨7, 9⟩) (some 100)) annBobConnection)).getD freshServer

/-- A broadcast of `ann` is no private message of `ann:bob`. -/
theorem relayed_bytes_differ_broadcast : ∃ data data', Relays prefixServer (some 0) (bytes "hi") data ∧
    Relays prefixServer (some 1) (bytes "\\p2p ann hi") data' ∧ data ≠ data' := by
  have hbroadcast : (userCommand 0 (bytes "hi") allSucceed prefixServer.table).map (fun t => t.events) =
      some (prefixServer.table.events ++ [.wrote 1 11 (bytes "ann: hi")]) := by
    decide +kernel
  have hprivate : (userCommand 1 (bytes "\\p2p ann hi") allSucceed prefixServer.table).map
      (fun t => t.events) =
      some (prefixServer.table.events ++ [.wrote 0 9 (bytes "ann:bob:hi")]) := by
    decide +kernel
  have hfirst := relays_of_userEvents hbroadcast List.mem_cons_self (by decide)
  have hsecond := relays_of_userEvents hprivate List.mem_cons_self (by decide)
  have hnames : NamesDistinct prefixServer.table.users := by decide +kernel
  have hspaces : ∀ i, prefixServer.table.Full i → 0x20 ∉ (prefixServer.table.users i).name := by
    decide +kernel
  have hfull : ∀ i, some 0 = some i ∨ some 1 = some i → prefixServer.table.Full i := by decide +kernel
  have htype : getCommandType (bytes "hi") ≠ some .p2p := by decide +kernel
  have hname : ¬ (prefixServer.table.users 1).name ++
      bytes ":" <+: (prefixServer.table.users 0).name := by
    decide +kernel
  have happart : ToldApart prefixServer.table.users (bytes "hi") (bytes "\\p2p ann hi") (some 0)
      (some 1) :=
    ⟨fun hp2p => absurd hp2p htype, fun _ => hname⟩
  exact ⟨_, _, hfirst, hsecond, relayed_bytes_differ hnames hspaces hfull
    (by decide) happart hfirst hsecond⟩

/-- A connection for the name `admin-notice`. -/
def adminNoticeConnection : Connection :=
  { annConnection (some ⟨7, 9⟩) (some 100) with
    sent := some (adminTag ++ [0])
    sent_length := by decide }

/-- A server with two users, one of whom is called as a notice begins. -/
def noticeServer : Server :=
  (exec serverNext freshServer (admitBoth adminNoticeConnection bobConnection)).getD freshServer

/-- The names of the users are distinct, not empty and without spaces. -/
def ProperNames (users : Fin maxUser → User) : Prop :=
  NamesDistinct users ∧ ∀ i, (users i).status = .full → (users i).name ≠ [] ∧ 0x20 ∉ (users i).name

instance (users : Fin maxUser → User) : Decidable (ProperNames users) :=
  inferInstanceAs (Decidable (_ ∧ ∀ _, _ → _ ≠ _ ∧ _))

/-- A user with the name `admin-notice` sends what the administrator would; and what `ann:bob`
broadcasts is what `ann` can send as a private message. -/
theorem relayed_bytes_same :
    (serverSystem.Reachable noticeServer ∧ ProperNames noticeServer.table.users ∧
      noticeServer.table.Full 0 ∧ Relays noticeServer none (bytes "hi") (bytes "admin-notice: hi") ∧
      Relays noticeServer (some 0) (bytes "hi") (bytes "admin-notice: hi")) ∧
    serverSystem.Reachable prefixServer ∧ ProperNames prefixServer.table.users ∧
      prefixServer.table.Full 0 ∧ prefixServer.table.Full 1 ∧
      Relays prefixServer (some 0) (bytes "\\p2p ann:bob bob: hi") (bytes "ann:bob: hi") ∧
      Relays prefixServer (some 1) (bytes "hi") (bytes "ann:bob: hi") := by
  have hreachable {labels : List ServerLabel}
      (hsome : (exec serverNext freshServer labels).isSome = true) :
      serverSystem.Reachable ((exec serverNext freshServer labels).getD freshServer) :=
    ⟨freshServer, labels, freshServer_init, Run.of_exec (exec_getD hsome)⟩
  constructor
  · have hadmin : (adminCommand (bytes "hi") allSucceed noticeServer).map (fun s => s.table.events) =
        some (noticeServer.table.events ++
          [.wrote 0 9 (bytes "admin-notice: hi"), .wrote 1 11 (bytes "admin-notice: hi")]) := by
      decide +kernel
    have huser : (userCommand 0 (bytes "hi") allSucceed noticeServer.table).map (fun t => t.events) =
        some (noticeServer.table.events ++ [.wrote 1 11 (bytes "admin-notice: hi")]) := by
      decide +kernel
    exact ⟨hreachable (by decide +kernel), by decide +kernel, by decide +kernel,
      relays_of_adminEvents hadmin List.mem_cons_self, relays_of_userEvents huser List.mem_cons_self
        (by decide)⟩
  · have hprivate : (userCommand 0 (bytes "\\p2p ann:bob bob: hi") allSucceed prefixServer.table).map
        (fun t => t.events) = some
          (prefixServer.table.events ++ [.wrote 1 11 (bytes "ann:bob: hi")]) := by
      decide +kernel
    have hbroadcast : (userCommand 1 (bytes "hi") allSucceed prefixServer.table).map
        (fun t => t.events) =
        some (prefixServer.table.events ++ [.wrote 0 9 (bytes "ann:bob: hi")]) := by
      decide +kernel
    exact ⟨hreachable (by decide +kernel), by decide +kernel, by decide +kernel, by decide +kernel,
      relays_of_userEvents hprivate List.mem_cons_self (by decide),
      relays_of_userEvents hbroadcast List.mem_cons_self (by decide)⟩

end Csci4061.Chat
