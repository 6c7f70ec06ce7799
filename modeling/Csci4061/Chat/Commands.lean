import Csci4061.Chat.UserTable

/-!
# The commands of a user

A message of a user lists the users, goes to one of them, removes the sender or is broadcast. The
switch in the polling loop decides by the first word, and every command reads the table as it is
at that time.

What the server prints on its own terminal is left out. A command is undefined where a text does
not fit into the buffer it is assembled in.
-/

namespace Csci4061.Chat

open Csci4061.Lib

/-- A `write` to the descriptor of a slot. -/
def Table.write (t : Table) (i : Fin maxUser) (data : List UInt8) : Table :=
  t.record (.wrote i (t.users i).fdToUser data)

/-- A write keeps the slots. -/
@[simp] theorem Table.write_users (t : Table) (i : Fin maxUser) (data : List UInt8) :
    (t.write i data).users = t.users := rfl

/-- A write is added to the events. -/
@[simp] theorem Table.write_events (t : Table) (i : Fin maxUser) (data : List UInt8) :
    (t.write i data).events = t.events ++ [.wrote i (t.users i).fdToUser data] := rfl

/-- The names of the slots which are not empty, in the order of the slots. -/
def connectedNames (users : Fin maxUser → User) : List CString :=
  ((List.finRange maxUser).filter fun i => (users i).status ≠ .empty).map fun i => (users i).name

/-- The text assembled by `list_users`. -/
def userListText (users : Fin maxUser → User) : Option CString :=
  let s := bytes "---connected user list---\n" ++ (connectedNames users).flatMap fun name =>
      name ++ bytes "\n"
  if s.length ≤ maxMsg then some (if connectedNames users = [] then bytes "<no users>\n"
    else s.dropLast) else none

/-- `list_users`, with `none` for the index of the server. -/
def listUsers (idx : Option (Fin maxUser)) (t : Table) : Option Table :=
  (userListText t.users).map fun text =>
    match idx with
    | none => t
    | some i => t.write i (text ++ [0])

/-- The loop of `broadcast_msg`, which returns at the first `write` that fails. -/
def broadcastLoop (buf : CString) (sender : Option (Fin maxUser))
    (outcomes : Fin maxUser → SlotOutcome) :
    List (Fin maxUser) → Table → ℤ × Table
  | [], t => (0, t)
  | i :: slots, t =>
    if t.Full i ∧ sender ≠ some i then
      if (outcomes i).write = false then (-1, t.write i buf)
      else broadcastLoop buf sender outcomes slots (t.write i buf)
    else broadcastLoop buf sender outcomes slots t

/-- `broadcast_msg`. The sender is given by the address of its name, which is a slot or `NULL`. -/
def broadcastMsg (buf : CString) (sender : Option (Fin maxUser)) (outcomes : Fin maxUser → SlotOutcome)
    (t : Table) : ℤ × Table :=
  broadcastLoop buf sender outcomes (List.finRange maxUser) t

/-- `send_p2p_msg`. The local arrays are zeros here before they are written. The second answer is
written with its terminator, since its length is that of a longer text. -/
def sendP2pMsg (idx : Fin maxUser) (buf : CString) (t : Table) : Option Table :=
  (extractName buf (List.replicate maxUserId 0)).bind fun receiver =>
    match receiver with
    | none => some (t.write idx (bytes "User name not given"))
    | some receiver =>
      match findUserIndex t.users (cString receiver) with
      | none => some (t.write idx (bytes "User not found, use \\list" ++ [0]))
      | some index =>
        if index = idx then some (t.write idx (bytes "Cannot send \\p2p to yourself"))
        else
          (extractText buf (List.replicate maxMsg 0)).bind fun message =>
            match message with
            | none => some (t.write idx (bytes "Message not given"))
            | some message =>
              let inbuf := (t.users idx).name ++ bytes ":" ++ cString message
              if inbuf.length < maxMsg then some (t.write index inbuf) else none

/-- The switch on the message `buf` of slot `i`. -/
def userCommand (i : Fin maxUser) (buf : CString) (outcomes : Fin maxUser → SlotOutcome) (t : Table) :
    Option Table :=
  (getCommandType buf).bind fun type =>
    match type with
    | .list => listUsers (some i) t
    | .p2p => sendP2pMsg i buf t
    | .exit => some (kickUser i (outcomes i) t)
    | _ =>
      let broadcast := (t.users i).name ++ bytes ": " ++ buf
      if broadcast.length < maxMsg + maxUserId then
        some (broadcastMsg broadcast (some i) outcomes t).2
      else none

/-- The slots which events write to, in order. -/
def writtenSlots (events : List Event) : List (Fin maxUser) :=
  events.filterMap fun event =>
    match event with
    | .wrote slot _ _ => some slot
    | _ => none

/-- The slots a broadcast is meant for: the full ones, except that of the sender. -/
def receivers (t : Table) (sender : Option (Fin maxUser)) (slots : List (Fin maxUser)) :
    List (Fin maxUser) :=
  slots.filter fun i => t.Full i ∧ sender ≠ some i

/-- A broadcast keeps the slots, and writes its text to the first ones of those it is meant for. -/
theorem broadcastLoop_events (buf : CString) (sender : Option (Fin maxUser))
    (outcomes : Fin maxUser → SlotOutcome) (slots : List (Fin maxUser)) (t : Table) :
    (broadcastLoop buf sender outcomes slots t).2.users = t.users ∧
      ∃ written, written <+: receivers t sender slots ∧
        (broadcastLoop buf sender outcomes slots t).2.events =
        t.events ++ written.map fun i => .wrote i (t.users i).fdToUser buf := by
  induction slots generalizing t with
  | nil => exact ⟨rfl, [], List.nil_prefix, (List.append_nil _).symm⟩
  | cons i slots ih =>
    rw [broadcastLoop]
    by_cases hreceives : t.Full i ∧ sender ≠ some i
    · have hfilter : receivers t sender (i :: slots) = i :: receivers t sender slots :=
        List.filter_cons_of_pos (by simpa using hreceives)
      rw [if_pos hreceives, hfilter]
      split
      · exact ⟨rfl, [i], List.prefix_cons_inj i |>.mpr List.nil_prefix, rfl⟩
      · obtain ⟨husers, written, hwritten, hevents⟩ := ih (t.write i buf)
        refine ⟨husers, i :: written, List.prefix_cons_inj i |>.mpr hwritten, ?_⟩
        rw [hevents, Table.write_events, List.append_assoc]
        rfl
    · have hfilter : receivers t sender (i :: slots) = receivers t sender slots :=
        List.filter_cons_of_neg (by simpa using hreceives)
      rw [if_neg hreceives, hfilter]
      exact ih t

/-- The slot which a private message names: a full one, other than that of the sender. -/
def Addressed (t : Table) (buf : CString) (j : Fin maxUser) : Prop :=
  t.Full j ∧ (words buf)[1]? = some (t.users j).name ∧ 3 ≤ (words buf).length

/-- A private message is one write, to the slot which it names, and otherwise to the sender. -/
theorem sendP2pMsg_cases {t t' : Table} (hnames : NamesDistinct t.users) {idx : Fin maxUser}
    {buf : CString} (hzero : 0 ∉ buf) (h : sendP2pMsg idx buf t = some t') :
    ∃ target data, t' = t.write target data ∧ ∀ j, j ≠ idx → (target = j ↔ Addressed t buf j) := by
  -- Every answer to the sender is given because no other slot is addressed.
  have hback (data : List UInt8) (hnone : ∀ j, j ≠ idx → ¬ Addressed t buf j) :
      ∃ target data', t.write idx data = t.write target data' ∧ ∀ j, j ≠ idx →
      (target = j ↔ Addressed t buf j) :=
    ⟨idx, data, rfl, fun j hj =>
      ⟨fun heq => absurd heq.symm hj, fun haddressed => absurd haddressed (hnone j hj)⟩⟩
  obtain ⟨receiver, hreceiver, h⟩ := Option.bind_eq_some_iff.mp h
  rcases extractName_cases hzero hreceiver with ⟨hshort, rfl⟩ |
    ⟨command, name, rest, receiver, hwords, rfl, rfl⟩
  · obtain rfl := Option.some.inj h
    exact hback _ fun j _ haddressed => by have := haddressed.2.2; omega
  · have hsecond : (words buf)[1]? = some (cString receiver) := by rw [hwords]; rfl
    have hname {j : Fin maxUser} (haddressed : Addressed t buf j) :
        (t.users j).name = cString receiver :=
      Option.some.inj (haddressed.2.1.symm.trans hsecond)
    simp only at h
    split at h
    · rename_i hfind
      obtain rfl := Option.some.inj h
      exact hback _ fun j _ haddressed => findUserIndex_eq_none hfind haddressed.1 (hname haddressed)
    · rename_i index hfind
      obtain ⟨hfull, hindex⟩ := findUserIndex_eq_some hfind
      have hunique {j : Fin maxUser} (haddressed : Addressed t buf j) : j = index :=
        hnames j index haddressed.1 hfull ((hname haddressed).trans hindex.symm)
      split at h
      · rename_i hself
        obtain rfl := Option.some.inj h
        exact hback _ fun j hj haddressed => hj ((hunique haddressed).trans hself)
      · obtain ⟨message, hmessage, h⟩ := Option.bind_eq_some_iff.mp h
        rcases extractText_cases hzero hmessage with ⟨hshort, rfl⟩ | ⟨hthree, copied, rfl⟩
        · obtain rfl := Option.some.inj h
          exact hback _ fun j _ haddressed => by have := haddressed.2.2; omega
        · simp only at h
          split at h
          · refine ⟨index, _, (Option.some.inj h).symm,
              fun j _ => ⟨?_, fun haddressed => (hunique haddressed).symm⟩⟩
            rintro rfl
            exact ⟨hfull, hsecond.trans (congrArg some hindex.symm), hthree⟩
          · exact absurd h (by simp)

/-- A message fits: the receiver of a private message and every text which a command assembles have
room in their buffers. -/
structure MessageFits (t : Table) (i : Fin maxUser) (m : CString) : Prop where
  message : m.length < maxMsg
  list : (words m).head? = some (bytes "\\list") → userListText t.users ≠ none
  receiver : (words m).head? = some (bytes "\\p2p") → ∀ name, (words m)[1]? = some name →
    name.length < maxUserId
  privateText : (words m).head? = some (bytes "\\p2p") → ∀ text,
    extractText m (List.replicate maxMsg 0) = some (some text) →
    (t.users i).name.length + 1 + (cString text).length < maxMsg
  broadcast : (t.users i).name.length + 2 + m.length < maxMsg + maxUserId

/-- What the events of one message may be. -/
structure ConfinedEvents (t : Table) (i : Fin maxUser) (m : CString) (events : List Event) : Prop where
  killed : ∀ j pid, .killed j pid ∈ events → j = i ∧ (words m).head? = some (bytes "\\exit")
  descriptor : ∀ j fd data, .wrote j fd data ∈ events → fd = (t.users j).fdToUser
  list : (words m).head? = some (bytes "\\list") → ∀ j ∈ writtenSlots events, j = i
  p2p : (words m).head? = some (bytes "\\p2p") →
    ∃ target, writtenSlots events = [target] ∧ ∀ j, j ≠ i → (target = j ↔ Addressed t m j)
  other : (words m).head? ≠ some (bytes "\\list") → (words m).head? ≠ some (bytes "\\p2p") →
    (writtenSlots events).Nodup ∧ ∀ j ∈ writtenSlots events, t.Full j ∧ j ≠ i

/-- A message of slot `i` changes no other slot, its own one only if it is an exit, and its events are
confined. -/
structure Confined (t : Table) (i : Fin maxUser) (m : CString) (t' : Table) : Prop where
  others : ∀ j, j ≠ i → t'.users j = t.users j
  sender : t'.users i ≠ t.users i → (words m).head? = some (bytes "\\exit")
  events : ∃ new, t'.events = t.events ++ new ∧ ConfinedEvents t i m new

/-- A write is confined if its slot is allowed by the first word. -/
theorem write_confined {t : Table} {i target : Fin maxUser} {m : CString} {data : List UInt8}
    (hlist : (words m).head? = some (bytes "\\list") → target = i)
    (hp2p : (words m).head? = some (bytes "\\p2p") → ∀ j, j ≠ i → (target = j ↔ Addressed t m j))
    (hother : (words m).head? = some (bytes "\\list") ∨ (words m).head? = some (bytes "\\p2p")) :
    Confined t i m (t.write target data) where
  others _ _ := rfl
  sender h := absurd rfl h
  events := by
    refine ⟨[.wrote target (t.users target).fdToUser data], rfl, ⟨by simp, ?_, ?_, ?_, ?_⟩⟩
    · intro j fd data' hmem
      obtain ⟨rfl, rfl, -⟩ := Event.wrote.inj (List.mem_singleton.mp hmem)
      rfl
    · intro hhead j hj
      obtain rfl := List.mem_singleton.mp hj
      exact hlist hhead
    · exact fun hhead => ⟨target, rfl, hp2p hhead⟩
    · intro hnot hnot'
      exact absurd hother (by simp [hnot, hnot'])

/-- A broadcast is confined, for any first word other than the two which answer. -/
theorem broadcast_confined {t : Table} {i : Fin maxUser} {m : CString} (buf : CString)
    (outcomes : Fin maxUser → SlotOutcome) (hlist : (words m).head? ≠ some (bytes "\\list"))
    (hp2p : (words m).head? ≠ some (bytes "\\p2p")) :
    Confined t i m (broadcastMsg buf (some i) outcomes t).2 := by
  obtain ⟨husers, written, hwritten, hevents⟩ :=
    broadcastLoop_events buf (some i) outcomes (List.finRange maxUser) t
  have hslots : writtenSlots (written.map fun j => .wrote j (t.users j).fdToUser buf) = written := by
    rw [writtenSlots, List.filterMap_map]
    exact List.filterMap_some
  refine ⟨fun j _ => by rw [broadcastMsg, husers], fun h => absurd (by rw [broadcastMsg, husers]) h, _,
    hevents, ?_⟩
  refine ⟨by simp, ?_, fun hhead => absurd hhead hlist, fun hhead => absurd hhead hp2p, fun _ _ => ?_⟩
  · intro j fd data hmem
    obtain ⟨k, -, heq⟩ := List.mem_map.mp hmem
    obtain ⟨rfl, rfl, -⟩ := Event.wrote.inj heq
    rfl
  · rw [hslots]
    constructor
    · exact ((List.nodup_finRange maxUser).filter _).sublist hwritten.sublist
    · intro j hj
      have hreceives := (List.mem_filter.mp (hwritten.subset hj)).2
      simp only [decide_eq_true_eq] at hreceives
      exact ⟨hreceives.1, fun heq => hreceives.2 (congrArg some heq.symm)⟩

/-- Removing the sender is confined, if the first word says so. -/
theorem kick_confined {t : Table} {i : Fin maxUser} {m : CString} (outcome : SlotOutcome)
    (hexit : (words m).head? = some (bytes "\\exit")) : Confined t i m (kickUser i outcome t) := by
  refine ⟨fun j hj => kickUser_users_of_ne hj outcome t, fun _ => hexit, _, kickUser_events i outcome t,
    ?_⟩
  have hwritten : writtenSlots [.killed i (t.users i).pid] = [] := rfl
  refine ⟨?_, by simp, by simp [hwritten], ?_, fun _ _ => by simp [hwritten]⟩
  · intro j pid hmem
    obtain ⟨rfl, -⟩ := Event.killed.inj (List.mem_singleton.mp hmem)
    exact ⟨rfl, hexit⟩
  · rw [hexit]
    exact fun heq => absurd heq (by decide)

/-- A private message which fits is handled. -/
theorem sendP2pMsg_isSome {t : Table} {i : Fin maxUser} {m : CString} (hzero : 0 ∉ m)
    (hlt : (words m).length < 16) (hhead : (words m).head? = some (bytes "\\p2p"))
    (hfits : MessageFits t i m) : (sendP2pMsg i m t).isSome := by
  have hreceiver : (extractName m (List.replicate maxUserId 0)).isSome :=
    extractName_isSome hzero hfits.message hlt (by simpa using hfits.receiver hhead)
  have htext : (extractText m (List.replicate maxMsg 0)).isSome :=
    extractText_isSome hzero hfits.message hlt (by simpa using hfits.message.le)
  obtain ⟨receiver, hreceiver⟩ := Option.isSome_iff_exists.mp hreceiver
  obtain ⟨text, htext⟩ := Option.isSome_iff_exists.mp htext
  rw [sendP2pMsg, hreceiver, Option.bind_some]
  cases receiver with
  | none => rfl
  | some receiver =>
    simp only
    split
    · rfl
    · split
      · rfl
      · rw [htext, Option.bind_some]
        cases text with
        | none => rfl
        | some text =>
          have hroom := hfits.privateText hhead text htext
          have hcolon : (bytes ":").length = 1 := rfl
          simp only
          rw [if_pos (by rw [List.length_append, List.length_append, hcolon]; exact hroom)]
          rfl

/-- A message which fits is handled, if it has a first word and fewer than 16 words. -/
theorem userCommand_isSome {t : Table} {i : Fin maxUser} {m : CString} (hzero : 0 ∉ m)
    (hpos : 1 ≤ (words m).length) (hlt : (words m).length < 16) (hfits : MessageFits t i m)
    (outcomes : Fin maxUser → SlotOutcome) :
    (userCommand i m outcomes t).isSome := by
  obtain ⟨command, hhead⟩ : ∃ command, (words m).head? = some command := by
    rw [← Option.isSome_iff_exists, List.isSome_head?]
    exact List.length_pos_iff.mp hpos
  rw [userCommand, getCommandType_isSome hzero hfits.message (by omega) hhead, Option.bind_some]
  cases htype : findCommandType command with
  | list =>
    rw [findCommandType_list.mp htype] at hhead
    simpa [listUsers, Option.isSome_iff_ne_none] using hfits.list hhead
  | p2p =>
    rw [findCommandType_p2p.mp htype] at hhead
    exact sendP2pMsg_isSome hzero hlt hhead hfits
  | exit => rfl
  | kick | seg | broadcast =>
    have hcolon : (bytes ": ").length = 2 := rfl
    simp only
    rw [if_pos (by rw [List.length_append, List.length_append, hcolon]; exact hfits.broadcast)]
    rfl

/-- The effects of a user's message are confined, whatever the calls report; and the message is
handled if it has a first word, fewer than 16 words, and fits. -/
theorem userCommand_confined {t : Table} (hnames : NamesDistinct t.users) (i : Fin maxUser) {m : CString}
    (hzero : 0 ∉ m) (outcomes : Fin maxUser → SlotOutcome) :
    (1 ≤ (words m).length → (words m).length < 16 → MessageFits t i m → ∃ t',
      userCommand i m outcomes t = some t') ∧
      ∀ t', userCommand i m outcomes t = some t' → Confined t i m t' := by
  constructor
  · intro hpos hlt hfits
    exact Option.isSome_iff_exists.mp (userCommand_isSome hzero hpos hlt hfits outcomes)
  · intro t' h
    obtain ⟨type, htype, h⟩ := Option.bind_eq_some_iff.mp h
    obtain ⟨-, -, command, hhead, rfl⟩ := (getCommandType_eq_some hzero).mp htype
    have hcommand (known : CString) : (words m).head? = some known ↔ command = known := by
      rw [hhead, Option.some.injEq]
    cases htype : findCommandType command with
    | list =>
      rw [htype] at h
      obtain ⟨text, -, rfl⟩ := Option.map_eq_some_iff.mp h
      have hname := (hcommand _).mpr (findCommandType_list.mp htype)
      refine write_confined (fun _ => rfl) (fun hp2p => ?_) (Or.inl hname)
      rw [hname] at hp2p
      exact absurd hp2p (by decide)
    | p2p =>
      rw [htype] at h
      obtain ⟨target, data, rfl, htarget⟩ := sendP2pMsg_cases hnames hzero h
      have hname := (hcommand _).mpr (findCommandType_p2p.mp htype)
      refine write_confined (fun hlist => ?_) (fun _ => htarget) (Or.inr hname)
      rw [hname] at hlist
      exact absurd hlist (by decide)
    | exit =>
      rw [htype] at h
      obtain rfl := Option.some.inj h
      exact kick_confined (outcomes i) ((hcommand _).mpr (findCommandType_exit.mp htype))
    | kick | seg | broadcast =>
      simp only [htype] at h
      split at h
      · obtain rfl := Option.some.inj h
        apply broadcast_confined
        · rw [Ne, hcommand, ← findCommandType_list, htype]
          decide
        · rw [Ne, hcommand, ← findCommandType_p2p, htype]
          decide
      · exact absurd h (by simp)

/-- Two connected users, in the first two slots. -/
def pairTable : Table where
  users i :=
    if i.val = 0 then ⟨100, bytes "ann" ++ List.replicate 29 0, 5, 6, .full⟩
    else if i.val = 1 then ⟨101, bytes "bob" ++ List.replicate 29 0, 7, 8, .full⟩
    else emptyUser
  openFds := {0, 1, 2, 3, 5, 6, 7, 8}
  children := {100, 101}
  events := []

/-- Every call succeeds. -/
def allSucceed : Fin maxUser → SlotOutcome := fun _ => ⟨true, true, true, -1⟩

/-- A private message of the first user is handled, is confined, and is written to the second one. -/
theorem privateMessage_confined :
    ∃ t', userCommand 0 (bytes "\\p2p bob hi") allSucceed pairTable = some t' ∧
    Confined pairTable 0 (bytes "\\p2p bob hi") t' ∧ writtenSlots t'.events = [1] := by
  have hrun : (userCommand 0 (bytes "\\p2p bob hi") allSucceed pairTable).map
      (fun t => writtenSlots t.events) =
      some [1] := by decide +kernel
  obtain ⟨t', hcommand, hwritten⟩ := Option.map_eq_some_iff.mp hrun
  exact ⟨t', hcommand, (userCommand_confined (by decide) 0 (by decide) allSucceed).2 t' hcommand,
    hwritten⟩

end Csci4061.Chat
