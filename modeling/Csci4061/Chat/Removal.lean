import Csci4061.Chat.Server

/-!
# Which users a step removes

Outside of the admission of a user, a step of the server changes slots only by removing users: the
one a line of the administrator names, all of them at the end, or the one whose message says so.
Everything else it does is recorded as an event.

The removals of a step are one run of the cleanup loop, so a fact about the table is followed
through a step by the cases of a removal, an admission and a step which only adds events.
-/

namespace Csci4061.Chat

open Csci4061.Lib

/-- The step removes the user of slot `i`: what it reads is a command to do so. -/
def Removes (s : Server) (label : ServerLabel) (i : Fin maxUser) : Prop :=
  match label with
  | .admin (some data) _ =>
    s.phase = .admin ∧ ∃ line, enteredLine (storeBytes s.buf data) = some (some line) ∧
      (getCommandType line = some .kick ∧ (∃ userId, extractName line s.userId = some (some userId) ∧
        findUserIndex s.table.users (cString userId) = some i) ∨
      getCommandType line = some .exit ∧ s.table.Full i)
  | .poll (some data) _ => (∃ slots, s.phase = .polling (i :: slots)) ∧ s.table.Full i ∧
      getCommandType (cString (storeBytes s.buf data)) = some .exit
  | _ => False

/-- The slot which is polled is the one which its message removes. -/
theorem removes_poll {s : Server} {idx i : Fin maxUser} {slots : List (Fin maxUser)} {data : Input}
    {outcomes : Fin maxUser → SlotOutcome} (hphase : s.phase = .polling (idx :: slots)) :
    Removes s (.poll (some data) outcomes) i ↔
      i = idx ∧ s.table.Full idx ∧ getCommandType (cString (storeBytes s.buf data)) = some .exit := by
  constructor
  · rintro ⟨⟨slots', hphase'⟩, hremoved⟩
    obtain ⟨rfl, -⟩ := List.cons.inj (Phase.polling.inj (hphase.symm.trans hphase'))
    exact ⟨rfl, hremoved⟩
  · rintro ⟨rfl, hremoved⟩
    exact ⟨⟨slots, hphase⟩, hremoved⟩

/-- The slots which a line of the administrator removes. -/
theorem removes_admin {s : Server} {i : Fin maxUser} {data : Input} {line : CString}
    {outcomes : Fin maxUser → SlotOutcome} (hphase : s.phase = .admin)
    (hline : enteredLine (storeBytes s.buf data) = some (some line)) :
    Removes s (.admin (some data) outcomes) i ↔
      getCommandType line = some .kick ∧ (∃ userId, extractName line s.userId = some (some userId) ∧
        findUserIndex s.table.users (cString userId) = some i) ∨
      getCommandType line = some .exit ∧ s.table.Full i := by
  simp only [Removes, hphase, hline, true_and, Option.some.injEq]
  constructor
  · rintro ⟨_, heq, hcases⟩
    exact heq ▸ hcases
  · exact fun hcases => ⟨line, rfl, hcases⟩

/-- What the calls made for the slots report in a step. -/
def ServerLabel.outcomes : ServerLabel → Fin maxUser → SlotOutcome
  | .admin _ outcomes => outcomes
  | .poll _ outcomes => outcomes
  | _ => fun _ => ⟨true, true, true, -1⟩

/-- The event is neither a fork nor a signal. -/
def Event.Plain : Event → Prop
  | .forked _ _ => False
  | .killed _ _ => False
  | _ => True

/-- Only plain events were added to a table. -/
structure Quiet (t t' : Table) : Prop where
  users : t'.users = t.users
  openFds : t'.openFds = t.openFds
  children : t'.children = t.children
  events : ∃ new, t'.events = t.events ++ new ∧ ∀ event ∈ new, event.Plain

/-- Nothing was added. -/
theorem Quiet.refl (t : Table) : Quiet t t := ⟨rfl, rfl, rfl, [], (List.append_nil _).symm, by simp⟩

/-- One plain event was added. -/
theorem Quiet.record (t : Table) {event : Event} (h : event.Plain) : Quiet t (t.record event) :=
  ⟨rfl, rfl, rfl, [event], rfl, by simpa using h⟩

/-- Plain events were added twice. -/
theorem Quiet.trans {t t' t'' : Table} (h : Quiet t t') (h' : Quiet t' t'') : Quiet t t'' := by
  obtain ⟨new, hevents, hplain⟩ := h.events
  obtain ⟨new', hevents', hplain'⟩ := h'.events
  refine ⟨h'.users.trans h.users, h'.openFds.trans h.openFds, h'.children.trans h.children, new ++ new',
    ?_, ?_⟩
  · rw [hevents', hevents, List.append_assoc]
  · intro event hmem
    exact (List.mem_append.mp hmem).elim (hplain event) (hplain' event)

/-- A write only adds an event. -/
theorem Quiet.write (t : Table) (i : Fin maxUser) (data : List UInt8) : Quiet t (t.write i data) :=
  Quiet.record t trivial

/-- A broadcast only adds events. -/
theorem Quiet.broadcastLoop (buf : CString) (sender : Option (Fin maxUser))
    (outcomes : Fin maxUser → SlotOutcome) (slots : List (Fin maxUser)) (t : Table) :
    Quiet t (broadcastLoop buf sender outcomes slots t).2 := by
  induction slots generalizing t with
  | nil => exact Quiet.refl t
  | cons i slots ih =>
    rw [Chat.broadcastLoop]
    split
    · split
      · exact Quiet.write t i buf
      · exact (Quiet.write t i buf).trans (ih _)
    · exact ih t

/-- A private message only adds an event. -/
theorem Quiet.sendP2pMsg {t t' : Table} {idx : Fin maxUser} {buf : CString}
    (h : sendP2pMsg idx buf t = some t') :
    Quiet t t' := by
  obtain ⟨receiver, -, h⟩ := Option.bind_eq_some_iff.mp h
  split at h
  · exact Option.some.inj h ▸ Quiet.write t _ _
  · split at h
    · exact Option.some.inj h ▸ Quiet.write t _ _
    · split at h
      · exact Option.some.inj h ▸ Quiet.write t _ _
      · obtain ⟨message, -, h⟩ := Option.bind_eq_some_iff.mp h
        split at h
        · exact Option.some.inj h ▸ Quiet.write t _ _
        · simp only at h
          split at h
          · exact Option.some.inj h ▸ Quiet.write t _ _
          · exact absurd h (by simp)

/-- A listing only adds an event, or none for the server. -/
theorem Quiet.listUsers {t t' : Table} {idx : Option (Fin maxUser)} (h : listUsers idx t = some t') :
    Quiet t t' := by
  obtain ⟨text, -, rfl⟩ := Option.map_eq_some_iff.mp h
  split
  · exact Quiet.refl t
  · exact Quiet.write t _ _

/-- A message removes its sender if it is an exit, and otherwise only adds events. -/
theorem userCommand_cases {t t' : Table} {i : Fin maxUser} {buf : CString}
    {outcomes : Fin maxUser → SlotOutcome} (h : userCommand i buf outcomes t = some t') :
    getCommandType buf = some .exit ∧ t' = kickUser i (outcomes i) t ∨
      getCommandType buf ≠ some .exit ∧ Quiet t t' := by
  obtain ⟨type, htype, h⟩ := Option.bind_eq_some_iff.mp h
  rw [htype]
  cases type with
  | list => exact Or.inr ⟨by simp, Quiet.listUsers h⟩
  | p2p => exact Or.inr ⟨by simp, Quiet.sendP2pMsg h⟩
  | exit => exact Or.inl ⟨rfl, (Option.some.inj h).symm⟩
  | kick | seg | broadcast =>
    simp only at h
    split at h
    · exact Or.inr ⟨by simp, Option.some.inj h ▸ Quiet.broadcastLoop _ _ _ _ _⟩
    · exact absurd h (by simp)

/-- A line of the administrator removes the user it names, or all users, and otherwise only adds
events. -/
theorem adminCommand_cases {s s' : Server} {line : CString} {outcomes : Fin maxUser → SlotOutcome}
    (h : adminCommand line outcomes s = some s') : s'.childpid = s.childpid ∧
    (getCommandType line = some .exit ∧ s'.table = cleanupUsers outcomes s.table ∨
      getCommandType line = some .kick ∧ (∃ userId idx, extractName line s.userId = some (some userId) ∧
        findUserIndex s.table.users (cString userId) = some idx ∧
          s'.table = kickUser idx (outcomes idx) s.table) ∨
      getCommandType line ≠ some .exit ∧ (getCommandType line = some .kick → ∀ userId,
        extractName line s.userId = some (some userId) →
          findUserIndex s.table.users (cString userId) = none) ∧
        Quiet s.table s'.table) := by
  rw [adminCommand, Option.bind_eq_some_iff] at h
  obtain ⟨type, htype, h⟩ := h
  rw [htype]
  cases type with
  | list =>
    simp only at h
    obtain ⟨t, hlist, rfl⟩ := Option.map_eq_some_iff.mp h
    exact ⟨rfl, Or.inr (Or.inr ⟨by simp, by simp, Quiet.listUsers hlist⟩)⟩
  | kick =>
    obtain ⟨name, hname, h⟩ := Option.bind_eq_some_iff.mp h
    rw [hname]
    split at h
    · obtain rfl := Option.some.inj h
      exact ⟨rfl, Or.inr (Or.inr ⟨by simp, by simp, Quiet.refl _⟩)⟩
    · rename_i userId
      split at h
      · rename_i hfind
        obtain rfl := Option.some.inj h
        refine ⟨rfl, Or.inr (Or.inr ⟨by simp, fun _ userId' heq => ?_, Quiet.refl _⟩)⟩
        obtain rfl := Option.some.inj (Option.some.inj heq)
        exact hfind
      · rename_i idx hfind
        obtain rfl := Option.some.inj h
        exact ⟨rfl, Or.inr (Or.inl ⟨rfl, userId, idx, rfl, hfind, rfl⟩)⟩
  | exit =>
    simp only [Option.some.injEq] at h
    subst h
    exact ⟨rfl, Or.inl (by simp only [and_self])⟩
  | p2p | seg | broadcast =>
    simp only at h
    split at h
    · obtain rfl := Option.some.inj h
      exact ⟨rfl, Or.inr (Or.inr ⟨by simp, by simp, Quiet.broadcastLoop _ _ _ _ _⟩)⟩
    · exact absurd h (by simp)

/-- The table after a step is one run of the cleanup loop, over the slots which the step removes, after
some plain events; unless the step handles a connection. -/
def RemovesOnly (s : Server) (label : ServerLabel) (t' : Table) : Prop :=
  ∃ slots t, Quiet s.table t ∧ t' = cleanupLoop label.outcomes slots t ∧ slots.Nodup ∧
    ∀ i, Removes s label i ↔ i ∈ slots ∧ s.table.Full i

/-- A step which removes nobody. -/
theorem RemovesOnly.quiet {s : Server} {label : ServerLabel} {t' : Table} (hquiet : Quiet s.table t')
    (hnone : ∀ i, ¬ Removes s label i) : RemovesOnly s label t' :=
  ⟨[], t', hquiet, rfl, List.nodup_nil, fun i => by simp [hnone i]⟩

/-- A step which removes the user of one full slot. -/
theorem RemovesOnly.kick {s : Server} {label : ServerLabel} {t : Table} {idx : Fin maxUser}
    (hquiet : Quiet s.table t) (hfull : s.table.Full idx) (hone : ∀ i, Removes s label i ↔ i = idx) :
    RemovesOnly s label (kickUser idx (label.outcomes idx) t) := by
  refine ⟨[idx], t, hquiet, ?_, List.nodup_singleton idx, fun i => ?_⟩
  · have hfull' : t.Full idx := by rw [Table.Full, hquiet.users]; exact hfull
    rw [cleanupLoop, if_pos hfull', cleanupLoop]
  · rw [hone i, List.mem_singleton]
    exact ⟨fun heq => ⟨heq, heq ▸ hfull⟩, fun h => h.1⟩

/-- What the administrator enters removes users only. -/
theorem pollAdmin_removesOnly {s s' : Server} {input : Option Input}
    {outcomes : Fin maxUser → SlotOutcome} (hphase : s.phase = .admin)
    (h : pollAdmin input outcomes s = some s') :
    s'.childpid = s.childpid ∧ RemovesOnly s (.admin input outcomes) s'.table := by
  cases input with
  | none =>
    obtain rfl := Option.some.inj h
    exact ⟨rfl, .quiet (Quiet.refl _) fun i => id⟩
  | some data =>
    obtain ⟨line, hline, h⟩ := Option.bind_eq_some_iff.mp h
    cases line with
    | none =>
      obtain rfl := Option.some.inj h
      refine ⟨rfl, .quiet (Quiet.refl _) fun i hremoves => ?_⟩
      obtain ⟨-, line, hline', -⟩ := hremoves
      exact absurd (hline.symm.trans hline') (by simp)
    | some line =>
      obtain ⟨s₁, hcommand, rfl⟩ := Option.map_eq_some_iff.mp h
      have hremoves (i : Fin maxUser) := @removes_admin s i data line outcomes hphase hline
      obtain ⟨hpid, ⟨htype, htable⟩ | ⟨htype, userId, idx, hname, hfind, htable⟩ |
          ⟨htype, hfree, hquiet⟩⟩ :=
        adminCommand_cases hcommand
      · refine ⟨hpid, List.finRange maxUser, s.table, Quiet.refl _, htable, List.nodup_finRange _,
          fun i => ?_⟩
        rw [hremoves, htype]
        simp
      · refine ⟨hpid, ?_⟩
        simp only [htable]
        refine RemovesOnly.kick (Quiet.refl _) (findUserIndex_eq_some hfind).1 fun i => ?_
        rw [hremoves, htype, hname]
        simp [hfind, eq_comm]
      · refine ⟨hpid, .quiet hquiet fun i hi => ?_⟩
        rcases (hremoves i).mp hi with ⟨htype', userId, hname, hfind⟩ | ⟨htype', -⟩
        · exact absurd (hfree htype' userId hname) (by rw [hfind]; simp)
        · exact htype htype'

/-- What a user sends removes this user only. -/
theorem pollUser_removesOnly {s s' : Server} {idx : Fin maxUser} {slots : List (Fin maxUser)}
    {input : Option Input} {outcomes : Fin maxUser → SlotOutcome}
    (hphase : s.phase = .polling (idx :: slots)) (h : pollUser idx input outcomes s = some s') :
    s'.childpid = s.childpid ∧ RemovesOnly s (.poll input outcomes) s'.table := by
  unfold pollUser at h
  split at h
  · rename_i hfull
    cases input with
    | none =>
      obtain rfl := Option.some.inj h
      exact ⟨rfl, .quiet (Quiet.refl _) fun i => id⟩
    | some data =>
      obtain ⟨t, hcommand, rfl⟩ := Option.map_eq_some_iff.mp h
      have hrecord : Quiet s.table (s.table.record (.handled idx (cString (storeBytes s.buf data)))) :=
        Quiet.record s.table trivial
      rcases userCommand_cases hcommand with ⟨htype, rfl⟩ | ⟨htype, hquiet⟩
      · exact ⟨rfl, RemovesOnly.kick hrecord hfull fun i => by
          rw [removes_poll hphase]; simp [hfull, htype]⟩
      · exact ⟨rfl, .quiet (hrecord.trans hquiet) fun i hi => htype ((removes_poll hphase).mp hi).2.2⟩
  · rename_i hempty
    obtain rfl := Option.some.inj h
    refine ⟨rfl, .quiet (Quiet.refl _) fun i hi => ?_⟩
    cases input with
    | none => exact hi
    | some data => exact hempty ((removes_poll hphase).mp hi).2.1

/-- Every step other than that of a connection removes users only. -/
theorem serverNext_removesOnly {s s' : Server} {label : ServerLabel} (h : serverNext s label = some s')
    (hlabel : ∀ outcome, label ≠ .accept outcome) :
    s'.childpid = s.childpid ∧ RemovesOnly s label s'.table := by
  cases label with
  | accept outcome => exact absurd rfl (hlabel outcome)
  | admin input outcomes =>
    obtain ⟨hphase, hadmin⟩ := serverNext_admin h
    exact pollAdmin_removesOnly hphase hadmin
  | poll input outcomes =>
    obtain ⟨idx, slots, s₁, hphase, hpoll, rfl⟩ := serverNext_poll h
    have hremoves : s₁.childpid = s.childpid ∧ RemovesOnly s (.poll input outcomes) s₁.table :=
      pollUser_removesOnly hphase hpoll
    exact hremoves
  | sleep =>
    obtain rfl := serverNext_sleep h
    exact ⟨rfl, .quiet (Quiet.refl _) fun i => id⟩

end Csci4061.Chat
