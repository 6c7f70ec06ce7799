import Csci4061.Chat.Session

/-!
# Lines on their way to the server

The lines of a user stay apart on their way to the server exactly if every read of the server takes
the bytes of one line. The pipes do not see to it: two lines which are in a pipe together are read
together.

The bytes arrive in any case. The boundaries arrive if no process is overtaken by the one before it,
that is if every read, of the child and of the server, takes the bytes of one write.
-/

namespace Csci4061.Chat

open Csci4061.Lib Csci4061.Lib.TransitionSystem

/-- A line of text: it is not longer than 200 characters, not blank, and no command to quit. -/
structure TextLine (line : CString) : Prop where
  short : line.length ≤ 200
  noNul : 0 ∉ line
  single : 0x0A ∉ line
  visible : ∃ c ∈ line, c ≠ 0x20
  notExit : getCommandType line ≠ some .exit
  notSeg : getCommandType line ≠ some .seg

instance (line : CString) : Decidable (TextLine line) :=
  decidable_of_iff (line.length ≤ 200 ∧ 0 ∉ line ∧ 0x0A ∉ line ∧ (∃ c ∈ line, c ≠ 0x20) ∧
      getCommandType line ≠ some .exit ∧ getCommandType line ≠ some .seg)
    ⟨fun ⟨hshort, hnul, hone, hvisible, hexit, hseg⟩ => ⟨hshort, hnul, hone, hvisible, hexit, hseg⟩,
      fun h => ⟨h.short, h.noNul, h.single, h.visible, h.notExit, h.notSeg⟩⟩

/-- A line of text is not empty. -/
theorem TextLine.ne_nil {line : CString} (h : TextLine line) : line ≠ [] := by
  obtain ⟨c, hc, -⟩ := h.visible
  exact List.ne_nil_of_mem hc

/-- A line of text is classified. -/
theorem TextLine.type {line : CString} (h : TextLine line) :
    ∃ type, getCommandType line = some type := by
  have hlength := h.short
  have hwords : (words line).length < 128 := by
    have hhalf : 2 * (words line).length ≤ line.length + 1 := two_mul_length_tokens_le line
    omega
  obtain ⟨command, hhead⟩ : ∃ command, (words line).head? = some command := by
    rw [← Option.isSome_iff_exists, List.isSome_head?]
    intro hnone
    obtain ⟨c, hc, hvisible⟩ := h.visible
    exact hvisible ((separates_space c).mp (forall_of_tokens_eq_nil hnone c hc))
  exact ⟨_, getCommandType_isSome h.noNul (by rw [maxMsg]; omega) hwords hhead⟩

/-- The client sends a line of text as it is. -/
theorem clientInput_text {buf : List UInt8} {line : CString} (hidle : IdleBuffer buf)
    (h : TextLine line) :
    clientInput buf (line ++ [0x0A]) = some (.send line) := by
  have hne : line ++ [0x0A] ≠ [] := by simp
  have hzero : 0 ∉ line ++ [0x0A] := by simp [h.noNul]
  have hentered : enteredLine (storeBytes buf (line ++ [0x0A])) = some (some line) := by
    have hpos := List.length_pos_iff.mpr h.ne_nil
    have hlength := h.short
    rw [enteredLine, hidle.cString_storeBytes hne hzero, List.getLast?_concat, List.dropLast_concat,
      List.length_append, List.length_singleton, if_neg (by rw [maxMsg]; omega), Option.map_some,
        if_pos rfl,
      if_neg (by omega)]
  have hwritten : ((storeBytes buf (line ++ [0x0A])).set line.length 0).take
      ((line ++ [0x0A]).length - 1) = line := by
    rw [storeBytes, List.append_assoc, List.set_append_right _ _ (Nat.le_refl _), List.length_append,
      List.length_singleton, Nat.add_sub_cancel, List.take_left]
  obtain ⟨type, htype⟩ := h.type
  rw [clientInput, hentered, Option.bind_some]
  simp only [htype, hwritten, Option.map_some]
  cases type with
  | exit => exact absurd htype h.notExit
  | seg => exact absurd htype h.notSeg
  | list | kick | p2p | broadcast => rfl

/-- The line which is entered, if one is, is one of text. -/
def SessionLabel.Text : SessionLabel → Prop
  | .line text => TextLine text
  | _ => True

instance : (label : SessionLabel) → Decidable label.Text
  | .line text => inferInstanceAs (Decidable (TextLine text))
  | .display _ => isTrue trivial
  | .child _ => isTrue trivial
  | .server _ => isTrue trivial
  | .poll _ _ => isTrue trivial
  | .deliver _ => isTrue trivial

/-- The session of a client at which lines of text are entered. -/
def textSystem (slot : Fin maxUser) : TransitionSystem Session SessionLabel :=
  (sessionSystem slot).restrict fun _ label => label.Text

/-- A client which has sent nothing, with pipes which never fill. -/
structure TextInit (slot : Fin maxUser) (s : Session) : Prop extends SessionInit slot s where
  unbounded : s.relay.childReadingFromUser.capacity = none ∧
    s.relay.serverReadingFromChild.capacity = none
  clientIdle : IdleBuffer s.clientBuf
  userOpen : s.relay.userOpen = true
  noNotice : s.relay.child ≠ .notify
  noneSent : s.sent = []

/-- The bytes of the lines are in order, wherever the boundaries between them went. -/
structure Flow (s : Session) : Prop where
  serverIdle : IdleBuffer s.server.buf
  clientIdle : IdleBuffer s.clientBuf
  unbounded : s.relay.childReadingFromUser.capacity = none ∧
    s.relay.serverReadingFromChild.capacity = none
  noNotice : s.alive = true → s.relay.userOpen = true ∧ s.relay.child ≠ .notify
  text : ∀ line ∈ s.sent, TextLine line
  bytes : s.sent.flatten = s.handled.flatten ++ (s.relay.serverReadingFromChild.contents ++
    s.relay.child.heldForServer ++ s.relay.childReadingFromUser.contents)

/-- No NUL is on the way. -/
theorem Flow.noNul {s : Session} (h : Flow s) : 0 ∉ s.relay.serverReadingFromChild.contents := by
  intro hmem
  have hsent : 0 ∈ s.sent.flatten := by rw [h.bytes]; simp [hmem]
  obtain ⟨line, hline, hzero⟩ := List.mem_flatten.mp hsent
  exact (h.text line hline).noNul hzero

/-- A step of the child passes the bytes on. -/
theorem Flow.child {s : Session} {relay : Relay} {n : ℕ} (h : Flow s) (halive : s.alive = true)
    (hstep : ChildStep s.relay n relay) : Flow { s with relay := relay } := by
  obtain ⟨hopen, hnotice⟩ := h.noNotice halive
  have hbytes := h.bytes
  cases hstep with
  | noUserData hphase =>
    refine ⟨h.serverIdle, h.clientIdle, h.unbounded, fun _ => ⟨hopen, by simp [hopen]⟩, h.text, ?_⟩
    rw [hbytes, hphase]
    simp [hopen, ChildPhase.heldForServer]
  | readUser hphase =>
    refine ⟨h.serverIdle, h.clientIdle, h.unbounded, fun _ => ⟨hopen, by simp⟩, h.text, ?_⟩
    rw [hbytes, hphase]
    simp [ChildPhase.heldForServer]
  | writeServer buf hphase =>
    have hroom := Pipe.Fits.of_unbounded h.unbounded.2 buf
    refine ⟨h.serverIdle, h.clientIdle, by simpa using h.unbounded, fun _ => ⟨hopen, by simp⟩, h.text,
      ?_⟩
    rw [hbytes, hphase]
    simp [ChildPhase.heldForServer, hroom.accepted]
  | notify hphase => exact absurd hphase hnotice
  | noServerData hphase | readServer hphase | writeUser buf hphase =>
    refine ⟨h.serverIdle, h.clientIdle, h.unbounded, fun _ => ⟨hopen, by simp⟩, h.text, ?_⟩
    rw [hbytes, hphase]
    simp [ChildPhase.heldForServer]

/-- What a client does with a line of text. -/
theorem sessionNext_text {slot : Fin maxUser} {s s' : Session} {line : CString}
    (hidle : IdleBuffer s.clientBuf) (htext : TextLine line)
    (h : sessionNext slot s (.line line) = some s') :
    s' = s.act (line ++ [0x0A]) (.send line) := by
  rw [sessionNext] at h
  split at h
  · obtain ⟨action, haction, rfl⟩ := Option.map_eq_some_iff.mp h
    rw [clientInput_text hidle htext] at haction
    rw [Option.some.inj haction]
  · exact absurd h (by simp)

/-- Every step keeps the bytes in order. -/
theorem Flow.step {slot : Fin maxUser} {s s' : Session} {label : SessionLabel} (h : Flow s)
    (htext : label.Text) (hstep : sessionNext slot s label = some s') : Flow s' := by
  have hidle := sessionNext_idleBuffer h.serverIdle hstep
  cases label with
  | line line =>
    obtain rfl := sessionNext_text h.clientIdle htext hstep
    have hroom := Pipe.Fits.of_unbounded h.unbounded.1 line
    refine ⟨hidle, idleBuffer_replicate, by simpa [Session.act] using h.unbounded, h.noNotice, ?_, ?_⟩
    · intro line' hmem
      simp only [Session.act, Relay.acceptedLine, if_pos hroom, List.mem_append,
        List.mem_singleton] at hmem
      rcases hmem with hmem | rfl
      · exact h.text line' hmem
      · exact htext
    · simp [Session.act, Relay.acceptedLine, hroom, hroom.accepted, h.bytes]
  | display n =>
    rw [sessionNext] at hstep
    split at hstep
    · obtain rfl := Option.some.inj hstep
      exact ⟨hidle, idleBuffer_replicate, h.unbounded, h.noNotice, h.text, h.bytes⟩
    · split at hstep
      · rename_i hend
        obtain rfl := Option.some.inj hstep
        exact ⟨hidle, h.clientIdle, h.unbounded, fun halive => absurd (hend.1.symm.trans halive)
          (by simp), h.text, h.bytes⟩
      · exact absurd hstep (by simp)
  | child n =>
    rw [sessionNext] at hstep
    split at hstep
    · rename_i halive
      obtain ⟨relay, hchild, rfl⟩ := Option.map_eq_some_iff.mp hstep
      exact h.child halive (childNext_step hchild)
    · exact absurd hstep (by simp)
  | server label =>
    obtain ⟨-, server, -, rfl⟩ := sessionNext_server hstep
    refine ⟨hidle, h.clientIdle, h.unbounded, fun halive => h.noNotice ?_, h.text, h.bytes⟩
    exact (Bool.and_eq_true_iff.mp halive).1
  | poll n outcomes =>
    obtain ⟨hread, data, server, -, -, rfl⟩ := sessionNext_poll hstep
    refine ⟨hidle, h.clientIdle, h.unbounded, fun halive => h.noNotice ?_, h.text, ?_⟩
    · exact (Bool.and_eq_true_iff.mp halive).1
    · rw [handled_eq h.serverIdle hread h.noNul, List.flatten_append]
      simp only [h.bytes, Session.observe, List.flatten_singleton, Pipe.contents_read, List.append_assoc]
      rw [← List.append_assoc (List.take _ _), List.take_append_drop]
  | deliver data =>
    obtain rfl := Option.some.inj hstep
    exact ⟨hidle, h.clientIdle, h.unbounded, h.noNotice, h.text, h.bytes⟩

/-- What the server handled is a first part of the lines which the client sent. -/
def Framed (s : Session) : Prop := s.handled <+: s.sent

/-- A read of the server takes as many bytes as the first line has which it did not handle. -/
def ReadsNextLine (s : Session) : SessionLabel → Prop
  | .poll n _ => ∃ line, s.sent[s.handled.length]? = some line ∧ n = line.length
  | _ => True

instance (s : Session) : (label : SessionLabel) → Decidable (ReadsNextLine s label)
  | .poll n _ => decidable_of_iff (s.sent[s.handled.length]?.map List.length = some n) (by
      rw [Option.map_eq_some_iff, ReadsNextLine]
      exact ⟨fun ⟨line, hline, hn⟩ => ⟨line, hline, hn.symm⟩, fun ⟨line, hline, hn⟩ =>
        ⟨line, hline, hn.symm⟩⟩)
  | .line _ => isTrue trivial
  | .display _ => isTrue trivial
  | .child _ => isTrue trivial
  | .server _ => isTrue trivial
  | .deliver _ => isTrue trivial

/-- A step keeps the lines apart exactly if what the server reads in it is the next line. -/
theorem framed_step_iff {slot : Fin maxUser} {s s' : Session} {label : SessionLabel} (h : Flow s)
    (hframed : Framed s) (htext : label.Text) (hstep : sessionNext slot s label = some s') :
    Framed s' ↔ ReadsNextLine s label := by
  by_cases hlabel : ∃ n outcomes, label = .poll n outcomes
  · obtain ⟨n, outcomes, rfl⟩ := hlabel
    obtain ⟨hread, data, server, -, -, rfl⟩ := sessionNext_poll hstep
    obtain ⟨rest, hsent⟩ := hframed
    have hbytes := h.bytes
    rw [← hsent, List.flatten_append, List.append_cancel_left_eq] at hbytes
    have hnext : s.sent[s.handled.length]? = rest.head? := by
      rw [← hsent, List.getElem?_append_right (Nat.le_refl _), Nat.sub_self, List.head?_eq_getElem?]
    rw [handled_eq h.serverIdle hread h.noNul]
    simp only [Framed, ReadsNextLine, Session.observe, hnext]
    rw [← hsent, List.prefix_append_right_inj]
    rw [List.append_assoc] at hbytes
    exact singleton_take_prefix_iff hbytes hread.2.2
  · have hother (n : ℕ) (outcomes : Fin maxUser → SlotOutcome) : label ≠ .poll n outcomes :=
      fun heq => hlabel ⟨n, outcomes, heq⟩
    obtain ⟨hhandled, hsent⟩ := sessionNext_frame hstep hother
    refine iff_of_true ?_ ?_
    · rw [Framed, hhandled]
      exact hframed.trans hsent
    · cases label with
      | poll n outcomes => exact absurd rfl (hother n outcomes)
      | line | display | child | server | deliver => trivial

/-- Every read, of the child and of the server, takes the bytes of one write. -/
def WholeReads (s : Session) : SessionLabel → Prop
  | .child n => s.relay.child = .readUser → s.relay.childReadingFromUser.contents ≠ [] →
      s.relay.childReadingFromUser.ReadsOneWrite n
  | .poll n _ => s.relay.serverReadingFromChild.ReadsOneWrite n
  | _ => True

/-- The messages in the buffer of a child which are to be written to the server. -/
def ChildPhase.heldMessages : ChildPhase → List CString
  | .writeServer buf => [buf]
  | _ => []

/-- The lines which were sent are apart, everywhere on their way. -/
def Separate (s : Session) : Prop :=
  s.sent = s.handled ++ (s.relay.serverReadingFromChild.writes ++ s.relay.child.heldMessages ++
    s.relay.childReadingFromUser.writes)

/-- What is in the pipes consists of lines which were sent. -/
theorem Separate.ne_nil {s : Session} (h : Separate s) (hflow : Flow s) {data : CString}
    (hdata : data ∈ s.relay.serverReadingFromChild.writes ∨
      data ∈ s.relay.childReadingFromUser.writes) : data ≠ [] := by
  have hsent : data ∈ s.sent := by
    rw [h]
    rcases hdata with hdata | hdata <;> simp [hdata]
  exact (hflow.text data hsent).ne_nil

/-- A step of a child which reads one write keeps the lines apart. -/
theorem Separate.child {s : Session} {relay : Relay} {n : ℕ} (h : Separate s) (hflow : Flow s)
    (halive : s.alive = true) (hwhole : WholeReads s (.child n)) (hstep : ChildStep s.relay n relay) :
    Separate { s with relay := relay } := by
  rw [Separate] at h
  cases hstep with
  | noUserData hphase =>
    rw [Separate, h, hphase]
    cases s.relay.userOpen <;> simp [ChildPhase.heldMessages]
  | readUser hphase hread =>
    have hcontents : s.relay.childReadingFromUser.contents ≠ [] := by
      intro hempty
      have hle := hread.2.2
      rw [hempty] at hle
      exact absurd (hread.1.trans hle) (by simp)
    obtain ⟨data, hhead, rfl⟩ := hwhole hphase hcontents
    obtain ⟨later, hwrites⟩ := List.head?_eq_some_iff.mp hhead
    have hlater : ∀ write ∈ later, write ≠ [] := fun write hmem =>
      Separate.ne_nil h hflow (Or.inr (by rw [hwrites]; exact List.mem_cons_of_mem _ hmem))
    obtain ⟨htake, hleft⟩ := Pipe.read_oldest hwrites hlater
    rw [Separate, h, hphase]
    simp [ChildPhase.heldMessages, htake, hleft, hwrites]
  | writeServer buf hphase =>
    have hroom := Pipe.Fits.of_unbounded hflow.unbounded.2 buf
    rw [Separate, h, hphase]
    simp [ChildPhase.heldMessages, hroom.writes_tryWrite]
  | notify hphase => exact absurd hphase (hflow.noNotice halive).2
  | noServerData hphase | readServer hphase | writeUser buf hphase =>
    rw [Separate, h, hphase]
    simp [ChildPhase.heldMessages]

/-- What the server reads in one write is the next line, and the lines stay apart. -/
theorem Separate.step {slot : Fin maxUser} {s s' : Session} {label : SessionLabel} (h : Separate s)
    (hflow : Flow s) (htext : label.Text) (hwhole : WholeReads s label)
    (hstep : sessionNext slot s label = some s') :
    ReadsNextLine s label ∧ Separate s' := by
  cases label with
  | line line =>
    obtain rfl := sessionNext_text hflow.clientIdle htext hstep
    have hroom := Pipe.Fits.of_unbounded hflow.unbounded.1 line
    refine ⟨trivial, ?_⟩
    rw [Separate] at h ⊢
    simp [Session.act, Relay.acceptedLine, hroom, hroom.writes_tryWrite, h]
  | display n =>
    rw [sessionNext] at hstep
    split at hstep
    · exact Option.some.inj hstep ▸ ⟨trivial, h⟩
    · split at hstep
      · exact Option.some.inj hstep ▸ ⟨trivial, h⟩
      · exact absurd hstep (by simp)
  | child n =>
    rw [sessionNext] at hstep
    split at hstep
    · rename_i halive
      obtain ⟨relay, hchild, rfl⟩ := Option.map_eq_some_iff.mp hstep
      exact ⟨trivial, h.child hflow halive hwhole (childNext_step hchild)⟩
    · exact absurd hstep (by simp)
  | server label =>
    obtain ⟨-, server, -, rfl⟩ := sessionNext_server hstep
    exact ⟨trivial, h⟩
  | poll n outcomes =>
    obtain ⟨hread, data, server, -, -, rfl⟩ := sessionNext_poll hstep
    obtain ⟨line, hhead, rfl⟩ := hwhole
    obtain ⟨later, hwrites⟩ := List.head?_eq_some_iff.mp hhead
    have hlater : ∀ write ∈ later, write ≠ [] := fun write hmem =>
      h.ne_nil hflow (Or.inl (by rw [hwrites]; exact List.mem_cons_of_mem _ hmem))
    obtain ⟨htake, hleft⟩ := Pipe.read_oldest hwrites hlater
    rw [handled_eq hflow.serverIdle hread hflow.noNul, htake]
    rw [Separate, hwrites] at h
    constructor
    · refine ⟨line, ?_, rfl⟩
      rw [h, List.getElem?_append_right (Nat.le_refl _), Nat.sub_self]
      rfl
    · rw [Separate]
      simp [Session.observe, hleft, h]
  | deliver data =>
    obtain rfl := Option.some.inj hstep
    exact ⟨trivial, h⟩

/-- In the beginning nothing is on its way. -/
theorem TextInit.start {slot : Fin maxUser} {s : Session} (h : TextInit slot s) :
    Flow s ∧ Framed s ∧ Separate s := by
  have hheld : s.relay.child.heldForServer = [] ∧ s.relay.child.heldMessages = [] := by
    cases hphase : s.relay.child with
    | writeServer buf => exact absurd hphase (h.nothingHeld buf)
    | readUser | notify | readServer | writeUser => exact ⟨rfl, rfl⟩
  have hidle := idleBuffer_of_full h.reachable h.full
  refine ⟨⟨hidle, h.clientIdle, h.unbounded, fun _ => ⟨h.userOpen, h.noNotice⟩, ?_, ?_⟩, ?_, ?_⟩
  · simp [h.noneSent]
  · simp [h.noneSent, h.nothingHandled, hheld.1, Pipe.contents, h.nothingPassed, h.nothingSent]
  · rw [Framed, h.nothingHandled]
    exact List.nil_prefix
  · rw [Separate, h.noneSent, h.nothingHandled, hheld.2, h.nothingPassed, h.nothingSent]
    rfl

/-- The runs in which every read of the server takes the next line are the runs in which the handled
messages are always a first part of the lines which were sent; and a run in which every read takes
the bytes of one write is among them. -/
theorem lines_framed_iff {slot : Fin maxUser} {s₀ s : Session} (hinit : TextInit slot s₀)
    (labels : List SessionLabel) :
    (((textSystem slot).restrict ReadsNextLine).Run s₀ labels s ↔
      ((textSystem slot).keeping Framed).Run s₀ labels s) ∧
      (((textSystem slot).restrict WholeReads).Run s₀ labels s →
        ((textSystem slot).restrict ReadsNextLine).Run s₀ labels s) := by
  obtain ⟨hflow, hframed, hseparate⟩ := hinit.start
  constructor
  · exact @restrict_run_iff_keeping _ _ (textSystem slot) _ Framed Flow
      (fun _ _ _ h hstep => h.step hstep.1 hstep.2)
      (fun _ _ _ h hframed hstep => framed_step_iff h hframed hstep.1 hstep.2) s₀ s labels hflow hframed
  · intro hrun
    have hboth (t : Session) (label : SessionLabel) (t' : Session) (h : Flow t ∧ Separate t)
        (hwhole : WholeReads t label) (hstep : (textSystem slot).step t label t') :
        ReadsNextLine t label ∧ Flow t' ∧ Separate t' := by
      obtain ⟨hnext, hseparate'⟩ := h.2.step h.1 hstep.1 hwhole hstep.2
      exact ⟨hnext, h.1.step hstep.1 hstep.2, hseparate'⟩
    exact (Run.change_guard hboth ⟨hflow, hseparate⟩ hrun).1

/-- A client which was just started has sent nothing. -/
theorem freshSession_text : TextInit 0 (freshSession true) :=
  ⟨freshSession_init true, ⟨rfl, rfl⟩, idleBuffer_replicate, rfl, by simp [freshSession], rfl⟩

/-- Two lines are in the pipe together. The child and the server read one after the other. -/
def twoReads : List SessionLabel :=
  [.line (bytes "hi"), .line (bytes "ho"), .child 2, .child 0, .child 0, .child 2, .child 0,
    .poll 2 allSucceed] ++ List.replicate 9 (.server (.poll none allSucceed)) ++
    [.server .sleep, .server (.accept none), .server (.admin none allSucceed), .poll 2 allSucceed]

/-- Both lines are handled. -/
theorem lines_framed_two : ∃ s, ((textSystem 0).keeping Framed).Run (freshSession true) twoReads s ∧
    s.handled = [bytes "hi", bytes "ho"] := by
  have hrun : (exec
      (fun s label => if label.Text ∧ ReadsNextLine s label then sessionNext 0 s label else none)
      (freshSession true) twoReads).map (fun s => s.handled) = some [bytes "hi", bytes "ho"] := by
    decide +kernel
  obtain ⟨s, hexec, hhandled⟩ := Option.map_eq_some_iff.mp hrun
  have hguarded : ((textSystem 0).restrict ReadsNextLine).Run (freshSession true) twoReads s :=
    (Run.of_exec_guarded hexec).restrict_and
  exact ⟨s, (lines_framed_iff freshSession_text twoReads).1.mp hguarded, hhandled⟩

/-- A message and a command are entered before the child polls its user. -/
def twoLines : List SessionLabel :=
  [.line (bytes "hi"), .line (bytes "\\list"), .child 7, .child 0, .poll 7 allSucceed]

/-- The two lines are handled as one message, which is broadcast. -/
theorem lines_merged :
    TextInit 0 (freshSession true) ∧ ∃ s, (textSystem 0).Run (freshSession true) twoLines s ∧
    s.sent = [bytes "hi", bytes "\\list"] ∧ s.handled = [bytes "hi\\list"] ∧ ¬ Framed s := by
  have hrun : (exec (sessionNext 0) (freshSession true) twoLines).map (fun s => (s.sent, s.handled)) =
      some ([bytes "hi", bytes "\\list"], [bytes "hi\\list"]) := by decide +kernel
  obtain ⟨s, hexec, heq⟩ := Option.map_eq_some_iff.mp hrun
  obtain ⟨hsent, hhandled⟩ := Prod.mk.inj heq
  have htext : ∀ label ∈ twoLines, label.Text := by decide +kernel
  refine ⟨freshSession_text, s, Run.restrict (Run.of_exec hexec) fun label hmem _ => htext label hmem,
    hsent, hhandled, ?_⟩
  rw [Framed, hsent, hhandled]
  decide

end Csci4061.Chat
