import Csci4061.Chat.Session

/-!
# The notices of a user who is gone

After a client has closed its pipe, its child writes an exit notice in every iteration, until it is
killed. The notices have no terminator. The server recognises what it reads exactly if it reads one
notice at a time: two of them together are no command, and go to the other users as a message.
-/

namespace Csci4061.Chat

open Csci4061.Lib Csci4061.Lib.TransitionSystem

/-- The client has closed its pipe, and everything which it sent was read. -/
structure ClosedInit (slot : Fin maxUser) (s : Session) : Prop extends SessionInit slot s where
  closed : s.relay.userOpen = false

/-- Every message which was handled is an exit. -/
def Recognised (s : Session) : Prop := ∀ message ∈ s.handled, getCommandType message = some .exit

/-- A read of the server takes as many bytes as a notice has. -/
def ReadsOneNotice (_ : Session) : SessionLabel → Prop
  | .poll n _ => n = exitNotice.length
  | _ => True

instance (s : Session) : (label : SessionLabel) → Decidable (ReadsOneNotice s label)
  | .poll n _ => inferInstanceAs (Decidable (n = exitNotice.length))
  | .line _ => isTrue trivial
  | .display _ => isTrue trivial
  | .child _ => isTrue trivial
  | .server _ => isTrue trivial
  | .deliver _ => isTrue trivial

/-- A number of notices, one behind the other. -/
def notices (k : ℕ) : List UInt8 := (List.replicate k exitNotice).flatten

/-- One more notice in front. -/
theorem notices_succ (k : ℕ) : notices (k + 1) = exitNotice ++ notices k := by
  rw [notices, List.replicate_succ, List.flatten_cons, notices]

/-- One more notice behind. -/
theorem notices_append (k : ℕ) : notices k ++ exitNotice = notices (k + 1) := by
  rw [notices, notices, List.replicate_succ', List.flatten_append, List.flatten_singleton]

/-- Every byte of the notices is one of a notice. -/
theorem mem_notices {k : ℕ} {c : UInt8} (h : c ∈ notices k) : c ∈ exitNotice := by
  obtain ⟨part, hpart, hc⟩ := List.mem_flatten.mp h
  exact List.eq_of_mem_replicate hpart ▸ hc

/-- The first bytes of the notices are an exit exactly if they are one notice. -/
theorem take_notices_exit_iff {k n : ℕ} (hpos : 1 ≤ n) (hle : n ≤ (notices k).length) :
    getCommandType ((notices k).take n) = some .exit ↔ n = exitNotice.length := by
  have hlength : ((notices k).take n).length = n := by rw [List.length_take, Nat.min_eq_left hle]
  constructor
  · intro htype
    have hzero : 0 ∉ (notices k).take n := fun hmem =>
      absurd (mem_notices (List.mem_of_mem_take hmem)) (by decide)
    have hword : ∀ c ∈ (notices k).take n, separates (bytes " ") c = false := by
      intro c hc
      have hletters : ∀ c ∈ exitNotice, separates (bytes " ") c = false := by decide +kernel
      exact hletters c (mem_notices (List.mem_of_mem_take hc))
    have hne : (notices k).take n ≠ [] := by
      rw [← List.length_pos_iff, hlength]
      exact hpos
    obtain ⟨-, -, command, hhead, hexit⟩ := (getCommandType_eq_some hzero).mp htype
    rw [words, tokens_word hne hword, List.head?_cons, Option.some.injEq] at hhead
    rw [← hlength, hhead, findCommandType_exit.mp hexit]
    rfl
  · intro hn
    cases k with
    | zero => exact absurd (hpos.trans hle) (by simp [notices])
    | succ k =>
      rw [notices_succ, hn, List.take_left]
      decide

/-- The user sends nothing more, and as long as everything was recognised there are only whole notices
in the pipe to the server. -/
structure OnlyNotices (s : Session) : Prop where
  serverIdle : IdleBuffer s.server.buf
  closed : s.relay.userOpen = false
  nothingSent : s.relay.childReadingFromUser.contents = []
  nothingHeld : ∀ buf, s.relay.child ≠ .writeServer buf
  whole : Recognised s → ∃ k, s.relay.serverReadingFromChild.contents = notices k

/-- A message more was recognised. -/
theorem recognised_append {s s' : Session} {message : CString}
    (h : s'.handled = s.handled ++ [message]) :
    Recognised s' ↔ Recognised s ∧ getCommandType message = some .exit := by
  simp only [Recognised, h, List.forall_mem_append, List.forall_mem_singleton]

/-- A read of the server recognises what it reads exactly if this is one notice. -/
theorem OnlyNotices.poll_iff {s s' : Session} {n : ℕ} (h : OnlyNotices s) (hrecognised : Recognised s)
    (hread : MayRead s.relay.serverReadingFromChild n)
    (hhandled : s'.handled = s.handled ++
      [cString (storeBytes s.server.buf (s.relay.serverReadingFromChild.contents.take n))]) :
    Recognised s' ↔ n = exitNotice.length := by
  obtain ⟨k, hwhole⟩ := h.whole hrecognised
  have hzero : 0 ∉ s.relay.serverReadingFromChild.contents := by
    rw [hwhole]
    exact fun hmem => absurd (mem_notices hmem) (by decide)
  rw [handled_eq h.serverIdle hread hzero, hwhole] at hhandled
  have hle := hread.2.2
  rw [hwhole] at hle
  rw [recognised_append hhandled, take_notices_exit_iff hread.1 hle]
  exact and_iff_right hrecognised

/-- A step of the child writes a notice or nothing to the server. -/
theorem OnlyNotices.child {s : Session} {relay : Relay} {n : ℕ} (h : OnlyNotices s)
    (hstep : ChildStep s.relay n relay) : OnlyNotices { s with relay := relay } := by
  cases hstep with
  | noUserData hphase => exact ⟨h.serverIdle, h.closed, h.nothingSent, by simp [h.closed], h.whole⟩
  | readUser hphase hread =>
    exact absurd h.nothingSent fun hempty => hread.take_ne_nil (by rw [hempty, List.take_nil])
  | writeServer buf hphase => exact absurd hphase (h.nothingHeld buf)
  | notify hphase =>
    refine ⟨h.serverIdle, h.closed, h.nothingSent, by simp, fun hrecognised => ?_⟩
    obtain ⟨k, hwhole⟩ := h.whole hrecognised
    simp only [Pipe.contents_tryWrite, hwhole, Pipe.accepted]
    split
    · exact ⟨k + 1, notices_append k⟩
    · exact ⟨k, List.append_nil _⟩
  | noServerData hphase | readServer hphase | writeUser buf hphase =>
    exact ⟨h.serverIdle, h.closed, h.nothingSent, by simp, h.whole⟩

/-- Every step keeps the notices whole as long as everything is recognised. -/
theorem OnlyNotices.step {slot : Fin maxUser} {s s' : Session} {label : SessionLabel} (h : OnlyNotices s)
    (hstep : sessionNext slot s label = some s') : OnlyNotices s' := by
  have hidle := sessionNext_idleBuffer h.serverIdle hstep
  cases label with
  | line line =>
    rw [sessionNext, if_neg (by simp [h.closed])] at hstep
    exact absurd hstep (by simp)
  | display n =>
    rw [sessionNext, if_neg (by simp [h.closed])] at hstep
    split at hstep
    · obtain rfl := Option.some.inj hstep
      exact ⟨hidle, rfl, h.nothingSent, h.nothingHeld, h.whole⟩
    · exact absurd hstep (by simp)
  | child n =>
    rw [sessionNext] at hstep
    split at hstep
    · obtain ⟨relay, hchild, rfl⟩ := Option.map_eq_some_iff.mp hstep
      exact h.child (childNext_step hchild)
    · exact absurd hstep (by simp)
  | server label =>
    obtain ⟨-, server, -, rfl⟩ := sessionNext_server hstep
    exact ⟨hidle, h.closed, h.nothingSent, h.nothingHeld, h.whole⟩
  | poll n outcomes =>
    obtain ⟨hread, data, server, -, -, rfl⟩ := sessionNext_poll hstep
    refine ⟨hidle, h.closed, h.nothingSent, h.nothingHeld, fun hrecognised => ?_⟩
    have hbefore := ((recognised_append rfl).mp hrecognised).1
    have hn := (h.poll_iff hbefore hread rfl).mp hrecognised
    obtain ⟨k, hwhole⟩ := h.whole hbefore
    have hle := hread.2.2
    simp only [Pipe.contents_read, hwhole]
    cases k with
    | zero => exact absurd (hread.1.trans (hwhole ▸ hle)) (by simp [notices])
    | succ k => exact ⟨k, by rw [notices_succ, hn, List.drop_left]⟩
  | deliver data =>
    obtain rfl := Option.some.inj hstep
    exact ⟨hidle, h.closed, h.nothingSent, h.nothingHeld, h.whole⟩

/-- A step recognises what it reads exactly if this is one notice. -/
theorem recognised_step_iff {slot : Fin maxUser} {s s' : Session} {label : SessionLabel}
    (h : OnlyNotices s) (hrecognised : Recognised s) (hstep : sessionNext slot s label = some s') :
    Recognised s' ↔ ReadsOneNotice s label := by
  by_cases hlabel : ∃ n outcomes, label = .poll n outcomes
  · obtain ⟨n, outcomes, rfl⟩ := hlabel
    obtain ⟨hread, data, server, -, -, rfl⟩ := sessionNext_poll hstep
    exact h.poll_iff hrecognised hread rfl
  · have hother (n : ℕ) (outcomes : Fin maxUser → SlotOutcome) : label ≠ .poll n outcomes :=
      fun heq => hlabel ⟨n, outcomes, heq⟩
    refine iff_of_true ?_ ?_
    · rw [Recognised, (sessionNext_frame hstep hother).1]
      exact hrecognised
    · cases label with
      | poll n outcomes => exact absurd rfl (hother n outcomes)
      | line | display | child | server | deliver => trivial

/-- A message which is an exit is not written to anybody. -/
theorem writtenSlots_of_exit {s s' : Server} {data : Input} {outcomes : Fin maxUser → SlotOutcome}
    (hexit : getCommandType (cString (storeBytes s.buf data)) = some .exit)
    (hstep : serverNext s (.poll (some data) outcomes) = some s') :
    writtenSlots s'.table.events = writtenSlots s.table.events := by
  obtain ⟨idx, slots, s₁, -, hpoll, rfl⟩ := serverNext_poll hstep
  unfold pollUser at hpoll
  split at hpoll
  · obtain ⟨t, hcommand, rfl⟩ := Option.map_eq_some_iff.mp hpoll
    rcases userCommand_cases hcommand with ⟨-, rfl⟩ | ⟨hother, -⟩
    · simp [writtenSlots]
    · exact absurd hexit hother
  · obtain rfl := Option.some.inj hpoll
    rfl

/-- In the beginning there are no notices. -/
theorem ClosedInit.start {slot : Fin maxUser} {s : Session} (h : ClosedInit slot s) :
    OnlyNotices s ∧ Recognised s := by
  refine ⟨⟨idleBuffer_of_full h.reachable h.full, h.closed, ?_, h.nothingHeld, fun _ => ⟨0, ?_⟩⟩, ?_⟩
  · rw [Pipe.contents, h.nothingSent, List.flatten_nil]
  · rw [Pipe.contents, h.nothingPassed, List.flatten_nil, notices, List.replicate_zero, List.flatten_nil]
  · simp [Recognised, h.nothingHandled]

/-- The runs in which every read of the server takes one notice are the runs in which every message of
the slot is always recognised as an exit; and in these no read of the server writes to anybody. -/
theorem notices_recognised_iff {slot : Fin maxUser} {s₀ s : Session} (hinit : ClosedInit slot s₀)
    (labels : List SessionLabel) :
    (((sessionSystem slot).restrict ReadsOneNotice).Run s₀ labels s ↔
      ((sessionSystem slot).keeping Recognised).Run s₀ labels s) ∧
    (((sessionSystem slot).keeping Recognised).Run s₀ labels s → ∀ n outcomes s',
      ((sessionSystem slot).keeping Recognised).step s (.poll n outcomes) s' →
        writtenSlots s'.server.table.events = writtenSlots s.server.table.events) := by
  obtain ⟨honly, hrecognised⟩ := hinit.start
  have hiff : ((sessionSystem slot).restrict ReadsOneNotice).Run s₀ labels s ↔
      ((sessionSystem slot).keeping Recognised).Run s₀ labels s :=
    @restrict_run_iff_keeping _ _ (sessionSystem slot) _ Recognised OnlyNotices
      (fun _ _ _ h hstep => h.step hstep)
      (fun _ _ _ h hrecognised hstep =>
        recognised_step_iff h hrecognised hstep) s₀ s labels honly hrecognised
  refine ⟨hiff, fun hrun n outcomes s' hstep => ?_⟩
  obtain ⟨hnext, hafter⟩ := hstep
  obtain ⟨hread, data, server, hdata, hserver, rfl⟩ := sessionNext_poll hnext
  have hexit := ((recognised_append rfl).mp hafter).2
  rw [← hdata] at hexit
  exact writtenSlots_of_exit hexit hserver

/-- The child finds the end of file and writes a notice, and the server reads it. -/
def oneNotice : List SessionLabel := [.child 0, .child 0, .poll 5 allSucceed]

/-- A client which was just started and has quit. -/
theorem freshSession_closed : ClosedInit 0 (freshSession false) := ⟨freshSession_init false, rfl⟩

/-- The notice is recognised. -/
theorem notices_recognised_one :
    ∃ s, ((sessionSystem 0).keeping Recognised).Run (freshSession false) oneNotice s ∧
    s.handled = [exitNotice] := by
  have hrun : (exec (fun s label => if ReadsOneNotice s label then sessionNext 0 s label else none)
      (freshSession false) oneNotice).map (fun s => s.handled) = some [exitNotice] := by decide +kernel
  obtain ⟨s, hexec, hhandled⟩ := Option.map_eq_some_iff.mp hrun
  exact ⟨s, (notices_recognised_iff freshSession_closed oneNotice).1.mp (.of_exec_guarded hexec),
    hhandled⟩

/-- The child goes twice through its loop before the server polls the slot. -/
def twoNotices : List SessionLabel :=
  [.child 0, .child 0, .child 0, .child 0, .child 0, .poll 10 allSucceed]

/-- The two notices are no exit, and are broadcast to the other user. -/
theorem notices_broadcast : ClosedInit 0 (freshSession false) ∧
    ∃ s, (sessionSystem 0).Run (freshSession false) twoNotices s ∧
    s.handled = [exitNotice ++ exitNotice] ∧
      ¬ Recognised s ∧ .wrote 1 11 (bytes "ann: \\exit\\exit") ∈ s.server.table.events := by
  have hrun : (exec (sessionNext 0) (freshSession false) twoNotices).map
      (fun s => (s.handled, decide (.wrote 1 11 (bytes "ann: \\exit\\exit") ∈ s.server.table.events))) =
        some ([exitNotice ++ exitNotice], true) := by decide +kernel
  obtain ⟨s, hexec, heq⟩ := Option.map_eq_some_iff.mp hrun
  obtain ⟨hhandled, hwrote⟩ := Prod.mk.inj heq
  refine ⟨freshSession_closed, s, Run.of_exec hexec, hhandled, ?_, of_decide_eq_true hwrote⟩
  rw [Recognised, hhandled]
  decide

end Csci4061.Chat
