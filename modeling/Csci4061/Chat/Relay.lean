import Csci4061.Chat.Message
import Csci4061.Lib.Pipe
import Csci4061.Lib.Transition

/-!
# The child which relays between a user and the server

A child reads from its user and writes to the server, and then reads from the server and writes to
its user. Every read and every write is a step of its own, so the other processes may act between
them. At the end of file of its user it writes an exit notice in place of what it read.

The results of its writes are not looked at. `relaySystem` has the user and the server at the ends,
with any writes and reads of theirs, and records what was accepted and read in both directions.
-/

namespace Csci4061.Chat

open Csci4061.Lib

/-- Where a child stands in its loop, with the bytes in its buffer which are to be written next. -/
inductive ChildPhase
  | readUser
  | writeServer (buf : List UInt8)
  | notify
  | readServer
  | writeUser (buf : List UInt8)
  deriving DecidableEq

/-- The four pipes of a user, whether the user has its write end open, and the child. -/
structure Relay where
  childReadingFromUser : Pipe UInt8
  serverReadingFromChild : Pipe UInt8
  serverWritingToChild : Pipe UInt8
  childWritingToUser : Pipe UInt8
  userOpen : Bool
  child : ChildPhase
  deriving DecidableEq

/-- A `read` of at most `MAX_MSG` bytes may take `n` bytes from a pipe. -/
def MayRead (p : Pipe UInt8) (n : ℕ) : Prop := 1 ≤ n ∧ n ≤ maxMsg ∧ n ≤ p.contents.length

instance (p : Pipe UInt8) (n : ℕ) : Decidable (MayRead p n) := inferInstanceAs (Decidable (_ ∧ _ ∧ _))

/-- What a child writes to the server at the end of file of its user. -/
def exitNotice : CString := bytes "\\exit"

/-- One step of a child. A step which reads something takes `n` bytes. -/
def childNext (r : Relay) (n : ℕ) : Option Relay :=
  match r.child with
  | .readUser =>
    if r.childReadingFromUser.contents = [] then
      some { r with child := if r.userOpen then .readServer else .notify }
    else if MayRead r.childReadingFromUser n then
      some { r with
        childReadingFromUser := r.childReadingFromUser.read n
        child := .writeServer (r.childReadingFromUser.contents.take n) }
    else none
  | .writeServer buf =>
    some { r with serverReadingFromChild := r.serverReadingFromChild.tryWrite buf, child := .readServer }
  | .notify =>
    some { r with
      serverReadingFromChild := r.serverReadingFromChild.tryWrite exitNotice
      child := .readServer }
  | .readServer =>
    if r.serverWritingToChild.contents = [] then some { r with child := .readUser }
    else if MayRead r.serverWritingToChild n then
      some { r with
        serverWritingToChild := r.serverWritingToChild.read n
        child := .writeUser (r.serverWritingToChild.contents.take n) }
    else none
  | .writeUser buf =>
    some { r with childWritingToUser := r.childWritingToUser.tryWrite buf, child := .readUser }

/-- The relay, with what was sent and what was read at the far end, in both directions. The exit notices
of the child are counted apart from the bytes of the user. -/
structure Traffic where
  relay : Relay
  sentByUser : List UInt8
  notices : ℕ
  readByServer : List UInt8
  sentToUser : List UInt8
  readByUser : List UInt8
  deriving DecidableEq

/-- The steps of the user, the child and the server. -/
inductive RelayLabel
  | userWrite (data : List UInt8)
  | userClose
  | userRead (n : ℕ)
  | child (n : ℕ)
  | serverRead (n : ℕ)
  | serverWrite (data : List UInt8)

/-- What was sent to the server: the bytes of the user, and the exit notices behind the last one. -/
def Traffic.sentToServer (t : Traffic) : List UInt8 :=
  t.sentByUser ++ (List.replicate t.notices exitNotice).flatten

/-- One exit notice, if the child writes it next and it fits. -/
def Relay.acceptedNotices (r : Relay) : ℕ :=
  if r.child = .notify ∧ r.serverReadingFromChild.Fits exitNotice then 1 else 0

/-- One step. A message of the user or of the server has at most `MAX_MSG + MAX_USER_ID` bytes. -/
def relayNext (t : Traffic) : RelayLabel → Option Traffic
  | .userWrite data =>
    if t.relay.userOpen = true ∧ data.length ≤ maxMsg + maxUserId then
      some { t with
        relay := { t.relay with childReadingFromUser := t.relay.childReadingFromUser.tryWrite data }
        sentByUser := t.sentByUser ++ t.relay.childReadingFromUser.accepted data }
    else none
  | .userClose => some { t with relay := { t.relay with userOpen := false } }
  | .userRead n =>
    if MayRead t.relay.childWritingToUser n then
      some { t with
        relay := { t.relay with childWritingToUser := t.relay.childWritingToUser.read n }
        readByUser := t.readByUser ++ t.relay.childWritingToUser.contents.take n }
    else none
  | .child n => (childNext t.relay n).map fun relay =>
      { t with relay := relay, notices := t.notices + t.relay.acceptedNotices }
  | .serverRead n =>
    if MayRead t.relay.serverReadingFromChild n then
      some { t with
        relay := { t.relay with serverReadingFromChild := t.relay.serverReadingFromChild.read n }
        readByServer := t.readByServer ++ t.relay.serverReadingFromChild.contents.take n }
    else none
  | .serverWrite data =>
    if data.length ≤ maxMsg + maxUserId then
      some { t with
        relay := { t.relay with serverWritingToChild := t.relay.serverWritingToChild.tryWrite data }
        sentToUser := t.sentToUser ++ t.relay.serverWritingToChild.accepted data }
    else none

/-- Empty pipes of any capacities, and nothing sent. -/
def RelayInit (t : Traffic) : Prop :=
  (∀ p ∈ [t.relay.childReadingFromUser, t.relay.serverReadingFromChild, t.relay.serverWritingToChild,
    t.relay.childWritingToUser], p.writes = []) ∧ t.relay.userOpen = true ∧ t.relay.child = .readUser ∧
  t.sentByUser = [] ∧ t.notices = 0 ∧ t.readByServer = [] ∧ t.sentToUser = [] ∧ t.readByUser = []

/-- A user, its child and the server, in any order of their steps. -/
def relaySystem : TransitionSystem Traffic RelayLabel := .ofNext RelayInit relayNext

/-- The bytes in the buffer of a child which are to be written to the server. -/
def ChildPhase.heldForServer : ChildPhase → List UInt8
  | .writeServer buf => buf
  | _ => []

/-- The bytes in the buffer of a child which are to be written to its user. -/
def ChildPhase.heldForUser : ChildPhase → List UInt8
  | .writeUser buf => buf
  | _ => []

/-- The steps of a child, by what it does: it reads, it writes what it read, it writes a notice, or it
finds nothing to read. -/
inductive ChildStep (r : Relay) (n : ℕ) : Relay → Prop
  | noUserData : r.child = .readUser → r.childReadingFromUser.contents = [] →
      ChildStep r n { r with child := if r.userOpen then .readServer else .notify }
  | readUser : r.child = .readUser → MayRead r.childReadingFromUser n →
      ChildStep r n { r with
        childReadingFromUser := r.childReadingFromUser.read n
        child := .writeServer (r.childReadingFromUser.contents.take n) }
  | writeServer (buf : List UInt8) : r.child = .writeServer buf →
      ChildStep r n { r with
        serverReadingFromChild := r.serverReadingFromChild.tryWrite buf
        child := .readServer }
  | notify : r.child = .notify →
      ChildStep r n { r with
        serverReadingFromChild := r.serverReadingFromChild.tryWrite exitNotice
        child := .readServer }
  | noServerData : r.child = .readServer → ChildStep r n { r with child := .readUser }
  | readServer : r.child = .readServer → MayRead r.serverWritingToChild n →
      ChildStep r n { r with
        serverWritingToChild := r.serverWritingToChild.read n
        child := .writeUser (r.serverWritingToChild.contents.take n) }
  | writeUser (buf : List UInt8) : r.child = .writeUser buf →
      ChildStep r n { r with
        childWritingToUser := r.childWritingToUser.tryWrite buf
        child := .readUser }

/-- Every step of a child is one of these. -/
theorem childNext_step {r r' : Relay} {n : ℕ} (h : childNext r n = some r') : ChildStep r n r' := by
  unfold childNext at h
  split at h
  · rename_i hchild
    split at h
    · rename_i hempty
      obtain rfl := Option.some.inj h
      exact .noUserData hchild hempty
    · split at h
      · rename_i hread
        obtain rfl := Option.some.inj h
        exact .readUser hchild hread
      · exact absurd h (by simp)
  · rename_i buf hchild
    obtain rfl := Option.some.inj h
    exact .writeServer buf hchild
  · rename_i hchild
    obtain rfl := Option.some.inj h
    exact .notify hchild
  · rename_i hchild
    split at h
    · obtain rfl := Option.some.inj h
      exact .noServerData hchild
    · split at h
      · rename_i hread
        obtain rfl := Option.some.inj h
        exact .readServer hchild hread
      · exact absurd h (by simp)
  · rename_i buf hchild
    obtain rfl := Option.some.inj h
    exact .writeUser buf hchild

/-- A child does not open or close the end of its user. -/
theorem childNext_userOpen {r r' : Relay} {n : ℕ} (h : childNext r n = some r') :
    r'.userOpen = r.userOpen := by
  cases childNext_step h <;> rfl

/-- A child does not read from an empty pipe. -/
theorem childNext_of_empty {r r' : Relay} {n : ℕ} (hempty : r.childReadingFromUser.contents = [])
    (h : childNext r n = some r') : r'.childReadingFromUser.contents = [] := by
  cases childNext_step h with
  | readUser _ hread =>
    have hcount := hread.1.trans hread.2.2
    rw [hempty] at hcount
    exact absurd hcount (by decide)
  | noUserData | writeServer | notify | noServerData | readServer | writeUser => exact hempty

/-- Notices stand behind what was sent before. -/
theorem Traffic.sentToServer_child (t : Traffic) (r : Relay) (m : ℕ) :
    Traffic.sentToServer { t with relay := r, notices := t.notices + m } =
      t.sentToServer ++ (List.replicate m exitNotice).flatten := by
  rw [sentToServer, sentToServer, List.replicate_add, List.flatten_append, List.append_assoc]

/-- A child which is not about to write a notice writes none. -/
theorem Relay.acceptedNotices_of_ne {r : Relay} (h : r.child ≠ .notify) : r.acceptedNotices = 0 :=
  if_neg fun hnotice => h hnotice.1

/-- The notice which a child writes is accepted or not. -/
theorem Relay.acceptedNotices_notify {r : Relay} (h : r.child = .notify) :
    (List.replicate r.acceptedNotices exitNotice).flatten =
    r.serverReadingFromChild.accepted exitNotice := by
  rw [acceptedNotices, Pipe.accepted]
  by_cases hfits : r.serverReadingFromChild.Fits exitNotice
  · rw [if_pos ⟨h, hfits⟩, if_pos hfits, List.replicate_one, List.flatten_singleton]
  · rw [if_neg fun hnotice => hfits hnotice.2, if_neg hfits, List.replicate_zero, List.flatten_nil]

/-- No byte is lost between the ends: what was sent was read, or is in a pipe or in the buffer of the
child, in this order. -/
structure Conserved (t : Traffic) : Prop where
  toServer : t.sentToServer = t.readByServer ++ t.relay.serverReadingFromChild.contents ++
    t.relay.child.heldForServer ++ t.relay.childReadingFromUser.contents
  toUser : t.sentToUser = t.readByUser ++ t.relay.childWritingToUser.contents ++
    t.relay.child.heldForUser ++ t.relay.serverWritingToChild.contents

/-- At both ends a part of what was sent was read, from the beginning. -/
theorem Conserved.reads {t : Traffic} (h : Conserved t) :
    t.readByServer <+: t.sentToServer ∧ t.readByUser <+: t.sentToUser := by
  rw [h.toServer, h.toUser, List.append_assoc, List.append_assoc, List.append_assoc, List.append_assoc]
  exact ⟨List.prefix_append _ _, List.prefix_append _ _⟩

/-- A child writes only what it read, and it writes a notice only behind the last byte of its user. -/
structure RelayInv (t : Traffic) : Prop where
  heldForServer : ∀ buf, t.relay.child = .writeServer buf → buf ≠ []
  heldForUser : ∀ buf, t.relay.child = .writeUser buf → buf ≠ []
  notify : t.relay.child = .notify → t.relay.userOpen = false ∧
    t.relay.childReadingFromUser.contents = []
  notices : t.notices ≠ 0 → t.relay.userOpen = false ∧ t.relay.childReadingFromUser.contents = []

/-- If the child writes next what it read, there is room for it. -/
def Relay.HeldFits (r : Relay) : Prop :=
  match r.child with
  | .writeServer buf => r.serverReadingFromChild.Fits buf
  | .writeUser buf => r.childWritingToUser.Fits buf
  | _ => True

instance (r : Relay) : Decidable r.HeldFits :=
  match h : r.child with
  | .writeServer buf => decidable_of_iff (r.serverReadingFromChild.Fits buf) (by rw [Relay.HeldFits, h])
  | .writeUser buf => decidable_of_iff (r.childWritingToUser.Fits buf) (by rw [Relay.HeldFits, h])
  | .readUser => isTrue (by rw [Relay.HeldFits, h]; trivial)
  | .notify => isTrue (by rw [Relay.HeldFits, h]; trivial)
  | .readServer => isTrue (by rw [Relay.HeldFits, h]; trivial)

/-- If the step is a write of what the child read, there is room for it. -/
def RelayedFits (t : Traffic) : RelayLabel → Prop
  | .child _ => t.relay.HeldFits
  | _ => True

instance (t : Traffic) : (label : RelayLabel) → Decidable (RelayedFits t label)
  | .child _ => inferInstanceAs (Decidable t.relay.HeldFits)
  | .userWrite _ => isTrue trivial
  | .userClose => isTrue trivial
  | .userRead _ => isTrue trivial
  | .serverRead _ => isTrue trivial
  | .serverWrite _ => isTrue trivial

/-- What may be read from a pipe is not empty. -/
theorem MayRead.take_ne_nil {p : Pipe UInt8} {n : ℕ} (h : MayRead p n) : p.contents.take n ≠ [] := by
  rw [← List.length_pos_iff, List.length_take]
  have hpos := h.1
  have hle := h.2.2
  omega

/-- Only a child whose user has closed its end, and which has read everything, writes a notice. -/
theorem RelayInv.notices_child {t : Traffic} (h : RelayInv t) {relay : Relay} {n : ℕ}
    (hchild : childNext t.relay n = some relay) (hnotices : t.notices + t.relay.acceptedNotices ≠ 0) :
    relay.userOpen = false ∧ relay.childReadingFromUser.contents = [] := by
  have hdone : t.relay.userOpen = false ∧ t.relay.childReadingFromUser.contents = [] := by
    by_cases hnotify : t.relay.child = .notify
    · exact h.notify hnotify
    · rw [Relay.acceptedNotices_of_ne hnotify, Nat.add_zero] at hnotices
      exact h.notices hnotices
  exact ⟨(childNext_userOpen hchild).trans hdone.1, childNext_of_empty hdone.2 hchild⟩

/-- The invariant holds after every step of the child. -/
theorem relayInv_of_childStep {t t' : Traffic} {n : ℕ} (hstep : ChildStep t.relay n t'.relay)
    (hnotices : t'.notices ≠ 0 → t'.relay.userOpen = false ∧
      t'.relay.childReadingFromUser.contents = []) :
    RelayInv t' := by
  generalize hr : t'.relay = r at hstep
  cases hstep with
  | noUserData _ hempty =>
    cases hopen : t.relay.userOpen with
    | true => exact ⟨by simp [hr, hopen], by simp [hr, hopen], by simp [hr, hopen], hnotices⟩
    | false => exact ⟨by simp [hr, hopen], by simp [hr, hopen], by simp [hr, hempty, hopen], hnotices⟩
  | readUser _ hread =>
    refine ⟨fun buf heq => ?_, by simp [hr], by simp [hr], hnotices⟩
    rw [hr] at heq
    exact ChildPhase.writeServer.inj heq ▸ hread.take_ne_nil
  | readServer _ hread =>
    refine ⟨by simp [hr], fun buf heq => ?_, by simp [hr], hnotices⟩
    rw [hr] at heq
    exact ChildPhase.writeUser.inj heq ▸ hread.take_ne_nil
  | writeServer | notify | noServerData | writeUser =>
    exact ⟨by simp [hr], by simp [hr], by simp [hr], hnotices⟩

/-- Every step keeps the invariant. -/
theorem relayInv_step {t t' : Traffic} {label : RelayLabel} (h : RelayInv t)
    (hstep : relayNext t label = some t') :
    RelayInv t' := by
  cases label with
  | userWrite data =>
    simp only [relayNext] at hstep
    split at hstep
    · rename_i hwrite
      obtain rfl := Option.some.inj hstep
      have hopen : t.relay.userOpen ≠ false := by simp [hwrite.1]
      exact ⟨h.heldForServer, h.heldForUser, fun hchild => absurd (h.notify hchild).1 hopen,
        fun hnotices => absurd (h.notices hnotices).1 hopen⟩
    · exact absurd hstep (by simp)
  | userClose =>
    obtain rfl := Option.some.inj hstep
    exact ⟨h.heldForServer, h.heldForUser, fun hchild => ⟨rfl, (h.notify hchild).2⟩,
      fun hnotices => ⟨rfl, (h.notices hnotices).2⟩⟩
  | child n =>
    obtain ⟨relay, hchild, rfl⟩ := Option.map_eq_some_iff.mp hstep
    exact relayInv_of_childStep (childNext_step hchild) (h.notices_child hchild)
  | userRead n | serverRead n | serverWrite data =>
    simp only [relayNext] at hstep
    split at hstep
    · obtain rfl := Option.some.inj hstep
      exact ⟨h.heldForServer, h.heldForUser, h.notify, h.notices⟩
    · exact absurd hstep (by simp)

/-- A step of the child loses no byte exactly if what it relays fits. -/
theorem conserved_child_iff {t t' : Traffic} {n : ℕ} (hinv : RelayInv t) (h : Conserved t)
    (hstep : relayNext t (.child n) = some t') : Conserved t' ↔ RelayedFits t (.child n) := by
  obtain ⟨relay, hchild, rfl⟩ := Option.map_eq_some_iff.mp hstep
  obtain ⟨hserver, huser⟩ := h
  have hsent := t.sentToServer_child relay t.relay.acceptedNotices
  have hnone (hphase : t.relay.child ≠ .notify) : Traffic.sentToServer
      { t with relay := relay, notices := t.notices + t.relay.acceptedNotices } = t.sentToServer := by
    rw [hsent, Relay.acceptedNotices_of_ne hphase, List.replicate_zero, List.flatten_nil,
      List.append_nil]
  rw [RelayedFits, Relay.HeldFits]
  cases childNext_step hchild with
  | noUserData hphase _ =>
    have hbefore : ChildPhase.readUser.heldForServer = [] ∧ ChildPhase.readUser.heldForUser = [] :=
      ⟨rfl, rfl⟩
    have hafter : (if t.relay.userOpen = true then ChildPhase.readServer else .notify).heldForServer =
        [] ∧ (if t.relay.userOpen = true then ChildPhase.readServer else .notify).heldForUser = [] := by
      split <;> exact ⟨rfl, rfl⟩
    exact iff_of_true ⟨by simp [hnone, hserver, hphase, hbefore, hafter], by
      simp [huser, hphase, hbefore, hafter]⟩
      (by simp [hphase])
  | readUser hphase _ =>
    refine iff_of_true ⟨?_, ?_⟩ (by simp [hphase])
    · simp [hnone, hserver, hphase, ChildPhase.heldForServer]
    · simp [huser, hphase, ChildPhase.heldForUser]
  | writeServer buf hphase =>
    have hfits : t.relay.serverReadingFromChild.accepted buf = buf ↔
        t.relay.serverReadingFromChild.Fits buf :=
      Pipe.accepted_eq_self_iff (hinv.heldForServer buf hphase)
    simp only [hphase, ← hfits]
    constructor
    · rintro ⟨hafter, -⟩
      have hsame : buf = t.relay.serverReadingFromChild.accepted buf := by
        simpa [hnone, hserver, hphase, ChildPhase.heldForServer] using hafter
      exact hsame.symm
    · intro hroom
      constructor
      · simp [hnone, hserver, hphase, ChildPhase.heldForServer, hroom]
      · simp [huser, hphase, ChildPhase.heldForUser]
  | notify hphase =>
    have hempty := (hinv.notify hphase).2
    rw [Relay.acceptedNotices_notify hphase] at hsent
    refine iff_of_true ⟨?_, ?_⟩ (by simp [hphase])
    · simp [hsent, hserver, hphase, hempty, ChildPhase.heldForServer]
    · simp [huser, hphase, ChildPhase.heldForUser]
  | noServerData hphase =>
    refine iff_of_true ⟨?_, ?_⟩ (by simp [hphase])
    · simp [hnone, hserver, hphase, ChildPhase.heldForServer]
    · simp [huser, hphase, ChildPhase.heldForUser]
  | readServer hphase _ =>
    refine iff_of_true ⟨?_, ?_⟩ (by simp [hphase])
    · simp [hnone, hserver, hphase, ChildPhase.heldForServer]
    · simp [huser, hphase, ChildPhase.heldForUser]
  | writeUser buf hphase =>
    have hfits : t.relay.childWritingToUser.accepted buf = buf ↔ t.relay.childWritingToUser.Fits buf :=
      Pipe.accepted_eq_self_iff (hinv.heldForUser buf hphase)
    simp only [hphase, ← hfits]
    constructor
    · rintro ⟨-, hafter⟩
      have hsame : buf = t.relay.childWritingToUser.accepted buf := by
        simpa [huser, hphase, ChildPhase.heldForUser] using hafter
      exact hsame.symm
    · intro hroom
      constructor
      · simp [hnone, hserver, hphase, ChildPhase.heldForServer]
      · simp [huser, hphase, ChildPhase.heldForUser, hroom]

/-- A step loses no byte exactly if what the child relays in it fits. -/
theorem conserved_step_iff {t t' : Traffic} {label : RelayLabel} (hinv : RelayInv t) (h : Conserved t)
    (hstep : relayNext t label = some t') : Conserved t' ↔ RelayedFits t label := by
  cases label with
  | child n => exact conserved_child_iff hinv h hstep
  | userClose =>
    obtain rfl := Option.some.inj hstep
    exact iff_of_true ⟨h.toServer, h.toUser⟩ trivial
  | userWrite data =>
    simp only [relayNext] at hstep
    split at hstep
    · rename_i hwrite
      obtain rfl := Option.some.inj hstep
      -- A user whose end is open was not yet taken leave of.
      have hnotices : t.notices = 0 := by
        by_contra hne
        exact absurd (hwrite.1.symm.trans (hinv.notices hne).1) (by decide)
      have hserver := h.toServer
      rw [Traffic.sentToServer, hnotices, List.replicate_zero, List.flatten_nil,
        List.append_nil] at hserver
      exact iff_of_true ⟨by simp [Traffic.sentToServer, hnotices, hserver], by simp [h.toUser]⟩ trivial
    · exact absurd hstep (by simp)
  | userRead n | serverRead n | serverWrite data =>
    simp only [relayNext] at hstep
    split at hstep
    · obtain rfl := Option.some.inj hstep
      have hserver := h.toServer
      rw [Traffic.sentToServer] at hserver
      exact iff_of_true ⟨by simp [Traffic.sentToServer, hserver], by simp [h.toUser]⟩ trivial
    · exact absurd hstep (by simp)

/-- In the beginning nothing was sent and the child holds nothing. -/
theorem relay_init {t : Traffic} (h : RelayInit t) : RelayInv t ∧ Conserved t := by
  obtain ⟨hpipes, -, hchild, hsent, hnotices, hread, hsent', hread'⟩ := h
  simp only [List.mem_cons, List.not_mem_nil, or_false, forall_eq_or_imp, forall_eq] at hpipes
  obtain ⟨hpipe₁, hpipe₂, hpipe₃, hpipe₄⟩ := hpipes
  refine ⟨⟨by simp [hchild], by simp [hchild], by simp [hchild], fun hne => absurd hnotices hne⟩,
    ⟨?_, ?_⟩⟩
  · simp [Traffic.sentToServer, hsent, hnotices, hread, hchild, ChildPhase.heldForServer, Pipe.contents,
      hpipe₁, hpipe₂]
  · simp [hsent', hread', hchild, ChildPhase.heldForUser, Pipe.contents, hpipe₃, hpipe₄]

/-- The runs in which everything which the child relays fits are the runs in which no byte is lost; and
in these, what is read at each end is a first part of what was sent to it. -/
theorem relay_conserved_iff {t₀ t : Traffic} (hinit : RelayInit t₀) (labels : List RelayLabel) :
    ((relaySystem.restrict RelayedFits).Run t₀ labels t ↔
      (relaySystem.keeping Conserved).Run t₀ labels t) ∧
      ((relaySystem.restrict RelayedFits).Run t₀ labels t →
        t.readByServer <+: t.sentToServer ∧ t.readByUser <+: t.sentToUser) := by
  obtain ⟨hinv, hconserved⟩ := relay_init hinit
  have hiff : (relaySystem.restrict RelayedFits).Run t₀ labels t ↔
      (relaySystem.keeping Conserved).Run t₀ labels t :=
    @TransitionSystem.restrict_run_iff_keeping _ _ relaySystem _ Conserved RelayInv
      (fun _ _ _ h hstep => relayInv_step h hstep)
      (fun _ _ _ hinv h hstep => conserved_step_iff hinv h hstep) t₀ t labels hinv hconserved
  exact ⟨hiff, fun hrun => ((hiff.mp hrun).of_keeping hconserved).reads⟩

/-- Four empty pipes of one capacity, and nothing sent. -/
def freshTraffic (capacity : ℕ) : Traffic :=
  ⟨⟨⟨some capacity, []⟩, ⟨some capacity, []⟩, ⟨some capacity, []⟩, ⟨some capacity, []⟩, true,
    .readUser⟩, [], 0, [], [], []⟩

/-- A user sends `data`, and the child goes once through its loop. -/
def sendAndRelay (data : List UInt8) : List RelayLabel :=
  [.userWrite data, .child data.length, .child 0, .child 0]

/-- A fresh relay is in an initial state. -/
theorem freshTraffic_init (capacity : ℕ) : RelayInit (freshTraffic capacity) := by
  simp [RelayInit, freshTraffic]

/-- A message which fits is relayed, read, and not lost. -/
theorem relay_conserved_hello : ∃ t, (relaySystem.keeping Conserved).Run (freshTraffic 512)
    (sendAndRelay (bytes "hello") ++ [.serverRead 5]) t ∧ t.readByServer = bytes "hello" := by
  have hrun : (TransitionSystem.exec
      (fun t label => if RelayedFits t label then relayNext t label else none)
      (freshTraffic 512) (sendAndRelay (bytes "hello") ++ [.serverRead 5])).map
        (fun t => t.readByServer) = some (bytes "hello") := by decide +kernel
  obtain ⟨t, hexec, hread⟩ := Option.map_eq_some_iff.mp hrun
  exact ⟨t, (relay_conserved_iff (freshTraffic_init 512) _).1.mp (.of_exec_guarded hexec), hread⟩

/-- Four messages of 255 bytes, of which the server reads two before the fourth is sent. -/
def fourMessages : List RelayLabel :=
  sendAndRelay (List.replicate 255 1) ++ sendAndRelay (List.replicate 255 2) ++ sendAndRelay
    (List.replicate 255 3) ++
    [.serverRead 255, .serverRead 255] ++ sendAndRelay (List.replicate 255 4) ++ [.serverRead 255]

/-- With pipes of 512 bytes, the child reads the third message and loses it. -/
theorem relay_loses_message :
    RelayInit (freshTraffic 512) ∧ ∃ t, relaySystem.Run (freshTraffic 512) fourMessages t ∧
    ¬ t.readByServer <+: t.sentToServer := by
  have hrun : (TransitionSystem.exec relayNext (freshTraffic 512) fourMessages).map
      (fun t => t.readByServer.isPrefixOf t.sentToServer) = some false := by decide +kernel
  obtain ⟨t, hexec, hlost⟩ := Option.map_eq_some_iff.mp hrun
  exact ⟨freshTraffic_init 512, t, .of_exec hexec, by rw [← List.isPrefixOf_iff_prefix, hlost]; decide⟩

end Csci4061.Chat
