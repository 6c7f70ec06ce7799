import Csci4061.Chat.Admission
import Csci4061.Chat.Session

/-!
# What the server reads into its buffers

The loop reads lines of the administrator and messages of the users into one buffer, and names into
another one. A `read` stores bytes and no NUL. What is then used as a string are the bytes which were
read exactly if the byte behind them was cleared before, which depends on the steps since then: most of
them clear the buffer, but an empty line does not, and in the beginning it holds anything.
-/

namespace Csci4061.Chat

open Csci4061.Lib Csci4061.Lib.TransitionSystem

/-- The two buffers have the sizes of their arrays. -/
structure BufferSizes (s : Server) : Prop where
  buf : s.buf.length = maxMsg
  userId : s.userId.length = maxUserId

/-- The buffers have their sizes in the beginning, whatever they hold. -/
theorem bufferSizes_init {s : Server} (h : ServerInit s) : BufferSizes s := by
  obtain ⟨gSfd, -, -, -, -, hbuf, huserId⟩ := h
  exact ⟨hbuf, huserId⟩

/-- A connection stores a name of at most the size of the array. -/
theorem length_getConnection_userId {c : Connection} {s s' : Server} {result : ℤ}
    (huserId : s.userId.length = maxUserId) (h : getConnection c s = some (result, s')) :
    s'.userId.length = maxUserId := by
  rw [getConnection] at h
  obtain ⟨t₁, -, h⟩ := Option.bind_eq_some_iff.mp h
  split at h
  · obtain ⟨-, rfl⟩ := Prod.mk.inj (Option.some.inj h)
    exact huserId
  · obtain ⟨t₂, -, h⟩ := Option.bind_eq_some_iff.mp h
    split at h
    · obtain ⟨-, rfl⟩ := Prod.mk.inj (Option.some.inj h)
      exact huserId
    · obtain ⟨t₃, -, h⟩ := Option.bind_eq_some_iff.mp h
      split at h
      · obtain ⟨-, rfl⟩ := Prod.mk.inj (Option.some.inj h)
        exact huserId
      · rename_i data hdata
        obtain ⟨-, rfl⟩ := Prod.mk.inj (Option.some.inj h)
        have hfits : data.length ≤ s.userId.length := huserId ▸ c.sent_length data hdata
        exact (length_storeBytes hfits).trans huserId

/-- The admission of a user keeps the name which was read. -/
theorem admitUser_userId {idx : Fin maxUser} {c : Connection} {s s' : Server}
    (h : admitUser idx c s = some s') :
    s'.userId = s.userId := by
  obtain ⟨s₁, hpipes, h⟩ := Option.bind_eq_some_iff.mp h
  obtain ⟨s₂, hfork, h⟩ := Option.bind_eq_some_iff.mp h
  obtain ⟨hframe, -⟩ := initializePipes_cases hpipes
  obtain ⟨hforked, -⟩ := forkChild_cases hfork
  obtain ⟨copied, -, -, rfl⟩ := registerUser_cases h
  rw [hforked, hframe]

/-- A new connection keeps the size of the array for names. -/
theorem length_acceptUser_userId {outcome : Option Connection} {s s' : Server}
    (huserId : s.userId.length = maxUserId) (h : acceptUser outcome s = some s') :
    s'.userId.length = maxUserId := by
  unfold acceptUser at h
  split at h
  · exact Option.some.inj h ▸ huserId
  · obtain ⟨⟨result, s₀⟩, hconnection, h⟩ := Option.bind_eq_some_iff.mp h
    have hread := length_getConnection_userId huserId hconnection
    simp only at h
    split at h
    · exact Option.some.inj h ▸ hread
    · split at h
      · exact Option.some.inj h ▸ hread
      · split at h
        · exact Option.some.inj h ▸ hread
        · rw [admitUser_userId h]
          exact hread

/-- Extracting a name keeps the size of the array it is copied into. -/
theorem length_extractName {buf : CString} {userName copied : List UInt8}
    (h : extractName buf userName = some (some copied)) : copied.length = userName.length := by
  obtain ⟨tokens, -, h⟩ := Option.bind_eq_some_iff.mp h
  split at h
  · obtain ⟨copied', hcopied, heq⟩ := Option.map_eq_some_iff.mp h
    obtain rfl := Option.some.inj heq
    exact length_of_strcpy hcopied
  · exact absurd h (by simp)

/-- A line of the administrator keeps the size of the array for names, into which a name to be removed is
copied. -/
theorem length_adminCommand_userId {buf : CString} {outcomes : Fin maxUser → SlotOutcome} {s s' : Server}
    (h : adminCommand buf outcomes s = some s') : s'.userId.length = s.userId.length := by
  obtain ⟨type, -, h⟩ := Option.bind_eq_some_iff.mp h
  cases type with
  | list =>
    obtain ⟨t, -, rfl⟩ := Option.map_eq_some_iff.mp h
    rfl
  | kick =>
    obtain ⟨name, hname, h⟩ := Option.bind_eq_some_iff.mp h
    cases name with
    | none => exact Option.some.inj h ▸ rfl
    | some userId =>
      have hlength : userId.length = s.userId.length := length_extractName hname
      simp only at h
      split at h
      · exact Option.some.inj h ▸ hlength
      · exact Option.some.inj h ▸ hlength
  | exit => exact Option.some.inj h ▸ rfl
  | p2p | seg | broadcast =>
    simp only at h
    split at h
    · exact Option.some.inj h ▸ rfl
    · exact absurd h (by simp)

/-- A line of the administrator which is handled clears the buffer, and an empty one stays in it. -/
theorem pollAdmin_bufferSizes {input : Option Input} {outcomes : Fin maxUser → SlotOutcome}
    {s s' : Server} (h : BufferSizes s) (hpoll : pollAdmin input outcomes s = some s') :
    BufferSizes s' := by
  cases input with
  | none => exact Option.some.inj hpoll ▸ ⟨h.buf, h.userId⟩
  | some data =>
    have hfits : data.val.length ≤ s.buf.length := data.property.trans_eq h.buf.symm
    obtain ⟨line, -, hpoll⟩ := Option.bind_eq_some_iff.mp hpoll
    cases line with
    | none => exact Option.some.inj hpoll ▸ ⟨(length_storeBytes hfits).trans h.buf, h.userId⟩
    | some line =>
      obtain ⟨s₁, hcommand, rfl⟩ := Option.map_eq_some_iff.mp hpoll
      exact ⟨List.length_replicate, (length_adminCommand_userId hcommand).trans h.userId⟩

/-- A message of a user which is handled clears the buffer. -/
theorem pollUser_bufferSizes {i : Fin maxUser} {input : Option Input}
    {outcomes : Fin maxUser → SlotOutcome} {s s' : Server} (h : BufferSizes s)
    (hpoll : pollUser i input outcomes s = some s') : BufferSizes s' := by
  unfold pollUser at hpoll
  split at hpoll
  · cases input with
    | none => exact Option.some.inj hpoll ▸ h
    | some data =>
      obtain ⟨t, -, rfl⟩ := Option.map_eq_some_iff.mp hpoll
      exact ⟨List.length_replicate, h.userId⟩
  · exact Option.some.inj hpoll ▸ h

/-- A new connection keeps the sizes of the buffers. -/
theorem acceptUser_bufferSizes {outcome : Option Connection} {s s' : Server} (h : BufferSizes s)
    (haccept : acceptUser outcome s = some s') : BufferSizes s' := by
  refine ⟨?_, length_acceptUser_userId h.userId haccept⟩
  rcases acceptUser_cases haccept with ⟨-, hframe⟩ | ⟨c, idx, s₁, -, -, -, -, -, -, -, hadmission⟩
  · rw [hframe.eq]
    exact h.buf
  · rw [admitUser_buf hadmission]
    exact List.length_replicate

/-- Every step keeps the sizes of the buffers. -/
theorem serverNext_bufferSizes {s : Server} {label : ServerLabel} {s' : Server} (h : BufferSizes s)
    (hstep : serverNext s label = some s') : BufferSizes s' := by
  cases label with
  | accept outcome =>
    obtain ⟨-, s₁, haccept, rfl⟩ := serverNext_accept hstep
    have hafter : BufferSizes s₁ := acceptUser_bufferSizes h haccept
    exact ⟨hafter.buf, hafter.userId⟩
  | admin input outcomes =>
    exact pollAdmin_bufferSizes h (serverNext_admin hstep).2
  | poll input outcomes =>
    obtain ⟨i, slots, s₁, -, hpoll, rfl⟩ := serverNext_poll hstep
    have hafter : BufferSizes s₁ := pollUser_bufferSizes h hpoll
    exact ⟨hafter.buf, hafter.userId⟩
  | sleep =>
    obtain rfl := serverNext_sleep hstep
    exact ⟨h.buf, h.userId⟩

/-- What a step reads into the buffer, if it reads: a line of the administrator, or a message of the
user in the full slot which is polled. -/
def readInto (s : Server) : ServerLabel → Option (List UInt8)
  | .admin (some data) _ => if s.phase = .admin then some data.val else none
  | .poll (some data) _ =>
    match s.phase with
    | .polling (i :: _) => if s.table.Full i then some data.val else none
    | _ => none
  | _ => none

/-- If nobody connects, the server goes on to read the terminal. -/
theorem exec_accept_none {s : Server} (hphase : s.phase = .top) (hrole : 0 < s.childpid) :
    exec serverNext s [.accept none] = some { s with phase := .admin } := by
  rw [exec, serverRole_accept hphase hrole]
  rfl

/-- No user connects, and the administrator enters a line. -/
def enterLine (line : Input) : List ServerLabel := [.accept none] ++ [.admin (some line) allSucceed]

end Csci4061.Chat
