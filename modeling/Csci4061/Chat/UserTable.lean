import Csci4061.Chat.Message
import Mathlib.Data.Finset.Erase
import Mathlib.Data.Finset.Insert
import Mathlib.Data.List.FinRange
import Mathlib.Logic.Function.Basic

/-!
# The user table of the chat server

A slot of the table holds the child process of a user, its name and two descriptors. Beside the
table stands what the system keeps for the server, its open descriptors and its children which
were not waited for, and a record of what the server did for which slot.

A name is the memory it is stored in. What the calls made for a slot report is an input of the
functions, so that every outcome is covered.
-/

namespace Csci4061.Chat

open Csci4061.Lib

/-- The values of `slot_status`. -/
inductive SlotStatus
  | full
  | empty
  deriving DecidableEq

/-- `MAX_USER`. -/
abbrev maxUser : ℕ := 10

/-- A slot of the table (`USER`), with the `MAX_USER_ID` bytes of its name. -/
structure User where
  pid : ℤ
  userId : List UInt8
  fdToUser : ℤ
  fdToServer : ℤ
  status : SlotStatus
  deriving DecidableEq

/-- The name in a slot. -/
def User.name (user : User) : CString := cString user.userId

/-- What the server does for a slot: it forks a child for it, sends a signal to its process, writes
to its descriptor, or handles a message read from it. -/
inductive Event
  | forked (slot : Fin maxUser) (pid : ℤ)
  | killed (slot : Fin maxUser) (pid : ℤ)
  | wrote (slot : Fin maxUser) (fd : ℤ) (data : List UInt8)
  | handled (slot : Fin maxUser) (message : CString)
  deriving DecidableEq

/-- The table, the open descriptors, the children which were not waited for, and the events. -/
structure Table where
  users : Fin maxUser → User
  openFds : Finset ℤ
  children : Finset ℤ
  events : List Event

/-- Assign to a slot. -/
def Table.setUser (t : Table) (i : Fin maxUser) (user : User) : Table :=
  { t with users := Function.update t.users i user }

/-- A `close` which succeeds. -/
def Table.closeFd (t : Table) (fd : ℤ) : Table := { t with openFds := t.openFds.erase fd }

/-- Add an event. -/
def Table.record (t : Table) (event : Event) : Table := { t with events := t.events ++ [event] }

/-- The slot is full. -/
def Table.Full (t : Table) (i : Fin maxUser) : Prop := (t.users i).status = .full

instance (t : Table) (i : Fin maxUser) : Decidable (t.Full i) := inferInstanceAs (Decidable (_ = _))

/-- What the calls made for one slot report: whether each `close` and the `write` succeed, and which
child a wait for any child finds. -/
structure SlotOutcome where
  closeToUser : Bool
  closeToServer : Bool
  write : Bool
  anyChild : ℤ

/-- A slot after `init_user_list`. -/
def emptyUser : User := ⟨-1, List.replicate maxUserId 0, -1, -1, .empty⟩

/-- `init_user_list`. -/
def initUserList : Fin maxUser → User := fun _ => emptyUser

/-- `find_empty_slot`. -/
def findEmptySlot (users : Fin maxUser → User) : Option (Fin maxUser) :=
  (List.finRange maxUser).find? fun i => (users i).status = .empty

/-- `find_user_index`. -/
def findUserIndex (users : Fin maxUser → User) (userId : CString) : Option (Fin maxUser) :=
  (List.finRange maxUser).find? fun i => (users i).status ≠ .empty ∧ (users i).name = userId

/-- `add_user`, where `stack` is what the name of the local structure holds before the copy. -/
def addUser (idx : Fin maxUser) (pid : ℤ) (userId : CString) (pipeToChild pipeToParent : ℤ)
    (stack : List UInt8) (t : Table) : Option Table :=
  (strcpy stack userId).map fun copied => t.setUser idx ⟨pid, copied, pipeToChild, pipeToParent, .full⟩

/-- `kill_user`: after the signal the process is waited for; `-1` waits for any child. -/
def killUser (idx : Fin maxUser) (outcome : SlotOutcome) (t : Table) : Table :=
  let pid := (t.users idx).pid
  let t := t.record (.killed idx pid)
  { t with children := t.children.erase (if pid = -1 then outcome.anyChild else pid) }

/-- `cleanup_user`, which returns at the first `close` that fails. -/
def cleanupUser (idx : Fin maxUser) (outcome : SlotOutcome) (t : Table) : Table :=
  let user := { t.users idx with pid := -1, userId := List.replicate maxUserId 0 }
  if outcome.closeToUser = false then t.setUser idx user
  else
    let t := t.closeFd user.fdToUser
    let user := { user with fdToUser := -1 }
    if outcome.closeToServer = false then t.setUser idx user
    else (t.closeFd user.fdToServer).setUser idx { user with fdToServer := -1, status := .empty }

/-- `kick_user`. -/
def kickUser (idx : Fin maxUser) (outcome : SlotOutcome) (t : Table) : Table :=
  cleanupUser idx outcome (killUser idx outcome t)

/-- The loop of `cleanup_users`. -/
def cleanupLoop (outcomes : Fin maxUser → SlotOutcome) : List (Fin maxUser) → Table → Table
  | [], t => t
  | i :: slots, t => cleanupLoop outcomes slots (if t.Full i then kickUser i (outcomes i) t else t)

/-- `cleanup_users`. -/
def cleanupUsers (outcomes : Fin maxUser → SlotOutcome) (t : Table) : Table :=
  cleanupLoop outcomes (List.finRange maxUser) t

/-- Assigning to a slot changes that slot only. -/
@[simp] theorem Table.setUser_users (t : Table) (i : Fin maxUser) (user : User) :
    (t.setUser i user).users = Function.update t.users i user := rfl

/-- Assigning to a slot opens and closes nothing. -/
@[simp] theorem Table.setUser_openFds (t : Table) (i : Fin maxUser) (user : User) :
    (t.setUser i user).openFds = t.openFds := rfl

/-- Assigning to a slot keeps the children. -/
@[simp] theorem Table.setUser_children (t : Table) (i : Fin maxUser) (user : User) :
    (t.setUser i user).children = t.children := rfl

/-- Assigning to a slot is no event. -/
@[simp] theorem Table.setUser_events (t : Table) (i : Fin maxUser) (user : User) :
    (t.setUser i user).events = t.events := rfl

/-- An event keeps the slots. -/
@[simp] theorem Table.record_users (t : Table) (event : Event) : (t.record event).users = t.users := rfl

/-- An event is added at the end. -/
@[simp] theorem Table.record_events (t : Table) (event : Event) :
    (t.record event).events = t.events ++ [event] := rfl

/-- The slot found is empty. -/
theorem findEmptySlot_eq_some {users : Fin maxUser → User} {i : Fin maxUser}
    (h : findEmptySlot users = some i) :
    (users i).status = .empty := by
  simpa using List.find?_some h

/-- The slot found is full and has the name. -/
theorem findUserIndex_eq_some {users : Fin maxUser → User} {userId : CString} {i : Fin maxUser}
    (h : findUserIndex users userId = some i) : (users i).status = .full ∧ (users i).name = userId := by
  have hfound : (users i).status ≠ .empty ∧ (users i).name = userId := by simpa using List.find?_some h
  refine ⟨?_, hfound.2⟩
  cases hstatus : (users i).status with
  | full => rfl
  | empty => exact absurd hstatus hfound.1

/-- A name which is not found is in no full slot. -/
theorem findUserIndex_eq_none {users : Fin maxUser → User} {userId : CString}
    (h : findUserIndex users userId = none) {i : Fin maxUser} (hfull : (users i).status = .full) :
    (users i).name ≠ userId := by
  have hnone := List.find?_eq_none.mp h i (List.mem_finRange i)
  simpa [hfull] using hnone

/-- The names of different full slots differ. -/
def NamesDistinct (users : Fin maxUser → User) : Prop :=
  ∀ i j, (users i).status = .full → (users j).status = .full → (users i).name = (users j).name → i = j

instance (users : Fin maxUser → User) : Decidable (NamesDistinct users) :=
  inferInstanceAs (Decidable (∀ _ _, _ → _ → _ → _))

/-- With distinct names, the slot found is the full one of that name. -/
theorem findUserIndex_iff {users : Fin maxUser → User} (hnames : NamesDistinct users) {userId : CString}
    {i : Fin maxUser} :
    findUserIndex users userId = some i ↔ (users i).status = .full ∧ (users i).name = userId := by
  constructor
  · exact findUserIndex_eq_some
  · rintro ⟨hfull, hname⟩
    cases hfind : findUserIndex users userId with
    | none => exact absurd hname (findUserIndex_eq_none hfind hfull)
    | some j =>
      obtain ⟨hfull', hname'⟩ := findUserIndex_eq_some hfind
      rw [hnames i j hfull hfull' (hname.trans hname'.symm)]

/-- Removing a user is a signal to its process and nothing else that is recorded. -/
@[simp] theorem kickUser_events (idx : Fin maxUser) (outcome : SlotOutcome) (t : Table) :
    (kickUser idx outcome t).events = t.events ++ [.killed idx (t.users idx).pid] := by
  unfold kickUser cleanupUser
  split
  · rfl
  · simp only
    split <;> rfl

/-- Removing a user keeps the other slots. -/
theorem kickUser_users_of_ne {idx j : Fin maxUser} (h : j ≠ idx) (outcome : SlotOutcome) (t : Table) :
    (kickUser idx outcome t).users j = t.users j := by
  unfold kickUser cleanupUser
  split
  · exact Function.update_of_ne h _ _
  · simp only
    split <;> exact Function.update_of_ne h _ _

/-- The cleanup loop keeps the slots which it does not go over. -/
theorem cleanupLoop_users_of_not_mem (outcomes : Fin maxUser → SlotOutcome) {slots : List (Fin maxUser)}
    {j : Fin maxUser} (h : j ∉ slots) (t : Table) :
    (cleanupLoop outcomes slots t).users j = t.users j := by
  induction slots generalizing t with
  | nil => rfl
  | cons i slots ih =>
    rw [cleanupLoop, ih (List.not_mem_of_not_mem_cons h)]
    split
    · exact kickUser_users_of_ne (List.ne_of_not_mem_cons h) (outcomes i) t
    · rfl

/-- Removing a user waits for its process. -/
theorem kickUser_children {idx : Fin maxUser} {outcome : SlotOutcome} {t : Table}
    (h : (t.users idx).pid ≠ -1) :
    (kickUser idx outcome t).children = t.children.erase (t.users idx).pid := by
  have hkill : (killUser idx outcome t).children = t.children.erase (t.users idx).pid := by
    simp only [killUser, if_neg h]
    rfl
  rw [← hkill]
  unfold kickUser cleanupUser
  split
  · rfl
  · simp only
    split <;> rfl

/-- Both descriptors of a slot are closed. -/
def SlotOutcome.Closes (outcome : SlotOutcome) : Prop :=
  outcome.closeToUser = true ∧ outcome.closeToServer = true

instance (outcome : SlotOutcome) : Decidable outcome.Closes := inferInstanceAs (Decidable (_ ∧ _))

/-- If both descriptors are closed, the slot is as it was in the beginning. -/
theorem kickUser_of_closes {idx : Fin maxUser} {outcome : SlotOutcome} {t : Table} (h : outcome.Closes) :
    (kickUser idx outcome t).users idx = emptyUser ∧
      (kickUser idx outcome t).openFds = (t.openFds.erase (t.users idx).fdToUser).erase
        (t.users idx).fdToServer := by
  unfold kickUser cleanupUser
  rw [if_neg (by simp [h.1])]
  simp only
  rw [if_neg (by simp [h.2])]
  exact ⟨Function.update_self _ _ _, rfl⟩

/-- If one of them is not closed, the slot stays in use, without a process. -/
theorem kickUser_of_not_closes {idx : Fin maxUser} {outcome : SlotOutcome} {t : Table}
    (h : ¬ outcome.Closes) :
    ((kickUser idx outcome t).users idx).pid = -1 ∧
      ((kickUser idx outcome t).users idx).status = (t.users idx).status := by
  unfold kickUser cleanupUser
  split
  · simp [killUser]
  · rename_i hfirst
    simp only
    split
    · simp [killUser, Table.closeFd]
    · rename_i hsecond
      exact absurd ⟨by simpa using hfirst, by simpa using hsecond⟩ h

/-- Removing a user fills no slot. -/
theorem full_of_kickUser {idx j : Fin maxUser} {outcome : SlotOutcome} {t : Table}
    (h : (kickUser idx outcome t).Full j) : t.Full j := by
  by_cases hj : j = idx
  · subst hj
    by_cases hcloses : outcome.Closes
    · rw [Table.Full, (kickUser_of_closes hcloses).1] at h
      exact absurd h (by decide)
    · rw [Table.Full, (kickUser_of_not_closes hcloses).2] at h
      exact h
  · rw [Table.Full, kickUser_users_of_ne hj] at h
    exact h

/-- If both descriptors are closed, the other slots are full as before. -/
theorem full_kickUser_iff {idx j : Fin maxUser} {outcome : SlotOutcome} {t : Table}
    (h : outcome.Closes) :
    (kickUser idx outcome t).Full j ↔ j ≠ idx ∧ t.Full j := by
  by_cases hj : j = idx
  · subst hj
    rw [Table.Full, (kickUser_of_closes h).1]
    simp [emptyUser]
  · rw [Table.Full, kickUser_users_of_ne hj]
    simp [hj, Table.Full]

/-- The cleanup loop fills no slot. -/
theorem full_of_cleanupLoop {outcomes : Fin maxUser → SlotOutcome} {slots : List (Fin maxUser)}
    {j : Fin maxUser} {t : Table} (h : (cleanupLoop outcomes slots t).Full j) : t.Full j := by
  induction slots generalizing t with
  | nil => exact h
  | cons i slots ih =>
    rw [cleanupLoop] at h
    have hfirst := ih h
    split at hfirst
    · exact full_of_kickUser hfirst
    · exact hfirst

/-- The cleanup loop keeps what a removal keeps, if it closes the descriptors of every full slot. -/
theorem cleanupLoop_induction {P : Table → Prop} {outcomes : Fin maxUser → SlotOutcome}
    (hkick : ∀ i t, P t → t.Full i → (outcomes i).Closes → P (kickUser i (outcomes i) t))
    {slots : List (Fin maxUser)} {t : Table} (h : P t)
    (hcloses : ∀ i ∈ slots, t.Full i → (outcomes i).Closes) :
    P (cleanupLoop outcomes slots t) := by
  induction slots generalizing t with
  | nil => exact h
  | cons i slots ih =>
    rw [List.forall_mem_cons] at hcloses
    rw [cleanupLoop]
    split
    · rename_i hfull
      have hlater : ∀ j ∈ slots, (kickUser i (outcomes i) t).Full j → (outcomes j).Closes := by
        intro j hj hfull'
        exact hcloses.2 j hj (full_of_kickUser hfull')
      exact ih (hkick i t h hfull (hcloses.1 hfull)) hlater
    · exact ih h hcloses.2

end Csci4061.Chat
