import Csci4061.Chat.PrivateMessage
import Csci4061.Chat.ReadBytes
import Mathlib.Algebra.GroupWithZero.Nat

/-!
# The texts which the server assembles

Lists of users, names, private messages, broadcasts and notices are put together in arrays of fixed
sizes, and nothing compares the lengths of their parts with these. A name in a slot has fewer than 32
bytes and a message fewer than 256, in every state. With these bounds notices and texts always fit, a
broadcast does unless both are as long as they can be, and for the other texts it depends on the names
and the message.
-/

namespace Csci4061.Chat

open Csci4061.Lib Csci4061.Lib.TransitionSystem

/-- The names in all slots are shorter than their arrays. -/
def NamesShort (users : Fin maxUser → User) : Prop := ∀ i, (users i).name.length < maxUserId

/-- Removing a user clears its name. -/
theorem length_kickUser_name (idx j : Fin maxUser) (outcome : SlotOutcome) (t : Table) :
    ((kickUser idx outcome t).users j).name.length ≤ (t.users j).name.length := by
  by_cases hj : j = idx
  · subst hj
    have hcleared : ((kickUser j outcome t).users j).name = [] := by
      have huserId : ((kickUser j outcome t).users j).userId = List.replicate maxUserId 0 := by
        unfold kickUser cleanupUser
        split
        · simp
        · simp only
          split <;> simp
      rw [User.name, huserId]
      rfl
    rw [hcleared]
    exact Nat.zero_le _
  · rw [kickUser_users_of_ne hj]

/-- The cleanup loop makes no name longer. -/
theorem length_cleanupLoop_name (outcomes : Fin maxUser → SlotOutcome) (slots : List (Fin maxUser))
    (j : Fin maxUser) (t : Table) :
    ((cleanupLoop outcomes slots t).users j).name.length ≤ (t.users j).name.length := by
  induction slots generalizing t with
  | nil => exact le_rfl
  | cons i slots ih =>
    rw [cleanupLoop]
    split
    · exact (ih _).trans (length_kickUser_name i j (outcomes i) t)
    · exact ih t

/-- A name which is copied to a slot is shorter than its array. -/
theorem length_admitUser_userId {idx : Fin maxUser} {c : Connection} {s s' : Server}
    (h : admitUser idx c s = some s') :
    (cString s.userId).length < maxUserId := by
  have huserId := admitUser_userId h
  obtain ⟨s₁, -, h⟩ := Option.bind_eq_some_iff.mp h
  obtain ⟨s₂, -, h⟩ := Option.bind_eq_some_iff.mp h
  obtain ⟨t, hadd, rfl⟩ := Option.map_eq_some_iff.mp h
  obtain ⟨copied, hcopied, -⟩ := Option.map_eq_some_iff.mp hadd
  rw [← huserId, ← c.stack_length]
  exact (strcpy_cases hcopied).1

/-- A new connection keeps the names short. -/
theorem acceptUser_namesShort {outcome : Option Connection} {s s' : Server}
    (h : NamesShort s.table.users) (haccept : acceptUser outcome s = some s') :
    NamesShort s'.table.users := by
  rcases acceptUser_cases haccept with ⟨-, hframe⟩ | ⟨c, idx, s₁, -, -, hframe, -, -, -, -, hadmission⟩
  · rw [hframe.users]
    exact h
  · obtain ⟨user, husers, -, -, hname, -⟩ := admitUser_cases hadmission
    intro i
    by_cases hi : i = idx
    · rw [husers, hi, Function.update_self, hname]
      exact length_admitUser_userId hadmission
    · rw [husers, Function.update_of_ne hi, hframe.users]
      exact h i

/-- Every step keeps the names short. -/
theorem serverNext_namesShort {s s' : Server} {label : ServerLabel} (h : NamesShort s.table.users)
    (hstep : serverNext s label = some s') : NamesShort s'.table.users := by
  by_cases hlabel : ∃ outcome, label = .accept outcome
  · obtain ⟨outcome, rfl⟩ := hlabel
    obtain ⟨-, s₁, haccept, rfl⟩ := serverNext_accept hstep
    have hafter : NamesShort s₁.table.users := acceptUser_namesShort h haccept
    exact hafter
  · obtain ⟨-, slots, t, hquiet, htable, -⟩ :=
      serverNext_removesOnly hstep fun outcome heq => hlabel ⟨outcome, heq⟩
    intro i
    have hkept := length_cleanupLoop_name label.outcomes slots i t
    rw [hquiet.users] at hkept
    rw [htable]
    exact hkept.trans_lt (h i)

/-- In every state which is reached the names are short. -/
theorem namesShort_of_reachable {s : Server} (h : serverSystem.Reachable s) :
    NamesShort s.table.users := by
  have hinit (s : Server) (hs : ServerInit s) : NamesShort s.table.users := by
    obtain ⟨gSfd, -, htable, -⟩ := hs
    rw [htable]
    intro i
    exact (by decide : emptyUser.name.length < maxUserId)
  exact h.invariant hinit fun s label s' => serverNext_namesShort

/-- A text, and the size of the array it is assembled in. -/
structure Assembly where
  text : CString
  size : ℕ

/-- There is room for the text and its terminator. -/
def Assembly.Fits (a : Assembly) : Prop := a.text.length < a.size

instance (a : Assembly) : Decidable a.Fits := inferInstanceAs (Decidable (_ < _))

/-- The user list. The terminator takes the place of the last newline. -/
def listAssembly (users : Fin maxUser → User) : Assembly where
  text :=
    if connectedNames users = [] then bytes "<no users>\n"
    else (bytes "---connected user list---\n" ++ (connectedNames users).flatMap fun name =>
      name ++ bytes "\n").dropLast
  size := maxMsg

/-- What stands behind the second space of a message. -/
def textBehind (message : CString) : Option CString :=
  (strchr message 0x20).bind fun s => (strchr s.tail 0x20).map List.tail

/-- The name, the text and the line of a private message of slot `i`. -/
def p2pAssemblies (i : Fin maxUser) (message : CString) (users : Fin maxUser → User) : List Assembly :=
  match (words message)[1]? with
  | none => []
  | some receiver =>
    ⟨receiver, maxUserId⟩ ::
      match findUserIndex users receiver with
      | none => []
      | some index =>
        if index = i ∨ (words message).length < 3 then []
        else
          match textBehind message with
          | none => []
          | some text => [⟨text, maxMsg⟩, ⟨(users i).name ++ bytes ":" ++ text, maxMsg⟩]

/-- The texts which are assembled for a message of slot `i`. -/
def userAssemblies (i : Fin maxUser) (message : CString) (users : Fin maxUser → User) : List Assembly :=
  match getCommandType message with
  | none | some .exit => []
  | some .list => [listAssembly users]
  | some .p2p => p2pAssemblies i message users
  | some _ => [⟨(users i).name ++ bytes ": " ++ message, maxMsg + maxUserId⟩]

/-- The texts which are assembled for a line of the administrator. -/
def adminAssemblies (message : CString) (users : Fin maxUser → User) : List Assembly :=
  match getCommandType message with
  | none | some .exit => []
  | some .list => [listAssembly users]
  | some .kick =>
    match (words message)[1]? with
    | none => []
    | some userId => [⟨userId, maxUserId⟩]
  | some _ => [⟨bytes "admin-notice: " ++ message, maxMsg + (bytes "admin-notice: ").length⟩]

/-- The texts which are assembled for a message of a user, or of the administrator. -/
def assemblies (message : CString) (users : Fin maxUser → User) : Option (Fin maxUser) → List Assembly
  | none => adminAssemblies message users
  | some i => userAssemblies i message users

/-- The names in the list and their newlines have at most 230 bytes. -/
def ShortList (users : Fin maxUser → User) : Prop :=
  ((connectedNames users).map fun name => name.length + 1).sum ≤ 230

/-- The second word of a message has at most 31 bytes. -/
def ShortReceiver (message : CString) : Prop :=
  ∀ receiver, (words message)[1]? = some receiver → receiver.length ≤ 31

/-- The name of the sender and the text of a private message which is sent to another user have at most
254 bytes. -/
def ShortText (i : Fin maxUser) (message : CString) (users : Fin maxUser → User) : Prop :=
  ∀ receiver index text, (words message)[1]? = some receiver →
    findUserIndex users receiver = some index → index ≠ i →
    3 ≤ (words message).length → textBehind message = some text →
      (users i).name.length + text.length ≤ 254

/-- The names and the message are short enough for the command: the names for a list, the second word
and the text for a private message, the second word for a removal; and the name of a user and a message
which is broadcast are not both as long as they can be. -/
def ShortEnough (message : CString) (users : Fin maxUser → User) : Option (Fin maxUser) → Prop
  | none => (getCommandType message = some .list → ShortList users) ∧
      (getCommandType message = some .kick → ShortReceiver message)
  | some i => (getCommandType message = some .list → ShortList users) ∧
      (getCommandType message = some .p2p → ShortReceiver message ∧ ShortText i message users) ∧
      (getCommandType message ∈ [some .kick, some .seg, some .broadcast] →
        ¬ ((users i).name.length = 31 ∧ message.length = 255))

/-- The list fits exactly if the names are short. -/
theorem listAssembly_fits_iff (users : Fin maxUser → User) :
    (listAssembly users).Fits ↔ ShortList users := by
  have hheader : (bytes "---connected user list---\n").length = 26 := rfl
  have hnewline : (bytes "\n").length = 1 := rfl
  simp only [listAssembly, Assembly.Fits, ShortList]
  split
  · rename_i hnone
    rw [hnone]
    exact iff_of_true (by decide) (Nat.zero_le _)
  · rw [List.length_dropLast, List.length_append, List.length_flatMap, hheader]
    simp only [List.length_append, hnewline, maxMsg]
    omega

/-- What stands behind the second space is shorter than the message by two bytes or more. -/
theorem length_textBehind {message text : CString} (h : textBehind message = some text) :
    text.length + 2 ≤ message.length := by
  obtain ⟨s, hs, h⟩ := Option.bind_eq_some_iff.mp h
  obtain ⟨s', hs', rfl⟩ := Option.map_eq_some_iff.mp h
  obtain ⟨before, rest, rfl, -, rfl⟩ := strchr_eq_some_iff.mp hs
  obtain ⟨between, rest', hrest, -, rfl⟩ := strchr_eq_some_iff.mp hs'
  rw [List.tail_cons] at hrest ⊢
  subst hrest
  simp only [List.length_append, List.length_cons]
  omega

/-- The condition on the text of a message with a second word. -/
theorem shortText_iff {i : Fin maxUser} {message : CString} {users : Fin maxUser → User}
    {receiver : CString} (hreceiver : (words message)[1]? = some receiver) :
    ShortText i message users ↔ ∀ index text, findUserIndex users receiver = some index → index ≠ i →
      3 ≤ (words message).length → textBehind message = some text →
        (users i).name.length + text.length ≤ 254 := by
  constructor
  · exact fun h index text => h receiver index text hreceiver
  · intro h receiver' index text hreceiver'
    obtain rfl := Option.some.inj (hreceiver.symm.trans hreceiver')
    exact h index text

/-- The parts of a private message fit exactly if they are short. -/
theorem p2pAssemblies_fit_iff (i : Fin maxUser) {message : CString} (hlength : message.length < maxMsg)
    (users : Fin maxUser → User) :
    (∀ a ∈ p2pAssemblies i message users, a.Fits) ↔ ShortReceiver message ∧
    ShortText i message users := by
  rw [p2pAssemblies]
  cases hreceiver : (words message)[1]? with
  | none => simp [ShortReceiver, ShortText, hreceiver]
  | some receiver =>
    have hname : Assembly.Fits ⟨receiver, maxUserId⟩ ↔ ShortReceiver message := by
      simp [ShortReceiver, hreceiver, Assembly.Fits, maxUserId, Nat.lt_succ_iff]
    rw [List.forall_mem_cons, hname]
    refine and_congr_right fun _ => ?_
    rw [shortText_iff hreceiver]
    cases hindex : findUserIndex users receiver with
    | none => simp
    | some index =>
      by_cases hanswer : index = i ∨ (words message).length < 3
      · simp only [if_pos hanswer]
        refine iff_of_true (by simp) fun index' text hindex' hne hthree _ => ?_
        obtain rfl := Option.some.inj hindex'
        exact (hanswer.elim hne (Nat.not_lt.mpr hthree)).elim
      · cases htext : textBehind message with
        | none => simp [hanswer]
        | some text =>
          have hbehind := length_textBehind htext
          have hline : (∀ a ∈ [(⟨text, maxMsg⟩ : Assembly),
              ⟨(users i).name ++ bytes ":" ++ text, maxMsg⟩], a.Fits) ↔
              (users i).name.length + text.length ≤ 254 := by
            have hcolon : (bytes ":").length = 1 := rfl
            simp only [List.forall_mem_cons, Assembly.Fits, List.length_append, hcolon,
              maxMsg] at hlength ⊢
            simp only [List.not_mem_nil, false_imp_iff, implies_true, and_true]
            omega
          simp only [if_neg hanswer, hline]
          rw [not_or, Nat.not_lt] at hanswer
          constructor
          · intro hshort index' text' _ _ _ htext'
            obtain rfl := Option.some.inj htext'
            exact hshort
          · exact fun hshort => hshort index text rfl hanswer.1 hanswer.2 rfl

/-- The list is assembled exactly if it fits. -/
theorem userListText_isSome_iff (users : Fin maxUser → User) :
    (userListText users).isSome = true ↔ (listAssembly users).Fits := by
  have hheader : (bytes "---connected user list---\n").length = 26 := rfl
  simp only [userListText, listAssembly, Assembly.Fits, List.length_append, hheader, maxMsg]
  split
  · rename_i hshort
    split
    · exact iff_of_true rfl (by decide)
    · rw [List.length_dropLast, List.length_append, hheader]
      exact iff_of_true rfl (by omega)
  · rename_i hlong
    split
    · rename_i hnone
      exact absurd (by simp [hnone]) hlong
    · rw [List.length_dropLast, List.length_append, hheader]
      exact iff_of_false Bool.false_ne_true (by omega)

/-- The text of a message with three words is what stands behind its second space. -/
theorem extractText_of_lt {message : CString} (hzero : 0 ∉ message) (hlength : message.length < maxMsg)
    (hthree : 3 ≤ (words message).length) (hlt : (words message).length < 16) :
    ∃ text copied, textBehind message = some text ∧
      extractText message (List.replicate maxMsg 0) = some (some copied) ∧ cString copied = text := by
  obtain ⟨before, between, rest, copied, rfl, hbefore, hbetween, hextract, hcopied⟩ :=
    extractText_eq hzero hlength hthree hlt List.length_replicate
  refine ⟨rest, copied, ?_, hextract, hcopied⟩
  have hfirst := strchr_eq_some_iff.mpr ⟨before, between ++ 0x20 :: rest, rfl, hbefore, rfl⟩
  have hsecond := strchr_eq_some_iff.mpr ⟨between, rest, rfl, hbetween, rfl⟩
  rw [textBehind, hfirst, Option.bind_some, List.tail_cons, hsecond, Option.map_some, List.tail_cons]

/-- A private message is handled exactly if it has fewer than 16 words and its parts fit. -/
theorem sendP2pMsg_isSome_iff {i : Fin maxUser} {message : CString} (hzero : 0 ∉ message)
    (hlength : message.length < maxMsg) (t : Table) : (sendP2pMsg i message t).isSome = true ↔
      (words message).length < 16 ∧ ∀ a ∈ p2pAssemblies i message t.users, a.Fits := by
  by_cases hlt : (words message).length < 16
  · rw [and_iff_right hlt, sendP2pMsg, extractName_of_lt hzero hlength hlt, p2pAssemblies]
    cases hreceiver : (words message)[1]? with
    | none => simp
    | some receiver =>
      have hzero' : 0 ∉ receiver := fun hmem =>
        hzero ((mem_tokens (List.mem_of_getElem? hreceiver)).2.2.subset hmem)
      rw [Option.elim_some, List.forall_mem_cons]
      by_cases hroom : receiver.length < maxUserId
      · have hcopied : strcpy (List.replicate maxUserId 0) receiver =
            some (storeBytes (List.replicate maxUserId 0) (receiver ++ [0])) :=
              if_pos (by simpa using hroom)
        have hname := (strcpy_eq_some hzero' hcopied).1
        have hfits : Assembly.Fits ⟨receiver, maxUserId⟩ := hroom
        simp only [hcopied, Option.map_some, Option.bind_some, hname, hfits, true_and]
        cases hindex : findUserIndex t.users receiver with
        | none => simp
        | some index =>
          simp only
          by_cases hself : index = i
          · simp [hself]
          · by_cases hthree : 3 ≤ (words message).length
            · obtain ⟨text, copied, hbehind, hextract, htext⟩ :=
                extractText_of_lt hzero hlength hthree hlt
              have hshorter := length_textBehind hbehind
              have hshort : text.length < maxMsg := by omega
              have hfits' : Assembly.Fits ⟨text, maxMsg⟩ := hshort
              have hanswer : ¬ (index = i ∨ (words message).length < 3) := by
                rw [not_or, Nat.not_lt]
                exact ⟨hself, hthree⟩
              simp only [if_neg hself, if_neg hanswer, hextract, Option.bind_some, htext, hbehind]
              simp only [List.forall_mem_cons, hfits', true_and]
              split
              · rename_i hline
                exact iff_of_true rfl ⟨hline, by simp⟩
              · rename_i hline
                exact iff_of_false (by simp) fun h => hline h.1
            · have hnone : extractText message (List.replicate maxMsg 0) = some none := by
                rw [extractText, messageTokens_eq hzero, if_pos ⟨hlength, hlt⟩, Option.bind_some,
                  if_neg hthree]
              simp only [if_neg hself, hnone, Option.bind_some,
                if_pos (Or.inr (Nat.lt_of_not_le hthree))]
              exact iff_of_true rfl (by simp)
      · have hcopied : strcpy (List.replicate maxUserId (0 : UInt8)) receiver = none :=
          if_neg (by simpa using hroom)
        rw [hcopied]
        refine iff_of_false (by simp) fun h => hroom h.1
  · rw [sendP2pMsg, extractName_of_le hzero (Nat.le_of_not_lt hlt)]
    exact iff_of_false (by simp) fun h => hlt h.1

/-- A message of a user is handled exactly if it is classified, a private message has fewer than 16
words, and everything that is assembled for it fits. -/
theorem userCommand_isSome_iff {i : Fin maxUser} {message : CString} (hzero : 0 ∉ message)
    (outcomes : Fin maxUser → SlotOutcome) (t : Table) :
    (userCommand i message outcomes t).isSome = true ↔
      getCommandType message ≠ none ∧
        (getCommandType message = some .p2p → (words message).length < 16) ∧
        ∀ a ∈ userAssemblies i message t.users, a.Fits := by
  rw [userCommand, userAssemblies]
  cases htype : getCommandType message with
  | none => simp
  | some type =>
    have hlength := ((getCommandType_eq_some hzero).mp htype).1
    rw [Option.bind_some]
    cases type with
    | list =>
      have hlist : (listUsers (some i) t).isSome = (userListText t.users).isSome := Option.isSome_map
      simp only [hlist, userListText_isSome_iff]
      simp
    | p2p => simpa using sendP2pMsg_isSome_iff hzero hlength t
    | exit => simp
    | kick | seg | broadcast =>
      simp only
      split
      · rename_i hline
        exact iff_of_true rfl ⟨by simp, by simp, List.forall_mem_singleton.mpr hline⟩
      · rename_i hline
        refine iff_of_false (by simp) fun h => hline ?_
        exact h.2.2 _ List.mem_cons_self

/-- A line of the administrator is handled exactly if it is classified, a removal has fewer than 16
words, and everything that is assembled for it fits. -/
theorem adminCommand_isSome_iff {message : CString} (hzero : 0 ∉ message)
    (outcomes : Fin maxUser → SlotOutcome) {s : Server} (huserId : s.userId.length = maxUserId) :
    (adminCommand message outcomes s).isSome = true ↔
      getCommandType message ≠ none ∧
        (getCommandType message = some .kick → (words message).length < 16) ∧
        ∀ a ∈ adminAssemblies message s.table.users, a.Fits := by
  rw [adminCommand, adminAssemblies]
  cases htype : getCommandType message with
  | none => simp
  | some type =>
    have hlength := ((getCommandType_eq_some hzero).mp htype).1
    rw [Option.bind_some]
    cases type with
    | list =>
      have hlist : (listUsers none s.table).isSome = (userListText s.table.users).isSome :=
        Option.isSome_map
      simp only [Option.isSome_map, hlist, userListText_isSome_iff]
      simp
    | kick =>
      by_cases hlt : (words message).length < 16
      · simp only [extractName_of_lt hzero hlength hlt]
        cases hreceiver : (words message)[1]? with
        | none => simp [hlt]
        | some name =>
          rw [Option.elim_some, strcpy, huserId]
          by_cases hroom : name.length < maxUserId
          · rw [if_pos hroom]
            refine iff_of_true ?_ ⟨by simp, fun _ => hlt, List.forall_mem_singleton.mpr hroom⟩
            simp only [Option.map_some, Option.bind_some]
            split <;> rfl
          · rw [if_neg hroom]
            refine iff_of_false (by simp) fun h => hroom ?_
            exact h.2.2 ⟨name, maxUserId⟩ List.mem_cons_self
      · simp only [extractName_of_le hzero (Nat.le_of_not_lt hlt)]
        exact iff_of_false (by simp) fun h => hlt (h.2.1 trivial)
    | exit => simp
    | p2p | seg | broadcast =>
      simp only
      split
      · rename_i hnotice
        exact iff_of_true rfl ⟨by simp, by simp, List.forall_mem_singleton.mpr hnotice⟩
      · rename_i hnotice
        refine iff_of_false (by simp) fun h => hnotice ?_
        exact h.2.2 _ List.mem_cons_self

/-- A broadcast fits unless the name of the sender and the message are as long as they can be. -/
theorem broadcast_fits_iff {users : Fin maxUser → User} (hnames : NamesShort users) (i : Fin maxUser)
    {message : CString} (hlength : message.length < maxMsg) :
    Assembly.Fits ⟨(users i).name ++ bytes ": " ++ message, maxMsg + maxUserId⟩ ↔
      ¬ ((users i).name.length = 31 ∧ message.length = 255) := by
  have hname : (users i).name.length < 32 := hnames i
  have hcolon : (bytes ": ").length = 2 := rfl
  simp only [Assembly.Fits, List.length_append, hcolon, maxMsg, maxUserId] at hlength ⊢
  omega

/-- A notice always fits. -/
theorem notice_fits {message : CString} (hlength : message.length < maxMsg) :
    Assembly.Fits ⟨bytes "admin-notice: " ++ message, maxMsg + (bytes "admin-notice: ").length⟩ := by
  simp only [Assembly.Fits, List.length_append]
  omega

/-- In every state which is reached, each text which is assembled for a message fits into its array
exactly if the names and the message are short enough for the command. -/
theorem fits_iff_shortEnough {s : Server} (h : serverSystem.Reachable s) {message : CString}
    (hlength : message.length < maxMsg) (sender : Option (Fin maxUser)) :
    (∀ a ∈ assemblies message s.table.users sender, a.Fits) ↔
    ShortEnough message s.table.users sender := by
  have hnames := namesShort_of_reachable h
  cases sender with
  | none =>
    simp only [assemblies, adminAssemblies, ShortEnough]
    cases htype : getCommandType message with
    | none => simp
    | some type =>
      cases type with
      | list => simp [listAssembly_fits_iff]
      | kick =>
        cases hreceiver : (words message)[1]? with
        | none => simp [ShortReceiver, hreceiver]
        | some userId => simp [ShortReceiver, hreceiver, Assembly.Fits, maxUserId, Nat.lt_succ_iff]
      | exit => simp
      | p2p | seg | broadcast => simp [notice_fits hlength]
  | some i =>
    simp only [assemblies, userAssemblies, ShortEnough]
    cases htype : getCommandType message with
    | none => simp
    | some type =>
      cases type with
      | list => simp [listAssembly_fits_iff]
      | p2p => simp [p2pAssemblies_fit_iff i hlength]
      | exit => simp
      | kick | seg | broadcast => simp [-List.append_assoc, broadcast_fits_iff hnames i hlength]

/-- In a table with the users `ann` and `bob` the texts for a private message fit. -/
theorem fits_iff_shortEnough_pair :
    (assemblies (bytes "\\p2p bob hi") pairServer.table.users (some 0)).all
      (fun a => decide a.Fits) = true := by
  obtain ⟨⟨s, labels, hinit, hrun⟩, -⟩ := pairServer_reachable
  have hreachable : serverSystem.Reachable pairServer := ⟨s, labels, hinit, hrun.of_restrict⟩
  have hshort : ShortEnough (bytes "\\p2p bob hi") pairServer.table.users (some 0) := by
    refine ⟨fun htype => ?_, fun _ => ⟨?_, ?_⟩, fun htype => ?_⟩
    · exact absurd htype (by decide +kernel)
    · intro receiver hreceiver
      have hsecond : (words (bytes "\\p2p bob hi"))[1]? = some (bytes "bob") := by decide +kernel
      obtain rfl : bytes "bob" = receiver := Option.some.inj (hsecond.symm.trans hreceiver)
      decide
    · intro receiver index text _ _ _ _ htext
      have hname : (pairServer.table.users 0).name.length = 3 := by decide +kernel
      have hshorter := length_textBehind htext
      have hlength : (bytes "\\p2p bob hi").length = 11 := rfl
      omega
    · exact absurd htype (by decide +kernel)
  have hfits := (fits_iff_shortEnough hreachable (by decide) (some 0)).mpr hshort
  exact List.all_eq_true.mpr fun a ha => decide_eq_true (hfits a ha)

/-- A connection for a name of 31 characters. -/
def longNameConnection : Connection :=
  { annConnection (some ⟨7, 9⟩) (some 100) with
    sent := some (List.replicate 31 0x61 ++ [0])
    sent_length := by decide }

/-- A server with a user whose name is as long as it can be. -/
def longNameServer : Server :=
  (exec serverNext freshServer [.accept (some longNameConnection)]).getD freshServer

/-- A message of 255 characters of this user takes 288 bytes as a broadcast, and there is none left for
the terminator. -/
theorem not_fits_longName : serverSystem.Reachable longNameServer ∧ longNameServer.table.Full 0 ∧
    ¬ ∀ a ∈ assemblies (List.replicate 255 0x62) longNameServer.table.users (some 0), a.Fits := by
  have hexec := exec_getD (d := freshServer)
    (by decide +kernel : (exec serverNext freshServer [.accept (some longNameConnection)]).isSome = true)
  refine ⟨⟨freshServer, _, freshServer_init, Run.of_exec hexec⟩, by decide +kernel, ?_⟩
  have hoverflow : (assemblies (List.replicate 255 0x62) longNameServer.table.users (some 0)).all
      (fun a => decide a.Fits) = false := by
    decide +kernel
  intro hfits
  rw [List.all_eq_true.mpr fun a ha => decide_eq_true (hfits a ha)] at hoverflow
  exact Bool.false_ne_true hoverflow.symm

end Csci4061.Chat
