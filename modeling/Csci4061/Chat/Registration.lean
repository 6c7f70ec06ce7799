import Csci4061.Chat.ReadBytes

/-!
# The name of a new user

The bytes of a name are stored into an array which is neither cleared nor terminated, and which an
earlier connection or the removal of a user has left a name in. The string in it is copied to the slot.
It is the one which was sent exactly if that had its NUL, or there is one behind it by chance; otherwise
it goes on in what was left, or to the end of the array and beyond.
-/

namespace Csci4061.Chat

open Csci4061.Lib Csci4061.Lib.TransitionSystem

/-- The bytes which a connection sends for the name. -/
def Connection.data (c : Connection) : List UInt8 := c.sent.getD []

/-- `add_user` copies the string in the array, within the array of the slot, and it is the one which was
sent. -/
def CopiesSent (c : Connection) (s : Server) : Prop :=
  ∃ copied, strcpy c.stack (sentName c s) = some copied ∧ 0 ∈ copied ∧ cString copied = cString c.data

/-- A connection which is not refused fills a slot under the name which it sent. -/
def RegistersAsSent (s : Server) : ServerLabel → Prop
  | .accept (some c) => ∀ idx, s.phase = .top → 0 < s.childpid → Admissible c s idx → CopiesSent c s ∧
      ∀ s', serverNext s (.accept (some c)) = some s' → (s'.table.users idx).name = cString c.data
  | _ => True

/-- A name is sent with a NUL, or stored in front of one. -/
def SendsTerminated (s : Server) : ServerLabel → Prop
  | .accept (some c) => ∀ idx, s.phase = .top → 0 < s.childpid → Admissible c s idx →
      0 ∈ c.data ∨ s.userId[c.data.length]? = some 0
  | _ => True

/-- A connection sends no more than the array holds. -/
theorem Connection.length_data (c : Connection) : c.data.length ≤ maxUserId := by
  rw [Connection.data]
  cases hsent : c.sent with
  | none => exact Nat.zero_le _
  | some data => exact c.sent_length data hsent

/-- The string is copied as it was sent exactly if it is terminated. -/
theorem copiesSent_iff {c : Connection} {s : Server} (huserId : s.userId.length = maxUserId) :
    CopiesSent c s ↔ 0 ∈ c.data ∨ s.userId[c.data.length]? = some 0 := by
  have hfits : c.data.length ≤ s.userId.length := c.length_data.trans_eq huserId.symm
  rw [← cString_storeBytes_iff hfits, huserId]
  constructor
  · rintro ⟨copied, hcopied, -, hsame⟩
    obtain ⟨hname, -⟩ := strcpy_eq_some (zero_not_mem_cString _) hcopied
    exact ⟨hname.symm.trans hsame, (strcpy_cases hcopied).1.trans_eq c.stack_length⟩
  · rintro ⟨hsame, hlength⟩
    have hcopied : strcpy c.stack (sentName c s) = some (storeBytes c.stack (sentName c s ++ [0])) :=
      if_pos (by rw [c.stack_length]; exact hlength)
    refine ⟨_, hcopied, ?_, (strcpy_eq_some (zero_not_mem_cString _) hcopied).1.trans hsame⟩
    simp [storeBytes]

/-- The slot of a connection which is admitted gets the string which was read for its name. -/
theorem name_of_accept {c : Connection} {s s' : Server} {idx : Fin maxUser}
    (hadmissible : Admissible c s idx) (h : serverNext s (.accept (some c)) = some s') :
    (s'.table.users idx).name = sentName c s := by
  obtain ⟨-, s₁, haccept, rfl⟩ := serverNext_accept h
  rcases acceptUser_cases haccept with ⟨hrefused, -⟩ |
    ⟨c', idx', s₀, heq, hadmissible', -, hname, -, -, -, hadmission⟩
  · exact absurd hadmissible (hrefused c idx rfl)
  · obtain rfl := Option.some.inj heq
    obtain rfl : idx = idx' := Option.some.inj (hadmissible.2.1.symm.trans hadmissible'.2.1)
    obtain ⟨user, husers, -, -, huser, -⟩ := admitUser_cases hadmission
    rw [husers, Function.update_self, huser, hname]

/-- A copied string is the name of the slot. -/
theorem CopiesSent.sentName_eq {c : Connection} {s : Server} (h : CopiesSent c s) :
    sentName c s = cString c.data := by
  obtain ⟨copied, hcopied, -, hsame⟩ := h
  exact (strcpy_eq_some (zero_not_mem_cString _) hcopied).1.symm.trans hsame

/-- A user is registered under the name it sent exactly if the name is terminated. -/
theorem registersAsSent_iff {s : Server} (huserId : s.userId.length = maxUserId) (label : ServerLabel) :
    RegistersAsSent s label ↔ SendsTerminated s label := by
  cases label with
  | accept outcome =>
    cases outcome with
    | none => exact Iff.rfl
    | some c =>
      constructor
      · intro h idx hphase hrole hadmissible
        exact (copiesSent_iff huserId).mp (h idx hphase hrole hadmissible).1
      · intro h idx hphase hrole hadmissible
        have hcopies : CopiesSent c s := (copiesSent_iff huserId).mpr (h idx hphase hrole hadmissible)
        exact ⟨hcopies, fun s' hstep => (name_of_accept hadmissible hstep).trans hcopies.sentName_eq⟩
  | admin | poll | sleep => exact Iff.rfl

/-- In a run from any contents of the array for names, every user is registered under the name it sent
exactly if every name which is not refused is terminated. -/
theorem registersAsSent_iff_sendsTerminated {s : Server} (hinit : ServerInit s)
    (labels : List ServerLabel) :
    serverSystem.EachStep RegistersAsSent s labels ↔ serverSystem.EachStep SendsTerminated s labels :=
  eachStep_congr (fun _ _ _ => serverNext_bufferSizes)
    (fun _ label h => registersAsSent_iff h.userId label) (bufferSizes_init hinit) labels

/-- A name is sent with a NUL. -/
def ServerLabel.SendsNul : ServerLabel → Prop
  | .accept (some c) => 0 ∈ c.data
  | _ => True

/-- If every name is sent with a NUL, it does not matter what is left in the array. -/
theorem sendsTerminated_of_sendsNul (s : Server) {labels : List ServerLabel}
    (h : ∀ label ∈ labels, label.SendsNul) :
    serverSystem.EachStep SendsTerminated s labels := by
  intro taken label t hbegins _
  have hlabel : label.SendsNul := h label (hbegins.subset (by simp))
  cases label with
  | accept outcome =>
    cases outcome with
    | none => trivial
    | some c => exact fun _ _ _ _ => Or.inl hlabel
  | admin | poll | sleep => trivial

/-- Two users who send their names with a NUL are registered under these. -/
theorem registersAsSent_iff_sendsTerminated_pair :
    serverSystem.EachStep RegistersAsSent freshServer admitPair := by
  have hnul : ∀ label ∈ admitPair, label.SendsNul := by
    simp only [admitPair, List.forall_mem_append, List.forall_mem_cons]
    refine ⟨⟨⟨?_, trivial, by simp⟩, ?_⟩, trivial, ?_, trivial, by simp⟩
    · exact (by decide : (0 : UInt8) ∈ bytes "ann" ++ [0])
    · intro label hmem
      obtain rfl := List.eq_of_mem_replicate hmem
      trivial
    · exact (by decide : (0 : UInt8) ∈ bytes "bob" ++ [0])
  exact (registersAsSent_iff_sendsTerminated freshServer_init admitPair).mpr
    (sendsTerminated_of_sendsNul _ hnul)

/-- A connection for the name `annabel`. -/
def annabelConnection : Connection :=
  { annConnection (some ⟨7, 9⟩) (some 100) with
    sent := some (bytes "annabel" ++ [0])
    sent_length := by decide }

/-- A connection which sends the three bytes of `bob` and no NUL. -/
def bareConnection : Connection :=
  { bobConnection with
    sent := some (bytes "bob")
    sent_length := by decide }

/-- A connection which sends a name of the size of the array. -/
def longConnection : Connection :=
  { annConnection (some ⟨7, 9⟩) (some 100) with
    sent := some (List.replicate maxUserId 0x61)
    sent_length := by decide }

/-- The user `annabel` connects, and nothing else happens until the next connection. -/
def admitAnnabel : List ServerLabel :=
  [.accept (some annabelConnection), .admin none allSucceed] ++
    List.replicate maxUser (.poll none allSucceed) ++ [.sleep]

/-- A server with the user `annabel`. -/
def annabelServer : Server := (exec serverNext freshServer admitAnnabel).getD freshServer

/-- A name without a NUL goes on in what the connection before left, and one which fills the array does
not fit into that of the slot. -/
theorem not_registersAsSent_bare : ServerInit freshServer ∧
    ¬ serverSystem.EachStep RegistersAsSent freshServer
    (admitAnnabel ++ [.accept (some bareConnection)]) ∧
    (∃ s, serverNext annabelServer (.accept (some bareConnection)) = some s ∧
      (s.table.users 1).name = bytes "bobabel") ∧
    ¬ serverSystem.EachStep RegistersAsSent freshServer ([] ++ [.accept (some longConnection)]) := by
  have hexec : exec serverNext freshServer admitAnnabel = some annabelServer :=
    exec_getD (by decide +kernel)
  have hphase : annabelServer.phase = .top ∧ 0 < annabelServer.childpid := by decide +kernel
  have hadmissible : Admissible bareConnection annabelServer 1 :=
    ⟨⟨by simp [bareConnection, bobConnection], by simp [bareConnection, bobConnection], by
      simp [bareConnection]⟩, by decide +kernel, by decide +kernel⟩
  refine ⟨freshServer_init, not_eachStep_of_exec hexec fun hregisters => ?_, ?_, ?_⟩
  · have hname := (hregisters 1 hphase.1 hphase.2 hadmissible).1.sentName_eq
    exact absurd hname (by decide +kernel)
  · have hstep : (serverNext annabelServer (.accept (some bareConnection))).isSome = true := by
      decide +kernel
    obtain ⟨s', hstep⟩ := Option.isSome_iff_exists.mp hstep
    refine ⟨s', hstep, (name_of_accept hadmissible hstep).trans ?_⟩
    decide +kernel
  · refine not_eachStep_of_exec rfl fun hregisters => ?_
    have hlong : Admissible longConnection freshServer 0 :=
      ⟨⟨by simp [longConnection, annConnection], by simp [longConnection, annConnection], by
        simp [longConnection]⟩, by decide, by decide +kernel⟩
    obtain ⟨copied, hcopied, -⟩ := (hregisters 0 rfl (by decide) hlong).1
    exact absurd hcopied (by rw [strcpy, if_neg (by decide +kernel)]; simp)

end Csci4061.Chat
