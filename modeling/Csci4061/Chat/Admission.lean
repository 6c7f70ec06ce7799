import Csci4061.Chat.Removal

/-!
# Admitting a user

An admission which succeeds fills an empty slot with a new child and two new descriptors. A `pipe`
which fails is only reported, and the slot gets what the arrays held before; a `fork` which fails
fills the slot with `-1`, which is also the variable that gives the process its role in the loop.

A connection is therefore handled as a whole exactly if it does not get as far as the admission, or
all three calls succeed.
-/

namespace Csci4061.Chat

open Csci4061.Lib Csci4061.Lib.TransitionSystem

/-- The process takes the part of the server in its loop. -/
def ServerRole (s : Server) : Prop := 0 < s.childpid

/-- At the top of the loop, a process in the role of the server goes on to read the terminal. -/
theorem serverRole_accept {s : Server} (hphase : s.phase = .top) (hrole : ServerRole s) :
    serverNext s (.accept none) = some { s with phase := .admin } := by
  simp only [serverNext]
  rw [if_pos ⟨hphase, hrole⟩]
  rfl

/-- A user was admitted: one slot, which was empty, holds the positive number of a new child and two
descriptors which were opened since, and the others are as they were. -/
def Admitted (s s' : Server) : Prop :=
  ∃ idx, (s.table.users idx).status = .empty ∧ (∀ j, j ≠ idx → s'.table.users j = s.table.users j) ∧
    s'.table.Full idx ∧ 0 < (s'.table.users idx).pid ∧ (s'.table.users idx).pid ∈ s'.table.children ∧
    (s'.table.users idx).pid ∉ s.table.children ∧
    (s'.table.users idx).fdToUser ≠ (s'.table.users idx).fdToServer ∧
    ∀ fd ∈ [(s'.table.users idx).fdToUser, (s'.table.users idx).fdToServer], fd ∈ s'.table.openFds ∧
      fd ∉ s.table.openFds

/-- The connection was handled as a whole: a user was admitted or the slots are as they were, and the
process is still in the role of the server. -/
def AdmissionAtomic (s s' : Server) : Prop :=
  (Admitted s s' ∨ s'.table.users = s.table.users) ∧ ServerRole s'

/-- An admission is atomic exactly if the calls for the child succeed. -/
theorem admissionAtomic_admitUser_iff {idx : Fin maxUser} {c : Connection} {s s₁ s' : Server}
    (hempty : (s.table.users idx).status = .empty) (hframe : Undisturbed s s₁)
    (hopen : ∀ fd, fd ∈ s₁.table.openFds ↔ fd ∈ s.table.openFds ∨ fd = s₁.childReadingFromUser.readEnd ∨
      fd = s₁.childWritingToUser.writeEnd)
    (hadmission : admitUser idx c s₁ = some s') : AdmissionAtomic s s' ↔ c.Succeeds := by
  obtain ⟨user, husers, hfull, hpid, -, hfdToUser, hfdToServer, -, hfork⟩ := admitUser_cases hadmission
  obtain ⟨hsucceeds, hfails⟩ := admitUser_openFds hadmission ((hopen _).mpr (Or.inr (Or.inl rfl)))
    ((hopen _).mpr (Or.inr (Or.inr rfl)))
  rw [hframe.users] at husers
  have hself : s'.table.users idx = user := by rw [husers, Function.update_self]
  constructor
  · rintro ⟨⟨idx', -, hkept, -, hpos, -, -, hne, hnew⟩ | hsame, hrole⟩
    · -- The slot which changed is the one which was assigned.
      obtain rfl : idx = idx' := by
        by_contra hidx
        have hstatus := congrArg User.status (hkept idx hidx)
        rw [hself, hfull, hempty] at hstatus
        exact absurd hstatus (by decide)
      rw [hself, hfdToUser, hfdToServer] at hne hnew
      have hforked : c.pid ≠ none := by
        rcases hfork with ⟨-, hfailed, -⟩ | ⟨hsome, -⟩
        · rw [ServerRole, hfailed] at hrole
          exact absurd hrole (by decide)
        · exact hsome
      have hpipes : ¬ (c.serverReadingFromChild = none ∨ c.serverWritingToChild = none) := by
        intro hnone
        have hlast (fd : ℤ) (hfd : fd ∈ s'.table.openFds) (hfresh : fd ∉ s.table.openFds) :
            fd = s'.serverReadingFromChild.readEnd := by
          rcases hfails hnone fd hfd with ⟨hold, hread', hwrite'⟩ | heq
          · exact absurd ((hopen fd).mp hold) (by simp [hfresh, hread', hwrite'])
          · exact heq
        have hfresh := hnew s'.serverWritingToChild.writeEnd (by simp)
        exact hne (hlast _ hfresh.1 hfresh.2)
      exact ⟨fun hnone => hpipes (Or.inl hnone), fun hnone => hpipes (Or.inr hnone), hforked⟩
    · have hstatus := congrArg User.status (congrFun hsame idx)
      rw [hself, hfull, hempty] at hstatus
      exact absurd hstatus (by decide)
  · rintro ⟨hreading, hwriting, hforked⟩
    obtain ⟨hne, hfresh, hfresh', hall⟩ := hsucceeds hreading hwriting
    rcases hfork with ⟨hnone, -⟩ | ⟨-, hpos, hnew, hafter⟩
    · exact absurd hnone hforked
    · refine ⟨Or.inl ⟨idx, hempty, fun j hj => by rw [husers, Function.update_of_ne hj], ?_⟩, hpos⟩
      rw [Table.Full, hself, hpid, hfdToUser, hfdToServer]
      refine ⟨hfull, hpos, ?_, ?_, hne, ?_⟩
      · rw [hafter]
        exact Finset.mem_insert_self _ _
      · rw [← hframe.children]
        exact hnew
      · intro fd hfd
        simp only [List.mem_cons, List.not_mem_nil, or_false] at hfd
        rw [hall, hopen] at *
        grind

/-- If the connection of a step is admissible, both calls of `pipe` and `fork` succeed. -/
def AdmissionsSucceed (s : Server) (label : ServerLabel) : Prop :=
  ∀ c idx, label = .accept (some c) → Admissible c s idx → c.Succeeds

/-- A connection is handled as a whole exactly if it is not admissible or these calls succeed. -/
theorem admissionAtomic_accept_iff {s s' : Server} {outcome : Option Connection}
    (h : serverNext s (.accept outcome) = some s') :
    AdmissionAtomic s s' ↔ AdmissionsSucceed s (.accept outcome) := by
  obtain ⟨hturn, s₁, haccept, rfl⟩ := serverNext_accept h
  rcases acceptUser_cases haccept with
    ⟨hrejected, hframe⟩ | ⟨c, idx, s₀, rfl, hadmissible, hframe, -, -, -, hopen, hadmission⟩
  · refine iff_of_true ⟨Or.inr hframe.users, ?_⟩ fun c idx heq hadmissible => ?_
    · exact hframe.childpid ▸ hturn.2
    · exact absurd hadmissible (hrejected c idx (ServerLabel.accept.inj heq))
  · have hatomic := admissionAtomic_admitUser_iff
        (findEmptySlot_eq_some hadmissible.2.1) hframe hopen hadmission
    constructor
    · intro hafter c' idx' heq _
      obtain rfl := Option.some.inj (ServerLabel.accept.inj heq)
      exact hatomic.mp hafter
    · exact fun hsucceed => hatomic.mpr (hsucceed c idx rfl hadmissible)

/-- If the calls for admissible connections succeed, the process stays in its role. -/
theorem serverRole_step {s s' : Server} {label : ServerLabel} (hrole : ServerRole s)
    (hsucceed : AdmissionsSucceed s label) (h : serverNext s label = some s') : ServerRole s' := by
  by_cases hlabel : ∃ outcome, label = .accept outcome
  · obtain ⟨outcome, rfl⟩ := hlabel
    exact ((admissionAtomic_accept_iff h).mpr hsucceed).2
  · obtain ⟨hsame, -⟩ := serverNext_removesOnly h fun outcome heq => hlabel ⟨outcome, heq⟩
    rw [ServerRole, hsame]
    exact hrole

/-- In every state which is reached, whatever failed before, a connection is handled as a whole exactly
if it is not admissible or the calls for the child succeed; and the server which meets no other
connections is in its role in every state. -/
theorem admission_atomic (s : Server) :
    (serverSystem.Reachable s → ∀ outcome s', serverNext s (.accept outcome) = some s' →
      (AdmissionAtomic s s' ↔ AdmissionsSucceed s (.accept outcome))) ∧
    ((serverSystem.restrict AdmissionsSucceed).Reachable s → ServerRole s) := by
  refine ⟨fun _ outcome s' h => admissionAtomic_accept_iff h, fun hs => ?_⟩
  have hstep (s : Server) (label : ServerLabel) (s' : Server) (hrole : ServerRole s)
      (h : (serverSystem.restrict AdmissionsSucceed).step s label s') :
      ServerRole s' := serverRole_step hrole h.1 h.2
  refine hs.invariant (fun s hinit => ?_) hstep
  obtain ⟨gSfd, -, -, -, hchildpid, -⟩ := hinit
  rw [ServerRole, hchildpid]
  decide

/-- The connection for `ann` is admissible in the beginning. -/
theorem annConnection_admissible (serverWritingToChild : Option PipeEnds) (pid : Option ℤ) :
    Admissible (annConnection serverWritingToChild pid) freshServer 0 :=
  ⟨⟨by simp [annConnection], by simp [annConnection], by simp [annConnection]⟩, by decide,
    show findUserIndex initUserList (bytes "ann") = none by decide⟩

/-- In the beginning a connection for which every call succeeds is handled as a whole. -/
theorem admission_atomic_fresh :
    ∃ s', serverNext freshServer (.accept (some (annConnection (some ⟨7, 9⟩) (some 100)))) =
    some s' ∧ AdmissionAtomic freshServer s' := by
  have hstep : (serverNext freshServer
      (.accept (some (annConnection (some ⟨7, 9⟩) (some 100))))).isSome := by
    decide +kernel
  obtain ⟨s', hstep⟩ := Option.isSome_iff_exists.mp hstep
  refine ⟨s', hstep,
    ((admission_atomic freshServer).1 (Reachable.of_init freshServer_init) _ s' hstep).mpr ?_⟩
  intro c idx heq _
  obtain rfl := Option.some.inj (ServerLabel.accept.inj heq)
  exact ⟨by decide, by decide, by decide⟩

/-- A `pipe` which fails, and a `fork` which fails, each leave a connection half handled. -/
theorem admission_not_atomic : serverSystem.Reachable freshServer ∧
    (∃ s', serverNext freshServer (.accept (some (annConnection none (some 100)))) = some s' ∧
      ¬ AdmissionAtomic freshServer s') ∧
    ∃ s', serverNext freshServer (.accept (some (annConnection (some ⟨7, 9⟩) none))) = some s' ∧
      ¬ AdmissionAtomic freshServer s' := by
  refine ⟨Reachable.of_init freshServer_init, ?_, ?_⟩
  · have hstep : (serverNext freshServer (.accept (some (annConnection none (some 100))))).isSome := by
      decide +kernel
    obtain ⟨s', hstep⟩ := Option.isSome_iff_exists.mp hstep
    refine ⟨s', hstep, fun hatomic => ?_⟩
    exact ((admissionAtomic_accept_iff hstep).mp hatomic _ _ rfl
      (annConnection_admissible none (some 100))).2.1 rfl
  · have hstep : (serverNext freshServer
        (.accept (some (annConnection (some ⟨7, 9⟩) none)))).isSome := by decide +kernel
    obtain ⟨s', hstep⟩ := Option.isSome_iff_exists.mp hstep
    refine ⟨s', hstep, fun hatomic => ?_⟩
    exact ((admissionAtomic_accept_iff hstep).mp hatomic _ _ rfl
      (annConnection_admissible (some ⟨7, 9⟩) none)).2.2 rfl

end Csci4061.Chat
