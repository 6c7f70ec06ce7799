import Csci4061.Chat.Admission

/-!
# The representation invariant of the user table

As long as the calls for admissible connections and the `close` calls of removals succeed, an empty
slot is as `init_user_list` leaves it, and a full slot has a name, a child and two descriptors of its
own. Names are compared before a user is admitted; that numbers are not shared is what the system
guarantees for a child which was not waited for and for a descriptor which is open.
-/

namespace Csci4061.Chat

open Csci4061.Lib Csci4061.Lib.TransitionSystem

/-- The descriptors in a slot. -/
def User.fds (user : User) : List ℤ := [user.fdToUser, user.fdToServer]

/-- A slot in use: its process is a child which was not waited for, and its descriptors are open. -/
structure InUse (t : Table) (user : User) : Prop where
  pid_pos : 0 < user.pid
  child : user.pid ∈ t.children
  fds_open : ∀ fd ∈ user.fds, fd ∈ t.openFds
  fds_ne : user.fdToUser ≠ user.fdToServer

/-- Two slots in use have nothing in common. -/
structure Apart (user user' : User) : Prop where
  name : user.name ≠ user'.name
  pid : user.pid ≠ user'.pid
  fds : user.fds.Disjoint user'.fds

/-- Empty slots are cleared, full slots are in use, and different full slots are apart. -/
structure TableInv (t : Table) : Prop where
  empty : ∀ i, (t.users i).status = .empty → t.users i = emptyUser
  full : ∀ i, t.Full i → InUse t (t.users i)
  apart : ∀ i j, t.Full i → t.Full j → i ≠ j → Apart (t.users i) (t.users j)

/-- In the beginning every slot is cleared. -/
theorem tableInv_init {s : Server} (h : ServerInit s) : TableInv s.table := by
  obtain ⟨gSfd, -, htable, -⟩ := h
  rw [htable]
  have hempty (i : Fin maxUser) : (initUserList i).status ≠ .full := by simp [initUserList, emptyUser]
  exact ⟨fun i _ => rfl, fun i hfull => absurd hfull (hempty i), fun i j hfull =>
    absurd hfull (hempty i)⟩

/-- More open descriptors do no harm. -/
theorem InUse.mono {t t' : Table} {user : User} (h : InUse t user) (hchildren : user.pid ∈ t'.children)
    (hopen : ∀ fd ∈ user.fds, fd ∈ t'.openFds) : InUse t' user :=
  ⟨h.pid_pos, hchildren, hopen, h.fds_ne⟩

/-- What two slots have nothing in common with, they have nothing in common with in either order. -/
theorem Apart.symm {user user' : User} (h : Apart user user') : Apart user' user :=
  ⟨h.name.symm, h.pid.symm, h.fds.symm⟩

/-- The slots, the children and more open descriptors keep the invariant. -/
theorem TableInv.of_eq {t t' : Table} (h : TableInv t) (husers : t'.users = t.users)
    (hchildren : t'.children = t.children) (hopen : t.openFds ⊆ t'.openFds) : TableInv t' := by
  have hfull (i : Fin maxUser) (hi : t'.Full i) : t.Full i := by
    rw [Table.Full, husers] at hi
    exact hi
  constructor
  · rw [husers]
    exact h.empty
  · intro i hi
    have hbefore := h.full i (hfull i hi)
    rw [husers]
    exact hbefore.mono (hchildren ▸ hbefore.child) fun fd hfd => hopen (hbefore.fds_open fd hfd)
  · intro i j hi hj
    rw [husers]
    exact h.apart i j (hfull i hi) (hfull j hj)

/-- A removal which closes both descriptors keeps the invariant. -/
theorem TableInv.kickUser {t : Table} (h : TableInv t) {i : Fin maxUser} (hi : t.Full i)
    {outcome : SlotOutcome} (hcloses : outcome.Closes) : TableInv (kickUser i outcome t) := by
  obtain ⟨hself, hopen⟩ := @kickUser_of_closes i outcome t hcloses
  have hpid : (t.users i).pid ≠ -1 := by have := (h.full i hi).pid_pos; omega
  have hchildren := @kickUser_children i outcome t hpid
  constructor
  · intro j hj
    by_cases hne : j = i
    · rw [hne]
      exact hself
    · rw [kickUser_users_of_ne hne] at hj ⊢
      exact h.empty j hj
  · intro j hj
    obtain ⟨hne, hfull⟩ := (full_kickUser_iff hcloses).mp hj
    have hapart := h.apart j i hfull hi hne
    rw [kickUser_users_of_ne hne]
    refine (h.full j hfull).mono ?_ fun fd hfd => ?_
    · rw [hchildren]
      exact Finset.mem_erase.mpr ⟨hapart.pid, (h.full j hfull).child⟩
    · rw [hopen, Finset.mem_erase, Finset.mem_erase]
      refine ⟨?_, ?_, (h.full j hfull).fds_open fd hfd⟩
      · exact fun heq => hapart.fds hfd (by simp [User.fds, heq])
      · exact fun heq => hapart.fds hfd (by simp [User.fds, heq])
  · intro j k hj hk hne
    obtain ⟨hji, hfull⟩ := (full_kickUser_iff hcloses).mp hj
    obtain ⟨hki, hfull'⟩ := (full_kickUser_iff hcloses).mp hk
    rw [kickUser_users_of_ne hji, kickUser_users_of_ne hki]
    exact h.apart j k hfull hfull' hne

/-- The cleanup loop keeps the invariant, if it closes the descriptors of every full slot. -/
theorem TableInv.cleanupLoop {t : Table} (h : TableInv t) {slots : List (Fin maxUser)}
    {outcomes : Fin maxUser → SlotOutcome} (hcloses : ∀ i ∈ slots, t.Full i → (outcomes i).Closes) :
    TableInv (cleanupLoop outcomes slots t) := by
  apply cleanupLoop_induction _ h hcloses
  intro i t h hfull hcloses
  exact h.kickUser hfull hcloses

/-- Filling an empty slot keeps the invariant, if its name, its process and its descriptors are new. -/
theorem TableInv.fill {t t' : Table} (h : TableInv t) {idx : Fin maxUser} {user : User}
    (husers : t'.users = Function.update t.users idx user) (hchildren : t.children ⊆ t'.children)
    (hopen : t.openFds ⊆ t'.openFds) (huse : InUse t' user) (hstatus : user.status = .full)
    (hname : ∀ i, t.Full i → (t.users i).name ≠ user.name) (hpid : user.pid ∉ t.children)
    (hfds : ∀ fd ∈ user.fds, fd ∉ t.openFds) : TableInv t' := by
  have hself : t'.users idx = user := by rw [husers, Function.update_self]
  have hother {j : Fin maxUser} (hj : j ≠ idx) :
      t'.users j = t.users j := by rw [husers, Function.update_of_ne hj]
  have hfull {j : Fin maxUser} (hj : j ≠ idx) (hj' : t'.Full j) : t.Full j := by
    rw [Table.Full, hother hj] at hj'
    exact hj'
  have hapart {j : Fin maxUser} (hj : t.Full j) : Apart (t.users j) user := by
    have hbefore := h.full j hj
    refine ⟨hname j hj, fun heq => hpid (heq ▸ hbefore.child), fun fd hfd hfd' => ?_⟩
    exact hfds fd hfd' (hbefore.fds_open fd hfd)
  constructor
  · intro i hi
    by_cases hidx : i = idx
    · rw [hidx, hself, hstatus] at hi
      exact absurd hi (by decide)
    · rw [hother hidx] at hi ⊢
      exact h.empty i hi
  · intro i hi
    by_cases hidx : i = idx
    · rw [hidx, hself]
      exact huse
    · have hbefore := h.full i (hfull hidx hi)
      rw [hother hidx]
      exact hbefore.mono (hchildren hbefore.child) fun fd hfd => hopen (hbefore.fds_open fd hfd)
  · intro i j hi hj hne
    by_cases hidx : i = idx
    · subst hidx
      rw [hself, hother (Ne.symm hne)]
      exact (hapart (hfull (Ne.symm hne) hj)).symm
    · by_cases hidx' : j = idx
      · subst hidx'
        rw [hself, hother hidx]
        exact hapart (hfull hidx hi)
      · rw [hother hidx, hother hidx']
        exact h.apart i j (hfull hidx hi) (hfull hidx' hj) hne

/-- A connection leaves the table alone, or fills an empty slot with a new child and two new
descriptors, if the calls for an admissible one succeed. No other descriptor stays open in the second
case. -/
theorem acceptUser_fills {outcome : Option Connection} {s s' : Server}
    (hsucceed : AdmissionsSucceed s (.accept outcome)) (haccept : acceptUser outcome s = some s') :
    (∀ c idx, outcome = some c → ¬ Admissible c s idx) ∧ Undisturbed s s' ∨
      ∃ c idx user, outcome = some c ∧ Admissible c s idx ∧
        s'.table.users = Function.update s.table.users idx user ∧
        user.status = .full ∧ user.name = sentName c s ∧ 0 < user.pid ∧ user.pid ∉ s.table.children ∧
        s'.table.children = insert user.pid s.table.children ∧ user.fdToUser ≠ user.fdToServer ∧
        (∀ fd ∈ user.fds, fd ∉ s.table.openFds) ∧
        ∀ fd, fd ∈ s'.table.openFds ↔ fd ∈ s.table.openFds ∨ fd ∈ user.fds := by
  rcases acceptUser_cases haccept with
    hrejected | ⟨c, idx, s₀, rfl, hadmissible, hframe, hsent, hread, hwrite, hopen, hadmission⟩
  · exact Or.inl hrejected
  · right
    obtain ⟨hreading, hwriting, hforked⟩ := hsucceed c idx rfl hadmissible
    obtain ⟨user, husers, hstatus, hpid, hname, hfdToUser, hfdToServer, -, hfork⟩ :=
      admitUser_cases hadmission
    obtain ⟨hends, -⟩ := admitUser_openFds hadmission ((hopen _).mpr (Or.inr (Or.inl rfl)))
      ((hopen _).mpr (Or.inr (Or.inr rfl)))
    obtain ⟨hne, hnew, hnew', hafter⟩ := hends hreading hwriting
    rcases hfork with ⟨hnone, -⟩ | ⟨-, hpos, hunused, hchildren⟩
    · exact absurd hnone hforked
    · rw [hframe.users] at husers
      rw [hframe.children, ← hpid] at hunused hchildren
      rw [← hpid] at hpos
      rw [← hfdToUser, ← hfdToServer] at hne hafter
      rw [← hfdToUser] at hnew
      rw [← hfdToServer] at hnew'
      refine ⟨c, idx, user, rfl, hadmissible, husers, hstatus, hname.trans hsent, hpos, hunused,
        hchildren, hne, ?_, ?_⟩
      · intro fd hfd hold
        simp only [User.fds, List.mem_cons, List.not_mem_nil, or_false] at hfd
        rcases hfd with rfl | rfl
        · exact hnew ((hopen _).mpr (Or.inl hold))
        · exact hnew' ((hopen _).mpr (Or.inl hold))
      · intro fd
        simp only [User.fds, hafter, hopen]
        grind

/-- A connection keeps the invariant, if the calls for an admissible one succeed. -/
theorem TableInv.acceptUser {outcome : Option Connection} {s s' : Server} (h : TableInv s.table)
    (hsucceed : AdmissionsSucceed s (.accept outcome)) (haccept : acceptUser outcome s = some s') :
    TableInv s'.table := by
  rcases acceptUser_fills hsucceed haccept with ⟨-, hframe⟩ |
    ⟨c, idx, user, -, hadmissible, husers, hstatus, hname, hpos, hunused, hchildren, hne, hnew, hkept⟩
  · exact h.of_eq hframe.users hframe.children hframe.openFds
  · refine h.fill husers ?_ (fun fd hfd => (hkept fd).mpr (Or.inl hfd))
      ⟨hpos, ?_, ?_, hne⟩ hstatus ?_ hunused hnew
    · rw [hchildren]
      exact Finset.subset_insert _ _
    · rw [hchildren]
      exact Finset.mem_insert_self _ _
    · exact fun fd hfd => (hkept fd).mpr (Or.inr hfd)
    · rw [hname]
      exact fun i hfull => findUserIndex_eq_none hadmissible.2.2 hfull

/-- The calls for admissible connections succeed, and so do those which close the descriptors of a
removed user. -/
def CallsSucceed (s : Server) (label : ServerLabel) : Prop :=
  AdmissionsSucceed s label ∧ ∀ i, Removes s label i → (label.outcomes i).Closes

/-- A step keeps the invariant if these calls succeed. -/
theorem tableInv_step {s s' : Server} {label : ServerLabel} (h : TableInv s.table)
    (hsucceed : CallsSucceed s label) (hstep : serverNext s label = some s') : TableInv s'.table := by
  by_cases hlabel : ∃ outcome, label = .accept outcome
  · obtain ⟨outcome, rfl⟩ := hlabel
    obtain ⟨-, s₁, haccept, rfl⟩ := serverNext_accept hstep
    have h₁ : TableInv s₁.table := h.acceptUser hsucceed.1 haccept
    exact h₁
  · obtain ⟨-, slots, t, hquiet, htable, -, hremoves⟩ :=
      serverNext_removesOnly hstep fun outcome heq => hlabel ⟨outcome, heq⟩
    have ht : TableInv t := h.of_eq hquiet.users hquiet.children hquiet.openFds.ge
    rw [htable]
    refine ht.cleanupLoop fun i hmem hfull => hsucceed.2 i ((hremoves i).mpr ⟨hmem, ?_⟩)
    rw [Table.Full, hquiet.users] at hfull
    exact hfull

/-- The names of different full slots differ. -/
theorem TableInv.namesDistinct {t : Table} (h : TableInv t) : NamesDistinct t.users := by
  intro i j hi hj hname
  by_contra hne
  exact (h.apart i j hi hj hne).name hname

/-- In every state which is reached with calls which succeed, the table has the representation
invariant, and a name is found exactly at the full slot which has it. -/
theorem user_table_invariant {s : Server} (h : (serverSystem.restrict CallsSucceed).Reachable s) :
    TableInv s.table ∧ ∀ userId i, findUserIndex s.table.users userId = some i ↔
      s.table.Full i ∧ (s.table.users i).name = userId := by
  have hstep (s : Server) (label : ServerLabel) (s' : Server) (hinv : TableInv s.table)
      (hnext : (serverSystem.restrict CallsSucceed).step s label s') : TableInv s'.table :=
    tableInv_step hinv hnext.1 hnext.2
  have hinv : TableInv s.table := h.invariant (fun s hinit => tableInv_init hinit) hstep
  exact ⟨hinv, fun userId i => findUserIndex_iff hinv.namesDistinct⟩

/-- The admin kicks the first user. -/
def kickAnn : Input := ⟨bytes "\\kick ann\n", by decide⟩

/-- Two users connect, one after the other, and the first one is kicked. -/
def admitTwoKickOne : List ServerLabel :=
  [.accept (some (annConnection (some ⟨7, 9⟩) (some 100))), .admin none allSucceed] ++
    List.replicate maxUser (.poll none allSucceed) ++
    [.sleep, .accept (some bobConnection), .admin (some kickAnn) allSucceed]

/-- Both users were admitted. The first one is found no more, and the second one is found in its slot. -/
theorem user_table_invariant_kicked :
    ∃ s, (serverSystem.restrict CallsSucceed).Reachable s ∧ TableInv s.table ∧
    findUserIndex s.table.users (bytes "ann") = none ∧ findUserIndex s.table.users
    (bytes "bob") = some 1 ∧ s.table.Full 1 := by
  have hrun : (exec serverNext freshServer admitTwoKickOne).map
      (fun s => (findUserIndex s.table.users (bytes "ann"), findUserIndex s.table.users (bytes "bob"))) =
        some (none, some 1) := by decide +kernel
  obtain ⟨s, hexec, hfound⟩ := Option.map_eq_some_iff.mp hrun
  obtain ⟨hann, hbob⟩ := Prod.mk.inj hfound
  have hlabels : ∀ label ∈ admitTwoKickOne, ∀ u, CallsSucceed u label := by
    have hcloses (i : Fin maxUser) : (allSucceed i).Closes := ⟨rfl, rfl⟩
    intro label hmem u
    simp only [admitTwoKickOne, List.mem_append, List.mem_cons, List.mem_replicate, List.not_mem_nil,
      or_false] at hmem
    rcases hmem with ((rfl | rfl) | ⟨-, rfl⟩) | rfl | rfl | rfl
    · refine ⟨fun c idx heq _ => ?_, fun i hremoves => hremoves.elim⟩
      obtain rfl := Option.some.inj (ServerLabel.accept.inj heq)
      exact ⟨by decide, by decide, by decide⟩
    · exact ⟨fun c idx heq => absurd heq (by simp), fun i hremoves => hremoves.elim⟩
    · exact ⟨fun c idx heq => absurd heq (by simp), fun i hremoves => hremoves.elim⟩
    · exact ⟨fun c idx heq => absurd heq (by simp), fun i hremoves => hremoves.elim⟩
    · refine ⟨fun c idx heq _ => ?_, fun i hremoves => hremoves.elim⟩
      obtain rfl := Option.some.inj (ServerLabel.accept.inj heq)
      exact ⟨by decide, by decide, by decide⟩
    · exact ⟨fun c idx heq => absurd heq (by simp), fun i _ => hcloses i⟩
  have hreachable : (serverSystem.restrict CallsSucceed).Reachable s :=
    ⟨freshServer, admitTwoKickOne, freshServer_init, (Run.of_exec hexec).restrict hlabels⟩
  obtain ⟨hinv, hfind⟩ := user_table_invariant hreachable
  exact ⟨s, hreachable, hinv, hann, hbob, ((hfind _ _).mp hbob).1⟩

end Csci4061.Chat
