import Csci4061.Chat.TableInvariant

/-!
# The ledger of the descriptors

Six descriptors and the socket of the connection are opened for a new user. Those which stay open for it
are the two in its slot, and a removal closes them. The other ends are closed in `get_connection`, after
it, and after `fork`, but not on the ways out in between: an error in `get_connection` leaves open all
that was opened before it, and a rejected user leaves the two ends which its child would have used.

So the open descriptors are those of the full slots, beside the ones which were open in the beginning,
exactly as long as every connection is admitted.
-/

namespace Csci4061.Chat

open Csci4061.Lib Csci4061.Lib.TransitionSystem

/-- The standard descriptors and the listening socket. -/
def baseFds (gSfd : ℤ) : Finset ℤ := {0, 1, 2, gSfd}

/-- The open descriptors are those and the two of each full slot. -/
def Ledger (gSfd : ℤ) (t : Table) : Prop :=
  ∀ fd, fd ∈ t.openFds ↔ fd ∈ baseFds gSfd ∨ ∃ i, t.Full i ∧ fd ∈ (t.users i).fds

/-- What the ledger needs: the representation invariant, and the slots have none of the descriptors which
stay open all the time. -/
structure LedgerInv (gSfd : ℤ) (t : Table) : Prop where
  table : TableInv t
  base_open : baseFds gSfd ⊆ t.openFds
  base_free : ∀ i, t.Full i → ∀ fd ∈ (t.users i).fds, fd ∉ baseFds gSfd

variable {gSfd : ℤ}

/-- The same slots and descriptors have the same ledger. -/
theorem Ledger.of_eq {t t' : Table} (h : Ledger gSfd t) (husers : t'.users = t.users)
    (hopen : t'.openFds = t.openFds) : Ledger gSfd t' := by
  intro fd
  rw [hopen, h fd]
  simp only [Table.Full, husers]

/-- The same slots and children and more open descriptors keep what the ledger needs. -/
theorem LedgerInv.of_eq {t t' : Table} (h : LedgerInv gSfd t) (husers : t'.users = t.users)
    (hchildren : t'.children = t.children) (hopen : t.openFds ⊆ t'.openFds) : LedgerInv gSfd t' := by
  refine ⟨h.table.of_eq husers hchildren hopen, h.base_open.trans hopen, ?_⟩
  simp only [Table.Full, husers]
  exact h.base_free

/-- In the beginning no slot is full. -/
theorem ledger_init {s : Server} (hinit : ServerInit s) (hopen : s.table.openFds = baseFds gSfd) :
    LedgerInv gSfd s.table ∧ Ledger gSfd s.table := by
  have hempty (i : Fin maxUser) : ¬ s.table.Full i := by
    obtain ⟨gSfd', -, htable, -⟩ := hinit
    rw [htable]
    simp [Table.Full, initUserList, emptyUser]
  refine ⟨⟨tableInv_init hinit, hopen.ge, fun i hfull => absurd hfull (hempty i)⟩, fun fd => ?_⟩
  rw [hopen]
  simp [hempty]

/-- A removal which closes both descriptors keeps what the ledger needs, and the ledger. -/
theorem LedgerInv.kickUser {t : Table} (h : LedgerInv gSfd t) {i : Fin maxUser} (hi : t.Full i)
    {outcome : SlotOutcome} (hcloses : outcome.Closes) :
    LedgerInv gSfd (kickUser i outcome t) ∧ (Ledger gSfd t → Ledger gSfd (kickUser i outcome t)) := by
  have hopen := (@kickUser_of_closes i outcome t hcloses).2
  have hmem (fd : ℤ) :
      fd ∈ (Chat.kickUser i outcome t).openFds ↔ fd ∈ t.openFds ∧ fd ∉ (t.users i).fds := by
    rw [hopen]
    simp only [Finset.mem_erase, User.fds, List.mem_cons, List.not_mem_nil, or_false]
    grind
  constructor
  · refine ⟨h.table.kickUser hi hcloses, ?_, ?_⟩
    · intro fd hfd
      exact (hmem fd).mpr ⟨h.base_open hfd, fun hslot => h.base_free i hi fd hslot hfd⟩
    · intro j hj
      obtain ⟨hji, hj⟩ := (full_kickUser_iff hcloses).mp hj
      rw [kickUser_users_of_ne hji]
      exact h.base_free j hj
  · intro hledger fd
    rw [hmem, hledger]
    constructor
    · rintro ⟨hbase | ⟨j, hj, hfd⟩, hother⟩
      · exact Or.inl hbase
      · have hji : j ≠ i := by
          rintro rfl
          exact hother hfd
        refine Or.inr ⟨j, (full_kickUser_iff hcloses).mpr ⟨hji, hj⟩, ?_⟩
        rw [kickUser_users_of_ne hji]
        exact hfd
    · rintro (hbase | ⟨j, hj, hfd⟩)
      · exact ⟨Or.inl hbase, fun hslot => h.base_free i hi fd hslot hbase⟩
      · obtain ⟨hji, hj⟩ := (full_kickUser_iff hcloses).mp hj
        rw [kickUser_users_of_ne hji] at hfd
        exact ⟨Or.inr ⟨j, hj, hfd⟩, fun hslot => (h.table.apart j i hj hi hji).fds hfd hslot⟩

/-- So does the cleanup loop, if it closes the descriptors of every full slot. -/
theorem LedgerInv.cleanupLoop {t : Table} (h : LedgerInv gSfd t) {slots : List (Fin maxUser)}
    {outcomes : Fin maxUser → SlotOutcome} (hcloses : ∀ i ∈ slots, t.Full i → (outcomes i).Closes) :
    LedgerInv gSfd (cleanupLoop outcomes slots t) ∧
    (Ledger gSfd t → Ledger gSfd (cleanupLoop outcomes slots t)) := by
  constructor
  · apply cleanupLoop_induction _ h hcloses
    intro i t h hfull hcloses
    exact (h.kickUser hfull hcloses).1
  · intro hledger
    have hboth : LedgerInv gSfd (Chat.cleanupLoop outcomes slots t) ∧
        Ledger gSfd (Chat.cleanupLoop outcomes slots t) := by
      apply cleanupLoop_induction (P := fun t => LedgerInv gSfd t ∧ Ledger gSfd t) _ ⟨h, hledger⟩ hcloses
      rintro i t ⟨h, hledger⟩ hfull hcloses
      obtain ⟨hinv, hkept⟩ := h.kickUser hfull hcloses
      exact ⟨hinv, hkept hledger⟩
    exact hboth.2

/-- A slot which is filled with two new descriptors keeps what the ledger needs, and the ledger. -/
theorem LedgerInv.fill {t t' : Table} (h : LedgerInv gSfd t) (htable : TableInv t') {idx : Fin maxUser}
    {user : User} (hempty : ¬ t.Full idx) (husers : t'.users = Function.update t.users idx user)
    (hstatus : user.status = .full) (hnew : ∀ fd ∈ user.fds, fd ∉ t.openFds)
    (hopen : ∀ fd, fd ∈ t'.openFds ↔ fd ∈ t.openFds ∨ fd ∈ user.fds) :
    LedgerInv gSfd t' ∧ (Ledger gSfd t → Ledger gSfd t') := by
  have hself : t'.users idx = user := by rw [husers, Function.update_self]
  have hother {j : Fin maxUser} (hj : j ≠ idx) :
      t'.users j = t.users j := by rw [husers, Function.update_of_ne hj]
  have hfull : t'.Full idx := by rw [Table.Full, hself, hstatus]
  constructor
  · refine ⟨htable, fun fd hfd => (hopen fd).mpr (Or.inl (h.base_open hfd)), ?_⟩
    intro j hj fd hfd hbase
    by_cases hidx : j = idx
    · rw [hidx, hself] at hfd
      exact hnew fd hfd (h.base_open hbase)
    · rw [Table.Full, hother hidx] at hj
      rw [hother hidx] at hfd
      exact h.base_free j hj fd hfd hbase
  · intro hledger fd
    rw [hopen, hledger, or_assoc]
    refine or_congr_right ⟨?_, ?_⟩
    · rintro (⟨j, hj, hfd⟩ | hfd)
      · have hidx : j ≠ idx := by
          rintro rfl
          exact hempty hj
        exact ⟨j, by rw [Table.Full, hother hidx]; exact hj, by rw [hother hidx]; exact hfd⟩
      · exact ⟨idx, hfull, by rw [hself]; exact hfd⟩
    · rintro ⟨j, hj, hfd⟩
      by_cases hidx : j = idx
      · rw [hidx, hself] at hfd
        exact Or.inr hfd
      · rw [Table.Full, hother hidx] at hj
        rw [hother hidx] at hfd
        exact Or.inl ⟨j, hj, hfd⟩

/-- A connection is admitted: it is complete, there is room for it and its name is free. -/
def Settles (s : Server) (label : ServerLabel) : Prop :=
  ∀ c, label = .accept (some c) → ∃ idx, Admissible c s idx

/-- An error in `get_connection` leaves the socket of the connection open. -/
theorem getConnection_leaks {c : Connection} {s s' : Server} (h : getConnection c s = some (-1, s')) :
    ∃ fd ∈ s'.table.openFds, fd ∉ s.table.openFds := by
  rw [getConnection] at h
  obtain ⟨t₁, hcfd, h⟩ := Option.bind_eq_some_iff.mp h
  obtain ⟨hnew, rfl⟩ := openFd_cases hcfd
  refine ⟨c.cfd, ?_, hnew⟩
  split at h
  · obtain ⟨-, rfl⟩ := Prod.mk.inj (Option.some.inj h)
    exact Finset.mem_insert_self _ _
  · obtain ⟨t₂, hpipe, h⟩ := Option.bind_eq_some_iff.mp h
    obtain ⟨-, -, rfl⟩ := openPipe_cases hpipe
    split at h
    · obtain ⟨-, rfl⟩ := Prod.mk.inj (Option.some.inj h)
      simp
    · obtain ⟨t₃, hpipe', h⟩ := Option.bind_eq_some_iff.mp h
      obtain ⟨-, -, rfl⟩ := openPipe_cases hpipe'
      split at h
      · obtain ⟨-, rfl⟩ := Prod.mk.inj (Option.some.inj h)
        simp
      · exact absurd (congrArg Prod.fst (Option.some.inj h)) (by simp)

/-- A connection which is not admitted leaves a descriptor open. -/
theorem acceptUser_leaks {c : Connection} {s s' : Server} (h : acceptUser (some c) s = some s')
    (hrejected : ∀ idx, ¬ Admissible c s idx) : ∃ fd ∈ s'.table.openFds, fd ∉ s.table.openFds := by
  unfold acceptUser at h
  obtain ⟨⟨result, s₀⟩, hconnection, h⟩ := Option.bind_eq_some_iff.mp h
  obtain ⟨hframe, ⟨rfl, -⟩ | ⟨rfl, hcomplete, huserId, hends, hnew, hopen⟩⟩ :=
    getConnection_cases hconnection
  · obtain rfl := Option.some.inj h
    exact getConnection_leaks hconnection
  · simp only [if_neg (by decide : ¬ (0 : ℤ) = -1)] at h
    -- The end of a pipe of the user which its child would have read from.
    have hleft : s₀.childReadingFromUser.readEnd ∈
        ((s₀.table.openFds.erase s₀.childReadingFromUser.writeEnd).erase
        s₀.childWritingToUser.readEnd) ∧ s₀.childReadingFromUser.readEnd ∉ s.table.openFds := by
      simp only [Server.userEnds] at hends hnew hopen
      grind
    split at h
    · obtain rfl := Option.some.inj h
      exact ⟨_, hleft⟩
    · rename_i idx hidx
      split at h
      · obtain rfl := Option.some.inj h
        exact ⟨_, hleft⟩
      · rename_i hfree
        refine absurd ⟨hcomplete, ?_, ?_⟩ (hrejected idx)
        · have husers : s₀.table.users = s.table.users := by rw [hframe.eq]
          rw [← husers]
          exact hidx
        · have hsame : sentName c s = cString s₀.userId := by rw [huserId, sentName]
          have husers : s₀.table.users = s.table.users := by rw [hframe.eq]
          rw [← husers, hsame]
          exact not_not.mp hfree

/-- A connection keeps what the ledger needs; and it keeps the ledger if and only if it is admitted. -/
theorem LedgerInv.accept {outcome : Option Connection} {s s' : Server} (h : LedgerInv gSfd s.table)
    (hsucceed : AdmissionsSucceed s (.accept outcome)) (haccept : acceptUser outcome s = some s') :
    LedgerInv gSfd s'.table ∧
    (Ledger gSfd s.table → (Ledger gSfd s'.table ↔ Settles s (.accept outcome))) := by
  rcases acceptUser_fills hsucceed haccept with ⟨hrejected, hframe⟩ |
    ⟨c, idx, user, rfl, hadmissible, husers, hstatus, -, -, -, -, -, hnew, hopen⟩
  · refine ⟨h.of_eq hframe.users hframe.children hframe.openFds, fun hledger => ?_⟩
    cases outcome with
    | none =>
      obtain rfl := Option.some.inj haccept
      exact iff_of_true hledger fun c hc => absurd hc (by simp)
    | some c =>
      refine iff_of_false ?_ ?_
      · intro hafter
        obtain ⟨fd, hfd, hleaked⟩ := acceptUser_leaks haccept fun idx => hrejected c idx rfl
        rw [hafter fd] at hfd
        simp only [Table.Full, hframe.users] at hfd
        exact hleaked ((hledger fd).mpr hfd)
      · intro hsettles
        obtain ⟨idx, hadmissible⟩ := hsettles c rfl
        exact hrejected c idx rfl hadmissible
  · have hempty : ¬ s.table.Full idx := by
      rw [Table.Full, findEmptySlot_eq_some hadmissible.2.1]
      decide
    obtain ⟨hinv, hledger⟩ := h.fill
        (h.table.acceptUser hsucceed haccept) hempty husers hstatus hnew hopen
    refine ⟨hinv, fun hbefore => iff_of_true (hledger hbefore) ?_⟩
    intro c' hc'
    obtain rfl := Option.some.inj (ServerLabel.accept.inj hc')
    exact ⟨idx, hadmissible⟩

/-- A step keeps what the ledger needs, if the calls outside of `get_connection` succeed. It keeps the
ledger if and only if its connection, if it has one, is admitted. -/
theorem LedgerInv.step {s s' : Server} {label : ServerLabel} (h : LedgerInv gSfd s.table)
    (hsucceed : CallsSucceed s label) (hstep : serverNext s label = some s') :
    LedgerInv gSfd s'.table ∧ (Ledger gSfd s.table → (Ledger gSfd s'.table ↔ Settles s label)) := by
  by_cases hlabel : ∃ outcome, label = .accept outcome
  · obtain ⟨outcome, rfl⟩ := hlabel
    obtain ⟨-, s₁, haccept, rfl⟩ := serverNext_accept hstep
    have hafter : LedgerInv gSfd s₁.table ∧
        (Ledger gSfd s.table → (Ledger gSfd s₁.table ↔ Settles s (.accept outcome))) :=
      h.accept hsucceed.1 haccept
    exact hafter
  · obtain ⟨-, slots, t, hquiet, htable, -, hremoves⟩ :=
      serverNext_removesOnly hstep fun outcome heq => hlabel ⟨outcome, heq⟩
    have ht : LedgerInv gSfd t := h.of_eq hquiet.users hquiet.children hquiet.openFds.ge
    have hcloses : ∀ i ∈ slots, t.Full i → (label.outcomes i).Closes := by
      intro i hmem hfull
      rw [Table.Full, hquiet.users] at hfull
      exact hsucceed.2 i ((hremoves i).mpr ⟨hmem, hfull⟩)
    obtain ⟨hinv, hledger⟩ := ht.cleanupLoop hcloses
    rw [htable]
    refine ⟨hinv, fun hbefore => iff_of_true (hledger (hbefore.of_eq hquiet.users hquiet.openFds)) ?_⟩
    exact fun c hc => absurd ⟨_, hc⟩ hlabel

/-- The runs whose connections are all admitted are the runs which keep the ledger in every state,
whatever the calls in `get_connection` report and as long as the others succeed. -/
theorem ledger_kept_iff {s₀ s : Server} {labels : List ServerLabel} (hinit : ServerInit s₀)
    (hopen : s₀.table.openFds = baseFds gSfd) :
    (((serverSystem.restrict CallsSucceed).restrict Settles).Run s₀ labels s ↔
      ((serverSystem.restrict CallsSucceed).keeping fun s => Ledger gSfd s.table).Run s₀ labels s) ∧
    (((serverSystem.restrict CallsSucceed).restrict Settles).Run s₀ labels s → Ledger gSfd s.table) := by
  obtain ⟨hinv, hledger⟩ := ledger_init hinit hopen
  have hiff : ((serverSystem.restrict CallsSucceed).restrict Settles).Run s₀ labels s ↔
      ((serverSystem.restrict CallsSucceed).keeping fun s => Ledger gSfd s.table).Run s₀ labels s :=
    @restrict_run_iff_keeping _ _ (serverSystem.restrict CallsSucceed) _ (fun s => Ledger gSfd s.table)
      (fun s => LedgerInv gSfd s.table) (fun _ _ _ h hstep => (h.step hstep.1 hstep.2).1)
      (fun _ _ _ h hbefore hstep => (h.step hstep.1 hstep.2).2 hbefore) _ _ _ hinv hledger
  exact ⟨hiff, fun hrun => (hiff.mp hrun).of_keeping hledger⟩

/-- The first user is admitted and the ledger is kept. -/
theorem ledger_kept_iff_ann : ∃ s,
    ((serverSystem.restrict CallsSucceed).keeping fun s => Ledger 3 s.table).Run freshServer
      [.accept (some (annConnection (some ⟨7, 9⟩) (some 100)))] s := by
  have hstep : (serverNext freshServer
      (.accept (some (annConnection (some ⟨7, 9⟩) (some 100))))).isSome := by
    decide +kernel
  obtain ⟨s, hnext⟩ := Option.isSome_iff_exists.mp hstep
  have hsucceed : CallsSucceed freshServer
      (.accept (some (annConnection (some ⟨7, 9⟩) (some 100)))) := by
    refine ⟨fun c idx heq _ => ?_, fun i hremoves => hremoves.elim⟩
    obtain rfl := Option.some.inj (ServerLabel.accept.inj heq)
    exact ⟨by decide, by decide, by decide⟩
  have hsettles : Settles freshServer (.accept (some (annConnection (some ⟨7, 9⟩) (some 100)))) := by
    intro c heq
    obtain rfl := Option.some.inj (ServerLabel.accept.inj heq)
    exact ⟨0, annConnection_admissible _ _⟩
  have hrun : ((serverSystem.restrict CallsSucceed).restrict Settles).Run freshServer
      [.accept (some (annConnection (some ⟨7, 9⟩) (some 100)))] s :=
    Run.nil.snoc ⟨hsettles, hsucceed, hnext⟩
  exact ⟨s, (ledger_kept_iff freshServer_init rfl).1.mp hrun⟩

/-- A connection whose name cannot be read. -/
def namelessConnection : Connection :=
  { annConnection none none with
    sent := none
    sent_length := fun _ h => absurd h (by simp) }

/-- One iteration of the loop in which only this connection arrives. -/
def namelessIteration : List ServerLabel :=
  let succeed := fun _ => ⟨true, true, true, -1⟩
  [.accept (some namelessConnection), .admin none succeed] ++ List.replicate maxUser
    (.poll none succeed) ++ [.sleep]

/-- After the iteration the socket of the connection is still open, and no slot is full. -/
theorem ledger_not_kept_nameless :
    ∃ s, (serverSystem.restrict CallsSucceed).Reachable s ∧ s.phase = .top ∧ ¬ Ledger 3 s.table := by
  have hrun : (exec serverNext freshServer namelessIteration).map
      (fun s => (s.phase, decide (4 ∈ s.table.openFds), decide (∀ i, ¬ s.table.Full i))) = some
      (.top, true, true) := by
    decide +kernel
  obtain ⟨s, hexec, hs⟩ := Option.map_eq_some_iff.mp hrun
  obtain ⟨hphase, hopen, hempty⟩ : s.phase = .top ∧ 4 ∈ s.table.openFds ∧ ∀ i, ¬ s.table.Full i := by
    simpa using hs
  have hlabels : ∀ label ∈ namelessIteration, ∀ u, CallsSucceed u label := by
    intro label hmem u
    simp only [namelessIteration, List.mem_append, List.mem_cons, List.mem_replicate, List.not_mem_nil,
      or_false] at hmem
    rcases hmem with ((rfl | rfl) | ⟨-, rfl⟩) | rfl
    · refine ⟨fun c idx heq hadmissible => ?_, fun i hremoves => hremoves.elim⟩
      obtain rfl := Option.some.inj (ServerLabel.accept.inj heq)
      exact absurd rfl hadmissible.1.2.2
    · exact ⟨fun c idx heq => absurd heq (by simp), fun i hremoves => hremoves.elim⟩
    · exact ⟨fun c idx heq => absurd heq (by simp), fun i hremoves => hremoves.elim⟩
    · exact ⟨fun c idx heq => absurd heq (by simp), fun i hremoves => hremoves.elim⟩
  refine ⟨s, ⟨freshServer, _, freshServer_init, (Run.of_exec hexec).restrict hlabels⟩, hphase,
    fun hledger => ?_⟩
  rcases (hledger 4).mp hopen with hbase | ⟨i, hfull, -⟩
  · exact absurd hbase (by decide)
  · exact hempty i hfull

end Csci4061.Chat
