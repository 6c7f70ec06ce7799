import Csci4061.Chat.Processes

/-!
# Where the ends of the pipes are

The invariant of the processes says which ends each of them may have: the server the two ends to and
from the child of every user in its table, a child the ends to its own user and copies of what the
server keeps, and a user the ends which it was sent. Every step keeps it, as long as the calls of the
server succeed.
-/

namespace Csci4061.Chat

open Csci4061.Lib Csci4061.Lib.TransitionSystem

/-- The ends which the server uses. -/
def End.ForServer (e : End) : Prop :=
  e.pipe = .serverToChild ∧ e.writes = true ∨ e.pipe = .childToServer ∧ e.writes = false

/-- An end which the server may keep: if the user of its connection was admitted, it is one which the
server uses. -/
def Holdings.Kept (p : Holdings) (e : End) : Prop :=
  ∃ admitted, p.admitted[e.connection]? = some admitted ∧ (admitted = true → e.ForServer)

/-- What the descriptors of all processes refer to. Every child belongs to a full slot, whose descriptors
are ends of its pipes, and has beside its own ends only such as the server kept. -/
structure EndsInv (p : Holdings) (t : Table) : Prop where
  table : TableInv t
  children : ∀ pid ∈ t.children, ∃ i, t.Full i ∧ (t.users i).pid = pid
  admitted : ∀ pid ∈ t.children, p.admitted[p.childOf pid]? = some true
  distinct : ∀ pid ∈ t.children, ∀ pid' ∈ t.children, p.childOf pid = p.childOf pid' → pid = pid'
  toUser : ∀ i, t.Full i → p.ends (t.users i).fdToUser = some ⟨p.childOf (t.users i).pid,
    .serverToChild, true⟩
  toServer : ∀ i, t.Full i → p.ends (t.users i).fdToServer = some ⟨p.childOf (t.users i).pid,
    .childToServer, false⟩
  server : ∀ fd ∈ t.openFds, ∀ e, p.ends fd = some e → p.Kept e
  refused : ∀ k, p.admitted[k]? = some false → p.clients k ≠ [] →
    ∃ fd ∈ t.openFds, p.ends fd = some ⟨k, .childToUser, true⟩
  child : ∀ pid ∈ t.children, ∀ fd e, p.childEnds pid fd = some e →
    e.connection = p.childOf pid ∧ e.ForChild ∨ e.connection ≠ p.childOf pid ∧ p.Kept e
  writesUser : ∀ pid ∈ t.children, ∃ fd, p.childEnds pid fd = some ⟨p.childOf pid, .childToUser, true⟩
  writesServer : ∀ pid ∈ t.children,
    ∃ fd, p.childEnds pid fd = some ⟨p.childOf pid, .childToServer, true⟩
  clients : ∀ k, ∀ e ∈ p.clients k, e.connection = k ∧ (e.pipe = .userToChild ∨ e.pipe = .childToUser)
  connected : ∀ k, p.clients k ≠ [] → k < p.admitted.length ∧ ⟨k, .userToChild, true⟩ ∈ p.clients k

/-- In the beginning there are no connections. -/
theorem endsInv_init {p : Processes} (h : ProcessInit p) : EndsInv p.toHoldings p.server.table := by
  obtain ⟨hinit, hends, hadmitted, hclients⟩ := h
  have htable := tableInv_init hinit
  obtain ⟨gSfd, -, heq, -⟩ := hinit
  have hchildren : p.server.table.children = ∅ := by rw [heq]
  have hempty (i : Fin maxUser) :
      ¬ p.server.table.Full i := by simp [heq, Table.Full, initUserList, emptyUser]
  constructor <;> simp [htable, hchildren, hempty, hends, hclients, hadmitted]

/-- More plain events change nothing. -/
theorem EndsInv.quiet {p : Holdings} {t t' : Table} (h : EndsInv p t) (hquiet : Quiet t t') :
    EndsInv p t' := by
  have hfull (i : Fin maxUser) : t'.Full i ↔ t.Full i := by rw [Table.Full, hquiet.users, Table.Full]
  refine ⟨h.table.of_eq hquiet.users hquiet.children hquiet.openFds.ge, ?_, hquiet.children ▸ h.admitted,
    hquiet.children ▸ h.distinct, ?_, ?_, hquiet.openFds ▸ h.server, hquiet.openFds ▸ h.refused,
    hquiet.children ▸ h.child, hquiet.children ▸ h.writesUser, hquiet.children ▸ h.writesServer,
      h.clients, h.connected⟩
  · simp only [hquiet.children, hquiet.users, hfull]
    exact h.children
  · simp only [hquiet.users, hfull]
    exact h.toUser
  · simp only [hquiet.users, hfull]
    exact h.toServer

/-- The removal of a user takes its child away and closes the two descriptors in its slot. -/
theorem EndsInv.kickUser {p : Holdings} {t : Table} (h : EndsInv p t) {i : Fin maxUser} (hi : t.Full i)
    {outcome : SlotOutcome} (hcloses : outcome.Closes) : EndsInv p (kickUser i outcome t) := by
  have hpid : (t.users i).pid ≠ -1 := by have := (h.table.full i hi).pid_pos; omega
  have hchildren := @kickUser_children i outcome t hpid
  have hopen := (@kickUser_of_closes i outcome t hcloses).2
  have hchild (pid : ℤ) (hmem : pid ∈ (Chat.kickUser i outcome t).children) : pid ∈ t.children := by
    rw [hchildren] at hmem
    exact Finset.mem_of_mem_erase hmem
  have hslot {j : Fin maxUser} (hj : (Chat.kickUser i outcome t).Full j) :
      t.Full j ∧ (Chat.kickUser i outcome t).users j = t.users j := by
    obtain ⟨hji, hfull⟩ := (full_kickUser_iff hcloses).mp hj
    exact ⟨hfull, kickUser_users_of_ne hji outcome t⟩
  refine ⟨h.table.kickUser hi hcloses, fun pid hmem => ?_, fun pid hmem => h.admitted pid
    (hchild pid hmem),
    fun pid hmem pid' hmem' => h.distinct pid (hchild pid hmem) pid' (hchild pid' hmem'),
    fun j hj => ?_, fun j hj => ?_,
    fun fd hfd => h.server fd ?_, fun k hk hclients => ?_, fun pid hmem => h.child pid (hchild pid hmem),
    fun pid hmem => h.writesUser pid (hchild pid hmem), fun pid hmem =>
      h.writesServer pid (hchild pid hmem),
    h.clients, h.connected⟩
  · obtain ⟨j, hj, rfl⟩ := h.children pid (hchild pid hmem)
    have hji : j ≠ i := by
      rintro rfl
      rw [hchildren] at hmem
      exact Finset.notMem_erase _ _ hmem
    exact ⟨j, (full_kickUser_iff hcloses).mpr ⟨hji, hj⟩, by rw [kickUser_users_of_ne hji]⟩
  · rw [(hslot hj).2]
    exact h.toUser j (hslot hj).1
  · rw [(hslot hj).2]
    exact h.toServer j (hslot hj).1
  · rw [hopen] at hfd
    exact Finset.mem_of_mem_erase (Finset.mem_of_mem_erase hfd)
  · obtain ⟨fd, hfd, hend⟩ := h.refused k hk hclients
    refine ⟨fd, ?_, hend⟩
    rw [hopen, Finset.mem_erase, Finset.mem_erase]
    refine ⟨?_, ?_, hfd⟩
    · rintro rfl
      exact absurd (hend.symm.trans (h.toServer i hi)) (by simp)
    · rintro rfl
      exact absurd (hend.symm.trans (h.toUser i hi)) (by simp)

/-- What is known of a connection stays known when there is another one. -/
theorem getElem?_append_of_some {known : List Bool} {j : ℕ} {a : Bool}
    (h : known[j]? = some a) (b : Bool) :
    (known ++ [b])[j]? = some a := by
  rw [List.getElem?_append_left (List.getElem?_eq_some_iff.mp h).1, h]

/-- What the server may keep it may keep when there is another connection. -/
theorem Holdings.Kept.append {p p' : Holdings} {e : End} (h : p.Kept e) {b : Bool}
    (hadmitted : p'.admitted = p.admitted ++ [b]) : p'.Kept e ∧ e.connection ≠ p.admitted.length := by
  obtain ⟨a, ha, hserver⟩ := h
  exact ⟨⟨a, hadmitted ▸ getElem?_append_of_some ha b, hserver⟩, (List.getElem?_eq_some_iff.mp ha).1.ne⟩

/-- The ends which a new user has belong to its own pipes, and the one it writes to is among them. -/
theorem EndsInv.connect {p p' : Holdings} {t : Table} (h : EndsInv p t) {c : Connection} {b : Bool}
    (hadmitted : p'.admitted = p.admitted ++ [b])
    (hclients : p'.clients = Function.update p.clients p.admitted.length (sentEnds p.admitted.length c))
    (k : ℕ) :
    (∀ e ∈ p'.clients k, e.connection = k ∧ (e.pipe = .userToChild ∨ e.pipe = .childToUser)) ∧
      (p'.clients k ≠ [] → k < p'.admitted.length ∧ ⟨k, .userToChild, true⟩ ∈ p'.clients k) := by
  rw [hclients, hadmitted, List.length_append, List.length_singleton]
  by_cases hk : k = p.admitted.length
  · subst hk
    rw [Function.update_self, sentEnds]
    split <;> simp
  · rw [Function.update_of_ne hk]
    exact ⟨h.clients k, fun hne => ⟨Nat.lt_succ_of_lt (h.connected k hne).1, (h.connected k hne).2⟩⟩

/-- A refused connection keeps the invariant. -/
theorem EndsInv.refuses {c : Connection} {p p' : Processes} (h : EndsInv p.toHoldings p.server.table)
    (hrefuses : Refuses c p p') : EndsInv p'.toHoldings p'.server.table := by
  obtain ⟨hframe, hadmitted, hchildOf, hchildEnds, hclients, hkept, hnew, hwrites⟩ := hrefuses
  have husers := hframe.users
  have hchildren := hframe.children
  have hfull (i : Fin maxUser) : p'.server.table.Full i ↔ p.server.table.Full i := by
    rw [Table.Full, husers, Table.Full]
  have htable : TableInv p'.server.table := h.table.of_eq husers hchildren hframe.openFds
  refine ⟨htable, ?_, ?_, ?_, fun i hi => ?_, fun i hi => ?_, fun fd hfd e he => ?_, fun k hk hne => ?_,
    ?_, ?_, ?_,
    fun k => (h.connect hadmitted hclients k).1, fun k => (h.connect hadmitted hclients k).2⟩
  · simp only [hchildren, husers, hfull]
    exact h.children
  · rw [hchildren, hchildOf, hadmitted]
    exact fun pid hmem => getElem?_append_of_some (h.admitted pid hmem) false
  · rw [hchildren, hchildOf]
    exact h.distinct
  · rw [husers, hchildOf, hkept _ ((h.table.full i ((hfull i).mp hi)).fds_open _ (by simp [User.fds]))]
    exact h.toUser i ((hfull i).mp hi)
  · rw [husers, hchildOf, hkept _ ((h.table.full i ((hfull i).mp hi)).fds_open _ (by simp [User.fds]))]
    exact h.toServer i ((hfull i).mp hi)
  · by_cases hold : fd ∈ p.server.table.openFds
    · rw [hkept fd hold] at he
      exact ((h.server fd hold e he).append hadmitted).1
    · refine ⟨false, ?_, by simp⟩
      rw [hnew fd hfd hold e he, hadmitted, List.getElem?_concat_length]
  · rw [hclients] at hne
    by_cases hk' : k = p.admitted.length
    · subst hk'
      rw [Function.update_self] at hne
      exact hwrites hne
    · rw [Function.update_of_ne hk'] at hne
      have hlt := (h.connected k hne).1
      rw [hadmitted, List.getElem?_append_left hlt] at hk
      obtain ⟨fd, hfd, hend⟩ := h.refused k hk hne
      exact ⟨fd, hframe.openFds hfd, (hkept fd hfd).trans hend⟩
  · rw [hchildren, hchildOf, hchildEnds]
    intro pid hmem fd e he
    refine (h.child pid hmem fd e he).imp_right fun hinherited =>
      ⟨hinherited.1, (hinherited.2.append hadmitted).1⟩
  · rw [hchildren, hchildOf, hchildEnds]
    exact h.writesUser
  · rw [hchildren, hchildOf, hchildEnds]
    exact h.writesServer

/-- An admission keeps the invariant, if it fills an empty slot with a new child and two new
descriptors. -/
theorem EndsInv.admits {c : Connection} {idx : Fin maxUser} {p p' : Processes} {user : User}
    (h : EndsInv p.toHoldings p.server.table) (htable : TableInv p'.server.table)
    (hadmits : Admits c idx p p') (hempty : ¬ p.server.table.Full idx)
    (husers : p'.server.table.users = Function.update p.server.table.users idx user)
    (hstatus : user.status = .full) (hunused : user.pid ∉ p.server.table.children)
    (hchildren : p'.server.table.children = insert user.pid p.server.table.children)
    (hopen : ∀ fd, fd ∈ p'.server.table.openFds ↔ fd ∈ p.server.table.openFds ∨ fd ∈ user.fds) :
    EndsInv p'.toHoldings p'.server.table := by
  obtain ⟨hadmitted, hclients, hchildOf, hothers, hkept, htoUser, htoServer, hchild, hwritesUser,
    hwritesServer⟩ := hadmits
  have hself : p'.server.table.users idx = user := by rw [husers, Function.update_self]
  have hother {j : Fin maxUser} (hj : j ≠ idx) : p'.server.table.users j = p.server.table.users j := by
    rw [husers, Function.update_of_ne hj]
  rw [hself] at hchildOf hothers htoUser htoServer hchild hwritesUser hwritesServer
  have hnewChild : p'.childOf user.pid = p.admitted.length := by rw [hchildOf, Function.update_self]
  have hold {pid : ℤ} (hmem : pid ∈ p.server.table.children) :
      pid ≠ user.pid ∧ p'.childOf pid = p.childOf pid ∧ p'.childEnds pid = p.childEnds pid ∧
        p.childOf pid ≠ p.admitted.length := by
    have hne : pid ≠ user.pid := by
      rintro rfl
      exact hunused hmem
    exact ⟨hne, by rw [hchildOf, Function.update_of_ne hne], hothers pid hne,
      (List.getElem?_eq_some_iff.mp (h.admitted pid hmem)).1.ne⟩
  have hlast : p'.admitted[p.admitted.length]? = some true := by
    rw [hadmitted, List.getElem?_concat_length]
  have hslot {j : Fin maxUser} (hj : p'.server.table.Full j) (hne : j ≠ idx) :
      p.server.table.Full j := by
    rw [Table.Full, hother hne] at hj
    exact hj
  have hends {j : Fin maxUser} (hj : p.server.table.Full j) {fd : ℤ}
      (hfd : fd ∈ (p.server.table.users j).fds) :
      p'.ends fd = p.ends fd := hkept fd ((h.table.full j hj).fds_open fd hfd)
  have hmem (pid : ℤ) (hpid : pid ∈ p'.server.table.children) :
      pid = user.pid ∨ pid ∈ p.server.table.children := by
    rw [hchildren] at hpid
    exact Finset.mem_insert.mp hpid
  refine ⟨htable, fun pid hpid => ?_, fun pid hpid => ?_, fun pid hpid pid' hpid' heq => ?_,
    fun j hj => ?_,
    fun j hj => ?_, fun fd hfd e he => ?_, fun k hk hne => ?_, fun pid hpid fd e he =>
      ?_, fun pid hpid => ?_,
    fun pid hpid => ?_, fun k => (h.connect hadmitted hclients k).1, fun k =>
      (h.connect hadmitted hclients k).2⟩
  · rcases hmem pid hpid with rfl | hpid
    · exact ⟨idx, by rw [Table.Full, hself, hstatus], by rw [hself]⟩
    · obtain ⟨j, hj, rfl⟩ := h.children pid hpid
      have hne : j ≠ idx := by
        rintro rfl
        exact hempty hj
      exact ⟨j, by rw [Table.Full, hother hne]; exact hj, by rw [hother hne]⟩
  · rcases hmem pid hpid with rfl | hpid
    · rw [hnewChild, hlast]
    · rw [(hold hpid).2.1, hadmitted]
      exact getElem?_append_of_some (h.admitted pid hpid) true
  · rcases hmem pid hpid with rfl | hpid <;> rcases hmem pid' hpid' with rfl | hpid'
    · rfl
    · rw [hnewChild, (hold hpid').2.1] at heq
      exact absurd heq.symm (hold hpid').2.2.2
    · rw [hnewChild, (hold hpid).2.1] at heq
      exact absurd heq (hold hpid).2.2.2
    · rw [(hold hpid).2.1, (hold hpid').2.1] at heq
      exact h.distinct pid hpid pid' hpid' heq
  · by_cases hne : j = idx
    · rw [hne, hself, htoUser, hnewChild]
    · have hj := hslot hj hne
      rw [hother hne, hends hj (by simp [User.fds]), (hold (h.table.full j hj).child).2.1]
      exact h.toUser j hj
  · by_cases hne : j = idx
    · rw [hne, hself, htoServer, hnewChild]
    · have hj := hslot hj hne
      rw [hother hne, hends hj (by simp [User.fds]), (hold (h.table.full j hj).child).2.1]
      exact h.toServer j hj
  · rcases (hopen fd).mp hfd with hfd | hfd
    · rw [hkept fd hfd] at he
      exact ((h.server fd hfd e he).append hadmitted).1
    · simp only [User.fds, List.mem_cons, List.not_mem_nil, or_false] at hfd
      rcases hfd with rfl | rfl
      · obtain rfl := Option.some.inj (htoUser.symm.trans he)
        exact ⟨true, hlast, fun _ => Or.inl ⟨rfl, rfl⟩⟩
      · obtain rfl := Option.some.inj (htoServer.symm.trans he)
        exact ⟨true, hlast, fun _ => Or.inr ⟨rfl, rfl⟩⟩
  · have hne' : k ≠ p.admitted.length := by
      rintro rfl
      rw [hlast] at hk
      exact absurd hk (by simp)
    rw [hclients, Function.update_of_ne hne'] at hne
    rw [hadmitted, List.getElem?_append_left (h.connected k hne).1] at hk
    obtain ⟨fd, hfd, hend⟩ := h.refused k hk hne
    exact ⟨fd, (hopen fd).mpr (Or.inl hfd), (hkept fd hfd).trans hend⟩
  · rcases hmem pid hpid with rfl | hpid
    · rw [hnewChild]
      rcases hchild fd e he with ⟨hfd, he⟩ | hown
      · obtain ⟨hkeeps, hne⟩ := (h.server fd hfd e he).append hadmitted
        exact Or.inr ⟨hne, hkeeps⟩
      · exact Or.inl hown
    · rw [(hold hpid).2.2.1] at he
      rw [(hold hpid).2.1]
      exact (h.child pid hpid fd e he).imp_right fun hinherited =>
        ⟨hinherited.1, (hinherited.2.append hadmitted).1⟩
  · rcases hmem pid hpid with rfl | hpid
    · rw [hnewChild]
      exact hwritesUser
    · rw [(hold hpid).2.1, (hold hpid).2.2.1]
      exact h.writesUser pid hpid
  · rcases hmem pid hpid with rfl | hpid
    · rw [hnewChild]
      exact hwritesServer
    · rw [(hold hpid).2.1, (hold hpid).2.2.1]
      exact h.writesServer pid hpid

/-- The cleanup loop leaves no slot full which it goes over, if it closes the descriptors of every full
one. -/
theorem not_mem_of_full_cleanupLoop {outcomes : Fin maxUser → SlotOutcome} {slots : List (Fin maxUser)}
    {t : Table} (hcloses : ∀ i ∈ slots, t.Full i → (outcomes i).Closes) {j : Fin maxUser}
    (hfull : (cleanupLoop outcomes slots t).Full j) : j ∉ slots := by
  induction slots generalizing t with
  | nil => exact List.not_mem_nil
  | cons i slots ih =>
    rw [List.forall_mem_cons] at hcloses
    rw [cleanupLoop] at hfull
    have hfirst := full_of_cleanupLoop hfull
    rw [List.mem_cons, not_or]
    by_cases hi : t.Full i
    · rw [if_pos hi] at hfull hfirst
      have hlater (k : Fin maxUser) (hk : k ∈ slots) (hk' : (kickUser i (outcomes i) t).Full k) :
          (outcomes k).Closes :=
        hcloses.2 k hk (full_of_kickUser hk')
      exact ⟨((full_kickUser_iff (hcloses.1 hi)).mp hfirst).1, ih hlater hfull⟩
    · rw [if_neg hi] at hfull hfirst
      refine ⟨?_, ih hcloses.2 hfull⟩
      rintro rfl
      exact hi hfirst

/-- The server exits by a command of the administrator, which removes every user. -/
theorem not_full_of_exits {s s' : Server} {label : ServerLabel} (hsucceed : CallsSucceed s label)
    (hstep : serverNext s label = some s') (hexited : s'.phase = .exited) (i : Fin maxUser) :
    ¬ s'.table.Full i := by
  cases label with
  | accept outcome =>
    obtain ⟨-, s₁, -, rfl⟩ := serverNext_accept hstep
    exact absurd hexited (by simp)
  | poll input outcomes =>
    obtain ⟨j, slots, s₁, -, -, rfl⟩ := serverNext_poll hstep
    exact absurd hexited (by simp)
  | sleep =>
    obtain rfl := serverNext_sleep hstep
    exact absurd hexited (by simp)
  | admin input outcomes =>
    obtain ⟨hphase, hadmin⟩ := serverNext_admin hstep
    cases input with
    | none =>
      obtain rfl := Option.some.inj hadmin
      exact absurd hexited (by simp)
    | some data =>
      obtain ⟨line, hline, hadmin⟩ := Option.bind_eq_some_iff.mp hadmin
      cases line with
      | none =>
        obtain rfl := Option.some.inj hadmin
        exact absurd hexited (by simp)
      | some line =>
        obtain ⟨s₁, hcommand, rfl⟩ := Option.map_eq_some_iff.mp hadmin
        have hcases := (adminCommand_cases hcommand).2
        obtain ⟨type, htype, hcommand⟩ := Option.bind_eq_some_iff.mp hcommand
        rw [htype] at hcases
        cases type with
        | exit =>
          have htable : s₁.table = cleanupUsers outcomes s.table := by simpa using hcases
          have hcloses (j : Fin maxUser) (_ : j ∈ List.finRange maxUser) (hj : s.table.Full j) :
              (outcomes j).Closes :=
            hsucceed.2 j ((removes_admin hphase hline).mpr (Or.inr ⟨htype, hj⟩))
          simp only [htable]
          exact fun hfull => not_mem_of_full_cleanupLoop hcloses hfull (List.mem_finRange i)
        | list =>
          obtain ⟨t, -, rfl⟩ := Option.map_eq_some_iff.mp hcommand
          exact absurd hexited (by simp)
        | kick =>
          obtain ⟨name, -, hcommand⟩ := Option.bind_eq_some_iff.mp hcommand
          simp only at hcommand
          split at hcommand
          · exact absurd (Option.some.inj hcommand ▸ hexited) (by simp)
          · split at hcommand <;> exact absurd (Option.some.inj hcommand ▸ hexited) (by simp)
        | p2p | seg | broadcast =>
          simp only at hcommand
          split at hcommand
          · exact absurd (Option.some.inj hcommand ▸ hexited) (by simp)
          · exact absurd hcommand (by simp)

/-- The calls of a step of the server for an admissible connection, and for a removal, succeed. -/
def ProcessLabel.Succeeds (p : Processes) : ProcessLabel → Prop
  | .server label => CallsSucceed p.server label
  | _ => True

/-- The processes, as long as these calls succeed. -/
def soundProcesses : TransitionSystem Processes ProcessLabel :=
  processSystem.restrict ProcessLabel.Succeeds

/-- The ends are where they belong, and a server which has exited left no user behind. -/
structure ProcessInv (p : Processes) : Prop where
  ends : EndsInv p.toHoldings p.server.table
  exited : p.server.phase = .exited → ∀ i, ¬ p.server.table.Full i

/-- A step of the server keeps the ends where they belong. -/
theorem endsInv_server {p p' : Processes} {label : ServerLabel} (h : EndsInv p.toHoldings p.server.table)
    (hsucceed : CallsSucceed p.server label) (hstep : processNext p (.server label) = some p') :
    EndsInv p'.toHoldings p'.server.table := by
  have hnext := serverNext_of_processNext hstep
  have htable : TableInv p'.server.table := tableInv_step h.table hsucceed hnext
  unfold processNext at hstep
  split at hstep
  · rename_i c hlabel
    obtain rfl := ProcessLabel.server.inj hlabel
    split at hstep
    · obtain ⟨p₁, haccept, rfl⟩ := Option.map_eq_some_iff.mp hstep
      rcases acceptConnection_cases hsucceed.1 haccept with ⟨-, hrefuses⟩ | ⟨idx, hadmissible, hadmits⟩
      · have hinv : EndsInv p₁.toHoldings p₁.server.table := h.refuses hrefuses
        exact hinv
      · have hserver : acceptUser (some c) p.server = some p₁.server := by
          rw [← acceptConnection_server, haccept, Option.map_some]
        rcases acceptUser_fills hsucceed.1 hserver with ⟨hrejects, -⟩ |
          ⟨c', idx', user, hc, hadmissible', husers, hstatus, -, -, hunused, hchildren, -, -, hopen⟩
        · exact absurd hadmissible (hrejects c idx rfl)
        · obtain rfl := Option.some.inj hc
          obtain rfl : idx = idx' := Option.some.inj (hadmissible.2.1.symm.trans hadmissible'.2.1)
          have hempty : ¬ p.server.table.Full idx := by
            rw [Table.Full, findEmptySlot_eq_some hadmissible.2.1]
            exact SlotStatus.noConfusion
          have hinv : EndsInv p₁.toHoldings p₁.server.table :=
            h.admits htable hadmits hempty husers hstatus hunused hchildren hopen
          exact hinv
    · exact absurd hstep (by simp)
  · rename_i hnot hlabel
    obtain rfl := ProcessLabel.server.inj hlabel
    obtain ⟨s, hserver, rfl⟩ := Option.map_eq_some_iff.mp hstep
    by_cases hlabel : ∃ outcome, label = .accept outcome
    · obtain ⟨outcome, rfl⟩ := hlabel
      cases outcome with
      | some c => exact absurd rfl (hnot c)
      | none =>
        obtain ⟨-, s₁, haccept, rfl⟩ := serverNext_accept hserver
        obtain rfl := Option.some.inj haccept
        exact h
    · obtain ⟨-, slots, t, hquiet, heq, -, hremoves⟩ :=
        serverNext_removesOnly hserver fun outcome heq => hlabel ⟨outcome, heq⟩
      simp only [heq]
      refine cleanupLoop_induction (fun i t ht hi hcloses => ht.kickUser hi hcloses) (h.quiet hquiet)
        fun i hi hfull => ?_
      rw [Table.Full, hquiet.users] at hfull
      exact hsucceed.2 i ((hremoves i).mpr ⟨hi, hfull⟩)
  · rename_i hlabel
    exact absurd hlabel (by simp)
  · rename_i hlabel
    exact absurd hlabel (by simp)

/-- A user who closes ends keeps the invariant, if it keeps the one it writes to or closes all. -/
theorem EndsInv.closes {p : Holdings} {t : Table} (h : EndsInv p t) {k : ℕ} {kept : List End}
    (hsubset : kept ⊆ p.clients k) (hwrites : kept ≠ [] → ⟨k, .userToChild, true⟩ ∈ kept) :
    EndsInv { p with clients := Function.update p.clients k kept } t := by
  have hclients (j : ℕ) : Function.update p.clients k kept j ⊆ p.clients j ∧
      (Function.update p.clients k kept j ≠ [] →
        ⟨j, .userToChild, true⟩ ∈ Function.update p.clients k kept j) := by
    by_cases hj : j = k
    · subst hj
      rw [Function.update_self]
      exact ⟨hsubset, hwrites⟩
    · rw [Function.update_of_ne hj]
      exact ⟨List.Subset.refl _, fun hne => (h.connected j hne).2⟩
  have hne {j : ℕ} (hj : Function.update p.clients k kept j ≠ []) : p.clients j ≠ [] :=
    fun hnil => hj (List.subset_nil.mp (hnil ▸ (hclients j).1))
  exact ⟨h.table, h.children, h.admitted, h.distinct, h.toUser, h.toServer, h.server,
    fun j hj hclient => h.refused j hj (hne hclient), h.child, h.writesUser, h.writesServer,
    fun j e he => h.clients j e ((hclients j).1 he), fun j hj =>
      ⟨(h.connected j (hne hj)).1, (hclients j).2 hj⟩⟩

/-- Every step keeps the invariant, as long as the calls succeed. -/
theorem processInv_step {p p' : Processes} {label : ProcessLabel} (h : ProcessInv p)
    (hsucceed : label.Succeeds p) (hstep : processNext p label = some p') : ProcessInv p' := by
  cases label with
  | server label =>
    exact ⟨endsInv_server h.ends hsucceed hstep,
      fun hexited => not_full_of_exits hsucceed (serverNext_of_processNext hstep) hexited⟩
  | settle k =>
    obtain rfl := Option.some.inj hstep
    refine ⟨h.ends.closes (List.filter_subset_self _) fun hne => ?_, h.exited⟩
    have hclient : p.clients k ≠ [] := fun hnil => hne (by rw [hnil, List.filter_nil])
    exact List.mem_filter.mpr ⟨(h.ends.connected k hclient).2, decide_eq_true (Or.inl ⟨rfl, rfl⟩)⟩
  | quit k =>
    obtain rfl := Option.some.inj hstep
    exact ⟨h.ends.closes (List.nil_subset _) fun hne => absurd rfl hne, h.exited⟩

/-- In the beginning the server runs and there are no connections. -/
theorem processInv_init {p : Processes} (h : ProcessInit p) : ProcessInv p := by
  refine ⟨endsInv_init h, fun hexited => ?_⟩
  obtain ⟨⟨gSfd, -, -, hphase, -⟩, -⟩ := h
  exact absurd (hphase.symm.trans hexited) (by decide)

/-- The invariant holds in every state which is reached with calls which succeed. -/
theorem processInv_reachable {p : Processes} (h : soundProcesses.Reachable p) : ProcessInv p := by
  have hstep (p : Processes) (label : ProcessLabel) (p' : Processes) (hinv : ProcessInv p)
      (hnext : soundProcesses.step p label p') : ProcessInv p' := processInv_step hinv hnext.1 hnext.2
  exact h.invariant (fun p hinit => processInv_init hinit) hstep

end Csci4061.Chat
