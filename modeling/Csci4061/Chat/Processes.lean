import Csci4061.Chat.Session
import Csci4061.Chat.TableInvariant

/-!
# Which process holds which end of a pipe

A reader finds the end of file when no process has the write end of its pipe open. The four pipes of a
user are shared by three processes: `get_connection` makes two of them and sends all their ends to the
user, `main` makes the other two, and `fork` copies everything the server has open at that time to the
child. Each process then closes the ends which it does not use, and every later child still gets a copy
of what the server keeps.

A descriptor is a number, and a number is used again after it was closed. So the server has a map from
numbers to ends beside its open descriptors, and a child has the map it was forked with. What `sendmsg`
delivers is held by the user from then on; a user who never takes it is one who quits.
-/

namespace Csci4061.Chat

open Csci4061.Lib Csci4061.Lib.TransitionSystem

/-- The pipes made for a connection, by who writes to them and who reads. -/
inductive PipeName
  | userToChild
  | childToUser
  | childToServer
  | serverToChild
  deriving DecidableEq

/-- An end of a pipe, with the number of the connection it was made for. -/
structure End where
  connection : ℕ
  pipe : PipeName
  writes : Bool
  deriving DecidableEq

/-- Who has what. `ends` is what the numbers of the server refer to, as far as they are open. For every
connection it is known whether its user was admitted, and which ends the user has. A child is given by
its process number, for which the number of its connection and what its descriptors refer to are kept;
they mean nothing for a process which is not a child. -/
structure Holdings where
  ends : ℤ → Option End
  admitted : List Bool
  childOf : ℤ → ℕ
  childEnds : ℤ → ℤ → Option End
  clients : ℕ → List End

/-- The server, with what it, its children and its users have. -/
structure Processes extends Holdings where
  server : Server

/-- The two descriptors of a new pipe. -/
def openEnds (k : ℕ) (pipe : PipeName) (fds : PipeEnds) (ends : ℤ → Option End) : ℤ → Option End :=
  Function.update (Function.update ends fds.readEnd (some ⟨k, pipe, false⟩)) fds.writeEnd
    (some ⟨k, pipe, true⟩)

/-- Two calls of `pipe`, the second one if the first one succeeds. -/
def openPair (k : ℕ) (pipe pipe' : PipeName) (fds fds' : Option PipeEnds) (ends : ℤ → Option End) :
    ℤ → Option End :=
  match fds with
  | none => ends
  | some fds =>
    match fds' with
    | none => openEnds k pipe fds ends
    | some fds' => openEnds k pipe' fds' (openEnds k pipe fds ends)

/-- The descriptors which `get_connection` opens. -/
def connectionEnds (k : ℕ) (c : Connection) (ends : ℤ → Option End) : ℤ → Option End :=
  openPair k .userToChild .childToUser c.childReadingFromUser c.childWritingToUser
    (Function.update ends c.cfd none)

/-- What `get_connection` sends to the user. -/
def sentEnds (k : ℕ) (c : Connection) : List End :=
  if c.childReadingFromUser ≠ none ∧ c.childWritingToUser ≠ none then
    [⟨k, .userToChild, false⟩, ⟨k, .userToChild, true⟩, ⟨k, .childToUser, false⟩,
      ⟨k, .childToUser, true⟩]
  else []

/-- The descriptors which `main` opens for a child. -/
def childPipeEnds (k : ℕ) (c : Connection) (ends : ℤ → Option End) : ℤ → Option End :=
  openPair k .childToServer .serverToChild c.serverReadingFromChild c.serverWritingToChild ends

/-- A child has copies of the open descriptors, and closes the two ends of the server. -/
def forkedEnds (s : Server) (ends : ℤ → Option End) : ℤ → Option End := fun fd =>
  if fd ∈ (s.table.openFds.erase s.serverWritingToChild.writeEnd).erase
    s.serverReadingFromChild.readEnd then ends fd
  else none

/-- `admitUser`, with the child which it forks. -/
def admitChild (idx : Fin maxUser) (c : Connection) (p : Processes) : Option Processes :=
  let k := p.admitted.length
  let ends := childPipeEnds k c p.ends
  (initializePipes c p.server).bind fun s => (forkChild idx c s).bind fun s =>
    (registerUser idx c s).map fun s' =>
    { p with
      server := s'
      ends := ends
      admitted := p.admitted ++ [true]
      childOf := Function.update p.childOf s.childpid k
      childEnds := Function.update p.childEnds s.childpid (forkedEnds s ends) }

/-- `acceptUser`, for a connection which was accepted. -/
def acceptConnection (c : Connection) (p : Processes) : Option Processes :=
  let k := p.admitted.length
  (getConnection c p.server).bind fun (result, s) =>
    let p := { p with
      server := s
      ends := connectionEnds k c p.ends
      clients := Function.update p.clients k (sentEnds k c) }
    if result = -1 then some { p with admitted := p.admitted ++ [false] }
    else
      let t := (s.table.closeFd s.childReadingFromUser.writeEnd).closeFd s.childWritingToUser.readEnd
      let p := { p with server := { s with table := t } }
      match findEmptySlot t.users with
      | none => some { p with admitted := p.admitted ++ [false] }
      | some idx =>
        if findUserIndex t.users (cString s.userId) ≠ none
          then some { p with admitted := p.admitted ++ [false] }
        else admitChild idx c p

/-- The steps of the processes: one of the server, and for a user that it closes the ends which it does
not use, and that it quits. -/
inductive ProcessLabel
  | server (label : ServerLabel)
  | settle (k : ℕ)
  | quit (k : ℕ)

/-- The ends which a user keeps. -/
def End.ForUser (e : End) : Prop :=
  e.pipe = .userToChild ∧ e.writes = true ∨ e.pipe = .childToUser ∧ e.writes = false

instance (e : End) : Decidable e.ForUser := inferInstanceAs (Decidable (_ ∨ _))

/-- One step. The children neither open nor close anything in their loop. -/
def processNext (p : Processes) : ProcessLabel → Option Processes
  | .server (.accept (some c)) =>
    if p.server.phase = .top ∧ 0 < p.server.childpid then
      (acceptConnection c p).map fun p => { p with server := { p.server with phase := .admin } }
    else none
  | .server label => (serverNext p.server label).map fun s => { p with server := s }
  | .settle k =>
    some { p with clients := Function.update p.clients k ((p.clients k).filter fun e => e.ForUser) }
  | .quit k => some { p with clients := Function.update p.clients k [] }

/-- A server which was just started, before any connection. -/
def ProcessInit (p : Processes) : Prop :=
  ServerInit p.server ∧ (∀ fd, p.ends fd = none) ∧ p.admitted = [] ∧ ∀ k, p.clients k = []

/-- The processes, for any connections and inputs and any outcome of the system calls. -/
def processSystem : TransitionSystem Processes ProcessLabel := .ofNext ProcessInit processNext

/-- The admission of a user with its child is the one of the server. -/
theorem admitChild_server (idx : Fin maxUser) (c : Connection) (p : Processes) :
    (admitChild idx c p).map Processes.server = admitUser idx c p.server := by
  simp only [admitChild, admitUser, Option.map_bind, Function.comp_def, Option.map_map, Option.map_id']

/-- The server handles a connection as it does by itself. -/
theorem acceptConnection_server (c : Connection) (p : Processes) :
    (acceptConnection c p).map Processes.server = acceptUser (some c) p.server := by
  simp only [acceptConnection, acceptUser, Option.map_bind]
  congr 1
  funext outcome
  obtain ⟨result, s⟩ := outcome
  simp only [Function.comp_apply]
  split
  · rfl
  · generalize findEmptySlot _ = room
    cases room with
    | none => rfl
    | some idx =>
      simp only
      split
      · rfl
      · exact admitChild_server idx c _

/-- A step of the server among the processes is a step of the server. -/
theorem serverNext_of_processNext {p p' : Processes} {label : ServerLabel}
    (h : processNext p (.server label) = some p') : serverNext p.server label = some p'.server := by
  unfold processNext at h
  split at h
  · rename_i c hlabel
    obtain rfl := ProcessLabel.server.inj hlabel
    split at h
    · rename_i hturn
      obtain ⟨p₁, haccept, rfl⟩ := Option.map_eq_some_iff.mp h
      have hserver := acceptConnection_server c p
      rw [haccept, Option.map_some] at hserver
      simp only [serverNext, if_pos hturn, ← hserver, Option.map_some]
    · exact absurd h (by simp)
  · rename_i hlabel
    obtain rfl := ProcessLabel.server.inj hlabel
    obtain ⟨s, hserver, rfl⟩ := Option.map_eq_some_iff.mp h
    exact hserver
  · rename_i hlabel
    exact absurd hlabel (by simp)
  · rename_i hlabel
    exact absurd hlabel (by simp)

/-- What a connection opens. Numbers which were open refer to what they referred to, and new ones to the
two pipes of the user, if to a pipe at all. If the ends are sent, the server has a write end of its own
to the user; and if the connection is complete, the two ends for the child are there. -/
theorem getConnection_ends {c : Connection} {s s' : Server} {result : ℤ}
    (h : getConnection c s = some (result, s')) (k : ℕ) (ends : ℤ → Option End) :
    (∀ fd ∈ s.table.openFds, connectionEnds k c ends fd = ends fd) ∧
    (∀ fd ∈ s'.table.openFds, fd ∉ s.table.openFds → ∀ e, connectionEnds k c ends fd = some e →
      e.connection = k) ∧
    (sentEnds k c ≠ [] → ∃ fd ∈ s'.table.openFds, connectionEnds k c ends fd = some
      ⟨k, .childToUser, true⟩) ∧
    (result ≠ -1 → connectionEnds k c ends s'.childReadingFromUser.readEnd = some
      ⟨k, .userToChild, false⟩ ∧
      connectionEnds k c ends s'.childWritingToUser.writeEnd = some ⟨k, .childToUser, true⟩) := by
  rw [getConnection] at h
  obtain ⟨t₁, hcfd, h⟩ := Option.bind_eq_some_iff.mp h
  obtain ⟨hcfd, rfl⟩ := openFd_cases hcfd
  split at h
  · rename_i hp
    obtain ⟨rfl, rfl⟩ := Prod.mk.inj (Option.some.inj h)
    simp only [connectionEnds, sentEnds, openPair, hp, Function.update_apply]
    grind
  · rename_i fds hp
    obtain ⟨t₂, hpipe, h⟩ := Option.bind_eq_some_iff.mp h
    obtain ⟨hpread, hpwrite, rfl⟩ := openPipe_cases hpipe
    split at h
    · rename_i hq
      obtain ⟨rfl, rfl⟩ := Prod.mk.inj (Option.some.inj h)
      simp only [connectionEnds, sentEnds, openPair, openEnds, hp, hq, Function.update_apply]
      grind
    · rename_i fds' hq
      obtain ⟨t₃, hpipe', h⟩ := Option.bind_eq_some_iff.mp h
      obtain ⟨hqread, hqwrite, rfl⟩ := openPipe_cases hpipe'
      simp only [Finset.mem_insert, not_or] at hpread hpwrite hqread hqwrite
      simp only [connectionEnds, openPair, openEnds, hp, hq, Function.update_apply]
      split at h
      · obtain ⟨rfl, rfl⟩ := Prod.mk.inj (Option.some.inj h)
        exact ⟨by grind, by grind, fun _ => ⟨fds'.writeEnd, by simp, by simp⟩, by simp⟩
      · obtain ⟨rfl, rfl⟩ := Prod.mk.inj (Option.some.inj h)
        simp only [Table.closeFd]
        exact ⟨by grind, by grind, fun _ => ⟨fds'.writeEnd, by grind, by simp⟩, by grind⟩

/-- The ends which a child uses. -/
def End.ForChild (e : End) : Prop :=
  (e.pipe = .userToChild ∨ e.pipe = .serverToChild) ∧ e.writes = false ∨
    (e.pipe = .childToUser ∨ e.pipe = .childToServer) ∧ e.writes = true

/-- A user was admitted to a slot. Its child has what the server had open, and its own ends of the two
pipes to the server, which has the other ones in the slot. -/
structure ChildAdmitted (idx : Fin maxUser) (p p' : Processes) : Prop where
  admitted : p'.admitted = p.admitted ++ [true]
  clients : p'.clients = p.clients
  childOf : p'.childOf = Function.update p.childOf (p'.server.table.users idx).pid p.admitted.length
  others : ∀ pid, pid ≠ (p'.server.table.users idx).pid → p'.childEnds pid = p.childEnds pid
  kept : ∀ fd ∈ p.server.table.openFds, p'.ends fd = p.ends fd
  toUser : p'.ends (p'.server.table.users idx).fdToUser = some ⟨p.admitted.length, .serverToChild, true⟩
  toServer :
    p'.ends (p'.server.table.users idx).fdToServer = some ⟨p.admitted.length, .childToServer, false⟩
  inherits : ∀ fd ∈ p.server.table.openFds, p'.childEnds (p'.server.table.users idx).pid fd = p.ends fd
  child : ∀ fd e, p'.childEnds (p'.server.table.users idx).pid fd = some e →
    fd ∈ p.server.table.openFds ∧ p.ends fd = some e ∨ e.connection = p.admitted.length ∧ e.ForChild
  writes : ∃ fd, p'.childEnds (p'.server.table.users idx).pid fd = some ⟨p.admitted.length,
    .childToServer, true⟩

/-- An admission whose calls succeed. -/
theorem admitChild_admitted {idx : Fin maxUser} {c : Connection} {p p' : Processes}
    (hsucceed : c.Succeeds) (h : admitChild idx c p = some p') : ChildAdmitted idx p p' := by
  obtain ⟨hreading, hwriting, hforked⟩ := hsucceed
  obtain ⟨fds, hfds⟩ := Option.ne_none_iff_exists'.mp hreading
  obtain ⟨fds', hfds'⟩ := Option.ne_none_iff_exists'.mp hwriting
  obtain ⟨pid, hpid⟩ := Option.ne_none_iff_exists'.mp hforked
  obtain ⟨s₁, hpipes, h⟩ := Option.bind_eq_some_iff.mp h
  obtain ⟨s₂, hfork, h⟩ := Option.bind_eq_some_iff.mp h
  obtain ⟨s₃, hregister, rfl⟩ := Option.map_eq_some_iff.mp h
  simp only [initializePipes, hfds, hfds'] at hpipes
  obtain ⟨t₁, hpipe, hpipes⟩ := Option.bind_eq_some_iff.mp hpipes
  obtain ⟨t₂, hpipe', rfl⟩ := Option.map_eq_some_iff.mp hpipes
  obtain ⟨hpread, hpwrite, rfl⟩ := openPipe_cases hpipe
  obtain ⟨hqread, hqwrite, rfl⟩ := openPipe_cases hpipe'
  simp only [forkChild, hpid] at hfork
  split at hfork
  · obtain rfl := Option.some.inj hfork
    obtain ⟨copied, -, -, rfl⟩ := registerUser_cases hregister
    simp only [Finset.mem_insert, not_or] at hpread hpwrite hqread hqwrite
    constructor <;> simp only [Function.update_self]
    · exact fun pid' hne => Function.update_of_ne hne _ _
    · simp only [childPipeEnds, openPair, openEnds, hfds, hfds', Function.update_apply]
      grind
    · simp only [childPipeEnds, openPair, openEnds, hfds, hfds', Function.update_apply]
      grind
    · simp only [childPipeEnds, openPair, openEnds, hfds, hfds', Function.update_apply]
      grind
    · simp only [forkedEnds, childPipeEnds, openPair, openEnds, hfds, hfds', Function.update_apply,
        Table.record]
      grind
    · simp only [forkedEnds, childPipeEnds, openPair, openEnds, hfds, hfds', Function.update_apply,
        Table.record, End.ForChild]
      grind
    · refine ⟨fds.writeEnd, ?_⟩
      simp only [forkedEnds, childPipeEnds, openPair, openEnds, hfds, hfds', Function.update_apply,
        Table.record]
      grind
  · exact absurd hfork (by simp)

/-- A connection whose user was not admitted. What it left open belongs to its own pipes, and the server
can write to the user if the user has the ends. -/
structure Refuses (c : Connection) (p p' : Processes) : Prop where
  undisturbed : Undisturbed p.server p'.server
  admitted : p'.admitted = p.admitted ++ [false]
  childOf : p'.childOf = p.childOf
  childEnds : p'.childEnds = p.childEnds
  clients : p'.clients = Function.update p.clients p.admitted.length (sentEnds p.admitted.length c)
  kept : ∀ fd ∈ p.server.table.openFds, p'.ends fd = p.ends fd
  new : ∀ fd ∈ p'.server.table.openFds, fd ∉ p.server.table.openFds → ∀ e, p'.ends fd = some e →
    e.connection = p.admitted.length
  writes : sentEnds p.admitted.length c ≠ [] → ∃ fd ∈ p'.server.table.openFds,
    p'.ends fd = some ⟨p.admitted.length, .childToUser, true⟩

/-- A connection whose user was admitted. The child has what the server had open before, and its own ends
of four pipes. -/
structure Admits (c : Connection) (idx : Fin maxUser) (p p' : Processes) : Prop where
  admitted : p'.admitted = p.admitted ++ [true]
  clients : p'.clients = Function.update p.clients p.admitted.length (sentEnds p.admitted.length c)
  childOf : p'.childOf = Function.update p.childOf (p'.server.table.users idx).pid p.admitted.length
  others : ∀ pid, pid ≠ (p'.server.table.users idx).pid → p'.childEnds pid = p.childEnds pid
  kept : ∀ fd ∈ p.server.table.openFds, p'.ends fd = p.ends fd
  toUser : p'.ends (p'.server.table.users idx).fdToUser = some ⟨p.admitted.length, .serverToChild, true⟩
  toServer :
    p'.ends (p'.server.table.users idx).fdToServer = some ⟨p.admitted.length, .childToServer, false⟩
  child : ∀ fd e, p'.childEnds (p'.server.table.users idx).pid fd = some e →
    fd ∈ p.server.table.openFds ∧ p.ends fd = some e ∨ e.connection = p.admitted.length ∧ e.ForChild
  writesUser : ∃ fd, p'.childEnds (p'.server.table.users idx).pid fd = some ⟨p.admitted.length,
    .childToUser, true⟩
  writesServer : ∃ fd, p'.childEnds (p'.server.table.users idx).pid fd = some ⟨p.admitted.length,
    .childToServer, true⟩

/-- The calls for the child end an admission, from a state in which two new descriptors are open. -/
theorem ChildAdmitted.admits {c : Connection} {idx : Fin maxUser} {p p₁ p' : Processes} {fd fd' : ℤ}
    (h : ChildAdmitted idx p₁ p') (hadmitted : p₁.admitted = p.admitted)
    (hchildOf : p₁.childOf = p.childOf) (hchildEnds : p₁.childEnds = p.childEnds)
    (hclients : p₁.clients = Function.update p.clients p.admitted.length (sentEnds p.admitted.length c))
    (hkept : ∀ fd ∈ p.server.table.openFds, p₁.ends fd = p.ends fd)
    (hopen : ∀ n, n ∈ p₁.server.table.openFds ↔ n ∈ p.server.table.openFds ∨ n = fd ∨ n = fd')
    (hread : p₁.ends fd = some ⟨p.admitted.length, .userToChild, false⟩)
    (hwrite : p₁.ends fd' = some ⟨p.admitted.length, .childToUser, true⟩) : Admits c idx p p' where
  admitted := hadmitted ▸ h.admitted
  clients := h.clients.trans hclients
  childOf := by rw [h.childOf, hchildOf, hadmitted]
  others pid hpid := by rw [h.others pid hpid, hchildEnds]
  kept n hn := (h.kept n ((hopen n).mpr (Or.inl hn))).trans (hkept n hn)
  toUser := hadmitted ▸ h.toUser
  toServer := hadmitted ▸ h.toServer
  child n e hn := by
    rcases h.child n e hn with ⟨hold, he⟩ | hown
    · rcases (hopen n).mp hold with hold | rfl | rfl
      · exact Or.inl ⟨hold, (hkept n hold).symm.trans he⟩
      · obtain rfl := Option.some.inj (hread.symm.trans he)
        exact Or.inr ⟨rfl, by simp [End.ForChild]⟩
      · obtain rfl := Option.some.inj (hwrite.symm.trans he)
        exact Or.inr ⟨rfl, by simp [End.ForChild]⟩
    · exact Or.inr (hadmitted ▸ hown)
  writesUser := ⟨fd', (h.inherits fd' ((hopen fd').mpr (by simp))).trans hwrite⟩
  writesServer := hadmitted ▸ h.writes

/-- A connection is refused, or its user is admitted to the slot for which it is admissible, if the calls
for the child succeed then. -/
theorem acceptConnection_cases {c : Connection} {p p' : Processes}
    (hsucceed : AdmissionsSucceed p.server (.accept (some c))) (h : acceptConnection c p = some p') :
    (∀ idx, ¬ Admissible c p.server idx) ∧ Refuses c p p' ∨
      ∃ idx, Admissible c p.server idx ∧ Admits c idx p p' := by
  have haccept : acceptUser (some c) p.server = some p'.server := by
    rw [← acceptConnection_server, h, Option.map_some]
  have hframes := acceptUser_fills hsucceed haccept
  obtain ⟨⟨result, s⟩, hconnection, h⟩ := Option.bind_eq_some_iff.mp h
  obtain ⟨hkept, hnew, hsent, hends⟩ := getConnection_ends hconnection p.admitted.length p.ends
  obtain ⟨hframe, hresult⟩ := getConnection_cases hconnection
  simp only at h
  split at h
  · rename_i hfails
    obtain rfl := Option.some.inj h
    refine Or.inl ⟨fun idx hadmissible => ?_, ⟨hframe, rfl, rfl, rfl, rfl, hkept, hnew, hsent⟩⟩
    rcases hresult with ⟨-, hincomplete⟩ | ⟨hzero, -⟩
    · exact hincomplete hadmissible.1
    · exact absurd (hzero.symm.trans hfails) (by decide)
  · rename_i hcontinues
    obtain ⟨-, hcomplete, huserId, hnodup, hunused, hopen⟩ := hresult.resolve_left fun hfails =>
        hcontinues hfails.1
    obtain ⟨hread, hwrite⟩ := hends hcontinues
    have hclosed (fd : ℤ) : fd ∈ ((s.table.openFds.erase s.childReadingFromUser.writeEnd).erase
        s.childWritingToUser.readEnd) ↔ fd ∈ p.server.table.openFds ∨
        fd = s.childReadingFromUser.readEnd ∨
          fd = s.childWritingToUser.writeEnd := by
      simp only [Server.userEnds] at hnodup hunused hopen
      grind
    -- The two branches which refuse a complete connection leave the same descriptors open.
    have hrefuses (hrejects : ∀ idx, ¬ Admissible c p.server idx) (p'' : Processes)
        (hp : p'.server = p''.server)
        (hserver : p''.server.table.openFds =
          (s.table.openFds.erase s.childReadingFromUser.writeEnd).erase
          s.childWritingToUser.readEnd) (hadmitted : p''.admitted = p.admitted ++ [false])
        (hchildOf : p''.childOf = p.childOf) (hchildEnds : p''.childEnds = p.childEnds)
        (hclients : p''.clients = Function.update p.clients p.admitted.length
          (sentEnds p.admitted.length c))
        (hp' : p''.ends = connectionEnds p.admitted.length c p.ends) : Refuses c p p'' := by
      refine ⟨?_, hadmitted, hchildOf, hchildEnds, hclients, fun fd hfd => ?_, fun fd hfd hfd' e he =>
        ?_, fun _ => ?_⟩
      · rcases hframes with ⟨-, hundisturbed⟩ | ⟨c', idx, -, hc, hadmissible, -⟩
        · exact hp ▸ hundisturbed
        · exact absurd (Option.some.inj hc ▸ hadmissible) (hrejects idx)
      · rw [hp', hkept fd hfd]
      · rw [hserver] at hfd
        rw [hp'] at he
        exact hnew fd (Finset.mem_of_mem_erase (Finset.mem_of_mem_erase hfd)) hfd' e he
      · exact ⟨s.childWritingToUser.writeEnd, by rw [hserver, hclosed]; simp, by rw [hp', hwrite]⟩
    have husers : s.table.users = p.server.table.users := hframe.users
    have hname : cString s.userId = sentName c p.server := by rw [huserId, sentName]
    split at h
    · rename_i hroom
      obtain rfl := Option.some.inj h
      have hrejects (idx : Fin maxUser) : ¬ Admissible c p.server idx := fun hadmissible => by
        have hidx := hadmissible.2.1
        rw [← husers] at hidx
        exact absurd (hidx.symm.trans hroom) (by simp)
      exact Or.inl ⟨hrejects, hrefuses hrejects _ rfl rfl rfl rfl rfl rfl rfl⟩
    · rename_i idx hidx
      split at h
      · rename_i htaken
        obtain rfl := Option.some.inj h
        have hrejects (idx : Fin maxUser) : ¬ Admissible c p.server idx := fun hadmissible => by
          have hfree := hadmissible.2.2
          rw [← husers, ← hname] at hfree
          exact htaken hfree
        exact Or.inl ⟨hrejects, hrefuses hrejects _ rfl rfl rfl rfl rfl rfl rfl⟩
      · rename_i hfree
        have hadmissible : Admissible c p.server idx := by
          refine ⟨hcomplete, ?_, ?_⟩
          · rw [← husers]
            exact hidx
          · rw [← husers, ← hname]
            exact not_not.mp hfree
        have hchild := admitChild_admitted (hsucceed c idx rfl hadmissible) h
        exact Or.inr ⟨idx, hadmissible, hchild.admits rfl rfl rfl rfl hkept hclosed hread hwrite⟩

end Csci4061.Chat
