import Csci4061.Chat.PipeEnds

/-!
# Who finds the end of file

A reader finds the end of file when no process has the write end of its pipe open. Copies of the write
ends are made by every `fork`, and closed by whom does not need them. What remains open in the end, in
every state which is reached, is what the readers wait for: a user for its removal, and a child for its
user to quit.
-/

namespace Csci4061.Chat

open Csci4061.Lib Csci4061.Lib.TransitionSystem

/-- Some process has the write end of a pipe open. A process which has exited has none. -/
def Processes.WriterOpen (p : Processes) (k : ℕ) (pipe : PipeName) : Prop :=
  (p.server.phase ≠ .exited ∧ ∃ fd ∈ p.server.table.openFds, p.ends fd = some ⟨k, pipe, true⟩) ∨
  (∃ pid ∈ p.server.table.children, ∃ fd, p.childEnds pid fd = some ⟨k, pipe, true⟩) ∨
  ∃ j, ⟨k, pipe, true⟩ ∈ p.clients j

/-- The user of a connection has its ends, and has closed those which it does not use. -/
def Processes.Settled (p : Processes) (k : ℕ) : Prop := p.clients k ≠ [] ∧ ∀ e ∈ p.clients k, e.ForUser

instance (p : Processes) (k : ℕ) : Decidable (p.Settled k) := inferInstanceAs (Decidable (_ ∧ _))

/-- The connection of the user in a slot. -/
def Processes.connectionOf (p : Processes) (i : Fin maxUser) : ℕ :=
  p.childOf (p.server.table.users i).pid

/-- Who finds the end of file, which is where nobody has the write end open. An admitted user finds it
exactly when it was removed, and a refused one exactly when the server has exited. A child finds it
exactly when its user has quit. The server never finds it in the pipe of a full slot. -/
structure EndsOfFile (p : Processes) : Prop where
  admitted : ∀ k, p.admitted[k]? = some true → p.Settled k →
    (¬ p.WriterOpen k .childToUser ↔ ∀ i, p.server.table.Full i → p.connectionOf i ≠ k)
  refused : ∀ k, p.admitted[k]? = some false → p.Settled k →
    (¬ p.WriterOpen k .childToUser ↔ p.server.phase = .exited)
  child : ∀ i, p.server.table.Full i →
    (¬ p.WriterOpen (p.connectionOf i) .userToChild ↔ p.clients (p.connectionOf i) = [])
  server : ∀ i, p.server.table.Full i → p.WriterOpen (p.connectionOf i) .childToServer

/-- Of a pipe of an admitted user the server keeps a write end only if it is that to the child. -/
theorem Holdings.Kept.pipe_eq {p : Holdings} {k : ℕ} {pipe : PipeName} (h : p.Kept ⟨k, pipe, true⟩)
    (hadmitted : p.admitted[k]? = some true) : pipe = .serverToChild := by
  obtain ⟨a, ha, hserver⟩ := h
  obtain rfl : a = true := Option.some.inj (ha.symm.trans hadmitted)
  simpa [End.ForServer] using hserver rfl

/-- Beside the server, the write end of a pipe of an admitted user other than that to the child is only
with the child itself, and with the user. -/
theorem EndsInv.writerOpen_iff {p : Processes} (h : EndsInv p.toHoldings p.server.table) {k : ℕ}
    {pipe : PipeName} (hadmitted : p.admitted[k]? = some true) (hpipe : pipe ≠ .serverToChild) :
    p.WriterOpen k pipe ↔ (∃ pid ∈ p.server.table.children, p.childOf pid = k ∧
      ∃ fd, p.childEnds pid fd = some ⟨k, pipe, true⟩) ∨ ⟨k, pipe, true⟩ ∈ p.clients k := by
  constructor
  · rintro (⟨-, fd, hfd, hend⟩ | ⟨pid, hpid, fd, hend⟩ | ⟨j, hmem⟩)
    · exact absurd ((h.server fd hfd _ hend).pipe_eq hadmitted) hpipe
    · rcases h.child pid hpid fd _ hend with ⟨hown, -⟩ | ⟨-, hkept⟩
      · exact Or.inl ⟨pid, hpid, hown.symm, fd, hend⟩
      · exact absurd (hkept.pipe_eq hadmitted) hpipe
    · have hconnection : k = j := (h.clients j _ hmem).1
      exact Or.inr (hconnection ▸ hmem)
  · rintro (⟨pid, hpid, -, fd, hend⟩ | hmem)
    · exact Or.inr (Or.inl ⟨pid, hpid, fd, hend⟩)
    · exact Or.inr (Or.inr ⟨k, hmem⟩)

/-- The pipe from a user to its child is open as long as the user has its ends: nobody else writes to
it. -/
theorem EndsInv.userToChild_open_iff {p : Processes} (h : EndsInv p.toHoldings p.server.table)
    {i : Fin maxUser} (hi : p.server.table.Full i) :
    p.WriterOpen (p.connectionOf i) .userToChild ↔ p.clients (p.connectionOf i) ≠ [] := by
  have hchild := (h.table.full i hi).child
  rw [Processes.connectionOf, h.writerOpen_iff (h.admitted _ hchild) (by decide)]
  constructor
  · rintro (⟨pid, hpid, hown, fd, hend⟩ | hmem) hquit
    · rcases h.child pid hpid fd _ hend with ⟨-, hforChild⟩ | ⟨hother, -⟩
      · simp [End.ForChild] at hforChild
      · exact hother hown.symm
    · rw [hquit] at hmem
      exact absurd hmem List.not_mem_nil
  · exact fun hne => Or.inr (h.connected _ hne).2

/-- Through every fork and every close, in any order of the steps of the server and its users, each
reader finds the end of file when it should, except for the user who was refused. -/
theorem end_of_file_iff {p : Processes} (h : soundProcesses.Reachable p) : EndsOfFile p := by
  obtain ⟨hends, hexited⟩ := processInv_reachable h
  have hchild (i : Fin maxUser) (hi : p.server.table.Full i) := (hends.table.full i hi).child
  have hsettled {k : ℕ} (hk : p.Settled k) : ⟨k, .childToUser, true⟩ ∉ p.clients k := fun hmem =>
    absurd (hk.2 _ hmem) (by simp [End.ForUser])
  refine ⟨fun k hk hclient => ?_, fun k hk hclient => ?_, fun i hi => ?_, fun i hi => ?_⟩
  · rw [hends.writerOpen_iff hk (by decide)]
    constructor
    · rintro hnone i hi rfl
      exact hnone (Or.inl ⟨_, hchild i hi, rfl, hends.writesUser _ (hchild i hi)⟩)
    · rintro hgone (⟨pid, hpid, rfl, -⟩ | hmem)
      · obtain ⟨i, hi, rfl⟩ := hends.children pid hpid
        exact hgone i hi rfl
      · exact hsettled hclient hmem
  · obtain ⟨fd, hfd, hend⟩ := hends.refused k hk hclient.1
    constructor
    · intro hnone
      by_contra hruns
      exact hnone (Or.inl ⟨hruns, fd, hfd, hend⟩)
    · rintro hexit (⟨hruns, -⟩ | ⟨pid, hpid, -⟩ | ⟨j, hmem⟩)
      · exact hruns hexit
      · obtain ⟨i, hi, -⟩ := hends.children pid hpid
        exact hexited hexit i hi
      · have hconnection : k = j := (hends.clients j _ hmem).1
        exact hsettled hclient (hconnection ▸ hmem)
  · rw [hends.userToChild_open_iff hi, not_not]
  · exact Or.inr (Or.inl ⟨_, hchild i hi, hends.writesServer _ (hchild i hi)⟩)

/-- A server which was just started, and nobody else. -/
def freshProcesses : Processes where
  server := freshServer
  ends _ := none
  admitted := []
  childOf _ := 0
  childEnds _ _ := none
  clients _ := []

/-- A second user with the name of the first one. -/
def sameNameConnection : Connection :=
  { bobConnection with
    sent := (annConnection none none).sent
    sent_length := (annConnection none none).sent_length }

/-- A user is admitted and another one refused, and then the first one is kicked. -/
def kickFirst : List ProcessLabel :=
  [.server (.accept (some (annConnection (some ⟨7, 9⟩) (some 100)))), .settle 0,
    .server (.admin none allSucceed)] ++
  List.replicate maxUser (.server (.poll none allSucceed)) ++
  [.server .sleep, .server (.accept (some sameNameConnection)), .settle 1,
    .server (.admin (some kickAnn) allSucceed)]

/-- The processes then. -/
def kickedProcesses : Processes := (exec processNext freshProcesses kickFirst).getD freshProcesses

/-- The user who was kicked finds the end of file, and the one who was refused waits for it. -/
theorem end_of_file_iff_kicked :
    soundProcesses.Reachable kickedProcesses ∧ kickedProcesses.admitted = [true, false] ∧
    kickedProcesses.Settled 0 ∧ ¬ kickedProcesses.WriterOpen 0 .childToUser ∧
    kickedProcesses.Settled 1 ∧ kickedProcesses.WriterOpen 1 .childToUser := by
  have hexec : exec processNext freshProcesses kickFirst = some kickedProcesses :=
    exec_getD (by decide +kernel)
  have hcloses (i : Fin maxUser) : (allSucceed i).Closes := ⟨rfl, rfl⟩
  have hguard (label : ProcessLabel) (hmem : label ∈ kickFirst) (p : Processes) : label.Succeeds p := by
    simp only [kickFirst, List.mem_append, List.mem_cons, List.mem_replicate, List.not_mem_nil,
      or_false] at hmem
    rcases hmem with ((rfl | rfl | rfl) | ⟨-, rfl⟩) | rfl | rfl | rfl | rfl
    · refine ⟨fun c idx heq _ => ?_, fun i _ => hcloses i⟩
      obtain rfl := Option.some.inj (ServerLabel.accept.inj heq)
      exact ⟨by decide, by decide, by decide⟩
    · exact trivial
    · exact ⟨fun c idx heq _ => absurd heq (by simp), fun i _ => hcloses i⟩
    · exact ⟨fun c idx heq _ => absurd heq (by simp), fun i _ => hcloses i⟩
    · exact ⟨fun c idx heq _ => absurd heq (by simp), fun i _ => hcloses i⟩
    · refine ⟨fun c idx heq _ => ?_, fun i _ => hcloses i⟩
      obtain rfl := Option.some.inj (ServerLabel.accept.inj heq)
      exact ⟨by decide, by decide, by decide⟩
    · exact trivial
    · exact ⟨fun c idx heq _ => absurd heq (by simp), fun i _ => hcloses i⟩
  have hinit : ProcessInit freshProcesses := ⟨freshServer_init, fun _ => rfl, rfl, fun _ => rfl⟩
  have hreachable : soundProcesses.Reachable kickedProcesses :=
    ⟨freshProcesses, kickFirst, hinit, Run.restrict (Run.of_exec hexec) hguard⟩
  have hadmitted : kickedProcesses.admitted = [true, false] := by decide +kernel
  have hempty : (∀ i, ¬ kickedProcesses.server.table.Full i) ∧
      kickedProcesses.server.phase ≠ .exited := by
    decide +kernel
  have hsettled : kickedProcesses.Settled 0 ∧ kickedProcesses.Settled 1 := by decide +kernel
  have hends := end_of_file_iff hreachable
  refine ⟨hreachable, hadmitted, hsettled.1, ?_, hsettled.2, ?_⟩
  · exact (hends.admitted 0 (by rw [hadmitted]; rfl) hsettled.1).mpr fun i hi => absurd hi (hempty.1 i)
  · by_contra hnone
    exact hempty.2 ((hends.refused 1 (by rw [hadmitted]; rfl) hsettled.2).mp hnone)

end Csci4061.Chat
