import Csci4061.Chat.Removal
import Csci4061.Lib.History

/-!
# Signals to the processes of users

A signal is meant for the child which was forked for the slot. `cleanup_user` clears the process
number of a slot first and returns if it cannot close a descriptor, and then the slot stays in use
with the number `-1`, which stands for every process. So does a slot which a failed `fork` leaves.

Along the runs in which neither happens, and along no others, every full slot keeps the positive
number of its child, and every signal goes to such a number.
-/

namespace Csci4061.Chat

open Csci4061.Lib Csci4061.Lib.TransitionSystem

/-- What `fork` reported for slot `i`, if the event is a fork for it. -/
def Event.forkedFor (i : Fin maxUser) : Event → Option ℤ
  | .forked j pid => if j = i then some pid else none
  | _ => none

/-- A signal goes to the positive number of the child last forked for the slot. -/
def Aimed (before : List Event) : Event → Prop
  | .killed i pid => 0 < pid ∧ latest (Event.forkedFor i) before = some pid
  | _ => True

/-- Every full slot has the positive number of the child last forked for it, and every signal went to
such a number. -/
structure KillsAimed (t : Table) : Prop where
  full : ∀ i, t.Full i → 0 < (t.users i).pid ∧ latest (Event.forkedFor i) t.events = some (t.users i).pid
  killed : Justified Aimed t.events

/-- Only the slots and the events matter. -/
theorem KillsAimed.of_eq {t t' : Table} (h : KillsAimed t) (husers : t'.users = t.users)
    (hevents : t'.events = t.events) : KillsAimed t' := by
  constructor
  · intro i hfull
    rw [Table.Full, husers] at hfull
    rw [husers, hevents]
    exact h.full i hfull
  · rw [hevents]
    exact h.killed

/-- Plain events change nothing. -/
theorem KillsAimed.quiet {t t' : Table} (h : KillsAimed t) (hquiet : Quiet t t') : KillsAimed t' := by
  obtain ⟨new, hevents, hplain⟩ := hquiet.events
  constructor
  · intro i hfull
    have hfull' : t.Full i := by rw [Table.Full, ← hquiet.users]; exact hfull
    have hnone : ∀ event ∈ new, event.forkedFor i = none := by
      intro event hmem
      cases event with
      | forked j pid => exact (hplain _ hmem).elim
      | killed j pid => rfl
      | wrote j fd data => rfl
      | handled j message => rfl
    rw [hquiet.users, hevents, latest_append_of_none hnone]
    exact h.full i hfull'
  · rw [hevents, justified_append]
    refine ⟨h.killed, justified_of_forall fun before event hmem => ?_⟩
    cases event with
    | killed j pid => exact (hplain _ hmem).elim
    | forked j pid => trivial
    | wrote j fd data => trivial
    | handled j message => trivial

/-- A removal keeps this exactly if it closes both descriptors. -/
theorem killsAimed_kickUser_iff {t : Table} (h : KillsAimed t) {i : Fin maxUser} (hfull : t.Full i)
    (outcome : SlotOutcome) : KillsAimed (kickUser i outcome t) ↔ outcome.Closes := by
  constructor
  · intro hafter
    by_contra hcloses
    obtain ⟨hpid, hstatus⟩ := @kickUser_of_not_closes i outcome t hcloses
    have hpos := (hafter.full i (hstatus.trans hfull)).1
    omega
  · intro hcloses
    constructor
    · intro j hj
      by_cases hij : j = i
      · subst hij
        rw [Table.Full, (kickUser_of_closes hcloses).1] at hj
        exact absurd hj (by decide)
      · rw [Table.Full, kickUser_users_of_ne hij] at hj
        rw [kickUser_users_of_ne hij, kickUser_events, latest_append_of_none (by simp [Event.forkedFor])]
        exact h.full j hj
    · rw [kickUser_events, justified_append, justified_singleton, List.append_nil]
      exact ⟨h.killed, h.full i hfull⟩

/-- The cleanup loop keeps this exactly if it closes the descriptors of every full slot. -/
theorem killsAimed_cleanupLoop_iff {t : Table} (h : KillsAimed t) {slots : List (Fin maxUser)}
    (hslots : slots.Nodup) (outcomes : Fin maxUser → SlotOutcome) :
    KillsAimed (cleanupLoop outcomes slots t) ↔ ∀ i ∈ slots, t.Full i → (outcomes i).Closes := by
  induction slots generalizing t with
  | nil => simpa [cleanupLoop] using h
  | cons i slots ih =>
    obtain ⟨hi, hrest⟩ := List.nodup_cons.mp hslots
    rw [cleanupLoop, List.forall_mem_cons]
    by_cases hfull : t.Full i
    · rw [if_pos hfull]
      by_cases hcloses : (outcomes i).Closes
      · rw [ih ((killsAimed_kickUser_iff h hfull _).mpr hcloses) hrest]
        have hother (j : Fin maxUser) (hj : j ∈ slots) :
            (kickUser i (outcomes i) t).Full j ↔ t.Full j := by
          rw [Table.Full, kickUser_users_of_ne (ne_of_mem_of_not_mem hj hi), Table.Full]
        constructor
        · exact fun hall => ⟨fun _ => hcloses, fun j hj hfull' => hall j hj ((hother j hj).mpr hfull')⟩
        · exact fun hall j hj hfull' => hall.2 j hj ((hother j hj).mp hfull')
      · refine iff_of_false (fun hafter => ?_) fun hall => hcloses (hall.1 hfull)
        -- The loop does not come back to this slot, which has no process any more.
        obtain ⟨hpid, hstatus⟩ := @kickUser_of_not_closes i (outcomes i) t hcloses
        have hkept := cleanupLoop_users_of_not_mem outcomes hi (kickUser i (outcomes i) t)
        have hpos := (hafter.full i (by rw [Table.Full, hkept, hstatus]; exact hfull)).1
        rw [hkept] at hpos
        omega
    · rw [if_neg hfull, ih h hrest]
      exact ⟨fun hall => ⟨fun hfull' => absurd hfull' hfull, hall⟩, fun hall => hall.2⟩

/-- The admission of a user keeps this exactly if `fork` succeeds. -/
theorem killsAimed_admitUser_iff {idx : Fin maxUser} {c : Connection} {s s' : Server}
    (h : KillsAimed s.table) (hadmission : admitUser idx c s = some s') :
    KillsAimed s'.table ↔ c.pid ≠ none := by
  obtain ⟨user, husers, hstatus, hpid, -, -, -, hevents, hfork⟩ := admitUser_cases hadmission
  have hlatest : latest (Event.forkedFor idx) s'.table.events = some s'.childpid := by
    rw [hevents]
    exact latest_append_singleton (if_pos rfl)
  have hself : s'.table.users idx = user := by rw [husers, Function.update_self]
  constructor
  · intro hafter hnone
    have hpos := (hafter.full idx (by rw [Table.Full, hself, hstatus])).1
    rw [hself, hpid] at hpos
    rcases hfork with ⟨-, hfailed, -⟩ | ⟨hsome, -⟩
    · omega
    · exact hsome hnone
  · intro hsome
    have hpos : 0 < s'.childpid := by
      rcases hfork with ⟨hnone, -⟩ | ⟨-, hpos, -⟩
      · exact absurd hnone hsome
      · exact hpos
    constructor
    · intro j hj
      by_cases hidx : j = idx
      · subst hidx
        rw [hself, hpid]
        exact ⟨hpos, hlatest⟩
      · have hkept : s'.table.users j = s.table.users j := by rw [husers, Function.update_of_ne hidx]
        rw [Table.Full, hkept] at hj
        rw [hkept, hevents, latest_append_of_none (by simp [Event.forkedFor, Ne.symm hidx])]
        exact h.full j hj
    · rw [hevents, justified_append, justified_singleton]
      exact ⟨h.killed, trivial⟩

/-- The calls of a step which matter for the signals succeed: `fork` if a user is admitted, and both
calls of `close` for every slot whose user is removed. -/
def RemovalsSucceed (s : Server) (label : ServerLabel) : Prop :=
  (∀ c idx, label = .accept (some c) → Admissible c s idx → c.pid ≠ none) ∧
    ∀ i, Removes s label i → (label.outcomes i).Closes

/-- The part for a new connection keeps this exactly if `fork` succeeds where a user is admitted. -/
theorem killsAimed_acceptUser_iff {outcome : Option Connection} {s s' : Server} (h : KillsAimed s.table)
    (haccept : acceptUser outcome s = some s') :
    KillsAimed s'.table ↔ ∀ c idx, outcome = some c → Admissible c s idx → c.pid ≠ none := by
  rcases acceptUser_cases haccept with
    ⟨hrejected, hframe⟩ | ⟨c, idx, s₀, rfl, hadmissible, hframe, -, -, -, -, hadmission⟩
  · exact iff_of_true (h.of_eq hframe.users hframe.events) fun c idx hc hadmissible =>
      absurd hadmissible (hrejected c idx hc)
  · have h₀ : KillsAimed s₀.table := h.of_eq hframe.users hframe.events
    rw [killsAimed_admitUser_iff h₀ hadmission]
    exact ⟨fun hsome c' _ hc _ => Option.some.inj hc ▸ hsome, fun hall => hall c idx rfl hadmissible⟩

/-- A step keeps this exactly if those calls succeed. -/
theorem killsAimed_step_iff {s s' : Server} {label : ServerLabel} (h : KillsAimed s.table)
    (hstep : serverNext s label = some s') : KillsAimed s'.table ↔ RemovalsSucceed s label := by
  by_cases hlabel : ∃ outcome, label = .accept outcome
  · obtain ⟨outcome, rfl⟩ := hlabel
    obtain ⟨-, s₁, haccept, rfl⟩ := serverNext_accept hstep
    rw [killsAimed_acceptUser_iff h haccept]
    constructor
    · exact fun hforks => ⟨fun c idx heq => hforks c idx (ServerLabel.accept.inj heq), fun i hremoves =>
        hremoves.elim⟩
    · exact fun hsucceed c idx heq => hsucceed.1 c idx (congrArg _ heq)
  · obtain ⟨-, slots, t, hquiet, htable, hslots, hremoves⟩ :=
      serverNext_removesOnly hstep fun outcome heq => hlabel ⟨outcome, heq⟩
    have hfull (i : Fin maxUser) :
        t.Full i ↔ s.table.Full i := by rw [Table.Full, hquiet.users, Table.Full]
    rw [htable, killsAimed_cleanupLoop_iff (h.quiet hquiet) hslots]
    constructor
    · refine fun hcloses => ⟨fun c idx heq => absurd ⟨some c, heq⟩ hlabel, fun i hi => ?_⟩
      obtain ⟨hmem, hfull'⟩ := (hremoves i).mp hi
      exact hcloses i hmem ((hfull i).mpr hfull')
    · exact fun hsucceed i hmem hfull' => hsucceed.2 i ((hremoves i).mpr ⟨hmem, (hfull i).mp hfull'⟩)

/-- In the beginning there are no users and no events. -/
theorem killsAimed_init {s : Server} (h : ServerInit s) : KillsAimed s.table := by
  obtain ⟨gSfd, -, htable, -⟩ := h
  rw [htable]
  exact ⟨fun i hfull => absurd hfull (by simp [Table.Full, initUserList, emptyUser]), justified_nil⟩

/-- The runs along which every `fork` of an admission and every `close` of a removal succeeds are the
runs along which every full slot keeps the number of its child and signals go to such children. -/
theorem signals_aimed_iff {s t : Server} (hinit : ServerInit s) (labels : List ServerLabel) :
    (serverSystem.restrict RemovalsSucceed).Run s labels t ↔
      (serverSystem.keeping fun s => KillsAimed s.table).Run s labels t :=
  @restrict_run_iff_keeping _ _ serverSystem _ (fun s => KillsAimed s.table) (fun _ => True)
    (fun _ _ _ _ _ => trivial) (fun _ _ _ _ h hstep => killsAimed_step_iff h hstep) s t labels trivial
    (killsAimed_init hinit)

/-- A user enters and exits, with its first descriptor not closed, and then the administrator exits. -/
def exitTwice : List ServerLabel :=
  [.accept (some (annConnection (some ⟨7, 9⟩) (some 100))), .admin none allSucceed,
    .poll (some ⟨bytes "\\exit", by decide⟩) fun _ => ⟨false, true, true, -1⟩] ++
  List.replicate 9 (.poll none allSucceed) ++
  [.sleep, .accept none, .admin (some ⟨bytes "\\exit\n", by decide⟩) allSucceed]

/-- After a `close` which failed, a signal is sent to every process, although `fork` succeeded. -/
theorem signal_to_every_process : (∀ c, .accept (some c) ∈ exitTwice → c.pid ≠ none) ∧
    ∃ t, serverSystem.Run freshServer exitTwice t ∧ .killed 0 (-1) ∈ t.table.events ∧
    ¬ KillsAimed t.table := by
  refine ⟨fun c hc => ?_, ?_⟩
  · simp only [exitTwice, List.mem_append, List.mem_cons, List.mem_replicate, ServerLabel.accept.injEq,
      Option.some.injEq, reduceCtorEq, List.not_mem_nil, or_false, and_false] at hc
    rw [hc]
    decide
  · have hrun : (exec serverNext freshServer exitTwice).map (fun s => s.table.events) =
        some [.forked 0 100, .handled 0 (bytes "\\exit"), .killed 0 100, .killed 0 (-1)] := by
          decide +kernel
    obtain ⟨t, hexec, hevents⟩ := Option.map_eq_some_iff.mp hrun
    refine ⟨t, Run.of_exec hexec, by rw [hevents]; decide, fun haimed => ?_⟩
    have hsplit : t.table.events = [.forked 0 100, .handled 0 (bytes "\\exit"), .killed 0 100] ++
        .killed 0 (-1) :: [] :=
      hevents
    have hpos := (haimed.killed _ _ _ hsplit).1
    exact absurd hpos (by decide)

/-- A user enters and exits, and every call succeeds. -/
def exitOnce : List ServerLabel :=
  [.accept (some (annConnection (some ⟨7, 9⟩) (some 100))), .admin none allSucceed,
    .poll (some ⟨bytes "\\exit", by decide⟩) allSucceed]

/-- Along this run the signals are aimed. -/
theorem signals_aimed_exitOnce :
    ∃ t, (serverSystem.keeping fun s => KillsAimed s.table).Run freshServer exitOnce t ∧
    t.table.events = [.forked 0 100, .handled 0 (bytes "\\exit"), .killed 0 100] := by
  have hrun : (exec serverNext freshServer exitOnce).map (fun s => s.table.events) =
      some [.forked 0 100, .handled 0 (bytes "\\exit"), .killed 0 100] := by decide +kernel
  obtain ⟨t, hexec, hevents⟩ := Option.map_eq_some_iff.mp hrun
  have hsucceed : ∀ label ∈ exitOnce, ∀ u, RemovalsSucceed u label := by
    intro label hmem u
    simp only [exitOnce, List.mem_cons, List.not_mem_nil, or_false] at hmem
    rcases hmem with rfl | rfl | rfl
    · refine ⟨fun c idx heq _ => ?_, fun i hremoves => hremoves.elim⟩
      obtain rfl := Option.some.inj (ServerLabel.accept.inj heq)
      decide
    · exact ⟨fun c idx heq => absurd heq (by simp), fun i _ => ⟨rfl, rfl⟩⟩
    · exact ⟨fun c idx heq => absurd heq (by simp), fun i _ => ⟨rfl, rfl⟩⟩
  have hrestrict : (serverSystem.restrict RemovalsSucceed).Run freshServer exitOnce t :=
    Run.restrict (Run.of_exec hexec) hsucceed
  exact ⟨t, (signals_aimed_iff freshServer_init exitOnce).mp hrestrict, hevents⟩

end Csci4061.Chat
