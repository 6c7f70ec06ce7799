import Csci4061.Lib.Transition
import Mathlib.Logic.Function.Basic

/-!
# Threads which are cancelled lazily

A thread which was cancelled goes on until it comes to a cancellation point, where it stops with the
mutexes it has. A call which waits on a condition variable unlocks the mutex before it sleeps: a
cancelled thread does so as well, stops when it sleeps and has locked the mutex again by then. So a
structure may be released only if no thread can still come to an access to it: each one comes to a
cancellation point before, or to a mutex which nobody will unlock any more.

A thread is given by its control flow, and what its branches test is left open.
-/

namespace Csci4061.Lib

/-- What a thread does at a position, with mutexes `M` and shared structures `R`. -/
inductive Effect (M R : Type*)
  | lock (m : M)
  | unlock (m : M)
  /-- An access to a structure. -/
  | use (r : R)
  /-- An operation which is a cancellation point. -/
  | io
  /-- A wait on a condition variable is called: the mutex is unlocked before the thread sleeps, whether
  it was cancelled or not. -/
  | wait (m : M)
  /-- The thread sleeps on a condition variable. It has the mutex again when it is cancelled. -/
  | asleep (m : M)
  | plain
  deriving DecidableEq

/-- A cancelled thread stops here. -/
def Effect.CancelPoint {M R : Type*} : Effect M R → Prop
  | .io | .asleep _ => True
  | _ => False

instance {M R : Type*} : DecidablePred (Effect.CancelPoint : Effect M R → Prop)
  | .io | .asleep _ => isTrue trivial
  | .lock _ | .unlock _ | .use _ | .wait _ | .plain => isFalse not_false

/-- The mutex which a thread has after it did something. -/
def Effect.held {M R : Type*} : Effect M R → Option M → Option M
  | .lock m, _ => some m
  | .unlock _, _ => none
  | .wait _, _ => none
  | _, before => before

/-- The control flow of a thread. At each position it has a certain mutex or none, and it unlocks only
the one which it has. -/
structure Program (P M R : Type*) where
  next : P → List P
  effect : P → Effect M R
  held : P → Option M
  held_next : ∀ p, ∀ q ∈ next p, held q = (effect p).held (held p)
  held_unlock : ∀ p m, effect p = .unlock m → held p = some m
  held_wait : ∀ p m, effect p = .wait m → held p = some m

/-- The positions of the threads, `none` for one which has stopped; which of them were cancelled; and the
owners of the mutexes. -/
structure Threads (τ P M : Type*) where
  pos : τ → Option P
  cancelled : τ → Bool
  owner : M → Option τ

variable {τ P M R : Type*} [DecidableEq τ] [DecidableEq M] [DecidableEq P]

/-- A thread is at another position, or stopped, and the mutexes have other owners. -/
def Threads.put (s : Threads τ P M) (t : τ) (pos : Option P) (owner : M → Option τ) : Threads τ P M :=
  { s with pos := Function.update s.pos t pos, owner := owner }

section Put

omit [DecidableEq M] [DecidableEq P]

variable (s : Threads τ P M) (t : τ) (pos : Option P) (owner : M → Option τ)

/-- The thread is where it was put. -/
@[simp] theorem Threads.put_pos_self : (s.put t pos owner).pos t = pos := Function.update_self ..

/-- The other threads are where they were. -/
theorem Threads.put_pos_of_ne {u : τ} (h : u ≠ t) : (s.put t pos owner).pos u = s.pos u :=
  Function.update_of_ne h ..

/-- The owners are the new ones. -/
@[simp] theorem Threads.put_owner : (s.put t pos owner).owner = owner := rfl

/-- The same threads are cancelled. -/
@[simp] theorem Threads.put_cancelled : (s.put t pos owner).cancelled = s.cancelled := rfl

end Put

/-- The owners after a thread did something; `none` if it has to wait for a mutex. -/
def Threads.perform (s : Threads τ P M) (t : τ) : Effect M R → Option (M → Option τ)
  | .lock m => if s.owner m = none then some (Function.update s.owner m (some t)) else none
  | .unlock m => some (Function.update s.owner m none)
  | .wait m => some (Function.update s.owner m none)
  | _ => some s.owner

/-- A thread goes to its next position, unless it has to stop. -/
def Program.move (prog : Program P M R) (s : Threads τ P M) (t : τ) (q : P) : Option (Threads τ P M) :=
  match s.pos t with
  | none => none
  | some p =>
    if q ∈ prog.next p ∧ ¬ (s.cancelled t = true ∧ (prog.effect p).CancelPoint) then
      (s.perform t (prog.effect p)).map fun owner => s.put t (some q) owner
    else none

/-- A cancelled thread stops at a cancellation point; one which sleeps gets its mutex first. -/
def Program.stop (prog : Program P M R) (s : Threads τ P M) (t : τ) : Option (Threads τ P M) :=
  match s.pos t with
  | none => none
  | some p =>
    if s.cancelled t = true then
      match prog.effect p with
      | .io => some (s.put t none s.owner)
      | .asleep m =>
        if s.owner m = none then some (s.put t none (Function.update s.owner m (some t))) else none
      | _ => none
    else none

/-- A thread is cancelled. -/
def Threads.cancel (s : Threads τ P M) (t : τ) : Threads τ P M :=
  { s with cancelled := Function.update s.cancelled t true }

omit [DecidableEq M] [DecidableEq P] in
/-- The thread which is cancelled is so afterwards, and the others are as they were. -/
theorem Threads.cancel_cancelled (s : Threads τ P M) (t u : τ) :
    (s.cancel t).cancelled u = true ↔ u = t ∨ s.cancelled u = true := by
  by_cases hut : u = t <;> simp [Threads.cancel, hut]

/-- A thread which moves was not to stop, and got the mutex it wants. -/
theorem Program.move_cases {prog : Program P M R} {s s' : Threads τ P M} {t : τ} {q : P}
    (h : prog.move s t q = some s') : ∃ p owner, s.pos t = some p ∧ q ∈ prog.next p ∧
      ¬ (s.cancelled t = true ∧ (prog.effect p).CancelPoint) ∧ s.perform t (prog.effect p) = some owner ∧
      s' = s.put t (some q) owner := by
  rw [Program.move] at h
  split at h
  · exact absurd h (by simp)
  · rename_i p hp
    split at h
    · rename_i hmay
      obtain ⟨owner, howner, rfl⟩ := Option.map_eq_some_iff.mp h
      exact ⟨p, owner, hp, hmay.1, hmay.2, howner, rfl⟩
    · exact absurd h (by simp)

omit [DecidableEq P] in
/-- A thread which stops leaves the mutexes alone, or takes the one of its condition variable. -/
theorem Program.stop_cases {prog : Program P M R} {s s' : Threads τ P M} {t : τ}
    (h : prog.stop s t = some s') :
    ∃ owner, s' = s.put t none owner ∧
      (owner = s.owner ∨ ∃ m, s.owner m = none ∧ owner = Function.update s.owner m (some t)) := by
  rw [Program.stop] at h
  split at h
  · exact absurd h (by simp)
  · split at h
    · split at h
      · exact ⟨_, (Option.some.inj h).symm, Or.inl rfl⟩
      · rename_i m _
        split at h
        · rename_i hfree
          exact ⟨_, (Option.some.inj h).symm, Or.inr ⟨m, hfree, rfl⟩⟩
        · exact absurd h (by simp)
      · exact absurd h (by simp)
    · exact absurd h (by simp)

omit [DecidableEq τ] [DecidableEq P] in
/-- A thread which stops takes no mutex from another one. -/
theorem stop_owner {s : Threads τ P M} {t : τ} {owner : M → Option τ}
    (h : owner = s.owner ∨ ∃ m, s.owner m = none ∧ owner = Function.update s.owner m (some t)) {u : τ}
    {m : M} (hm : s.owner m = some u) : owner m = some u := by
  rcases h with rfl | ⟨m', hfree, rfl⟩
  · exact hm
  · have hne : m ≠ m' := by
      rintro rfl
      exact absurd (hm.symm.trans hfree) (by simp)
    rw [Function.update_of_ne hne, hm]

/-- A move cancels no thread. -/
theorem Program.move_cancelled {prog : Program P M R} {s s' : Threads τ P M} {t : τ} {q : P}
    (h : prog.move s t q = some s') : s'.cancelled = s.cancelled := by
  obtain ⟨p, owner, -, -, -, -, rfl⟩ := Program.move_cases h
  rfl

omit [DecidableEq P] in
/-- A stop cancels no thread. -/
theorem Program.stop_cancelled {prog : Program P M R} {s s' : Threads τ P M} {t : τ}
    (h : prog.stop s t = some s') :
    s'.cancelled = s.cancelled := by
  obtain ⟨owner, rfl, -⟩ := Program.stop_cases h
  rfl

/-- Every thread owns the mutex which it has by its position. -/
def Program.Owns (prog : Program P M R) (s : Threads τ P M) : Prop :=
  ∀ t p m, s.pos t = some p → prog.held p = some m → s.owner m = some t

omit [DecidableEq τ] [DecidableEq P] in
/-- What a thread does leaves the mutexes of the others alone. -/
theorem Program.Owns.perform_other {prog : Program P M R} {s : Threads τ P M} (h : prog.Owns s)
    {t u : τ} {p : P} (hp : s.pos t = some p) {owner : M → Option τ}
    (hperform : s.perform t (prog.effect p) = some owner) (hu : u ≠ t)
    {m : M} (hm : s.owner m = some u) : owner m = some u := by
  have hunlock {m' : M} (hheld : prog.held p = some m') : m ≠ m' := by
    rintro rfl
    exact hu (Option.some.inj (hm.symm.trans (h t p m hp hheld)))
  cases heffect : prog.effect p with
  | lock m' =>
    rw [heffect, Threads.perform] at hperform
    split at hperform
    · rename_i hfree
      have hne : m ≠ m' := by
        rintro rfl
        exact absurd (hm.symm.trans hfree) (by simp)
      rw [← Option.some.inj hperform, Function.update_of_ne hne, hm]
    · exact absurd hperform (by simp)
  | unlock m' =>
    rw [heffect] at hperform
    rw [← Option.some.inj hperform, Function.update_of_ne (hunlock (prog.held_unlock p m' heffect)), hm]
  | wait m' =>
    rw [heffect] at hperform
    rw [← Option.some.inj hperform, Function.update_of_ne (hunlock (prog.held_wait p m' heffect)), hm]
  | use r | io | asleep m' | plain =>
    rw [heffect] at hperform
    rw [← Option.some.inj hperform, hm]

omit [DecidableEq τ] [DecidableEq P] in
/-- A thread which moves owns the mutex which it has then. -/
theorem Program.Owns.perform_self {prog : Program P M R} {s : Threads τ P M} (h : prog.Owns s) {t : τ}
    {p q : P} (hp : s.pos t = some p) (hq : q ∈ prog.next p) {owner : M → Option τ}
    (hperform : s.perform t (prog.effect p) = some owner) {m : M} (hm : prog.held q = some m) :
    owner m = some t := by
  rw [prog.held_next p q hq] at hm
  cases heffect : prog.effect p with
  | lock m' =>
    rw [heffect, Threads.perform] at hperform
    rw [heffect] at hm
    obtain rfl : m' = m := Option.some.inj hm
    split at hperform
    · rw [← Option.some.inj hperform, Function.update_self]
    · exact absurd hperform (by simp)
  | unlock m' | wait m' =>
    rw [heffect] at hm
    exact absurd hm (by simp [Effect.held])
  | use r | io | asleep m' | plain =>
    rw [heffect] at hm hperform
    rw [← Option.some.inj hperform]
    exact h t p m hp hm

/-- A move keeps the ownership. -/
theorem Program.Owns.move {prog : Program P M R} {s s' : Threads τ P M} (h : prog.Owns s) {t : τ} {q : P}
    (hmove : prog.move s t q = some s') : prog.Owns s' := by
  obtain ⟨p, owner, hp, hq, -, hperform, rfl⟩ := Program.move_cases hmove
  intro u p' m hu hm
  by_cases hut : u = t
  · subst hut
    obtain rfl : q = p' := by simpa using hu
    exact h.perform_self hp hq hperform hm
  · rw [Threads.put_pos_of_ne _ _ _ _ hut] at hu
    exact h.perform_other hp hperform hut (h u p' m hu hm)

omit [DecidableEq P] in
/-- A thread which stops keeps the ownership. -/
theorem Program.Owns.stop {prog : Program P M R} {s s' : Threads τ P M} (h : prog.Owns s) {t : τ}
    (hstop : prog.stop s t = some s') : prog.Owns s' := by
  obtain ⟨owner, rfl, howner⟩ := Program.stop_cases hstop
  intro u p m hu hm
  have hut : u ≠ t := by
    rintro rfl
    simp at hu
  rw [Threads.put_pos_of_ne _ _ _ _ hut] at hu
  exact stop_owner howner (h u p m hu hm)

/-- The thread will do nothing any more: it has stopped, or it can only stop. -/
def Program.Stuck (prog : Program P M R) (s : Threads τ P M) (t : τ) : Prop :=
  s.cancelled t = true ∧ ∀ p, s.pos t = some p → (prog.effect p).CancelPoint

/-- The owner of the mutex will not unlock it any more. -/
def Program.Doomed (prog : Program P M R) (s : Threads τ P M) (m : M) : Prop :=
  ∃ t, s.owner m = some t ∧ prog.Stuck s t

/-- From this position a thread may come to an access to `r`, without a cancellation point before and
without a mutex which is `dead`. -/
inductive Program.MayUse (prog : Program P M R) (dead : M → Prop) (r : R) : P → Prop
  | here {p : P} : prog.effect p = .use r → MayUse prog dead r p
  | later {p q : P} : ¬ (prog.effect p).CancelPoint → (∀ m, prog.effect p = .lock m → ¬ dead m) →
      q ∈ prog.next p → MayUse prog dead r q → MayUse prog dead r p

omit [DecidableEq M] [DecidableEq P] in
/-- With more dead mutexes a thread comes to less. -/
theorem Program.MayUse.mono {prog : Program P M R} {dead dead' : M → Prop}
    (hdead : ∀ m, dead' m → dead m) {r : R} {p : P} (h : prog.MayUse dead r p) :
    prog.MayUse dead' r p := by
  induction h with
  | here huse => exact .here huse
  | later hpoint hlock hnext _ ih =>
    exact .later hpoint (fun m hm hdead' => hlock m hm (hdead m hdead')) hnext ih

/-- No thread can come to an access to `r` any more. -/
def Program.Safe (prog : Program P M R) (s : Threads τ P M) (r : R) : Prop :=
  ∀ t p, s.pos t = some p → ¬ prog.MayUse (prog.Doomed s) r p

/-- A dead mutex stays so when a thread moves. -/
theorem Program.Doomed.move {prog : Program P M R} {s s' : Threads τ P M} (howns : prog.Owns s) {t : τ}
    {q : P} (hmove : prog.move s t q = some s') {m : M} (h : prog.Doomed s m) : prog.Doomed s' m := by
  obtain ⟨u, hu, hcancelled, hstuck⟩ := h
  obtain ⟨p, owner, hp, -, hgoes, hperform, rfl⟩ := Program.move_cases hmove
  have hut : u ≠ t := by
    rintro rfl
    exact hgoes ⟨hcancelled, hstuck p hp⟩
  refine ⟨u, howns.perform_other hp hperform hut hu, hcancelled, ?_⟩
  intro p' hp'
  rw [Threads.put_pos_of_ne _ _ _ _ hut] at hp'
  exact hstuck p' hp'

omit [DecidableEq P] in
/-- A dead mutex stays so when a thread stops. -/
theorem Program.Doomed.stop {prog : Program P M R} {s s' : Threads τ P M} {t : τ}
    (hstop : prog.stop s t = some s') {m : M} (h : prog.Doomed s m) : prog.Doomed s' m := by
  obtain ⟨u, hu, hcancelled, hstuck⟩ := h
  obtain ⟨owner, rfl, howner⟩ := Program.stop_cases hstop
  refine ⟨u, stop_owner howner hu, hcancelled, ?_⟩
  intro p' hp'
  by_cases hut : u = t
  · subst hut
    simp at hp'
  · rw [Threads.put_pos_of_ne _ _ _ _ hut] at hp'
    exact hstuck p' hp'

/-- A cancelled thread which moves comes no nearer to an access than it could before. -/
theorem Program.Safe.move {prog : Program P M R} {s s' : Threads τ P M} {r : R} (h : prog.Safe s r)
    (howns : prog.Owns s) {t : τ} {q : P} (hcancelled : s.cancelled t = true)
    (hmove : prog.move s t q = some s') :
    prog.Safe s' r := by
  intro u p' hp' huse
  have hbefore : prog.MayUse (prog.Doomed s) r p' := huse.mono fun m hm => hm.move howns hmove
  obtain ⟨p, owner, hp, hq, hgoes, hperform, rfl⟩ := Program.move_cases hmove
  by_cases hut : u = t
  · subst hut
    obtain rfl : q = p' := by simpa using hp'
    have hpoint : ¬ (prog.effect p).CancelPoint := fun hpoint => hgoes ⟨hcancelled, hpoint⟩
    have hlock (m : M) (heffect : prog.effect p = .lock m) : ¬ prog.Doomed s m := by
      rintro ⟨v, hv, -⟩
      rw [heffect, Threads.perform, hv] at hperform
      exact absurd hperform (by simp)
    exact h u p hp (.later hpoint hlock hq hbefore)
  · rw [Threads.put_pos_of_ne _ _ _ _ hut] at hp'
    exact h u p' hp' hbefore

omit [DecidableEq P] in
/-- A thread which stops comes to no access. -/
theorem Program.Safe.stop {prog : Program P M R} {s s' : Threads τ P M} {r : R} (h : prog.Safe s r)
    {t : τ} (hstop : prog.stop s t = some s') : prog.Safe s' r := by
  intro u p' hp' huse
  have hbefore : prog.MayUse (prog.Doomed s) r p' := huse.mono fun m hm => hm.stop hstop
  obtain ⟨owner, rfl, -⟩ := Program.stop_cases hstop
  by_cases hut : u = t
  · subst hut
    simp at hp'
  · rw [Threads.put_pos_of_ne _ _ _ _ hut] at hp'
    exact h u p' hp' hbefore

omit [DecidableEq τ] [DecidableEq M] [DecidableEq P] in
/-- A set of positions which has every access to `r`, and with a position those before it which are no
cancellation points, has every position from which a thread may come to an access. -/
theorem Program.MayUse.mem_window {prog : Program P M R} {r : R} (window : P → Prop)
    (huse : ∀ p, prog.effect p = .use r → window p)
    (hback : ∀ p, ¬ (prog.effect p).CancelPoint → ∀ q ∈ prog.next p, window q → window p)
    {dead : M → Prop} {p : P} (h : prog.MayUse dead r p) : window p := by
  induction h with
  | here heffect => exact huse _ heffect
  | later hpoint _ hnext _ ih => exact hback _ hpoint _ hnext ih

end Csci4061.Lib
