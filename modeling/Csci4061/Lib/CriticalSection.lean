import Csci4061.Lib.Transition
import Mathlib.Logic.Function.Basic

/-!
# Critical sections are atomic

Threads share a state which they only use in critical sections under one lock. The code of a section
consists of small steps, and the other threads may take steps between any two of them. Their steps do
not touch the shared state, so every run is one in which each section happens at once, at the step with
which its result gets known.

A thread in a section is not asked whether it holds the lock: that it does is proved. Some steps may
wait for something outside of the threads. If every section which can begin comes to an end when it runs
alone and these steps return, then the owner of the lock can go on alone until it has given it back or
waits there, and it gives it back once that step has returned.
-/

namespace Csci4061.Lib

/-- Threads with critical sections. The code of a section goes from one control state to the next and
ends with a result, and is undefined where there is no step. A thread enters a section with a label, and
on its end changes its local state and what is recorded; outside of a section it does the same on its
own. -/
structure Locking (σ κ ρ ε α ℓ m : Type*) where
  code : σ → κ → Option (σ × (κ ⊕ ρ))
  enter : α → ℓ → Option κ
  leave : ε → α → ℓ → ρ → ε × α
  outside : ε → α → m → Option (ε × α)

/-- Where a thread is. -/
inductive LockPhase (κ ℓ : Type*)
  | outside
  | inside (label : ℓ) (control : κ)
  | leaving

/-- The shared state, as it is and as the owner of the lock found it; what is recorded; the threads; and
the owner. -/
structure LockState (ι σ κ ε α ℓ : Type*) where
  shared : σ
  before : σ
  record : ε
  locals : ι → α
  phases : ι → LockPhase κ ℓ
  owner : Option ι

/-- The same without the lock. -/
structure AtomicState (ι σ ε α : Type*) where
  shared : σ
  record : ε
  locals : ι → α

/-- The steps of a thread: it gets the lock, goes on in its section, ends it, gives the lock back, or
does something outside. -/
inductive LockLabel (ι ℓ m : Type*)
  | lock (w : ι) (label : ℓ)
  | advance (w : ι)
  | commit (w : ι) (label : ℓ)
  | unlock (w : ι)
  | outside (w : ι) (label : m)

/-- The thread which takes a step. -/
def LockLabel.thread {ι ℓ m : Type*} : LockLabel ι ℓ m → ι
  | .lock w _ => w
  | .advance w => w
  | .commit w _ => w
  | .unlock w => w
  | .outside w _ => w

/-- The steps without the lock. -/
inductive AtomicLabel (ι ℓ m : Type*)
  | whole (w : ι) (label : ℓ)
  | outside (w : ι) (label : m)

namespace Locking

variable {ι σ κ ρ ε α ℓ m : Type*}

/-- A section runs alone to its end. -/
inductive Executes (P : Locking σ κ ρ ε α ℓ m) : σ → κ → σ → ρ → Prop
  | last {s s' : σ} {k : κ} {r : ρ} : P.code s k = some (s', .inr r) → Executes P s k s' r
  | more {s s' t : σ} {k k' : κ} {r : ρ} :
    P.code s k = some (s', .inl k') → Executes P s' k' t r → Executes P s k t r

/-- A section runs alone up to a control state. -/
inductive Reaches (P : Locking σ κ ρ ε α ℓ m) (s : σ) (k : κ) : σ → κ → Prop
  | refl : Reaches P s k s k
  | snoc {s' s'' : σ} {k' k'' : κ} :
    Reaches P s k s' k' → P.code s' k' = some (s'', .inl k'') → Reaches P s k s'' k''

variable {P : Locking σ κ ρ ε α ℓ m}

/-- What a section comes to is its end. -/
theorem Reaches.executes {s s' t : σ} {k k' : κ} {r : ρ} (h : P.Reaches s k s' k')
    (hrest : P.Executes s' k' t r) :
    P.Executes s k t r := by
  induction h with
  | refl => exact hrest
  | snoc _ hlast ih => exact ih (.more hlast hrest)

/-- There is one way to the end, and what was reached is on it. -/
theorem Reaches.rest {s s' t : σ} {k k' : κ} {r : ρ} (h : P.Reaches s k s' k')
    (hall : P.Executes s k t r) :
    P.Executes s' k' t r := by
  induction h with
  | refl => exact hall
  | snoc _ hlast ih =>
    cases ih with
    | last hend => exact absurd (hlast.symm.trans hend) (by simp)
    | more hnext hrest =>
      obtain ⟨rfl, hcontrol⟩ := Prod.mk.inj (Option.some.inj (hlast.symm.trans hnext))
      exact Sum.inl.inj hcontrol ▸ hrest

/-- A section ends in one way. -/
theorem Executes.unique {s t t' : σ} {k : κ} {r r' : ρ} (h : P.Executes s k t r)
    (h' : P.Executes s k t' r') :
    t = t' ∧ r = r' := by
  induction h with
  | last hend =>
    cases h' with
    | last hend' =>
      obtain ⟨hs, hr⟩ := Prod.mk.inj (Option.some.inj (hend.symm.trans hend'))
      exact ⟨hs, Sum.inr.inj hr⟩
    | more hnext _ => exact absurd (hend.symm.trans hnext) (by simp)
  | more hnext _ ih =>
    cases h' with
    | last hend' => exact absurd (hnext.symm.trans hend') (by simp)
    | more hnext' hrest' =>
      obtain ⟨rfl, hcontrol⟩ := Prod.mk.inj (Option.some.inj (hnext.symm.trans hnext'))
      exact ih (Sum.inl.inj hcontrol ▸ hrest')

variable (P) [DecidableEq ι]

/-- The steps of the threads with the lock. -/
inductive LockStep : LockState ι σ κ ε α ℓ → LockLabel ι ℓ m → LockState ι σ κ ε α ℓ → Prop
  | lock {s : LockState ι σ κ ε α ℓ} {w : ι} {label : ℓ} {k : κ} :
    s.owner = none → s.phases w = .outside →
      P.enter (s.locals w) label = some k → LockStep s (.lock w label)
        { s with
          before := s.shared
          phases := Function.update s.phases w (.inside label k)
          owner := some w }
  | advance {s : LockState ι σ κ ε α ℓ} {w : ι} {label : ℓ} {k k' : κ} {shared : σ} :
    s.phases w = .inside label k →
      P.code s.shared k = some (shared, .inl k') → LockStep s (.advance w)
        { s with shared := shared, phases := Function.update s.phases w (.inside label k') }
  | commit {s : LockState ι σ κ ε α ℓ} {w : ι} {label : ℓ} {k : κ} {shared : σ} {r : ρ} :
      s.phases w = .inside label k → P.code s.shared k = some (shared, .inr r) →
        LockStep s (.commit w label)
        { s with
          shared := shared
          record := (P.leave s.record (s.locals w) label r).1
          locals := Function.update s.locals w (P.leave s.record (s.locals w) label r).2
          phases := Function.update s.phases w .leaving }
  | unlock {s : LockState ι σ κ ε α ℓ} {w : ι} : s.phases w = .leaving → LockStep s (.unlock w)
      { s with phases := Function.update s.phases w .outside, owner := none }
  | outside {s : LockState ι σ κ ε α ℓ} {w : ι} {label : m} {record : ε} {a : α} :
    s.phases w = .outside →
      P.outside s.record (s.locals w) label = some (record, a) → LockStep s (.outside w label)
        { s with record := record, locals := Function.update s.locals w a }

/-- The steps without the lock. -/
inductive AtomicStep : AtomicState ι σ ε α → AtomicLabel ι ℓ m → AtomicState ι σ ε α → Prop
  | whole {s : AtomicState ι σ ε α} {w : ι} {label : ℓ} {k : κ} {shared : σ} {r : ρ} :
      P.enter (s.locals w) label = some k → P.Executes s.shared k shared r →
        AtomicStep s (.whole w label)
        { shared := shared
          record := (P.leave s.record (s.locals w) label r).1
          locals := Function.update s.locals w (P.leave s.record (s.locals w) label r).2 }
  | outside {s : AtomicState ι σ ε α} {w : ι} {label : m} {record : ε} {a : α} :
      P.outside s.record (s.locals w) label = some (record, a) → AtomicStep s (.outside w label)
        { s with record := record, locals := Function.update s.locals w a }

/-- The threads with the lock, from some states in which nobody is in a section. -/
def lockSystem (init : AtomicState ι σ ε α → Prop) :
    TransitionSystem (LockState ι σ κ ε α ℓ) (LockLabel ι ℓ m) where
  init s := init ⟨s.shared, s.record, s.locals⟩ ∧ (∀ w, s.phases w = .outside) ∧ s.owner = none
  step := P.LockStep

/-- The threads without the lock. -/
def atomicSystem (init : AtomicState ι σ ε α → Prop) :
    TransitionSystem (AtomicState ι σ ε α) (AtomicLabel ι ℓ m) where
  init := init
  step := P.AtomicStep

/-- The threads in a section or behind its end own the lock, and what a section did since it began is
known. -/
structure LockInv (s : LockState ι σ κ ε α ℓ) : Prop where
  owner : ∀ w, s.owner = some w ↔ s.phases w ≠ .outside
  reaches : ∀ w label k, s.phases w = .inside label k →
    ∃ k₀, P.enter (s.locals w) label = some k₀ ∧ P.Reaches s.before k₀ s.shared k

omit [DecidableEq ι] in
/-- At the start nobody is in a section. -/
theorem lockInv_init {s : LockState ι σ κ ε α ℓ} (hphases : ∀ w, s.phases w = .outside)
    (howner : s.owner = none) :
    P.LockInv s where
  owner w := by simp [howner, hphases w]
  reaches w label k h := absurd ((hphases w).symm.trans h) (by simp)

variable {P}

/-- Every step keeps the lock with its owner. -/
theorem LockInv.step {s s' : LockState ι σ κ ε α ℓ} {label : LockLabel ι ℓ m} (h : P.LockInv s)
    (hstep : P.LockStep s label s') : P.LockInv s' := by
  cases hstep with
  | @lock w label k hfree houtside henter =>
    have hnobody (v : ι) : s.phases v = .outside := by
      by_contra hv
      exact absurd (hfree.symm.trans ((h.owner v).mpr hv)) (by simp)
    refine ⟨fun v => ?_, fun v label' k' hv => ?_⟩
    · simp only [Function.update_apply, Option.some.injEq]
      split
      · rename_i heq
        simp [heq]
      · rename_i hne
        simp [hnobody v, Ne.symm hne]
    · simp only [Function.update_apply] at hv
      split at hv
      · rename_i heq
        obtain ⟨rfl, rfl⟩ := LockPhase.inside.inj hv
        exact ⟨k, heq ▸ henter, .refl⟩
      · exact absurd ((hnobody v).symm.trans hv) (by simp)
  | @advance w label k k' shared hinside hcode =>
    have howner : s.owner = some w := (h.owner w).mpr (by simp [hinside])
    obtain ⟨k₀, henter, hreaches⟩ := h.reaches w label k hinside
    refine ⟨fun v => ?_, fun v label' k'' hv => ?_⟩
    · simp only [Function.update_apply]
      split
      · rename_i heq
        simp [heq, howner]
      · exact h.owner v
    · simp only [Function.update_apply] at hv
      split at hv
      · rename_i heq
        obtain ⟨rfl, rfl⟩ := LockPhase.inside.inj hv
        exact ⟨k₀, heq ▸ henter, hreaches.snoc hcode⟩
      · rename_i hne
        have hother : s.owner = some v := (h.owner v).mpr (by simp [hv])
        exact absurd (Option.some.inj (hother.symm.trans howner)) hne
  | @commit w label k shared r hinside hcode =>
    have howner : s.owner = some w := (h.owner w).mpr (by simp [hinside])
    refine ⟨fun v => ?_, fun v label' k'' hv => ?_⟩
    · simp only [Function.update_apply]
      split
      · rename_i heq
        simp [heq, howner]
      · exact h.owner v
    · simp only [Function.update_apply] at hv
      split at hv
      · exact absurd hv (by simp)
      · rename_i hne
        have hother : s.owner = some v := (h.owner v).mpr (by simp [hv])
        exact absurd (Option.some.inj (hother.symm.trans howner)) hne
  | @unlock w hleaving =>
    have howner : s.owner = some w := (h.owner w).mpr (by simp [hleaving])
    have hnobody (v : ι) (hne : v ≠ w) : s.phases v = .outside := by
      by_contra hv
      exact hne (Option.some.inj (((h.owner v).mpr hv).symm.trans howner))
    refine ⟨fun v => ?_, fun v label' k'' hv => ?_⟩
    · simp only [Function.update_apply]
      split
      · simp
      · rename_i hne
        simp [hnobody v hne]
    · simp only [Function.update_apply] at hv
      split at hv
      · exact absurd hv (by simp)
      · rename_i hne
        exact absurd ((hnobody v hne).symm.trans hv) (by simp)
  | @outside w label record a houtside hact =>
    refine ⟨h.owner, fun v label' k'' hv => ?_⟩
    have hne : v ≠ w := fun heq => absurd (houtside.symm.trans (heq ▸ hv)) (by simp)
    obtain ⟨k₀, henter, hreaches⟩ := h.reaches v label' k'' hv
    have hlocals : Function.update s.locals w a v = s.locals v := Function.update_of_ne hne a s.locals
    exact ⟨k₀, (congrArg (P.enter · label') hlocals).trans henter, hreaches⟩

omit [DecidableEq ι] in
/-- One thread at most is in a section, or about to give the lock back. -/
theorem LockInv.unique {s : LockState ι σ κ ε α ℓ} (h : P.LockInv s) {v w : ι}
    (hv : s.phases v ≠ .outside) (hw : s.phases w ≠ .outside) : v = w :=
  Option.some.inj (((h.owner v).mpr hv).symm.trans ((h.owner w).mpr hw))

end Locking

/-- The shared state without what the section which is going on did so far. -/
def LockState.found {ι σ κ ε α ℓ : Type*} (s : LockState ι σ κ ε α ℓ) : σ :=
  match s.owner with
  | none => s.shared
  | some w =>
    match s.phases w with
    | .inside _ _ => s.before
    | _ => s.shared

/-- The thread is at one of these control states of its section. -/
def LockState.WaitsAt {ι σ κ ε α ℓ : Type*} (waits : κ → Prop) (s : LockState ι σ κ ε α ℓ) (w : ι) :
    Prop :=
  ∃ label k, s.phases w = .inside label k ∧ waits k

/-- What happened, with the section which is going on still to come. -/
def LockState.atomic {ι σ κ ε α ℓ : Type*} (s : LockState ι σ κ ε α ℓ) : AtomicState ι σ ε α :=
  ⟨s.found, s.record, s.locals⟩

/-- The step of a section with which its result gets known stands for the whole section. -/
def LockLabel.atomic {ι ℓ m : Type*} : LockLabel ι ℓ m → Option (AtomicLabel ι ℓ m)
  | .commit w label => some (.whole w label)
  | .outside w label => some (.outside w label)
  | _ => none

namespace Locking

variable {ι σ κ ρ ε α ℓ m : Type*} [DecidableEq ι] {P : Locking σ κ ρ ε α ℓ m}

/-- Each step is one of the threads without the lock, or none. -/
theorem LockInv.atomic_step {s s' : LockState ι σ κ ε α ℓ} {label : LockLabel ι ℓ m} (h : P.LockInv s)
    (hstep : P.LockStep s label s') :
    match label.atomic with
    | none => s'.atomic = s.atomic
    | some l => P.AtomicStep s.atomic l s'.atomic := by
  cases hstep with
  | @lock w label k hfree houtside henter =>
    simp [LockLabel.atomic, LockState.atomic, LockState.found, hfree]
  | @advance w label k k' shared hinside hcode =>
    have howner : s.owner = some w := (h.owner w).mpr (by simp [hinside])
    simp [LockLabel.atomic, LockState.atomic, LockState.found, howner, hinside]
  | @commit w label k shared r hinside hcode =>
    have howner : s.owner = some w := (h.owner w).mpr (by simp [hinside])
    obtain ⟨k₀, henter, hreaches⟩ := h.reaches w label k hinside
    have hfound : s.found = s.before := by simp [LockState.found, howner, hinside]
    have hexec : P.Executes s.found k₀ shared r := hfound.symm ▸ hreaches.executes (.last hcode)
    have hwhole : P.AtomicStep s.atomic (.whole w label) _ := .whole henter hexec
    simpa [LockLabel.atomic, LockState.atomic, LockState.found, howner, hinside] using hwhole
  | @unlock w hleaving =>
    have howner : s.owner = some w := (h.owner w).mpr (by simp [hleaving])
    simp [LockLabel.atomic, LockState.atomic, LockState.found, howner, hleaving]
  | @outside w label record a houtside hact => exact AtomicStep.outside hact

/-- Sections under a lock are atomic. -/
def atomicRefinement (P : Locking σ κ ρ ε α ℓ m) (init : AtomicState ι σ ε α → Prop) :
    TransitionSystem.Refinement (P.lockSystem init) (P.atomicSystem init) where
  inv := P.LockInv
  abs := LockState.atomic
  visible := LockLabel.atomic
  inv_init _ hinit := P.lockInv_init hinit.2.1 hinit.2.2
  inv_step _ _ _ h hstep := h.step hstep
  abs_init s hinit := by
    have hfound : s.found = s.shared := by simp [LockState.found, hinit.2.2]
    have hsame : s.atomic = ⟨s.shared, s.record, s.locals⟩ := by rw [LockState.atomic, hfound]
    exact hsame ▸ hinit.1
  abs_step s label t h hstep := by
    have hnext := h.atomic_step hstep
    cases label <;> exact hnext

/-- With steps of one thread alone the lock is free. -/
def Releases (P : Locking σ κ ρ ε α ℓ m) (init : AtomicState ι σ ε α → Prop) (s : LockState ι σ κ ε α ℓ)
    (w : ι) :
    Prop :=
  ∃ labels u, (∀ l ∈ labels, l.thread = w) ∧ (P.lockSystem init).Run s labels u ∧ u.owner = none

/-- Without a step at one of these control states the thread comes to the end of its section and gives
the lock back, or it comes to one of them, from where it gives the lock back if its step there is taken. -/
def ReleasesUnless (P : Locking σ κ ρ ε α ℓ m) (init : AtomicState ι σ ε α → Prop) (waits : κ → Prop)
    (s : LockState ι σ κ ε α ℓ) (w : ι) : Prop :=
  ∃ labels u, (∀ l ∈ labels, l.thread = w) ∧
    ((P.lockSystem init).restrict fun s l => ¬ s.WaitsAt waits l.thread).Run s labels u ∧
    (u.owner = none ∨ u.WaitsAt waits w ∧ P.Releases init u w)

/-- A thread whose section comes to its end alone can go on alone until it has given the lock back. -/
theorem Executes.releases {init : AtomicState ι σ ε α → Prop} {shared t : σ} {k : κ} {r : ρ}
    (hrest : P.Executes shared k t r) {s : LockState ι σ κ ε α ℓ} {w : ι} {label : ℓ}
    (hshared : s.shared = shared) (hphase : s.phases w = .inside label k) : P.Releases init s w := by
  induction hrest generalizing s with
  | last hend =>
    subst hshared
    obtain ⟨s', hcommit, hleaving⟩ : ∃ s', P.LockStep s (.commit w label) s' ∧ s'.phases w = .leaving :=
      ⟨_, .commit hphase hend, Function.update_self ..⟩
    refine ⟨[.commit w label, .unlock w], _, ?_, .cons hcommit (.cons (.unlock hleaving) .nil), rfl⟩
    simp [LockLabel.thread]
  | @more _ shared' _ k k' _ hnext _ ih =>
    subst hshared
    obtain ⟨s', hadvance, hshared', hphase'⟩ : ∃ s', P.LockStep s (.advance w) s' ∧ s'.shared = shared' ∧
        s'.phases w = .inside label k' := ⟨_, .advance hphase hnext, rfl, Function.update_self ..⟩
    obtain ⟨labels, u, hthread, hrun, hfree⟩ := ih hshared' hphase'
    refine ⟨.advance w :: labels, u, ?_, .cons hadvance hrun, hfree⟩
    simpa [LockLabel.thread] using hthread

/-- A thread whose section comes to its end alone goes on alone until it has given the lock back or
waits. -/
theorem Executes.releasesUnless {init : AtomicState ι σ ε α → Prop} (waits : κ → Prop) {shared t : σ}
    {k : κ} {r : ρ} (hrest : P.Executes shared k t r) {s : LockState ι σ κ ε α ℓ} {w : ι} {label : ℓ}
    (hshared : s.shared = shared) (hphase : s.phases w = .inside label k) :
    P.ReleasesUnless init waits s w := by
  have hstops {s : LockState ι σ κ ε α ℓ} {shared t : σ} {k : κ} {r : ρ}
      (hrest : P.Executes shared k t r)
      (hshared : s.shared = shared) (hphase : s.phases w = .inside label k) (hwaits : waits k) :
      P.ReleasesUnless init waits s w :=
    ⟨[], s, by simp, .nil, Or.inr ⟨⟨label, k, hphase, hwaits⟩, hrest.releases hshared hphase⟩⟩
  have hgoes {s : LockState ι σ κ ε α ℓ} {k : κ} (hphase : s.phases w = .inside label k)
      (hwaits : ¬ waits k) :
      ¬ s.WaitsAt waits w := by
    rintro ⟨label', k', hphase', hwaits'⟩
    obtain ⟨rfl, rfl⟩ := LockPhase.inside.inj (hphase.symm.trans hphase')
    exact hwaits hwaits'
  induction hrest generalizing s with
  | @last _ _ k _ hend =>
    by_cases hwaits : waits k
    · exact hstops (.last hend) hshared hphase hwaits
    · subst hshared
      obtain ⟨s', hcommit, hleaving⟩ :
          ∃ s', P.LockStep s (.commit w label) s' ∧ s'.phases w = .leaving :=
        ⟨_, .commit hphase hend, Function.update_self ..⟩
      have hleaves : ¬ s'.WaitsAt waits w := fun ⟨_, _, hphase', _⟩ =>
          absurd (hleaving.symm.trans hphase') (by simp)
      refine ⟨[.commit w label, .unlock w], _, ?_,
        .cons ⟨hgoes hphase hwaits, hcommit⟩ (.cons ⟨hleaves, .unlock hleaving⟩ .nil), Or.inl rfl⟩
      simp [LockLabel.thread]
  | @more _ shared' _ k k' _ hnext hlater ih =>
    by_cases hwaits : waits k
    · exact hstops (.more hnext hlater) hshared hphase hwaits
    · subst hshared
      obtain ⟨s', hadvance, hshared', hphase'⟩ :
          ∃ s', P.LockStep s (.advance w) s' ∧ s'.shared = shared' ∧
          s'.phases w = .inside label k' := ⟨_, .advance hphase hnext, rfl, Function.update_self ..⟩
      obtain ⟨labels, u, hthread, hrun, hend⟩ := ih hshared' hphase'
      refine ⟨.advance w :: labels, u, ?_, .cons ⟨hgoes hphase hwaits, hadvance⟩ hrun, hend⟩
      simpa [LockLabel.thread] using hthread

/-- If the sections which can begin come to an end alone, then the owner of the lock can always go on
alone until it has given it back or waits. -/
theorem owner_releases {init : AtomicState ι σ ε α → Prop} (waits : κ → Prop)
    (hends : ∀ s : AtomicState ι σ ε α, (P.atomicSystem init).Reachable s → ∀ w label k,
      P.enter (s.locals w) label = some k → ∃ t r, P.Executes s.shared k t r)
    {s : LockState ι σ κ ε α ℓ} (h : (P.lockSystem init).Reachable s) {w : ι}
    (howner : s.owner = some w) :
    P.ReleasesUnless init waits s w := by
  have hinv : P.LockInv s := h.invariant (P.atomicRefinement init).inv_init
      (P.atomicRefinement init).inv_step
  cases hphase : s.phases w with
  | outside => exact absurd hphase ((hinv.owner w).mp howner)
  | leaving =>
    have hleaves : ¬ s.WaitsAt waits w := fun ⟨_, _, hphase', _⟩ => absurd (hphase.symm.trans hphase')
        (by simp)
    refine ⟨[.unlock w], _, ?_, .cons ⟨hleaves, LockStep.unlock hphase⟩ .nil, Or.inl rfl⟩
    simp [LockLabel.thread]
  | inside label k =>
    obtain ⟨k₀, henter, hreaches⟩ := hinv.reaches w label k hphase
    obtain ⟨t, r, hall⟩ := hends s.atomic ((P.atomicRefinement init).reachable h) w label k₀ henter
    have hfound : s.atomic.shared = s.before := by
      simp [LockState.atomic, LockState.found, howner, hphase]
    rw [hfound] at hall
    exact (hreaches.rest hall).releasesUnless waits rfl hphase

end Locking

end Csci4061.Lib
