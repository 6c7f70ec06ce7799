import Csci4061.Make.Target
import Mathlib.Order.RelClasses

/-!
# The order of modification times

A modification time is narrowed to `int`, which folds the line of times: it is cut into periods of
`2 ^ 32` seconds, and of a time only the place in its period is left. One place stands for a missing
file.

Files compare as their times do exactly if no time is at that place, and if times of different periods
have places in the order of the periods.
-/

namespace Csci4061.Make

open Csci4061.Lib

variable {σ : Type*} {files : Files σ} {world : σ}

/-- The period of a time; the one with the number `0` has the times which fit an `int`. -/
def period (time : ℤ) : ℤ := (time + 2 ^ 31) / 2 ^ 32

/-- The place of a time in its period. -/
def place (time : ℤ) : ℤ := (time + 2 ^ 31) % 2 ^ 32

/-- The place of the time `-1`. -/
def missingPlace : ℤ := 2 ^ 31 - 1

/-- Two times are told apart from a missing file, and if they are of different periods, their places
are ordered as the periods are. -/
structure Comparable (time₁ time₂ : ℤ) : Prop where
  first : place time₁ ≠ missingPlace
  second : place time₂ ≠ missingPlace
  ordered : period time₁ = period time₂ ∨ period time₁ < period time₂ ∧ place time₁ < place time₂ ∨
    period time₂ < period time₁ ∧ place time₂ < place time₁

/-- What `compare_modification_time` returns agrees with the times of the files. -/
structure Files.ComparesTimes (files : Files σ) (world : σ) (file₁ file₂ : CString) : Prop where
  missing : (files.compareModificationTime world file₁ file₂).1 = -1 ↔
    files.time world file₁ = none ∨ files.time world file₂ = none
  identical : (files.compareModificationTime world file₁ file₂).1 = 0 ↔
    ∃ time, files.time world file₁ = some time ∧ files.time world file₂ = some time
  later : (files.compareModificationTime world file₁ file₂).1 = 1 ↔
    ∃ time₁ time₂, files.time world file₁ = some time₁ ∧ files.time world file₂ = some time₂ ∧
      time₂ < time₁
  earlier : (files.compareModificationTime world file₁ file₂).1 = 2 ↔
    ∃ time₁ time₂, files.time world file₁ = some time₁ ∧ files.time world file₂ = some time₂ ∧
      time₁ < time₂

/-- Of the files in a group, those which exist. -/
abbrev Files.Existing (files : Files σ) (world : σ) (group : Set CString) : Type :=
  {file : CString // file ∈ group ∧ files.time world file ≠ none}

/-- On a group of files `compare_modification_time` reports the real order: it agrees with the times,
'earlier' is a strict weak order of the files which exist, and swapping two files swaps 'later' and
'earlier'. -/
structure Files.RealOrder (files : Files σ) (world : σ) (group : Set CString) : Prop where
  compares : ∀ file₁ ∈ group, ∀ file₂ ∈ group, files.ComparesTimes world file₁ file₂
  weak : IsStrictWeakOrder (files.Existing world group) fun file₁ file₂ =>
    (files.compareModificationTime world file₁ file₂).1 = 2
  swaps : ∀ file₁ ∈ group, ∀ file₂ ∈ group,
    (files.compareModificationTime world file₁ file₂).1 = 1 ↔
      (files.compareModificationTime world file₂ file₁).1 = 2

/-- Two files have comparable times, if both exist. -/
def Files.Comparable (files : Files σ) (world : σ) (file₁ file₂ : CString) : Prop :=
  ∀ time₁ time₂, files.time world file₁ = some time₁ → files.time world file₂ = some time₂ →
    Make.Comparable time₁ time₂

/-- The `int` for a time is its place, counted from the smallest `int` on. -/
theorem toInt_eq_place (time : ℤ) : toInt time = place time - 2 ^ 31 := toInt_eq_emod_sub time

/-- A time is determined by its period and its place. -/
theorem period_place (time : ℤ) : time = 2 ^ 32 * period time + place time - 2 ^ 31 := by
  have hdiv := Int.mul_ediv_add_emod (time + 2 ^ 31) (2 ^ 32)
  rw [period, place]
  omega

/-- There are `2 ^ 32` places. -/
theorem place_bounds (time : ℤ) : 0 ≤ place time ∧ place time < 2 ^ 32 :=
  ⟨Int.emod_nonneg _ (by decide), Int.emod_lt_of_pos _ (by decide)⟩

/-- The comparison of two files which exist, in terms of the places of their times. -/
theorem compareTimes_place (time₁ time₂ : ℤ) :
    compareTimes (fileTime (some time₁)) (fileTime (some time₂)) =
      if place time₁ = missingPlace ∨ place time₂ = missingPlace then -1
      else if place time₁ = place time₂ then 0
      else if place time₁ > place time₂ then 1
      else 2 := by
  simp only [compareTimes, fileTime, toInt_eq_place, missingPlace]
  split_ifs <;> omega

/-- Comparable times are ordered as their places. -/
theorem Comparable.lt_iff {time₁ time₂ : ℤ} (h : Comparable time₁ time₂) :
    time₁ < time₂ ↔ place time₁ < place time₂ := by
  have h₁ := period_place time₁
  have h₂ := period_place time₂
  have hb₁ := place_bounds time₁
  have hb₂ := place_bounds time₂
  obtain hsame | ⟨hperiod, hplace⟩ | ⟨hperiod, hplace⟩ := h.ordered <;> omega

/-- Comparable times compare in both directions. -/
theorem Comparable.symm {time₁ time₂ : ℤ} (h : Comparable time₁ time₂) : Comparable time₂ time₁ where
  first := h.second
  second := h.first
  ordered := by
    obtain hsame | hbefore | hbehind := h.ordered
    · exact Or.inl hsame.symm
    · exact Or.inr (Or.inr hbefore)
    · exact Or.inr (Or.inl hbehind)

/-- Times are comparable if they are no marker and ordered as their places. -/
theorem comparable_of_lt_iff {time₁ time₂ : ℤ} (hfirst : place time₁ ≠ missingPlace)
    (hsecond : place time₂ ≠ missingPlace) (hlt : time₁ < time₂ ↔ place time₁ < place time₂)
    (hgt : time₂ < time₁ ↔ place time₂ < place time₁) : Comparable time₁ time₂ := by
  refine ⟨hfirst, hsecond, ?_⟩
  have h₁ := period_place time₁
  have h₂ := period_place time₂
  have hb₁ := place_bounds time₁
  have hb₂ := place_bounds time₂
  omega

/-- Equal times have equal places, and comparable times of one place are equal. -/
theorem Comparable.eq_iff {time₁ time₂ : ℤ} (h : Comparable time₁ time₂) :
    time₁ = time₂ ↔ place time₁ = place time₂ := by
  have hlt := h.lt_iff
  have hgt := h.symm.lt_iff
  omega

/-- Comparable times compare as they are. -/
theorem Comparable.compareTimes {time₁ time₂ : ℤ} (h : Comparable time₁ time₂) :
    Make.compareTimes (fileTime (some time₁)) (fileTime (some time₂)) =
      if time₁ = time₂ then 0 else if time₂ < time₁ then 1 else 2 := by
  rw [compareTimes_place, if_neg (not_or.mpr ⟨h.first, h.second⟩)]
  simp only [h.eq_iff, h.symm.lt_iff, gt_iff_lt]

/-- What is compared of two files which exist. -/
theorem Files.compareModificationTime_some {file₁ file₂ : CString} {time₁ time₂ : ℤ}
    (h₁ : files.time world file₁ = some time₁) (h₂ : files.time world file₂ = some time₂) :
    (files.compareModificationTime world file₁ file₂).1 =
      compareTimes (fileTime (some time₁)) (fileTime (some time₂)) := by
  rw [compareModificationTime_fst, order, h₁, h₂]

/-- A missing file is reported. -/
theorem Files.compareModificationTime_missing {file₁ file₂ : CString}
    (h : files.time world file₁ = none ∨ files.time world file₂ = none) :
    (files.compareModificationTime world file₁ file₂).1 = -1 := by
  rw [compareModificationTime_fst, order]
  obtain h | h := h <;> simp [h, compareTimes, fileTime]

/-- Two files compare as their times do exactly if these are comparable. -/
theorem Files.comparesTimes_iff (file₁ file₂ : CString) :
    files.ComparesTimes world file₁ file₂ ↔ files.Comparable world file₁ file₂ := by
  by_cases hmissing : files.time world file₁ = none ∨ files.time world file₂ = none
  · have hreported := compareModificationTime_missing hmissing
    have hnone : ∀ time₁ time₂,
        ¬ (files.time world file₁ = some time₁ ∧ files.time world file₂ = some time₂) := by
      rintro time₁ time₂ ⟨h₁, h₂⟩
      simp [h₁, h₂] at hmissing
    constructor
    · exact fun _ time₁ time₂ h₁ h₂ => absurd ⟨h₁, h₂⟩ (hnone time₁ time₂)
    · refine fun _ => ⟨by simp [hreported, hmissing], ?_, ?_, ?_⟩ <;> rw [hreported]
      · exact iff_of_false (by decide) fun ⟨time, h₁, h₂⟩ => hnone time time ⟨h₁, h₂⟩
      · exact iff_of_false (by decide) fun ⟨time₁, time₂, h₁, h₂, _⟩ => hnone time₁ time₂ ⟨h₁, h₂⟩
      · exact iff_of_false (by decide) fun ⟨time₁, time₂, h₁, h₂, _⟩ => hnone time₁ time₂ ⟨h₁, h₂⟩
  · obtain ⟨⟨time₁, h₁⟩, time₂, h₂⟩ := (not_or.mp hmissing).imp Option.ne_none_iff_exists'.mp
      Option.ne_none_iff_exists'.mp
    have hcompared := compareModificationTime_some h₁ h₂
    constructor
    · rintro ⟨hreported, -, hlater, hearlier⟩ time₁' time₂' h₁' h₂'
      obtain rfl := Option.some.inj (h₁.symm.trans h₁')
      obtain rfl := Option.some.inj (h₂.symm.trans h₂')
      simp only [hcompared, compareTimes_place, h₁, h₂, Option.some.injEq, exists_and_left,
        exists_eq_left', reduceCtorEq, or_self, iff_false] at hreported hlater hearlier
      have hplaces := not_or.mp fun hplaces => hreported (if_pos hplaces)
      rw [if_neg (not_or.mpr hplaces)] at hlater hearlier
      apply comparable_of_lt_iff hplaces.1 hplaces.2
      · rw [← hearlier]
        split_ifs <;> omega
      · rw [← hlater]
        split_ifs <;> omega
    · intro hcomparable
      have hresult := hcompared.trans (hcomparable time₁ time₂ h₁ h₂).compareTimes
      constructor <;> rw [hresult]
      · simp only [h₁, h₂, reduceCtorEq, or_self, iff_false]
        split_ifs <;> decide
      · simp only [h₁, h₂, Option.some.injEq, exists_eq_left']
        split_ifs <;> omega
      · simp only [h₁, h₂, Option.some.injEq, exists_and_left, exists_eq_left']
        split_ifs <;> omega
      · simp only [h₁, h₂, Option.some.injEq, exists_and_left, exists_eq_left']
        split_ifs <;> omega

/-- Swapping two times swaps 'later' and 'earlier'. -/
theorem compareTimes_swap (time₁ time₂ : ℤ) :
    compareTimes time₁ time₂ = 1 ↔ compareTimes time₂ time₁ = 2 := by
  grind [compareTimes]

/-- Swapping two files swaps 'later' and 'earlier', whatever their times are. -/
theorem Files.compareModificationTime_swap (files : Files σ) (world : σ) (file₁ file₂ : CString) :
    (files.compareModificationTime world file₁ file₂).1 = 1 ↔
      (files.compareModificationTime world file₂ file₁).1 = 2 := by
  rw [compareModificationTime_fst, compareModificationTime_fst]
  exact compareTimes_swap _ _

/-- The time of a file which exists. -/
def Files.existingTime (files : Files σ) (world : σ) (group : Set CString)
    (file : files.Existing world group) : ℤ :=
  (files.time world file.1).getD 0

/-- On files with comparable times 'earlier' is the order of the times. -/
theorem Files.earlier_iff {group : Set CString}
    (hcomparable : ∀ file₁ ∈ group, ∀ file₂ ∈ group, files.Comparable world file₁ file₂)
    (file₁ file₂ : files.Existing world group) :
    (files.compareModificationTime world file₁.1 file₂.1).1 = 2 ↔
      files.existingTime world group file₁ < files.existingTime world group file₂ := by
  obtain ⟨file₁, hmem₁, hexists₁⟩ := file₁
  obtain ⟨file₂, hmem₂, hexists₂⟩ := file₂
  obtain ⟨time₁, h₁⟩ := Option.ne_none_iff_exists'.mp hexists₁
  obtain ⟨time₂, h₂⟩ := Option.ne_none_iff_exists'.mp hexists₂
  have hcompares := (comparesTimes_iff file₁ file₂).mpr (hcomparable file₁ hmem₁ file₂ hmem₂)
  rw [hcompares.earlier]
  simp [existingTime, h₁, h₂]

/-- `compare_modification_time` agrees with the times of two files exactly if these are comparable
when both files exist, and so it reports the real order of a group of files exactly if their times are
comparable in pairs. -/
theorem realOrder_iff_comparable (files : Files σ) (world : σ) :
    (∀ file₁ file₂, files.ComparesTimes world file₁ file₂ ↔ files.Comparable world file₁ file₂) ∧
      ∀ group, files.RealOrder world group ↔
        ∀ file₁ ∈ group, ∀ file₂ ∈ group, files.Comparable world file₁ file₂ := by
  refine ⟨Files.comparesTimes_iff, fun group => ?_⟩
  constructor
  · intro hreal file₁ hmem₁ file₂ hmem₂
    exact (Files.comparesTimes_iff file₁ file₂).mp (hreal.compares file₁ hmem₁ file₂ hmem₂)
  · intro hcomparable
    have hearlier : (fun file₁ file₂ : files.Existing world group =>
        (files.compareModificationTime world file₁.1 file₂.1).1 = 2) =
        Order.Preimage (files.existingTime world group) (· < ·) := by
      funext file₁ file₂
      exact propext (Files.earlier_iff hcomparable file₁ file₂)
    constructor
    · intro file₁ hmem₁ file₂ hmem₂
      exact (Files.comparesTimes_iff file₁ file₂).mpr (hcomparable file₁ hmem₁ file₂ hmem₂)
    · have hlt : IsStrictWeakOrder ℤ (· < ·) := isStrictWeakOrder_of_isOrderConnected
      rw [hearlier]
      infer_instance
    · exact fun file₁ _ file₂ _ => files.compareModificationTime_swap world file₁ file₂

/-- Files with fixed times. -/
def Files.ofTimes (time : CString → Option ℤ) : Files Unit where
  stat world file := (time file, world)
  fork world := (true, world)
  command world _ := (.exited 0, world)
  stat_stat _ _ _ := rfl
  stat_fork _ _ := rfl

/-- Of two files one has the first time which does not fit an `int`. -/
def overflowingFiles : Files Unit :=
  .ofTimes fun file =>
    if file = bytes "a" then some 0 else if file = bytes "b" then some (2 ^ 31) else none

/-- The file of the larger time is reported as the earlier one. -/
theorem overflowingFiles_reversed :
    (overflowingFiles.compareModificationTime () (bytes "a") (bytes "b")).1 = 1 ∧
    ¬ overflowingFiles.RealOrder () {bytes "a", bytes "b"} := by
  have hreported : (overflowingFiles.compareModificationTime () (bytes "a") (bytes "b")).1 = 1 := by
    rw [Files.compareModificationTime_some (show _ = some 0 from rfl) (show _ = some (2 ^ 31) from rfl)]
    decide
  refine ⟨hreported, fun hreal => ?_⟩
  have hcompares := hreal.compares (bytes "a") (by simp) (bytes "b") (by simp)
  obtain ⟨time₁, time₂, h₁, h₂, hlt⟩ := hcompares.later.mp hreported
  obtain rfl : 0 = time₁ := Option.some.inj h₁
  obtain rfl : 2 ^ 31 = time₂ := Option.some.inj h₂
  omega

end Csci4061.Make
