import Mathlib

/-! # Justifying an interval

`interval_justify_interval` of `timestamp.c` moves whole days out of the time and whole months out
of the days, and then borrows until the three fields have one sign.
-/

namespace PostgreSieve.DateTime

structure Interval where
  month : ℤ
  day : ℤ
  time : ℤ
deriving DecidableEq

/-- The report of the function, and an overflow that C leaves undefined. -/
inductive Failure
  | intervalOutOfRange
  | overflow
deriving DecidableEq

def daysPerMonth : ℤ := 30

def usecsPerDay : ℤ := 86400000000

def Int32 (n : ℤ) : Prop := -2 ^ 31 ≤ n ∧ n < 2 ^ 31

def Int64 (n : ℤ) : Prop := -2 ^ 63 ≤ n ∧ n < 2 ^ 63

instance (n : ℤ) : Decidable (Int32 n) := inferInstanceAs (Decidable (_ ∧ _))

instance (n : ℤ) : Decidable (Int64 n) := inferInstanceAs (Decidable (_ ∧ _))

/-- Store the result of an operation, if it fits. -/
def store (C : ℤ → Prop) [DecidablePred C] (e : Failure) (n : ℤ) : Except Failure ℤ :=
  if C n then .ok n else .error e

structure Interval.Valid (span : Interval) : Prop where
  month : Int32 span.month
  day : Int32 span.day
  time : Int64 span.time

/-- `INTERVAL_NOT_FINITE`. -/
def Interval.NotFinite (span : Interval) : Prop :=
  span = ⟨-2 ^ 31, -2 ^ 31, -2 ^ 63⟩ ∨ span = ⟨2 ^ 31 - 1, 2 ^ 31 - 1, 2 ^ 63 - 1⟩

instance (span : Interval) : Decidable span.NotFinite := inferInstanceAs (Decidable (_ ∨ _))

/-- Move whole months from the days. -/
def justifyDays (span : Interval) : Except Failure Interval := do
  let wholemonth := span.day.tdiv daysPerMonth
  let day ← store Int32 .overflow (span.day - wholemonth * daysPerMonth)
  let month ← store Int32 .intervalOutOfRange (span.month + wholemonth)
  return { span with month, day }

/-- Move whole days from the time. -/
def justifyHours (span : Interval) : Except Failure Interval := do
  let wholeday := span.time.tdiv usecsPerDay
  let time ← if wholeday ≠ 0 then store Int64 .overflow (span.time - wholeday * usecsPerDay)
    else pure span.time
  let day ← store Int32 .overflow (span.day + wholeday)
  return { span with day, time }

/-- Give the days the sign of the months. -/
def borrowMonth (span : Interval) : Except Failure Interval :=
  if 0 < span.month ∧ (span.day < 0 ∨ span.day = 0 ∧ span.time < 0) then do
    let day ← store Int32 .overflow (span.day + daysPerMonth)
    let month ← store Int32 .overflow (span.month - 1)
    return { span with month, day }
  else if span.month < 0 ∧ (0 < span.day ∨ span.day = 0 ∧ 0 < span.time) then do
    let day ← store Int32 .overflow (span.day - daysPerMonth)
    let month ← store Int32 .overflow (span.month + 1)
    return { span with month, day }
  else return span

/-- Give the time the sign of the days. -/
def borrowDay (span : Interval) : Except Failure Interval :=
  if 0 < span.day ∧ span.time < 0 then do
    let time ← store Int64 .overflow (span.time + usecsPerDay)
    let day ← store Int32 .overflow (span.day - 1)
    return { span with day, time }
  else if span.day < 0 ∧ 0 < span.time then do
    let time ← store Int64 .overflow (span.time - usecsPerDay)
    let day ← store Int32 .overflow (span.day + 1)
    return { span with day, time }
  else return span

def justifyFields (span : Interval) : Except Failure Interval := do
  let span ← justifyHours span
  let span ← justifyDays span
  let span ← borrowMonth span
  borrowDay span

/-- Days and time of one sign could overflow when they are added. -/
def intervalJustifyInterval (span : Interval) : Except Failure Interval :=
  if span.NotFinite then return span
  else if 0 < span.day ∧ 0 < span.time ∨ span.day < 0 ∧ span.time < 0 then do
    let span ← justifyDays span
    justifyFields span
  else justifyFields span

/-- `interval_cmp_value`. -/
def Interval.cmpValue (span : Interval) : ℤ := (span.month * 30 + span.day) * usecsPerDay + span.time

/-- The fields are below their units and of one sign. -/
structure Interval.Justified (span : Interval) : Prop where
  time : -usecsPerDay < span.time ∧ span.time < usecsPerDay
  day : -daysPerMonth < span.day ∧ span.day < daysPerMonth
  sign : 0 ≤ span.month ∧ 0 ≤ span.day ∧ 0 ≤ span.time ∨
    span.month ≤ 0 ∧ span.day ≤ 0 ∧ span.time ≤ 0

/-- The whole days make one month more than fits, and the time left would take it back. -/
def Interval.AtLimit (span : Interval) : Prop :=
  let days := span.month * 30 + span.day + span.time.tdiv usecsPerDay
  days = 2 ^ 31 * 30 ∧ span.time.tmod usecsPerDay < 0 ∨
    days = -(2 ^ 31 + 1) * 30 ∧ 0 < span.time.tmod usecsPerDay

variable {span r : Interval}

theorem tdiv_spec (n : ℤ) {c : ℤ} (hc : 0 < c) : n = n.tdiv c * c + n.tmod c ∧
    (-c < n.tmod c ∧ n.tmod c < c) ∧ (0 ≤ n → 0 ≤ n.tmod c) ∧ (n ≤ 0 → n.tmod c ≤ 0) := by
  have h := Int.tmod_nonneg (a := n) c
  have h' := Int.tmod_nonneg (a := -n) c
  have hlt := Int.tmod_lt_of_pos n hc
  have hlt' := Int.tmod_lt_of_pos (-n) hc
  rw [Int.neg_tmod] at h' hlt'
  exact ⟨(Int.tdiv_mul_add_tmod ..).symm, by omega, h, by omega⟩

theorem justifyDays_eq : justifyDays span =
    if Int32 (span.month + span.day.tdiv daysPerMonth) then
      .ok ⟨span.month + span.day.tdiv daysPerMonth, span.day.tmod daysPerMonth, span.time⟩
    else .error .intervalOutOfRange := by
  have hspec := tdiv_spec span.day (c := daysPerMonth) (by decide)
  have hday : span.day - span.day.tdiv daysPerMonth * daysPerMonth =
      span.day.tmod daysPerMonth := by omega
  have hfits : Int32 (span.day.tmod daysPerMonth) := by
    simp only [Int32, daysPerMonth] at *
    omega
  simp only [justifyDays, store, hday, if_pos hfits]
  by_cases hm : Int32 (span.month + span.day.tdiv daysPerMonth)
  · rw [if_pos hm, if_pos hm]
    rfl
  · rw [if_neg hm, if_neg hm]
    rfl

theorem justifyHours_eq (hd : Int32 (span.day + span.time.tdiv usecsPerDay)) :
    justifyHours span =
      .ok ⟨span.month, span.day + span.time.tdiv usecsPerDay, span.time.tmod usecsPerDay⟩ := by
  have hspec := tdiv_spec span.time (c := usecsPerDay) (by decide)
  have htime : span.time - span.time.tdiv usecsPerDay * usecsPerDay =
      span.time.tmod usecsPerDay := by omega
  have hfits : Int64 (span.time.tmod usecsPerDay) := by
    simp only [Int64, usecsPerDay] at *
    omega
  simp only [justifyHours, store, htime, if_pos hfits, if_pos hd]
  split
  · rfl
  · rename_i hz
    rw [← htime, not_not.mp hz, Int.zero_mul, Int.sub_zero]
    rfl

theorem store_eq {C : ℤ → Prop} [DecidablePred C] {e : Failure} {n : ℤ} (h : C n) :
    store C e n = .ok n := if_pos h

/-- Borrowing gives the three fields one sign. -/
theorem borrow_spec (hm : Int32 span.month) (hd : -daysPerMonth < span.day ∧ span.day < daysPerMonth)
    (ht : -usecsPerDay < span.time ∧ span.time < usecsPerDay) :
    ∃ r, (borrowMonth span >>= borrowDay) = .ok r ∧ r.Valid ∧ r.cmpValue = span.cmpValue ∧
      r.Justified := by
  obtain ⟨month, day, time⟩ := span
  simp only [Int32, daysPerMonth, usecsPerDay] at hm hd ht
  have hmonth : ∃ m d, borrowMonth ⟨month, day, time⟩ = .ok ⟨m, d, time⟩ ∧
      m * 30 + d = month * 30 + day ∧ Int32 m ∧ -30 ≤ d ∧ d ≤ 30 ∧
      (0 < m → 0 < d ∨ d = 0 ∧ 0 ≤ time) ∧ (m < 0 → d < 0 ∨ d = 0 ∧ time ≤ 0) ∧
      (d = 30 → time < 0) ∧ (d = -30 → 0 < time) := by
    simp only [borrowMonth]
    split_ifs with h h'
    · refine ⟨month - 1, day + 30, ?_, ?_⟩
      · rw [store_eq (by simp only [Int32, daysPerMonth]; omega),
          store_eq (by simp only [Int32]; omega)]
        rfl
      · simp only [Int32]
        omega
    · refine ⟨month + 1, day - 30, ?_, ?_⟩
      · rw [store_eq (by simp only [Int32, daysPerMonth]; omega),
          store_eq (by simp only [Int32]; omega)]
        rfl
      · simp only [Int32]
        omega
    · refine ⟨month, day, rfl, rfl, hm, ?_, ?_, ?_, ?_, ?_, ?_⟩ <;> omega
  obtain ⟨m, d, hb, hsum, hm', hd', hd'', hpos, hneg, htop, hbot⟩ := hmonth
  rw [hb]
  show ∃ r, borrowDay ⟨m, d, time⟩ = .ok r ∧ _
  simp only [borrowDay]
  simp only [Int32] at hm'
  split_ifs with h h'
  · refine ⟨⟨m, d - 1, time + usecsPerDay⟩, ?_, ?_⟩
    · rw [store_eq (by simp only [Int64, usecsPerDay]; omega),
        store_eq (by simp only [Int32]; omega)]
      rfl
    · refine ⟨⟨?_, ?_, ?_⟩, ?_, ?_, ?_, ?_⟩ <;>
        simp only [Int32, Int64, Interval.cmpValue, usecsPerDay, daysPerMonth] <;> omega
  · refine ⟨⟨m, d + 1, time - usecsPerDay⟩, ?_, ?_⟩
    · rw [store_eq (by simp only [Int64, usecsPerDay]; omega),
        store_eq (by simp only [Int32]; omega)]
      rfl
    · refine ⟨⟨?_, ?_, ?_⟩, ?_, ?_, ?_, ?_⟩ <;>
        simp only [Int32, Int64, Interval.cmpValue, usecsPerDay, daysPerMonth] <;> omega
  · refine ⟨⟨m, d, time⟩, rfl, ⟨?_, ?_, ?_⟩, ?_, ?_, ?_, ?_⟩ <;>
      simp only [Int32, Int64, Interval.cmpValue, usecsPerDay, daysPerMonth] <;> omega

/-- What the function should do: return a justified interval of the same value, or report that there
is none. -/
def Justifies (span : Interval) (result : Except Failure Interval) : Prop :=
  (∃ r, result = .ok r ∧ r.Valid ∧ r.cmpValue = span.cmpValue ∧ r.Justified) ∨
    result = .error .intervalOutOfRange ∧
      ∀ r : Interval, r.Justified → r.cmpValue = span.cmpValue → ¬Int32 r.month

theorem justifies_error (h : 2 ^ 31 * (30 * usecsPerDay) ≤ span.cmpValue ∨
    span.cmpValue ≤ -(2 ^ 31 + 1) * (30 * usecsPerDay)) :
    Justifies span (.error .intervalOutOfRange) := by
  refine .inr ⟨rfl, fun r hr hv => ?_⟩
  obtain ⟨htime, hday, hsign⟩ := hr
  simp only [Int32, Interval.cmpValue, usecsPerDay, daysPerMonth] at *
  omega

theorem justifyFields_spec (hm : Int32 span.month)
    (hd : Int32 (span.day + span.time.tdiv usecsPerDay)) (hlimit : ¬span.AtLimit) :
    Justifies span (justifyFields span) := by
  obtain ⟨month, day, time⟩ := span
  have htime := tdiv_spec time (c := usecsPerDay) (by decide)
  have hday := tdiv_spec (day + time.tdiv usecsPerDay) (c := daysPerMonth) (by decide)
  have hfields : justifyFields ⟨month, day, time⟩ = (justifyDays
      ⟨month, day + time.tdiv usecsPerDay, time.tmod usecsPerDay⟩ >>= fun span =>
        borrowMonth span >>= borrowDay) := by
    rw [justifyFields, justifyHours_eq hd]
    rfl
  rw [hfields, justifyDays_eq]
  simp only [Interval.AtLimit] at hlimit
  split
  · rename_i hfits
    obtain ⟨r, hr, hvalid, hvalue, hj⟩ := @borrow_spec
      ⟨_, (day + time.tdiv usecsPerDay).tmod daysPerMonth, time.tmod usecsPerDay⟩
      hfits hday.2.1 htime.2.1
    refine .inl ⟨r, hr, hvalid, hvalue.trans ?_, hj⟩
    simp only [Interval.cmpValue, usecsPerDay, daysPerMonth] at *
    omega
  · refine justifies_error ?_
    simp only [Int32, Interval.cmpValue, usecsPerDay, daysPerMonth] at *
    omega

end PostgreSieve.DateTime
