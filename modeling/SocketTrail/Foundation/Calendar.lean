/-
# The Gregorian calendar

A `Date` is a day of the proleptic Gregorian calendar: its month and its day exist in its
year. `Date.next` is the day after it. A function that gives successive days
successive dates is strictly increasing. Counted from 1 March the leap day ends the
year; `Date.afterMarch` finds a date by the number of days since then.
-/

import Mathlib.Data.Int.ConditionallyCompleteOrder
import Mathlib.Data.Prod.Lex
import Mathlib.Tactic.IntervalCases

namespace SocketTrail.Foundation

/-! ## Dates -/

/-- Every fourth year is a leap year, of the full centuries every fourth one. -/
def IsLeap (year : ℤ) : Prop := year % 4 = 0 ∧ (year % 100 = 0 → year % 400 = 0)

instance (year : ℤ) : Decidable (IsLeap year) := inferInstanceAs (Decidable (_ ∧ (_ → _)))

def daysInMonth (year : ℤ) (month : ℕ) : ℕ :=
  if month = 2 then if IsLeap year then 29 else 28
  else if month = 4 ∨ month = 6 ∨ month = 9 ∨ month = 11 then 30
  else 31

/-- A day of the calendar. -/
@[ext] structure Date where
  year : ℤ
  month : ℕ
  day : ℕ
  month_mem : 1 ≤ month ∧ month ≤ 12
  day_mem : 1 ≤ day ∧ day ≤ daysInMonth year month

theorem daysInMonth_le (year : ℤ) (month : ℕ) : daysInMonth year month ≤ 31 := by
  unfold daysInMonth
  split_ifs <;> decide

theorem daysInMonth_pos (year : ℤ) (month : ℕ) : 1 ≤ daysInMonth year month := by
  unfold daysInMonth
  split_ifs <;> decide

namespace Date

/-- The numbers of a date. -/
def fields (d : Date) : ℤ × ℤ × ℤ := (d.year, d.month, d.day)

theorem fields_injective : Function.Injective fields := by
  intro a b h
  obtain ⟨hyear, hmonth, hday⟩ := by simpa [fields] using h
  exact Date.ext hyear hmonth hday

theorem day_le (d : Date) : d.day ≤ 31 := d.day_mem.2.trans (daysInMonth_le _ _)

/-- The day after. -/
def next (d : Date) : Date :=
  if hday : d.day < daysInMonth d.year d.month then
    { d with day := d.day + 1, day_mem := ⟨by omega, hday⟩ }
  else if hmonth : d.month < 12 then
    { year := d.year
      month := d.month + 1
      day := 1
      month_mem := ⟨by omega, hmonth⟩
      day_mem := ⟨le_rfl, daysInMonth_pos _ _⟩ }
  else
    { year := d.year + 1
      month := 1
      day := 1
      month_mem := by decide
      day_mem := ⟨le_rfl, daysInMonth_pos _ _⟩ }

section Next

variable {d e : Date}

/-- The day after a day with another one behind it in its month. -/
theorem next_eq_of_day (hyear : e.year = d.year) (hmonth : e.month = d.month)
    (hday : e.day = d.day + 1) : d.next = e := by
  have hle := e.day_mem.2
  rw [hyear, hmonth, hday] at hle
  unfold next
  rw [dif_pos (Nat.lt_of_succ_le hle)]
  exact Date.ext hyear.symm hmonth.symm hday.symm

/-- The day after the last one of a month. -/
theorem next_eq_of_month (hlast : d.day = daysInMonth d.year d.month) (hyear : e.year = d.year)
    (hmonth : e.month = d.month + 1) (hday : e.day = 1) : d.next = e := by
  have hle := e.month_mem.2
  rw [hmonth] at hle
  unfold next
  rw [dif_neg (by omega), dif_pos (Nat.lt_of_succ_le hle)]
  exact Date.ext hyear.symm hmonth.symm hday.symm

/-- The day after the last one of a year. -/
theorem next_eq_of_year (hlast : d.day = daysInMonth d.year d.month) (hdecember : d.month = 12)
    (hyear : e.year = d.year + 1) (hmonth : e.month = 1) (hday : e.day = 1) : d.next = e := by
  unfold next
  rw [dif_neg (by omega), dif_neg (by omega)]
  exact Date.ext hyear.symm hmonth.symm hday.symm

end Next

/-- Year, month and day, in the order in which dates are compared. -/
def key (d : Date) : ℤ ×ₗ ℕ ×ₗ ℕ := toLex (d.year, toLex (d.month, d.day))

instance : Preorder Date where
  le a b := a.key ≤ b.key
  lt a b := a.key < b.key
  le_refl a := le_refl a.key
  le_trans _ _ _ := le_trans
  lt_iff_le_not_ge _ _ := lt_iff_le_not_ge

theorem lt_iff {a b : Date} :
    a < b ↔ a.year < b.year ∨
      a.year = b.year ∧ (a.month < b.month ∨ a.month = b.month ∧ a.day < b.day) := by
  change toLex (a.year, toLex (a.month, a.day)) < toLex (b.year, toLex (b.month, b.day)) ↔ _
  rw [Prod.Lex.toLex_lt_toLex, Prod.Lex.toLex_lt_toLex]

theorem lt_next (d : Date) : d < d.next := by
  rw [lt_iff]
  unfold next
  split_ifs
  · exact .inr ⟨rfl, .inr ⟨rfl, Nat.lt_succ_self _⟩⟩
  · exact .inr ⟨rfl, .inl (Nat.lt_succ_self _)⟩
  · exact .inl (lt_add_one d.year)

/-- Dates that follow each other day by day increase. -/
theorem strictMono_of_next {date : ℤ → Date} (h : ∀ z, date (z + 1) = (date z).next) :
    StrictMono date :=
  strictMono_int_of_lt_succ fun z => (h z).symm ▸ (date z).lt_next

end Date

/-! ## The year from 1 March on -/

/-- The number of days from 1 March of the year 0 to 1 March of a year. -/
def marchFirst (y : ℤ) : ℤ := 365 * y + y / 4 - y / 100 + y / 400

/-- The number of days from 1 March of a year to the next. -/
def marchLength (y : ℤ) : ℤ := if IsLeap (y + 1) then 366 else 365

theorem marchFirst_succ (y : ℤ) : marchFirst (y + 1) = marchFirst y + marchLength y := by
  unfold marchFirst marchLength
  by_cases hleap : IsLeap (y + 1)
  · rw [if_pos hleap]
    unfold IsLeap at hleap
    omega
  · rw [if_neg hleap]
    unfold IsLeap at hleap
    omega

theorem marchLength_mem (y : ℤ) : 365 ≤ marchLength y ∧ marchLength y ≤ 366 := by
  unfold marchLength
  split_ifs <;> decide

theorem marchFirst_strictMono : StrictMono marchFirst :=
  strictMono_int_of_lt_succ fun y => by
    have := marchLength_mem y
    rw [marchFirst_succ]
    omega

/-- The calendar repeats itself after 400 years. -/
theorem marchFirst_era (y era : ℤ) : marchFirst (y + era * 400) = marchFirst y + 146097 * era := by
  unfold marchFirst
  omega

/-- The years of a century: but for the leap year at its end every fourth one is a leap
year. -/
theorem marchFirst_century {c t : ℤ} (hc : 0 ≤ c ∧ c ≤ 3) (ht : 0 ≤ t ∧ t ≤ 99) :
    marchFirst (100 * c + t) = 36524 * c + (365 * t + t / 4) := by
  have hfour : (100 * c + t) / 4 = 25 * c + t / 4 := by omega
  have hhundred : (100 * c + t) / 100 = c := by omega
  have hera : (100 * c + t) / 400 = 0 := by omega
  unfold marchFirst
  omega

theorem marchFirst_century_succ {c t : ℤ} (hc : 0 ≤ c ∧ c ≤ 3) (ht : 0 ≤ t ∧ t ≤ 99) :
    min (36524 * (c + 1)) (36524 * c + (365 * (t + 1) + (t + 1) / 4)) ≤
      marchFirst (100 * c + t + 1) := by
  by_cases hlast : t = 99
  · subst hlast
    have hfour : (100 * c + 99 + 1) / 4 = 25 * (c + 1) := by omega
    have hhundred : (100 * c + 99 + 1) / 100 = c + 1 := by omega
    unfold marchFirst
    omega
  · rw [add_assoc, marchFirst_century hc (by omega)]
    exact min_le_right _ _

/-- A day has one year and one number in it. -/
theorem marchFirst_add_inj {y y' n n' : ℤ} (h : marchFirst y + n = marchFirst y' + n')
    (hn : 0 ≤ n ∧ n < marchLength y) (hn' : 0 ≤ n' ∧ n' < marchLength y') : y = y' ∧ n = n' := by
  have hnext := marchFirst_succ y
  have hnext' := marchFirst_succ y'
  have hyear : y = y' := by
    rcases lt_trichotomy y y' with hlt | heq | hgt
    · have := marchFirst_strictMono.monotone (Int.add_one_le_of_lt hlt)
      omega
    · exact heq
    · have := marchFirst_strictMono.monotone (Int.add_one_le_of_lt hgt)
      omega
  subst hyear
  exact ⟨rfl, by omega⟩

/-- The months from March on, counted from 0: their numbers, the days before them, and
the one in which a day is. -/
def monthNumber (k : ℤ) : ℕ := (if k < 10 then k + 3 else k - 9).toNat

def monthFirst (k : ℤ) : ℤ := (153 * k + 2) / 5

def monthIndex (n : ℤ) : ℤ := (5 * n + 2) / 153

/-- The year of a month that is counted from March of the year `y` on. -/
def monthYear (y k : ℤ) : ℤ := if monthNumber k ≤ 2 then y + 1 else y

/-- The days before a month give its length, and the year gives that of February. -/
theorem daysInMonth_march (y : ℤ) {k : ℤ} (hk : 0 ≤ k) (hlast : k ≤ 11) :
    (daysInMonth (monthYear y k) (monthNumber k) : ℤ) =
      (if k = 11 then marchLength y else monthFirst (k + 1)) - monthFirst k := by
  by_cases hfebruary : k = 11
  · subst hfebruary
    change ((if IsLeap (y + 1) then 29 else 28 : ℕ) : ℤ) = marchLength y - 337
    unfold marchLength
    split_ifs <;> rfl
  · rw [if_neg hfebruary]
    interval_cases k <;> first | rfl | contradiction

theorem monthIndex_mem {y n : ℤ} (hn : 0 ≤ n) (hlength : n < marchLength y) :
    0 ≤ monthIndex n ∧ monthIndex n ≤ 11 := by
  have := marchLength_mem y
  unfold monthIndex
  omega

/-- A day lies in the month that begins last before it. -/
theorem monthFirst_monthIndex (n : ℤ) :
    monthFirst (monthIndex n) ≤ n ∧ n < monthFirst (monthIndex n + 1) := by
  unfold monthFirst monthIndex
  omega

/-- The day after is in the same month, or it is the first one of the next. -/
theorem monthIndex_succ {n : ℤ} :
    (monthIndex (n + 1) = monthIndex n ∧ n + 1 < monthFirst (monthIndex n + 1)) ∨
      (monthIndex (n + 1) = monthIndex n + 1 ∧ n + 1 = monthFirst (monthIndex n + 1)) := by
  unfold monthIndex monthFirst
  omega

/-- The month after is in the same year, or it is January. -/
theorem monthNumber_succ {k : ℤ} (y : ℤ) (hk : 0 ≤ k) (hlast : k ≤ 10) :
    (monthNumber (k + 1) = monthNumber k + 1 ∧ monthYear y (k + 1) = monthYear y k) ∨
      (monthNumber k = 12 ∧ monthNumber (k + 1) = 1 ∧
        monthYear y (k + 1) = monthYear y k + 1) := by
  interval_cases k <;> first | exact .inl ⟨rfl, rfl⟩ | exact .inr ⟨rfl, rfl, rfl⟩

namespace Date

/-- The date of the day `n` days after 1 March of the year `y`. -/
def afterMarch (y n : ℤ) (hn : 0 ≤ n) (hlength : n < marchLength y) : Date where
  year := monthYear y (monthIndex n)
  month := monthNumber (monthIndex n)
  day := (n - monthFirst (monthIndex n) + 1).toNat
  month_mem := by
    have := monthIndex_mem hn hlength
    unfold monthNumber
    split_ifs <;> omega
  day_mem := by
    have hmonth := monthIndex_mem hn hlength
    have hday := monthFirst_monthIndex n
    have hdays := daysInMonth_march y hmonth.1 hmonth.2
    split_ifs at hdays <;> omega

variable {y n : ℤ}

/-- The day after a day of the year. -/
theorem next_afterMarch (hn : 0 ≤ n) (hnext : n + 1 < marchLength y) :
    (afterMarch y n hn (by omega)).next = afterMarch y (n + 1) (by omega) hnext := by
  obtain ⟨hfirst, -⟩ := monthFirst_monthIndex n
  have hmonth := monthIndex_mem hn (by omega : n < marchLength y)
  rcases @monthIndex_succ n with ⟨hsame, -⟩ | ⟨hnew, hbegin⟩
  · apply next_eq_of_day
    · simp only [afterMarch, hsame]
    · simp only [afterMarch, hsame]
    · simp only [afterMarch, hsame]
      omega
  · have hmonth' := monthIndex_mem (by omega : 0 ≤ n + 1) hnext
    rw [hnew] at hmonth'
    have hdays := daysInMonth_march y hmonth.1 hmonth.2
    rw [if_neg (by omega), ← hbegin] at hdays
    have hlast : (n - monthFirst (monthIndex n) + 1).toNat =
        daysInMonth (monthYear y (monthIndex n)) (monthNumber (monthIndex n)) := by omega
    have hone : (n + 1 - monthFirst (monthIndex (n + 1)) + 1).toNat = 1 := by
      rw [hnew, ← hbegin]
      omega
    rcases monthNumber_succ y hmonth.1 (by omega) with
      ⟨hnumber, hyear⟩ | ⟨hdecember, hnumber, hyear⟩
    · rw [← hnew] at hnumber hyear
      exact next_eq_of_month hlast hyear hnumber hone
    · rw [← hnew] at hnumber hyear
      exact next_eq_of_year hlast hdecember hyear hnumber hone

/-- The day after the last day of the year. -/
theorem next_afterMarch_last (hn : 0 ≤ n) (hlast : n + 1 = marchLength y) :
    (afterMarch y n hn (by omega)).next =
      afterMarch (y + 1) 0 le_rfl (by have := marchLength_mem (y + 1); omega) := by
  have hlength := marchLength_mem y
  have hfebruary : monthIndex n = 11 := by
    unfold monthIndex
    omega
  have hdays := daysInMonth_march y (by decide : (0 : ℤ) ≤ 11) le_rfl
  rw [if_pos rfl] at hdays
  apply next_eq_of_month
  · simp only [afterMarch, hfebruary]
    omega
  · simp only [afterMarch, hfebruary]
    rfl
  · simp only [afterMarch, hfebruary]
    rfl
  · rfl

end Date

end SocketTrail.Foundation
