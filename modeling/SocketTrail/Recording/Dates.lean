/-
# The dates of a recording

The program turns a count of days since 1 January 1970 into a date of its own.
`civilFromDays_succ` and `civilFromDays_zero` say that these are the dates of the
Gregorian calendar, for every number of days after that one or before it. A report and
the name of a recording show the date of the local day, so later days have later
dates.
-/

import SocketTrail.Foundation.Calendar
import SocketTrail.Foundation.Decimal
import SocketTrail.Recording.Plan

namespace SocketTrail.Recording

open SocketTrail.Foundation

/-! ## Times as texts -/

/-- The local day of an instant; the offset of the time zone is in seconds. -/
def localDay (tzOffset : ℤ) (ms : ℕ) : ℤ := ((ms / 1000 : ℕ) + tzOffset) / 86400

/-- The seconds of the local day that have passed. -/
def timeOfDay (tzOffset : ℤ) (ms : ℕ) : ℤ := ((ms / 1000 : ℕ) + tzOffset) % 86400

/-- The mark of an instant in the name of a file, in local time. As in `humanTime` the
milliseconds are fewer than 2^63, so that `i64` holds them. -/
def stamp (tzOffset : ℤ) (now : ℕ) : String :=
  let secs := (now / 1000 : ℕ) + tzOffset
  let days := secs / 86400
  let tod := secs % 86400
  let (y, m, d) := civilFromDays days
  zeroPadded 4 y ++ zeroPadded 2 m ++ zeroPadded 2 d ++ "-" ++ zeroPadded 2 (tod / 3600) ++
    zeroPadded 2 (tod % 3600 / 60) ++ zeroPadded 2 (tod % 60)

example : humanTime (-3600) 951782400000 = "2000-02-28 23:00:00" := by decide

example : stamp 0 1789918245000 = "20260920-153045" := by decide

/-- The numbers of a date, with a separator between them. -/
def dateText (sep : String) (date : ℤ × ℤ × ℤ) : String :=
  zeroPadded 4 date.1 ++ (sep ++ (zeroPadded 2 date.2.1 ++ (sep ++ zeroPadded 2 date.2.2)))

/-- The hour, the minute and the second, with a separator between them. -/
def clockText (sep : String) (tod : ℤ) : String :=
  zeroPadded 2 (tod / 3600) ++ (sep ++ (zeroPadded 2 (tod % 3600 / 60) ++ (sep ++ zeroPadded 2 (tod % 60))))

/-- The date in front of the time in a report. -/
theorem humanTime_eq (tzOffset : ℤ) (ms : ℕ) :
    humanTime tzOffset ms = dateText "-" (civilFromDays (localDay tzOffset ms)) ++
      (" " ++ clockText ":" (timeOfDay tzOffset ms)) := by
  simp only [humanTime, dateText, clockText, localDay, timeOfDay, String.append_assoc]

/-- The date in front of the time in the name of a file. -/
theorem stamp_eq (tzOffset : ℤ) (now : ℕ) :
    stamp tzOffset now = dateText "" (civilFromDays (localDay tzOffset now)) ++
      ("-" ++ clockText "" (timeOfDay tzOffset now)) := by
  simp only [stamp, dateText, clockText, localDay, timeOfDay, String.append_assoc,
    String.empty_append]

/-! ## The year of a day -/

/-- A day of a century, with its year `t` and the leap days `s` before it. -/
theorem year_of_century {c r s t : ℤ} (hc : 0 ≤ c ∧ c ≤ 3) (hr : 0 ≤ r ∧ r < 36524)
    (hs : 1460 * s ≤ 24 * c + r ∧ 24 * c + r < 1460 * s + 1460)
    (ht : 365 * t ≤ r - s ∧ r - s < 365 * t + 365) :
    (0 ≤ t ∧ t ≤ 99) ∧ 365 * t + t / 4 ≤ r ∧ r < 365 * (t + 1) + (t + 1) / 4 := by
  have hyear : 0 ≤ t ∧ t ≤ 99 := by omega
  refine ⟨hyear, ?_, ?_⟩
  · omega
  · omega

/-- The year of a day of an era, as the code computes it. -/
def yearOfEra (doe : ℤ) : ℤ := (doe - doe / 1460 + doe / 36524 - doe / 146096) / 365

theorem yearOfEra_mem {doe : ℤ} (hdoe : 0 ≤ doe) (hera : doe < 146097) :
    0 ≤ yearOfEra doe ∧ yearOfEra doe ≤ 399 := by
  unfold yearOfEra
  omega

/-- The year of a day of an era begins before it and ends behind it. -/
theorem marchFirst_yearOfEra {doe : ℤ} (hdoe : 0 ≤ doe) (hera : doe < 146097) :
    marchFirst (yearOfEra doe) ≤ doe ∧ doe < marchFirst (yearOfEra doe + 1) := by
  by_cases hlast : doe = 146096
  · -- the leap day that ends the era
    subst hlast
    decide
  · have hyear : yearOfEra doe = (doe - doe / 1460 + doe / 36524) / 365 := by
      unfold yearOfEra
      omega
    have hc : 0 ≤ doe / 36524 ∧ doe / 36524 ≤ 3 := by omega
    obtain ⟨ht, hlow, hhigh⟩ := @year_of_century (doe / 36524) (doe % 36524)
      (doe / 1460 - 25 * (doe / 36524)) (yearOfEra doe - 100 * (doe / 36524)) hc (by omega)
      (by omega) (by omega)
    have hsplit : yearOfEra doe =
        100 * (doe / 36524) + (yearOfEra doe - 100 * (doe / 36524)) := by omega
    generalize yearOfEra doe - 100 * (doe / 36524) = t at *
    have hfirst := marchFirst_century hc ht
    have hnext := marchFirst_century_succ hc ht
    rw [← hsplit] at hfirst hnext
    omega

/-! ## The date of a day -/

/-- The last steps of the computation: the date `n` days after 1 March of a year. -/
def dateAfterMarch (y n : ℤ) : ℤ × ℤ × ℤ :=
  let mp := (5 * n + 2) / 153
  let d := n - (153 * mp + 2) / 5 + 1
  let m := if mp < 10 then mp + 3 else mp - 9
  (if m ≤ 2 then y + 1 else y, m, d)

theorem dateAfterMarch_eq {y n : ℤ} (hn : 0 ≤ n) (hlength : n < marchLength y) :
    dateAfterMarch y n = (Date.afterMarch y n hn hlength).fields := by
  obtain ⟨hfirst, -⟩ := monthFirst_monthIndex n
  obtain ⟨hmonth, -⟩ := monthIndex_mem hn hlength
  have hnumber : (monthNumber (monthIndex n) : ℤ) =
      if monthIndex n < 10 then monthIndex n + 3 else monthIndex n - 9 := by
    unfold monthNumber
    split_ifs <;> omega
  have hyear : monthYear y (monthIndex n) =
      if (monthNumber (monthIndex n) : ℤ) ≤ 2 then y + 1 else y := by
    unfold monthYear
    split_ifs <;> first | rfl | omega
  have hday : ((n - monthFirst (monthIndex n) + 1).toNat : ℤ) =
      n - monthFirst (monthIndex n) + 1 := by omega
  unfold Date.fields Date.afterMarch
  dsimp only
  rw [hyear, hnumber, hday]
  rfl

/-- The date is the one found by counting from 1 March. -/
theorem civilFromDays_eq (z : ℤ) :
    ∃ (y n : ℤ) (hn : 0 ≤ n) (hlength : n < marchLength y), z + 719468 = marchFirst y + n ∧
      civilFromDays z = (Date.afterMarch y n hn hlength).fields := by
  have hsplit := Int.emod_add_mul_ediv (z + 719468) 146097
  have hdoe := Int.emod_nonneg (z + 719468) (by decide : (146097 : ℤ) ≠ 0)
  have hera := Int.emod_lt_of_pos (z + 719468) (by decide : (0 : ℤ) < 146097)
  have hsteps : civilFromDays z =
      dateAfterMarch (yearOfEra ((z + 719468) % 146097) + (z + 719468) / 146097 * 400)
        ((z + 719468) % 146097 - (365 * yearOfEra ((z + 719468) % 146097) +
          yearOfEra ((z + 719468) % 146097) / 4 - yearOfEra ((z + 719468) % 146097) / 100)) := rfl
  rw [hsteps]
  generalize (z + 719468) % 146097 = doe at *
  generalize (z + 719468) / 146097 = era at *
  obtain ⟨hyear, hyear'⟩ := yearOfEra_mem hdoe hera
  obtain ⟨hbegin, hend⟩ := marchFirst_yearOfEra hdoe hera
  generalize yearOfEra doe = yoe at *
  have hfirst : marchFirst yoe = 365 * yoe + yoe / 4 - yoe / 100 := by
    unfold marchFirst
    omega
  have hyears := marchFirst_era yoe era
  have hnext := marchFirst_era (yoe + 1) era
  have hlength := marchFirst_succ (yoe + era * 400)
  rw [add_right_comm] at hnext
  rw [← hfirst]
  exact ⟨_, _, by omega, by omega, by omega, dateAfterMarch_eq (by omega) (by omega)⟩

/-- The dates of the program as days of the calendar. -/
theorem exists_date (z : ℤ) : ∃ date : Date, date.fields = civilFromDays z := by
  obtain ⟨y, n, hn, hlength, -, hdate⟩ := civilFromDays_eq z
  exact ⟨_, hdate.symm⟩

/-- The day after has the date after. -/
theorem civilFromDays_succ {z : ℤ} {date : Date} (h : date.fields = civilFromDays z) :
    date.next.fields = civilFromDays (z + 1) := by
  obtain ⟨y, n, hn, hlength, hz, hdate⟩ := civilFromDays_eq z
  obtain ⟨y', n', hn', hlength', hz', hdate'⟩ := civilFromDays_eq (z + 1)
  obtain rfl := Date.fields_injective (h.trans hdate)
  rw [hdate']
  by_cases hlast : n + 1 < marchLength y
  · obtain ⟨rfl, rfl⟩ := marchFirst_add_inj (by omega : marchFirst y + (n + 1) = marchFirst y' + n')
      ⟨by omega, hlast⟩ ⟨hn', hlength'⟩
    rw [Date.next_afterMarch hn hlast]
  · have hnext := marchFirst_succ y
    have hpos := marchLength_mem (y + 1)
    obtain ⟨rfl, rfl⟩ := marchFirst_add_inj
      (by omega : marchFirst (y + 1) + 0 = marchFirst y' + n') ⟨le_rfl, by omega⟩ ⟨hn', hlength'⟩
    rw [Date.next_afterMarch_last hn (by omega)]

theorem civilFromDays_zero : civilFromDays 0 = (1970, 1, 1) := by decide

/-- Later days have later dates. -/
theorem date_lt {z z' : ℤ} (h : z < z') {date date' : Date} (hdate : date.fields = civilFromDays z)
    (hdate' : date'.fields = civilFromDays z') : date < date' := by
  choose dates hdates using exists_date
  have hmono : StrictMono dates := Date.strictMono_of_next fun z =>
    Date.fields_injective ((hdates (z + 1)).trans (civilFromDays_succ (hdates z)).symm)
  obtain rfl := Date.fields_injective (hdate.trans (hdates z).symm)
  obtain rfl := Date.fields_injective (hdate'.trans (hdates z').symm)
  exact hmono h

/-! ## The text of a date -/

/-- A number that fits is written as its digits. -/
theorem toList_zeroPadded {w n : ℕ} (h : n < 10 ^ (w + 1)) :
    (zeroPadded (w + 1) n).toList = lastDigits (w + 1) n := by
  have hsign : ¬ ((n : ℤ) < 0) := by omega
  have hdigits : (toString n).toList = Nat.toDigits 10 n := by simp
  rw [← replicate_append_toDigits h, zeroPadded]
  simp only [if_neg hsign, Int.natAbs_natCast, String.toList_append, String.toList_ofList,
    String.length, hdigits, Nat.sub_zero]
  rfl

/-- A text that begins with a number is less than one that begins with a greater one. -/
theorem zeroPadded_append_lt {w a b : ℕ} (h : a < b) (hb : b < 10 ^ (w + 1)) (s t : String) :
    zeroPadded (w + 1) a ++ s < zeroPadded (w + 1) b ++ t := by
  rw [String.lt_iff, String.toList_append, String.toList_append, toList_zeroPadded (h.trans hb),
    toList_zeroPadded hb]
  exact append_lt_append (lastDigits_lt h hb) (by rw [length_lastDigits, length_lastDigits]) _ _

/-- The texts of dates in years of four digits are ordered like the dates. -/
theorem dateText_lt {date date' : Date} (h : date < date') (hyear : 0 ≤ date.year)
    (hyear' : date'.year ≤ 9999) (sep : String) :
    dateText sep date.fields < dateText sep date'.fields := by
  have hmonth := date'.month_mem.2
  have hday := date'.day_le
  unfold dateText Date.fields
  dsimp only
  rcases Date.lt_iff.mp h with hlt | ⟨heq, hlt | ⟨heqMonth, hlt⟩⟩
  · have hnat : date.year = (date.year.toNat : ℤ) := by omega
    have hnat' : date'.year = (date'.year.toNat : ℤ) := by omega
    rw [hnat, hnat']
    exact zeroPadded_append_lt (by omega) (by omega) _ _
  · rw [heq]
    exact append_left_lt _ (append_left_lt _ (zeroPadded_append_lt hlt (by omega) _ _))
  · have htext := zeroPadded_append_lt hlt (by omega : date'.day < 10 ^ 2) "" ""
    rw [String.append_empty, String.append_empty] at htext
    rw [heq, heqMonth]
    exact append_left_lt _ (append_left_lt _ (append_left_lt _ (append_left_lt _ htext)))

/-- The dates of the program are those of the Gregorian calendar: each is a date that
exists, day 0 is 1 January 1970, and the day after a day has the date after its date.
So the date in front of the time in reports and in the names of files is later on a later
day, and as a text as well while years have four digits. -/
theorem civilFromDays_gregorian :
    (∀ z, ∃ date : Date, civilFromDays z = date.fields ∧
      civilFromDays (z + 1) = date.next.fields) ∧
    civilFromDays 0 = (1970, 1, 1) ∧
    (∀ z z' : ℤ, z < z' → ∀ date date' : Date, civilFromDays z = date.fields →
      civilFromDays z' = date'.fields → date < date') ∧
    (∀ tzOffset ms, humanTime tzOffset ms =
      dateText "-" (civilFromDays (localDay tzOffset ms)) ++
        (" " ++ clockText ":" (timeOfDay tzOffset ms))) ∧
    (∀ tzOffset now, stamp tzOffset now =
      dateText "" (civilFromDays (localDay tzOffset now)) ++
        ("-" ++ clockText "" (timeOfDay tzOffset now))) ∧
    (∀ sep, ∀ z z' : ℤ, z < z' → 0 ≤ (civilFromDays z).1 → (civilFromDays z').1 ≤ 9999 →
      dateText sep (civilFromDays z) < dateText sep (civilFromDays z')) := by
  refine ⟨fun z => ?_, civilFromDays_zero, fun z z' hlt date date' hdate hdate' =>
    date_lt hlt hdate.symm hdate'.symm, humanTime_eq, stamp_eq, ?_⟩
  · obtain ⟨date, hdate⟩ := exists_date z
    exact ⟨date, hdate.symm, (civilFromDays_succ hdate).symm⟩
  · intro sep z z' hlt hyear hyear'
    obtain ⟨date, hdate⟩ := exists_date z
    obtain ⟨date', hdate'⟩ := exists_date z'
    rw [← hdate] at hyear
    rw [← hdate'] at hyear'
    rw [← hdate, ← hdate']
    exact dateText_lt (date_lt hlt hdate hdate') hyear hyear' sep

end SocketTrail.Recording
