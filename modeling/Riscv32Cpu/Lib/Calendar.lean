/- module: Riscv32Cpu/Lib/Calendar
   digest: A calendar of two-digit years that advances by seconds, and decimal digits in a byte. -/

import Mathlib.Data.BitVec
import Mathlib.Logic.Function.Iterate

set_option autoImplicit false
set_option relaxedAutoImplicit false

namespace Riscv32Cpu.Lib.Calendar

/-- Days of a month; years count from 2000. -/
def daysIn (year month : Nat) : Nat :=
  if month = 2 then if year % 4 = 0 then 29 else 28
  else if month = 4 ∨ month = 6 ∨ month = 9 ∨ month = 11 then 30
  else 31

structure Date where
  year : Nat
  month : Nat
  day : Nat
  year_lt : year < 100
  month_bounds : 1 ≤ month ∧ month ≤ 12
  day_bounds : 1 ≤ day ∧ day ≤ daysIn year month
  deriving DecidableEq

structure DateTime extends Date where
  hour : Nat
  minute : Nat
  second : Nat
  hour_lt : hour < 24
  minute_lt : minute < 60
  second_lt : second < 60
  deriving DecidableEq

theorem one_le_daysIn (year month : Nat) : 1 ≤ daysIn year month := by
  unfold daysIn
  split_ifs <;> decide

theorem daysIn_le (year month : Nat) : daysIn year month ≤ 31 := by
  unfold daysIn
  split_ifs <;> decide

/-- The day after; the last day of year 99 is followed by the first of year 0. -/
def Date.next (d : Date) : Date :=
  if hday : d.day < daysIn d.year d.month then
    { d with day := d.day + 1, day_bounds := ⟨Nat.succ_pos _, hday⟩ }
  else if hmonth : d.month < 12 then
    { d with
      month := d.month + 1
      day := 1
      month_bounds := ⟨Nat.succ_pos _, hmonth⟩
      day_bounds := ⟨le_rfl, one_le_daysIn _ _⟩ }
  else
    { year := (d.year + 1) % 100
      month := 1
      day := 1
      year_lt := Nat.mod_lt _ (by decide)
      month_bounds := by decide
      day_bounds := ⟨le_rfl, one_le_daysIn _ _⟩ }

/-- One second later. -/
def DateTime.tick (t : DateTime) : DateTime :=
  if hsecond : t.second < 59 then
    { t with second := t.second + 1, second_lt := by omega }
  else if hminute : t.minute < 59 then
    { t with minute := t.minute + 1, second := 0, minute_lt := by omega, second_lt := by decide }
  else if hhour : t.hour < 23 then
    { t with
      hour := t.hour + 1
      minute := 0
      second := 0
      hour_lt := by omega
      minute_lt := by decide
      second_lt := by decide }
  else
    { t.toDate.next with
      hour := 0
      minute := 0
      second := 0
      hour_lt := by decide
      minute_lt := by decide
      second_lt := by decide }

theorem second_tick (t : DateTime) : t.tick.second = (t.second + 1) % 60 := by
  have := t.second_lt
  unfold DateTime.tick
  split_ifs <;> dsimp only <;> omega

theorem second_ticks (t : DateTime) (n : Nat) :
    (DateTime.tick^[n] t).second = (t.second + n) % 60 := by
  induction n with
  | zero => exact (Nat.mod_eq_of_lt t.second_lt).symm
  | succ n ih =>
    rw [Function.iterate_succ_apply', second_tick, ih]
    omega

theorem ticks_eq_of_second_eq (t : DateTime) {m n : Nat} (hmn : m ≤ n) (hlt : n < m + 60)
    (h : (DateTime.tick^[m] t).second = (DateTime.tick^[n] t).second) : m = n := by
  rw [second_ticks, second_ticks] at h
  omega

/-- Two decimal digits in the halves of a byte. -/
def bcd (n : Nat) : BitVec 8 := BitVec.ofNat 8 (n / 10 * 16 + n % 10)

def ofBcd (b : BitVec 8) : Nat := (b &&& 0xf).toNat + (b >>> 4).toNat * 10

theorem ofBcd_bcd {n : Nat} (h : n < 100) : ofBcd (bcd n) = n := by
  have hlow : (bcd n &&& 0xf).toNat = (n / 10 * 16 + n % 10) % 16 := by
    rw [BitVec.toNat_and, bcd, BitVec.toNat_ofNat]
    show _ &&& 2 ^ 4 - 1 = _
    rw [Nat.and_two_pow_sub_one_eq_mod]
    omega
  have hhigh : (bcd n >>> 4).toNat = (n / 10 * 16 + n % 10) / 16 := by
    rw [BitVec.toNat_ushiftRight, bcd, BitVec.toNat_ofNat, Nat.shiftRight_eq_div_pow]
    omega
  rw [ofBcd, hlow, hhigh]
  omega

end Riscv32Cpu.Lib.Calendar
