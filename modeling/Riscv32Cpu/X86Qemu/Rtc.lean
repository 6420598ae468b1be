/- module: Riscv32Cpu/X86Qemu/Rtc
   source: CODE/abstract-machine/am/src/x86/qemu/ioe.c
   digest: The real-time clock, read register by register while it runs. -/

import Riscv32Cpu.Lib.Calendar

set_option autoImplicit false
set_option relaxedAutoImplicit false

namespace Riscv32Cpu.X86Qemu.Rtc

open Lib.Calendar

/-- A clock, and how many seconds it has gone on from `start` when it is read for the `i`-th time,
counted from the call on. -/
structure Clock where
  start : DateTime
  elapsed : Nat → Nat
  monotone : Monotone elapsed

/-- What the clock shows after so many seconds. -/
def Clock.value (clock : Clock) (seconds : Nat) : DateTime := DateTime.tick^[seconds] clock.start

inductive Register
  | second
  | minute
  | hour
  | day
  | month
  | year
  deriving DecidableEq

/-- The number of a register in the clock. -/
def Register.number : Register → Nat
  | .second => 0
  | .minute => 2
  | .hour => 4
  | .day => 7
  | .month => 8
  | .year => 9

def Register.all : List Register := [.second, .minute, .hour, .day, .month, .year]

def Register.field : Register → DateTime → Nat
  | .second, t => t.second
  | .minute, t => t.minute
  | .hour, t => t.hour
  | .day, t => t.day
  | .month, t => t.month
  | .year, t => t.year

/-- The register that `outb(0x70, _)` has selected, and the reads so far. -/
structure Cmos where
  index : Nat
  reads : Nat

def outb (index : Nat) (s : Cmos) : Cmos := { s with index }

def inb (clock : Clock) (s : Cmos) : BitVec 8 × Cmos :=
  let shown := clock.value (clock.elapsed s.reads)
  (((Register.all.find? fun r => r.number = s.index).elim 0 fun r => bcd (r.field shown)),
    { s with reads := s.reads + 1 })

def readRtc (clock : Clock) (reg : Nat) (s : Cmos) : Int × Cmos :=
  let (ret, s) := inb clock (outb reg s)
  (((ret &&& 0xf).toNat + (ret >>> 4).toNat * 10 : Nat), s)

/-- `AM_TIMER_RTC_T`. -/
structure TimerRtc where
  year : Int
  month : Int
  day : Int
  hour : Int
  minute : Int
  second : Int
  deriving DecidableEq

/-- An order in which the six initialisers are evaluated. -/
structure Order where
  regs : List Register
  perm : regs.Perm Register.all

/-- The values of some initialisers that are evaluated from left to right. -/
def readInOrder (clock : Clock) : List Register → Cmos → (Register → Int) × Cmos
  | [], s => (fun _ => 0, s)
  | r :: rs, s =>
    let (v, s) := readRtc clock r.number s
    let (vals, s) := readInOrder clock rs s
    (Function.update vals r v, s)

def readRtcAsync (clock : Clock) (order : Order) (s : Cmos) : TimerRtc × Cmos :=
  let (vals, s) := readInOrder clock order.regs s
  ({ second := vals .second
     minute := vals .minute
     hour := vals .hour
     day := vals .day
     month := vals .month
     year := vals .year + 2000 }, s)

/-- At most so many rounds of the loop. -/
def timerRtc (clock : Clock) (order : Order) : Nat → Cmos → Option (TimerRtc × Cmos)
  | 0, _ => none
  | fuel + 1, s =>
    let (rtc, s) := readRtcAsync clock order s
    let (tmp, s) := readRtc clock 0 s
    if tmp ≠ rtc.second then timerRtc clock order fuel s else some (rtc, s)

/-- The date and time of a clock's value. -/
def TimerRtc.ofDateTime (t : DateTime) : TimerRtc :=
  ⟨t.year + 2000, t.month, t.day, t.hour, t.minute, t.second⟩

/-- Every round of the loop, of seven reads, takes less than a minute. -/
def Prompt (clock : Clock) : Prop := ∀ k, clock.elapsed (7 * k + 6) < clock.elapsed (7 * k) + 60

/-- What the call returns is what the clock shows at one instant between its first read and its
last, and it does return when a round sees no tick. -/
def NotTorn (clock : Clock) (order : Order) : Prop :=
  ∀ index,
    (∀ fuel rtc s, timerRtc clock order fuel ⟨index, 0⟩ = some (rtc, s) →
      ∃ n, clock.elapsed 0 ≤ n ∧ n ≤ clock.elapsed (s.reads - 1) ∧
        rtc = TimerRtc.ofDateTime (clock.value n)) ∧
    ∀ k, clock.elapsed (7 * k) = clock.elapsed (7 * k + 6) →
      (timerRtc clock order (k + 1) ⟨index, 0⟩).isSome

theorem Register.mem_all (r : Register) : r ∈ Register.all := by
  cases r <;> decide

theorem Order.mem_regs (order : Order) (r : Register) : r ∈ order.regs :=
  order.perm.mem_iff.mpr r.mem_all

theorem Order.length_regs (order : Order) : order.regs.length = 6 := order.perm.length_eq

theorem Register.find_number (r : Register) :
    (Register.all.find? fun q => q.number = r.number) = some r := by
  cases r <;> rfl

theorem Register.field_lt (r : Register) (t : DateTime) : r.field t < 100 := by
  have hsecond := t.second_lt
  have hminute := t.minute_lt
  have hhour := t.hour_lt
  have hday := t.day_bounds.2.trans (daysIn_le _ _)
  have hmonth := t.month_bounds
  have hyear := t.year_lt
  cases r <;> dsimp only [Register.field] <;> omega

/-- What the clock shows at the `i`-th read. -/
def Clock.shown (clock : Clock) (i : Nat) : DateTime := clock.value (clock.elapsed i)

theorem readRtc_number (clock : Clock) (r : Register) (s : Cmos) :
    readRtc clock r.number s =
      ((r.field (clock.shown s.reads) : Int), ⟨r.number, s.reads + 1⟩) := by
  have hread : inb clock (outb r.number s) =
      (bcd (r.field (clock.shown s.reads)), ⟨r.number, s.reads + 1⟩) := by
    dsimp only [inb, outb]
    rw [r.find_number]
    rfl
  have hbcd : (bcd (r.field (clock.shown s.reads)) &&& 0xf).toNat +
      (bcd (r.field (clock.shown s.reads)) >>> 4).toNat * 10 = r.field (clock.shown s.reads) :=
    ofBcd_bcd (r.field_lt _)
  rw [readRtc, hread]
  dsimp only
  rw [hbcd]

theorem readInOrder_reads (clock : Clock) (rs : List Register) (s : Cmos) :
    (readInOrder clock rs s).2.reads = s.reads + rs.length ∧
      ∀ r ∈ rs, ∃ i < rs.length,
        (readInOrder clock rs s).1 r = r.field (clock.shown (s.reads + i)) := by
  induction rs generalizing s with
  | nil =>
    refine ⟨rfl, fun r hr => ?_⟩
    cases hr
  | cons q rs ih =>
    obtain ⟨hreads, hvals⟩ := ih ⟨q.number, s.reads + 1⟩
    dsimp only [readInOrder]
    rw [readRtc_number]
    dsimp only
    rw [List.length_cons]
    refine ⟨by rw [hreads]; dsimp only; omega, fun r hr => ?_⟩
    by_cases hrq : r = q
    · refine ⟨0, Nat.succ_pos _, ?_⟩
      rw [hrq, Function.update_self, Nat.add_zero]
    · obtain ⟨i, hi, hval⟩ := hvals r ((List.mem_cons.mp hr).resolve_left hrq)
      refine ⟨i + 1, Nat.succ_lt_succ hi, ?_⟩
      rw [Function.update_of_ne hrq, hval]
      dsimp only
      rw [Nat.add_right_comm, Nat.add_assoc]

theorem readInOrder_head (clock : Clock) (r : Register) (rs : List Register) (s : Cmos) :
    (readInOrder clock (r :: rs) s).1 r = r.field (clock.shown s.reads) ∧
      ∀ q ∈ rs, q ≠ r → ∃ i, s.reads < i ∧
        (readInOrder clock (r :: rs) s).1 q = q.field (clock.shown i) := by
  obtain ⟨-, hvals⟩ := readInOrder_reads clock rs ⟨r.number, s.reads + 1⟩
  dsimp only [readInOrder]
  rw [readRtc_number]
  refine ⟨Function.update_self .., fun q hq hne => ?_⟩
  obtain ⟨i, -, hval⟩ := hvals q hq
  refine ⟨s.reads + 1 + i, by omega, ?_⟩
  rw [Function.update_of_ne hne]
  exact hval

theorem timerRtc_round (clock : Clock) (order : Order) (fuel : Nat) (s : Cmos) :
    ∃ vals : Register → Int,
      (∀ r, ∃ i < 6, vals r = r.field (clock.shown (s.reads + i))) ∧
      (∀ r rs, order.regs = r :: rs → vals r = r.field (clock.shown s.reads) ∧
        ∀ q ≠ r, ∃ i, s.reads < i ∧ vals q = q.field (clock.shown i)) ∧
      timerRtc clock order (fuel + 1) s =
        if ((clock.shown (s.reads + 6)).second : Int) ≠ vals .second then
          timerRtc clock order fuel ⟨0, s.reads + 7⟩
        else
          some (⟨vals .year + 2000, vals .month, vals .day, vals .hour, vals .minute,
            vals .second⟩, ⟨0, s.reads + 7⟩) := by
  obtain ⟨hreads, hvals⟩ := readInOrder_reads clock order.regs s
  rw [order.length_regs] at hreads hvals
  refine ⟨(readInOrder clock order.regs s).1, fun r => hvals r (order.mem_regs r), ?_, ?_⟩
  · intro r rs hregs
    obtain ⟨hhead, htail⟩ := readInOrder_head clock r rs s
    rw [hregs]
    refine ⟨hhead, fun q hq => htail q ?_ hq⟩
    exact (List.mem_cons.mp (hregs ▸ order.mem_regs q)).resolve_left hq
  · have htmp : readRtc clock 0 (readInOrder clock order.regs s).2 =
        (((clock.shown (s.reads + 6)).second : Int), ⟨0, s.reads + 7⟩) := by
      refine (readRtc_number clock .second _).trans ?_
      rw [hreads]
      rfl
    simp only [timerRtc, readRtcAsync, htmp]

theorem Clock.still {clock : Clock} {i j k : Nat} (h : clock.elapsed i = clock.elapsed k)
    (hij : i ≤ j) (hjk : j ≤ k) : clock.elapsed j = clock.elapsed i := by
  have hfirst := clock.monotone hij
  have hlast := clock.monotone hjk
  omega

theorem round_still {clock : Clock} (hclock : Prompt clock) {k : Nat}
    (h : (clock.shown (7 * k)).second = (clock.shown (7 * k + 6)).second) {i : Nat} (hi : i ≤ 6) :
    clock.elapsed (7 * k + i) = clock.elapsed (7 * k) := by
  have hrange : clock.elapsed (7 * k) ≤ clock.elapsed (7 * k + 6) := clock.monotone (by omega)
  have hend := ticks_eq_of_second_eq clock.start hrange (hclock k) h
  exact Clock.still hend (by omega) (by omega)

theorem vals_still {clock : Clock} {k : Nat} {vals : Register → Int}
    (hstill : ∀ i ≤ 6, clock.elapsed (7 * k + i) = clock.elapsed (7 * k))
    (hvals : ∀ r : Register, ∃ i < 6, vals r = r.field (clock.shown (7 * k + i)))
    (r : Register) : vals r = r.field (clock.value (clock.elapsed (7 * k))) := by
  obtain ⟨i, hi, hval⟩ := hvals r
  rw [hval, Clock.shown, hstill i hi.le]

theorem timerRtc_returns {clock : Clock} (order : Order) {n k : Nat}
    (h : clock.elapsed (7 * (k + n)) = clock.elapsed (7 * (k + n) + 6)) (index : Nat) :
    (timerRtc clock order (n + 1) ⟨index, 7 * k⟩).isSome := by
  induction n generalizing k index with
  | zero =>
    obtain ⟨vals, hvals, -, hround⟩ := timerRtc_round clock order 0 ⟨index, 7 * k⟩
    have hstill : ∀ i ≤ 6, clock.elapsed (7 * k + i) = clock.elapsed (7 * k) :=
      fun i hi => Clock.still h (by omega) (by omega)
    have hsecond : ((clock.shown (7 * k + 6)).second : Int) = vals .second := by
      rw [vals_still hstill hvals .second, Clock.shown, hstill 6 le_rfl]
      rfl
    rw [hround, if_neg (not_not.mpr hsecond)]
    rfl
  | succ n ih =>
    obtain ⟨vals, -, -, hround⟩ := timerRtc_round clock order (n + 1) ⟨index, 7 * k⟩
    have hcount : k + (n + 1) = k + 1 + n := by omega
    rw [hcount] at h
    rw [hround]
    split
    · show (timerRtc clock order (n + 1) ⟨0, 7 * (k + 1)⟩).isSome
      exact ih h 0
    · rfl

theorem timerRtc_seconds_first {clock : Clock} (hclock : Prompt clock) {order : Order}
    {rs : List Register} (hregs : order.regs = .second :: rs) {fuel k : Nat} {index : Nat}
    {rtc : TimerRtc} {s : Cmos} (h : timerRtc clock order fuel ⟨index, 7 * k⟩ = some (rtc, s)) :
    ∃ n, clock.elapsed (7 * k) ≤ n ∧ n ≤ clock.elapsed (s.reads - 1) ∧
      rtc = TimerRtc.ofDateTime (clock.value n) := by
  induction fuel generalizing k index with
  | zero => cases h
  | succ fuel ih =>
    obtain ⟨vals, hvals, hfirst, hround⟩ := timerRtc_round clock order fuel ⟨index, 7 * k⟩
    rw [hround] at h
    dsimp only at h hvals hfirst
    by_cases hsecond : ((clock.shown (7 * k + 6)).second : Int) ≠ vals .second
    · rw [if_pos hsecond] at h
      have hnext : 7 * k + 7 = 7 * (k + 1) := rfl
      rw [hnext] at h
      obtain ⟨n, hlow, hhigh, hn⟩ := ih h
      exact ⟨n, (clock.monotone (by omega)).trans hlow, hhigh, hn⟩
    · rw [if_neg hsecond] at h
      cases h
      rw [not_not, (hfirst .second rs hregs).1] at hsecond
      have hstill : ∀ i ≤ 6, clock.elapsed (7 * k + i) = clock.elapsed (7 * k) := fun i hi =>
        round_still hclock (Int.ofNat.inj hsecond).symm hi
      have hval := vals_still hstill hvals
      refine ⟨clock.elapsed (7 * k), le_rfl, clock.monotone (by dsimp only; omega), ?_⟩
      rw [hval, hval, hval, hval, hval, hval]
      rfl

/-- The last second of a year. -/
def yearEnd : DateTime where
  year := 21
  month := 12
  day := 31
  hour := 23
  minute := 59
  second := 59
  year_lt := by decide
  month_bounds := by decide
  day_bounds := by decide
  hour_lt := by decide
  minute_lt := by decide
  second_lt := by decide

/-- The year ends right behind the first read. -/
def newYear : Clock where
  start := yearEnd
  elapsed i := if i = 0 then 0 else 1
  monotone i j h := by
    dsimp only
    split_ifs <;> omega

theorem newYear_prompt : Prompt newYear := by
  intro k
  dsimp only [newYear]
  split_ifs <;> omega

theorem field_newYear (r : Register) : r.field (newYear.value 0) ≠ r.field (newYear.value 1) := by
  cases r <;> decide

theorem newYear_shown {i : Nat} (hi : 0 < i) : newYear.shown i = newYear.value 1 := by
  rw [Clock.shown, newYear]
  dsimp only
  rw [if_neg (Nat.ne_of_gt hi)]

/-- A register that is read before the seconds is returned as it was before the year ended. -/
theorem newYear_torn {order : Order} {r : Register} {rs : List Register}
    (hregs : order.regs = r :: rs) (hr : r ≠ .second) (index : Nat) :
    ∃ vals : Register → Int, vals r = r.field (newYear.value 0) ∧
      (∀ q ≠ r, vals q = q.field (newYear.value 1)) ∧
      timerRtc newYear order 1 ⟨index, 0⟩ =
        some (⟨vals .year + 2000, vals .month, vals .day, vals .hour, vals .minute,
          vals .second⟩, ⟨0, 7⟩) := by
  obtain ⟨vals, -, hfirst, hround⟩ := timerRtc_round newYear order 0 ⟨index, 0⟩
  obtain ⟨hhead, htail⟩ := hfirst r rs hregs
  have hrest : ∀ q ≠ r, vals q = q.field (newYear.value 1) := by
    intro q hq
    obtain ⟨i, hi, hval⟩ := htail q hq
    rw [hval, newYear_shown hi]
  have hsecond : ((newYear.shown 6).second : Int) = vals .second := by
    rw [hrest .second hr.symm, newYear_shown (by decide)]
    rfl
  refine ⟨vals, hhead, hrest, ?_⟩
  rw [hround]
  exact if_neg (not_not.mpr hsecond)

theorem vals_of_eq {vals : Register → Int} {t : DateTime}
    (h : (⟨vals .year + 2000, vals .month, vals .day, vals .hour, vals .minute,
      vals .second⟩ : TimerRtc) = TimerRtc.ofDateTime t) (r : Register) : vals r = r.field t := by
  injection h with hyear hmonth hday hhour hminute hsecond
  cases r with
  | year => exact add_right_cancel hyear
  | _ => assumption

/-- The call is not torn on any clock exactly when the order reads the seconds first. -/
theorem timer_rtc_not_torn_iff (order : Order) :
    (∀ clock, Prompt clock → NotTorn clock order) ↔ order.regs.head? = some .second := by
  obtain ⟨r, rs, hregs⟩ : ∃ r rs, order.regs = r :: rs :=
    List.exists_cons_of_ne_nil (List.ne_nil_of_mem (order.mem_regs .second))
  rw [hregs, List.head?_cons, Option.some_inj]
  constructor
  · intro h
    by_contra hr
    obtain ⟨vals, hhead, htail, hrun⟩ := newYear_torn hregs hr 0
    obtain ⟨n, -, hn, hrtc⟩ := (h newYear newYear_prompt 0).1 _ _ _ hrun
    have hval := vals_of_eq hrtc
    have hn1 : n ≤ 1 := hn
    -- The first register is from the old year and the seconds are from the new one.
    rcases Nat.le_one_iff_eq_zero_or_eq_one.mp hn1 with rfl | rfl
    · have hsecond := (htail .second (Ne.symm hr)).symm.trans (hval .second)
      exact field_newYear .second (Int.ofNat.inj hsecond).symm
    · exact field_newYear r (Int.ofNat.inj (hhead.symm.trans (hval r)))
  · rintro rfl clock hclock index
    refine ⟨fun fuel rtc s h => timerRtc_seconds_first (k := 0) hclock hregs h, fun k hk => ?_⟩
    exact timerRtc_returns order (k := 0) (by rw [Nat.zero_add]; exact hk) index

def minuteFirst : Order := ⟨[.minute, .second, .hour, .day, .month, .year], by decide⟩

/-- With the minutes read first the new year begins at minute 59. -/
theorem minuteFirst_torn :
    Prompt newYear ∧
      timerRtc newYear minuteFirst 1 ⟨0, 0⟩ = some (⟨2022, 1, 1, 0, 59, 0⟩, ⟨0, 7⟩) ∧
      ¬NotTorn newYear minuteFirst := by
  have hrun : timerRtc newYear minuteFirst 1 ⟨0, 0⟩ =
      some (⟨2022, 1, 1, 0, 59, 0⟩, ⟨0, 7⟩) := by
    rfl
  refine ⟨newYear_prompt, hrun, fun h => ?_⟩
  obtain ⟨n, -, hn, hrtc⟩ := (h 0).1 _ _ _ hrun
  have hn1 : n ≤ 1 := hn
  rcases Nat.le_one_iff_eq_zero_or_eq_one.mp hn1 with rfl | rfl
  · exact absurd hrtc (by decide)
  · exact absurd hrtc (by decide)

end Riscv32Cpu.X86Qemu.Rtc
