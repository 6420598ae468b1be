/- module: Riscv32Cpu/Microbench/Sieve
   source: CODE/am-kernels/benchmarks/microbench/src/sieve/sieve.c
   digest: The sieve benchmark counts the primes, up to the size at which its square overflows. -/

import Mathlib.Data.BitVec
import Mathlib.NumberTheory.PrimeCounting

set_option autoImplicit false
set_option relaxedAutoImplicit false

namespace Riscv32Cpu.Microbench.Sieve

/-- The words at `primes`. -/
abbrev Words := Nat → BitVec 32

def get (primes : Words) (n : Nat) : BitVec 32 := (primes (n >>> 5) >>> (n &&& 31)) &&& 1

def clear (primes : Words) (n : Nat) : Words := fun k =>
  if k = n >>> 5 then primes k &&& ~~~((1 : BitVec 32) <<< (n &&& 31)) else primes k

/-- What `bench_sieve_prepare` makes of the memory it gets. -/
def benchSievePrepare (N : Nat) (mem : Words) : Words := fun k =>
  if k ≤ N / 32 then 0xffffffff else mem k

/-- The loop over `j`; `none` where an `int` overflows. -/
def clearLoop (N i : Nat) (hi : 0 < i) (primes : Words) (j : Nat) : Option Words :=
  if j ≤ N then
    if j + i < 2 ^ 31 then clearLoop N i hi (clear primes j) (j + i) else none
  else some primes
termination_by N + 1 - j

/-- The loop over `i`. -/
def sieveLoop (N i : Nat) (hi : 0 < i) (primes : Words) : Option Words :=
  if i * i < 2 ^ 31 then
    if i * i ≤ N then
      if get primes i ≠ 0 then
        if i + i < 2 ^ 31 then
          (clearLoop N i hi primes (i + i)).bind (sieveLoop N (i + 1) i.succ_pos)
        else none
      else sieveLoop N (i + 1) i.succ_pos primes
    else some primes
  else none
termination_by N + 1 - i
decreasing_by
  all_goals
    have := Nat.le_mul_self i
    omega

/-- The last loop. `ans` stays below `i`. -/
def countLoop (N : Nat) (primes : Words) (ans i : Nat) : Option Nat :=
  if i ≤ N then
    if i + 1 < 2 ^ 31 then
      countLoop N primes (if get primes i ≠ 0 then ans + 1 else ans) (i + 1)
    else none
  else some ans
termination_by N + 1 - i

/-- The first loop: whether it comes to its end. -/
def allSet (N : Nat) (primes : Words) (i : Nat) : Option Bool :=
  if i ≤ N then
    if get primes i = 0 then some false
    else if i + 1 < 2 ^ 31 then allSet N primes (i + 1)
    else none
  else some true
termination_by N + 1 - i

/-- The words and `ans` afterwards. -/
def benchSieveRun (N ans : Nat) (primes : Words) : Option (Words × Nat) := do
  let all ← allSet N primes 1
  if all then
    let primes ← sieveLoop N 2 Nat.two_pos primes
    let ans ← countLoop N primes 0 2
    return (primes, ans)
  else return (primes, ans)

def Bit (primes : Words) (n : Nat) : Prop := (primes (n / 32)).getLsbD (n % 32) = true

theorem index_eq (n : Nat) : n >>> 5 = n / 32 ∧ n &&& 31 = n % 32 :=
  ⟨Nat.shiftRight_eq_div_pow n 5, Nat.and_two_pow_sub_one_eq_mod n 5⟩

theorem get_ne_zero (primes : Words) (n : Nat) : get primes n ≠ 0 ↔ Bit primes n := by
  obtain ⟨hword, hbit⟩ := index_eq n
  have hone : ∀ x : BitVec 32, x &&& 1 ≠ 0 ↔ x.getLsbD 0 = true := by
    intro x
    rw [← BitVec.testBit_toNat, Nat.testBit_zero, decide_eq_true_iff, Ne, ← BitVec.toNat_inj,
      BitVec.toNat_and]
    show ¬x.toNat &&& 1 = 0 ↔ _
    rw [Nat.and_one_is_mod]
    omega
  rw [get, Bit, hword, hbit, hone, BitVec.getLsbD_ushiftRight, Nat.add_zero]

theorem bit_clear (primes : Words) (n m : Nat) : Bit (clear primes n) m ↔ Bit primes m ∧ m ≠ n := by
  obtain ⟨hword, hbit⟩ := index_eq n
  rw [Bit, clear, hword, hbit]
  by_cases hsame : m / 32 = n / 32
  · have hlt : m % 32 < 32 := Nat.mod_lt m (by decide)
    have heq : m ≠ n ↔ m % 32 ≠ n % 32 := by omega
    rw [if_pos hsame, BitVec.getLsbD_and, BitVec.getLsbD_not, heq]
    simp [hlt, Bit]
    omega
  · have hne : m ≠ n := fun h => hsame (congrArg (· / 32) h)
    rw [if_neg hsame]
    exact (and_iff_left hne).symm

theorem bit_prepare {N m : Nat} (mem : Words) (hm : m ≤ N) : Bit (benchSievePrepare N mem) m := by
  have hones : ∀ k < 32, (0xffffffff : BitVec 32).getLsbD k = true := by decide
  have hword : m / 32 ≤ N / 32 := Nat.div_le_div_right hm
  rw [Bit, benchSievePrepare, if_pos hword]
  exact hones (m % 32) (Nat.mod_lt m (by decide))

theorem allSet_of_bits {N : Nat} {primes : Words} (h : ∀ m ≤ N, Bit primes m) (i : Nat) :
    allSet N primes i = none ∨ allSet N primes i = some true := by
  induction i using allSet.induct N primes with
  | case1 i hi hzero => exact absurd hzero ((get_ne_zero primes i).mpr (h i hi))
  | case2 i hi hone hfit ih => rwa [allSet, if_pos hi, if_neg hone, if_pos hfit]
  | case3 i hi hone hbig =>
    left
    rw [allSet, if_pos hi, if_neg hone, if_neg hbig]
  | case4 i hi =>
    right
    rw [allSet, if_neg hi]

theorem allSet_fits {N : Nat} (hN : N + 1 < 2 ^ 31) (primes : Words) (i : Nat) :
    allSet N primes i ≠ none := by
  induction i using allSet.induct N primes with
  | case1 i hi hzero => simp [allSet, hi, hzero]
  | case2 i hi hone hfit ih => rwa [allSet, if_pos hi, if_neg hone, if_pos hfit]
  | case3 i hi hone hbig => omega
  | case4 i hi => simp [allSet, hi]

theorem clearLoop_bit {N i j : Nat} (hi : 0 < i) (hsum : N + i < 2 ^ 31) (primes : Words) :
    ∃ primes', clearLoop N i hi primes j = some primes' ∧
      ∀ m, Bit primes' m ↔ Bit primes m ∧ ¬∃ k, m = j + i * k ∧ m ≤ N := by
  induction primes, j using clearLoop.induct N i hi with
  | case1 primes j hj hfit ih =>
    obtain ⟨primes', hloop, hbit⟩ := ih
    refine ⟨primes', ?_, fun m => ?_⟩
    · rw [clearLoop, if_pos hj, if_pos hfit, hloop]
    · rw [hbit, bit_clear, and_assoc]
      refine and_congr_right fun _ => ⟨?_, ?_⟩
      · rintro ⟨hne, hrest⟩ ⟨k, rfl, hle⟩
        cases k with
        | zero => exact hne (by rw [Nat.mul_zero, Nat.add_zero])
        | succ k => exact hrest ⟨k, by rw [Nat.mul_succ]; omega, hle⟩
      · intro hrest
        refine ⟨?_, ?_⟩
        · rintro rfl
          exact hrest ⟨0, by rw [Nat.mul_zero, Nat.add_zero], hj⟩
        · rintro ⟨k, rfl, hle⟩
          exact hrest ⟨k + 1, by rw [Nat.mul_succ]; omega, hle⟩
  | case2 primes j hj hbig => omega
  | case3 primes j hj =>
    refine ⟨primes, by rw [clearLoop, if_neg hj], fun m => ?_⟩
    refine (and_iff_left ?_).symm
    rintro ⟨k, rfl, hle⟩
    omega

/-- The multiples of the numbers before `i` are cleared, but for these numbers themselves. -/
def Sieved (N i : Nat) (primes : Words) : Prop :=
  ∀ m, 2 ≤ m → m ≤ N → (Bit primes m ↔ ∀ d, 2 ≤ d → d < i → d ∣ m → d = m)

theorem sieved_start {N : Nat} {primes : Words} (h : ∀ m ≤ N, Bit primes m) :
    Sieved N 2 primes := by
  intro m _ hm
  exact iff_of_true (h m hm) fun d hd hd' => by omega

/-- A number that is cleared has a divisor, and its multiples were cleared with those of the
divisor. -/
theorem sieved_skip {N i : Nat} {primes : Words} (h : Sieved N i primes) (hi : 2 ≤ i)
    (hle : i ≤ N) (hclear : ¬Bit primes i) : Sieved N (i + 1) primes := by
  intro m hm hmN
  rw [h m hm hmN]
  refine ⟨fun hall d hd hdi hdvd => ?_, fun hall d hd hdi => hall d hd (by omega)⟩
  rcases Nat.lt_or_ge d i with hlt | hge
  · exact hall d hd hlt hdvd
  · obtain rfl : d = i := by omega
    rw [h d hi hle] at hclear
    push Not at hclear
    obtain ⟨e, he, hed, hdvd', hne⟩ := hclear
    have hsame := hall e he hed (hdvd'.trans hdvd)
    have hlarge := Nat.le_of_dvd (by omega) hdvd
    omega

theorem sieved_clear {N i : Nat} {primes primes' : Words} (h : Sieved N i primes) (hi : 2 ≤ i)
    (hbit : ∀ m, Bit primes' m ↔ Bit primes m ∧ ¬∃ k, m = i + i + i * k ∧ m ≤ N) :
    Sieved N (i + 1) primes' := by
  intro m hm hmN
  rw [hbit, h m hm hmN]
  constructor
  · rintro ⟨hall, hnot⟩ d hd hdi ⟨k, rfl⟩
    rcases Nat.lt_or_ge d i with hlt | hge
    · exact hall d hd hlt (Nat.dvd_mul_right d k)
    · obtain rfl : d = i := by omega
      match k with
      | 0 => omega
      | 1 => rw [Nat.mul_one]
      | k + 2 => exact absurd ⟨k, by rw [Nat.mul_add]; omega, hmN⟩ hnot
  · intro hall
    refine ⟨fun d hd hdi => hall d hd (by omega), ?_⟩
    rintro ⟨k, rfl, -⟩
    have hdvd : i ∣ i + i + i * k := ⟨k + 2, by rw [Nat.mul_add]; omega⟩
    have hsame := hall i hi (by omega) hdvd
    omega

theorem sieved_prime {N i : Nat} {primes : Words} (h : Sieved N i primes) (hend : N < i * i)
    {m : Nat} (hm : 2 ≤ m) (hmN : m ≤ N) : Bit primes m ↔ m.Prime := by
  rw [h m hm hmN]
  constructor
  · intro hall
    by_contra hcomp
    have hsq := Nat.minFac_sq_le_self (by omega) hcomp
    have hlt : m.minFac < i := by
      by_contra hge
      have hmul := Nat.mul_le_mul (Nat.not_lt.mp hge) (Nat.not_lt.mp hge)
      rw [Nat.pow_two] at hsq
      omega
    have hprime := Nat.minFac_prime (show m ≠ 1 by omega)
    have hsame := hall m.minFac hprime.two_le hlt m.minFac_dvd
    rw [hsame] at hprime
    exact hcomp hprime
  · intro hprime d hd _ hdvd
    exact (hprime.eq_one_or_self_of_dvd d hdvd).resolve_left (by omega)

theorem sieveLoop_primes {N i : Nat} (hi : 0 < i) {primes : Words} (h : Sieved N i primes)
    (htwo : 2 ≤ i) (hfit : i ≤ 46340) (hN : N < 46340 * 46340) :
    ∃ primes', sieveLoop N i hi primes = some primes' ∧
      ∀ m, 2 ≤ m → m ≤ N → (Bit primes' m ↔ m.Prime) := by
  induction hn : 46340 - i generalizing i primes with
  | zero =>
    obtain rfl : i = 46340 := by omega
    refine ⟨primes, ?_, fun m hm hmN => sieved_prime h hN hm hmN⟩
    rw [sieveLoop, if_pos (by decide), if_neg (by omega)]
  | succ n ih =>
    have hsquare : i * i ≤ 46340 * 46340 := Nat.mul_le_mul hfit hfit
    by_cases hle : i * i ≤ N
    · have hself := Nat.le_mul_self i
      have hcases : ∀ {primes' : Words}, Sieved N (i + 1) primes' →
          ∃ primes'', sieveLoop N (i + 1) i.succ_pos primes' = some primes'' ∧
            ∀ m, 2 ≤ m → m ≤ N → (Bit primes'' m ↔ m.Prime) :=
        fun hnext => ih i.succ_pos hnext (by omega) (by omega) (by omega)
      by_cases hset : get primes i ≠ 0
      · obtain ⟨primes₁, hclear, hbit⟩ :=
          clearLoop_bit (N := N) (j := i + i) hi (by omega) primes
        obtain ⟨primes₂, hrest, hprime⟩ := hcases (sieved_clear h htwo hbit)
        refine ⟨primes₂, ?_, hprime⟩
        rw [sieveLoop, if_pos (by omega), if_pos hle, if_pos hset, if_pos (by omega), hclear,
          Option.bind_some, hrest]
      · have hskip := sieved_skip h htwo (by omega) fun hb => hset ((get_ne_zero primes i).mpr hb)
        obtain ⟨primes₂, hrest, hprime⟩ := hcases hskip
        refine ⟨primes₂, ?_, hprime⟩
        rw [sieveLoop, if_pos (by omega), if_pos hle, if_neg hset, hrest]
    · refine ⟨primes, ?_, fun m hm hmN => sieved_prime h (Nat.not_le.mp hle) hm hmN⟩
      rw [sieveLoop, if_pos (by omega), if_neg hle]

theorem sieveLoop_overflow {N i : Nat} (hi : 0 < i) (primes : Words) (hfit : i ≤ 46341)
    (hN : 46340 * 46340 ≤ N) : sieveLoop N i hi primes = none := by
  induction hn : 46341 - i generalizing i primes with
  | zero =>
    obtain rfl : i = 46341 := by omega
    rw [sieveLoop, if_neg (by decide)]
  | succ n ih =>
    have hroot : i ≤ 46340 := by omega
    have hsquare : i * i ≤ 46340 * 46340 := Nat.mul_le_mul hroot hroot
    have hnext : ∀ primes' : Words, sieveLoop N (i + 1) i.succ_pos primes' = none :=
      fun primes' => ih i.succ_pos primes' (by omega) (by omega)
    rw [sieveLoop, if_pos (by omega), if_pos (hsquare.trans hN)]
    split
    · split
      · cases clearLoop N i hi primes (i + i) with
        | none => rfl
        | some primes' => exact hnext primes'
      · rfl
    · exact hnext primes

theorem countLoop_primes {N : Nat} {primes : Words}
    (h : ∀ m, 2 ≤ m → m ≤ N → (Bit primes m ↔ m.Prime)) (hN : N + 1 < 2 ^ 31) {i : Nat}
    (hi : 2 ≤ i) (hle : i ≤ N + 1) : countLoop N primes (Nat.count Nat.Prime i) i =
      some (Nat.count Nat.Prime (N + 1)) := by
  induction hn : N + 1 - i generalizing i with
  | zero =>
    obtain rfl : i = N + 1 := by omega
    rw [countLoop, if_neg (by omega)]
  | succ n ih =>
    have hiN : i ≤ N := by omega
    have hstep : (if get primes i ≠ 0 then Nat.count Nat.Prime i + 1 else Nat.count Nat.Prime i) =
        Nat.count Nat.Prime (i + 1) := by
      rw [Nat.count_succ]
      by_cases hp : i.Prime
      · rw [if_pos hp, if_pos ((get_ne_zero primes i).mpr ((h i hi hiN).mpr hp))]
      · rw [if_neg hp, if_neg fun hb => hp ((h i hi hiN).mp ((get_ne_zero primes i).mp hb)),
          Nat.add_zero]
    rw [countLoop, if_pos hiN, if_pos (by omega), hstep]
    exact ih (by omega) (by omega) (by omega)

/-- The benchmark counts the primes up to its size if that is below the square of 46340; from there
on an `int` overflows: `i * i`, a `j` before it, or the first `i` where the size is the greatest. -/
theorem benchSieveRun_counts (N ans : Nat) (mem : Words) :
    (benchSieveRun N ans (benchSievePrepare N mem)).map Prod.snd =
      if N < 46340 * 46340 then some N.primeCounting else none := by
  have hset : ∀ m ≤ N, Bit (benchSievePrepare N mem) m := fun m hm => bit_prepare mem hm
  have hall := allSet_of_bits hset 1
  rw [benchSieveRun]
  by_cases hN : N < 46340 * 46340
  · obtain ⟨primes, hloop, hprime⟩ :=
      sieveLoop_primes Nat.two_pos (sieved_start hset) le_rfl (by decide) hN
    have hend := hall.resolve_left (allSet_fits (by omega) _ 1)
    have hcount : countLoop N primes 0 2 = some N.primeCounting := by
      by_cases hone : 2 ≤ N + 1
      · have hzero : Nat.count Nat.Prime 2 = 0 := by decide
        rw [← hzero]
        exact countLoop_primes hprime (by omega) le_rfl hone
      · obtain rfl : N = 0 := by omega
        rw [countLoop, if_neg (by decide)]
        decide
    rw [if_pos hN, hend, Option.bind_eq_bind, Option.bind_some, if_pos rfl, hloop,
      Option.bind_eq_bind, Option.bind_some, hcount]
    rfl
  · rw [if_neg hN]
    rcases hall with hnone | hend
    · rw [hnone]
      rfl
    · rw [hend, Option.bind_eq_bind, Option.bind_some, if_pos rfl,
        sieveLoop_overflow Nat.two_pos _ (by decide) (by omega)]
      rfl

end Riscv32Cpu.Microbench.Sieve
