/- module: Riscv32Cpu/Microbench/Fib
   source: CODE/am-kernels/benchmarks/microbench/src/fib/fib.c
   digest: The fib benchmark computes a term of its recurrence by squaring a matrix. -/

import Mathlib.Data.BitVec
import Mathlib.Data.Matrix.Mul
import Mathlib.Algebra.BigOperators.Fin
import Mathlib.Algebra.BigOperators.Intervals

set_option autoImplicit false
set_option relaxedAutoImplicit false

namespace Riscv32Cpu.Microbench.Fib

/-- One of the arrays, row after row. It has a place for every index where its size is an `int`. -/
abbrev Words := Int → BitVec 32

/-- `i * M + j` -/
def index (M i j : Nat) : Int := Int.bmod (i * M + j) (2 ^ 32)

def put (M : Nat) (m : Words) (i j : Nat) (data : BitVec 32) : Words :=
  Function.update m (index M i j) data

def get (M : Nat) (m : Words) (i j : Nat) : BitVec 32 := m (index M i j)

/-- The two loops over all places of a matrix. -/
def forCells (M : Nat) (body : Words → Nat → Nat → Words) (m : Words) : Words :=
  (List.range M).foldl (fun m i => (List.range M).foldl (fun m j => body m i j) m) m

/-- The innermost loop of `mult`. -/
def multCell (M : Nat) (a b c : Words) (i j : Nat) : Words :=
  (List.range M).foldl
    (fun c k => put M c i j (get M c i j + get M a i k * get M b k j)) (put M c i j 0)

def mult (M : Nat) (c a b : Words) : Words := forCells M (multCell M a b) c

def assign (M : Nat) (a b : Words) : Words := forCells M (fun a i j => put M a i j (get M b i j)) a

structure Arrays where
  A : Words
  ans : Words
  T : Words
  tmp : Words

/-- The loops that set `A`, `T` and `ans`; each array on its own, since none of them is read. -/
def start (M : Nat) (s : Arrays) : Arrays :=
  let x := fun i j : Nat => if i = M - 1 ∨ j = i + 1 then (1 : BitVec 32) else 0
  { s with
    A := forCells M (fun m i j => put M m i j (x i j)) s.A
    T := forCells M (fun m i j => put M m i j (x i j)) s.T
    ans := forCells M (fun m i j => put M m i j (if i = j then 1 else 0)) s.ans }

/-- The loop over the bits of `n`. -/
def powLoop (M n : Nat) (s : Arrays) : Arrays :=
  if n > 0 then
    let s :=
      if n % 2 = 1 then
        let s := { s with tmp := mult M s.tmp s.ans s.T }
        { s with ans := assign M s.ans s.tmp }
      else s
    let s := { s with tmp := mult M s.tmp s.T s.T }
    let s := { s with T := assign M s.T s.tmp }
    powLoop M (n >>> 1) s
  else s
termination_by n
decreasing_by
  rw [Nat.shiftRight_one]
  omega

/-- The number of the term. -/
def N : Nat := 2147483603

def benchFibRun (M : Nat) (s : Arrays) : Arrays := powLoop M N (start M s)

/-- The value that is compared with the checksum. -/
def result (M : Nat) (s : Arrays) : BitVec 32 := get M s.ans (M - 1) (M - 1)

/-- The recurrence: each term is the sum of the `M` before it, the first is one and nothing comes
before it. -/
def term (M : Nat) : Nat → BitVec 32
  | 0 => 1
  | n + 1 => ∑ k ∈ Finset.range M, if k ≤ n then term M (n - k) else 0
termination_by n => n
decreasing_by omega

section

variable {M : Nat} (hM : 4 * M * M < 2 ^ 31)

include hM

theorem index_eq {i j : Nat} (hi : i < M) (hj : j < M) : index M i j = (i * M + j : Nat) := by
  have hrow : (i + 1) * M ≤ M * M := Nat.mul_le_mul_right M hi
  rw [Nat.add_mul, Nat.one_mul] at hrow
  have hnat : i * M + j < 2 ^ 31 := by
    rw [Nat.mul_assoc] at hM
    omega
  have hsum : (i : Int) * M + j = (i * M + j : Nat) := by rw [Int.natCast_add, Int.natCast_mul]
  unfold index
  rw [hsum]
  exact Int.bmod_eq_of_le (by omega) (by omega)

theorem index_inj {i j i' j' : Nat} (hi : i < M) (hj : j < M) (hi' : i' < M) (hj' : j' < M) :
    index M i j = index M i' j' ↔ i = i' ∧ j = j' := by
  rw [index_eq hM hi hj, index_eq hM hi' hj', Int.natCast_inj]
  constructor
  · intro h
    have hpos : 0 < M := by omega
    have hrow : ∀ {x y : Nat}, y < M → (x * M + y) / M = x := by
      intro x y hy
      rw [Nat.mul_comm, Nat.mul_add_div hpos, Nat.div_eq_of_lt hy, Nat.add_zero]
    have hsame : i = i' := by rw [← hrow (x := i) hj, h, hrow hj']
    subst hsame
    omega
  · rintro ⟨rfl, rfl⟩
    rfl

theorem get_put {i j i' j' : Nat} (m : Words) (data : BitVec 32) (hi : i < M) (hj : j < M)
    (hi' : i' < M) (hj' : j' < M) :
    get M (put M m i j data) i' j' = if i' = i ∧ j' = j then data else get M m i' j' := by
  rw [get, put, Function.update_apply]
  simp only [index_inj hM hi' hj' hi hj, get]

theorem get_forCells {body : Words → Nat → Nat → Words} {v : Nat → Nat → BitVec 32}
    (hbody : ∀ m i j, i < M → j < M → body m i j = put M m i j (v i j)) (m : Words) {i j : Nat}
    (hi : i < M) (hj : j < M) : get M (forCells M body m) i j = v i j := by
  have hrow : ∀ (r : Nat), r < M → ∀ (m : Words) (n : Nat), n ≤ M → ∀ i j, i < M → j < M →
      get M ((List.range n).foldl (fun m j => body m r j) m) i j =
        if i = r ∧ j < n then v i j else get M m i j := by
    intro r hr m n hn i j hi hj
    induction n with
    | zero => simp
    | succ n ih =>
      rw [List.range_succ, List.foldl_append, List.foldl_cons, List.foldl_nil,
        hbody _ r n hr (by omega), get_put hM _ _ hr (by omega) hi hj, ih (by omega)]
      by_cases hlast : i = r ∧ j = n
      · rw [if_pos hlast, if_pos ⟨hlast.1, by omega⟩, hlast.1, hlast.2]
      · rw [if_neg hlast]
        refine if_congr ?_ rfl rfl
        omega
  have hrows : ∀ n, n ≤ M → ∀ i j, i < M → j < M →
      get M ((List.range n).foldl
        (fun m i => (List.range M).foldl (fun m j => body m i j) m) m) i j =
        if i < n then v i j else get M m i j := by
    intro n hn i j hi hj
    induction n with
    | zero => simp
    | succ n ih =>
      rw [List.range_succ, List.foldl_append, List.foldl_cons, List.foldl_nil,
        hrow n (by omega) _ M le_rfl i j hi hj, ih (by omega)]
      by_cases hlast : i = n
      · rw [if_pos ⟨hlast, hj⟩, if_pos (by omega)]
      · rw [if_neg fun h => hlast h.1]
        refine if_congr ?_ rfl rfl
        omega
  rw [forCells, hrows M le_rfl i j hi hj, if_pos hi]

end

theorem get_put_self (M : Nat) (m : Words) (i j : Nat) (data : BitVec 32) :
    get M (put M m i j data) i j = data := by
  rw [get, put, Function.update_self]

theorem put_put (M : Nat) (m : Words) (i j : Nat) (data data' : BitVec 32) :
    put M (put M m i j data) i j data' = put M m i j data' := by
  rw [put, put, put, Function.update_idem]

theorem multCell_eq {M : Nat} (a b c : Words) {i j : Nat} :
    multCell M a b c i j = put M c i j (∑ k ∈ Finset.range M, get M a i k * get M b k j) := by
  have hloop : ∀ n, (List.range n).foldl
      (fun c k => put M c i j (get M c i j + get M a i k * get M b k j)) (put M c i j 0) =
        put M c i j (∑ k ∈ Finset.range n, get M a i k * get M b k j) := by
    intro n
    induction n with
    | zero => rw [List.range_zero, List.foldl_nil, Finset.sum_range_zero]
    | succ n ih =>
      rw [List.range_succ, List.foldl_append, List.foldl_cons, List.foldl_nil, ih,
        Finset.sum_range_succ, get_put_self, put_put]
  exact hloop M

/-- What an array holds. -/
def toMatrix (M : Nat) (m : Words) : Matrix (Fin M) (Fin M) (BitVec 32) := fun i j => get M m i j

section

variable {M : Nat} (hM : 4 * M * M < 2 ^ 31)

include hM

theorem toMatrix_mult (c a b : Words) :
    toMatrix M (mult M c a b) = toMatrix M a * toMatrix M b := by
  ext1 i j
  rw [toMatrix, mult, get_forCells hM (fun c i j _ _ => multCell_eq a b c) c i.isLt j.isLt,
    Matrix.mul_apply, Finset.sum_range]
  rfl

theorem toMatrix_assign (a b : Words) :
    toMatrix M (assign M a b) = toMatrix M b := by
  ext1 i j
  exact get_forCells hM (fun _ _ _ _ _ => rfl) a i.isLt j.isLt

theorem toMatrix_powLoop (n : Nat) (s : Arrays) :
    toMatrix M (powLoop M n s).ans = toMatrix M s.ans * toMatrix M s.T ^ n := by
  induction n using Nat.strongRecOn generalizing s with
  | ind n ih =>
    rw [powLoop]
    by_cases hn : n > 0
    · have hhalf : n >>> 1 = n / 2 := Nat.shiftRight_one n
      rw [if_pos hn, ih _ (by omega), hhalf]
      simp only [toMatrix_assign hM, toMatrix_mult hM]
      by_cases hodd : n % 2 = 1
      · have hsplit : n = 1 + 2 * (n / 2) := by omega
        rw [if_pos hodd]
        simp only [toMatrix_assign hM, toMatrix_mult hM]
        conv_rhs => rw [hsplit]
        rw [pow_add, pow_one, pow_mul, pow_two, mul_assoc]
      · have hsplit : n = 2 * (n / 2) := by omega
        rw [if_neg hodd]
        conv_rhs => rw [hsplit]
        rw [pow_mul, pow_two]
    · obtain rfl : n = 0 := by omega
      rw [if_neg hn, pow_zero, mul_one]

end

/-- The matrix of the recurrence. -/
def companion (M : Nat) : Matrix (Fin M) (Fin M) (BitVec 32) := fun i j =>
  if i.val = M - 1 ∨ j.val = i.val + 1 then 1 else 0

theorem toMatrix_start {M : Nat} (hM : 4 * M * M < 2 ^ 31) (s : Arrays) :
    toMatrix M (start M s).T = companion M ∧ toMatrix M (start M s).ans = 1 := by
  constructor
  · ext1 i j
    exact get_forCells hM (fun _ _ _ _ _ => rfl) s.T i.isLt j.isLt
  · ext1 i j
    rw [Matrix.one_apply]
    simp only [Fin.ext_iff]
    exact get_forCells hM (fun _ _ _ _ _ => rfl) s.ans i.isLt j.isLt

/-- The last column of a power: `M` consecutive terms. -/
def column (M n i : Nat) : BitVec 32 := if n + i < M - 1 then 0 else term M (n + i - (M - 1))

theorem column_last (M n : Nat) (hM : 0 < M) :
    ∑ k ∈ Finset.range M, column M n k = column M (n + 1) (M - 1) := by
  have hterm : column M (n + 1) (M - 1) = term M (n + 1) := by
    rw [column, if_neg (by omega), Nat.add_sub_cancel]
  rw [hterm, term, ← Finset.sum_range_reflect]
  refine Finset.sum_congr rfl fun k hk => ?_
  have hlt := Finset.mem_range.mp hk
  rw [column]
  by_cases hle : k ≤ n
  · rw [if_pos hle, if_neg (by omega)]
    congr 1
    omega
  · rw [if_neg hle, if_pos (by omega)]

theorem companion_pow {M : Nat} (hM : 0 < M) (n : Nat) (i j : Fin M) (hj : j.val = M - 1) :
    (companion M ^ n) i j = column M n i := by
  induction n generalizing i with
  | zero =>
    rw [pow_zero, Matrix.one_apply, column]
    by_cases hlast : i = j
    · rw [if_pos hlast, if_neg (by rw [hlast]; omega), hlast, hj, Nat.zero_add, Nat.sub_self, term]
    · have hne : i.val ≠ j.val := fun h => hlast (Fin.ext h)
      have hlt := i.isLt
      rw [if_neg hlast, if_pos (by omega)]
  | succ n ih =>
    rw [pow_succ', Matrix.mul_apply]
    simp only [ih, companion]
    by_cases hlast : i.val = M - 1
    · simp only [hlast, true_or, if_true, one_mul]
      rw [← column_last M n hM, Finset.sum_range]
    · have hlt := i.isLt
      have hnext : i.val + 1 < M := by omega
      have hone : ∀ k : Fin M, (if i.val = M - 1 ∨ k.val = i.val + 1 then (1 : BitVec 32) else 0) *
          column M n k = if k = ⟨i.val + 1, hnext⟩ then column M n k else 0 := by
        intro k
        by_cases hk : k = ⟨i.val + 1, hnext⟩
        · rw [if_pos hk, if_pos (.inr (congrArg Fin.val hk)), one_mul]
        · have hne : ¬k.val = i.val + 1 := fun h => hk (Fin.ext h)
          rw [if_neg hk, if_neg (not_or.mpr ⟨hlast, hne⟩), zero_mul]
      rw [Finset.sum_congr rfl fun k _ => hone k, Finset.sum_ite_eq']
      simp only [Finset.mem_univ, if_true, column]
      congr 2 <;> omega

/-- The benchmark computes a term of its recurrence, whatever the arrays hold before, as long as the
size of an array is an `int`. -/
theorem benchFibRun_term {M : Nat} (hpos : 0 < M) (hM : 4 * M * M < 2 ^ 31) (s : Arrays) :
    result M (benchFibRun M s) = term M N := by
  obtain ⟨hT, hans⟩ := toMatrix_start hM s
  have hpow := toMatrix_powLoop hM N (start M s)
  rw [hT, hans, one_mul] at hpow
  have hcell := congrFun (congrFun hpow ⟨M - 1, by omega⟩) ⟨M - 1, by omega⟩
  have hterm : column M N (M - 1) = term M N := by
    rw [column, if_neg (by rw [N]; omega), Nat.add_sub_cancel]
  rw [companion_pow hpos N _ _ rfl] at hcell
  exact hcell.trans hterm

/-- The arrays as `bench_alloc` leaves them. -/
def cleared : Arrays := ⟨fun _ => 0, fun _ => 0, fun _ => 0, fun _ => 0⟩

/-- The greatest order whose matrices are small enough. -/
theorem benchFibRun_greatest : result 23170 (benchFibRun 23170 cleared) = term 23170 N :=
  benchFibRun_term (by decide) (by decide) cleared

example : term 2 7 = 21 := by simp [term, Finset.sum_range_succ]

end Riscv32Cpu.Microbench.Fib
