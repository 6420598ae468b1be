/- module: Riscv32Cpu/Microbench/Checksum
   source: CODE/am-kernels/benchmarks/microbench/src/bench.c, md5/md5.c, qsort/qsort.c
   digest: The checksum of a benchmark's output, and the bytes it does not see. -/

import Mathlib.Tactic.IntervalCases
import Riscv32Cpu.Lib.Mixing

set_option autoImplicit false
set_option relaxedAutoImplicit false

namespace Riscv32Cpu.Microbench.Checksum

open Lib.Mixing

abbrev Word := BitVec 32

/-- The bytes from `start` on. -/
abbrev Buffer := Nat → BitVec 8

/-- The loop over the words, `p` bytes behind `start`; `len` is how far `end` is from it. -/
def hashLoop (buf : Buffer) (len p : Nat) (h1 : Word) : Word :=
  if p + 4 < len then
    hashLoop buf len (p + 4)
      ((List.range 4).foldl (fun h1 i => (h1 ^^^ (buf (p + i)).setWidth 32) * 16777619) h1)
  else h1
termination_by len - p

/-- The end of `checksum`, on an `int32_t`. -/
def avalanche (hash : Word) : Word :=
  let hash := hash + hash <<< 13
  let hash := hash ^^^ hash.sshiftRight 7
  let hash := hash + hash <<< 3
  let hash := hash ^^^ hash.sshiftRight 17
  hash + hash <<< 5

def checksum (buf : Buffer) (len : Nat) : Word := avalanche (hashLoop buf len 0 2166136261)

/-- `expected` is `setting->checksum`. -/
def benchMd5Validate (digest : Buffer) (expected : Word) : Bool := checksum digest 16 = expected

/-- `data` is the bytes of `N` `int`s. -/
def benchQsortValidate (data : Buffer) (N : Nat) (expected : Word) : Bool :=
  checksum data (4 * N) = expected

/-- The buffers of `len` bytes differ in byte `pos` and in no other. -/
structure DifferAt (buf buf' : Buffer) (len pos : Nat) : Prop where
  inside : pos < len
  differ : buf pos ≠ buf' pos
  same : ∀ k < len, k ≠ pos → buf k = buf' k

def bytes (buf : Buffer) (n : Nat) : List (BitVec 8) := (List.range n).map buf

/-- Words that `avalanche` brings together although they are not the same. -/
def Collide (h h' : Word) : Prop :=
  8193 * (h + h') = -1 ∨ 9 * (xorShift 7 (8193 * h) + xorShift 7 (8193 * h')) = -1

theorem hashLoop_eq {buf : Buffer} {len p r : Nat} (hend : p + 4 * r + 4 = len) (h1 : Word) :
    hashLoop buf len p h1 = ((List.range' p (4 * r)).map buf).foldl fnvStep h1 := by
  induction r generalizing p h1 with
  | zero =>
    rw [hashLoop, if_neg (by omega)]
    rfl
  | succ r ih =>
    have hsplit : List.range' p (4 * (r + 1)) = List.range' p 4 ++ List.range' (p + 4) (4 * r) := by
      rw [List.range'_append_1, Nat.mul_succ, Nat.add_comm]
    rw [hashLoop, if_pos (by omega), ih (by omega), hsplit, List.map_append, List.foldl_append]
    rfl

theorem checksum_eq {buf : Buffer} {len : Nat} (hpos : 0 < len) (hmul : 4 ∣ len) :
    checksum buf len = avalanche (fnv1a (bytes buf (len - 4))) := by
  obtain ⟨r, rfl⟩ := hmul
  have hrounds : 0 + 4 * (r - 1) + 4 = 4 * r := by omega
  have hlen : 4 * r - 4 = 4 * (r - 1) := by omega
  rw [checksum, hashLoop_eq hrounds, hlen, bytes, List.range_eq_range']
  rfl

theorem avalanche_eq (h : Word) :
    avalanche h = xorShift 17 (xorShift 7 (h * 8193#32) * 9#32) * 33#32 := by
  simp only [avalanche, xorShift, add_shiftLeft]
  rfl

theorem eq_not_iff (x y : Word) : x = ~~~y ↔ x + y = -1 := by
  have hsum : ~~~y + y = -1 := by
    rw [BitVec.add_comm, BitVec.add_not_self]
    rfl
  rw [← hsum, add_left_inj]

theorem inv_8193 : 8193#32 * 67100673#32 = 1#32 := by decide
theorem inv_9 : 9#32 * 954437177#32 = 1#32 := by decide
theorem inv_33 : 33#32 * 1041204193#32 = 1#32 := by decide

theorem avalanche_eq_iff (h h' : Word) : avalanche h = avalanche h' ↔ h = h' ∨ Collide h h' := by
  rw [avalanche_eq, avalanche_eq, mul_inj inv_33, xorShift_eq_iff (by decide), mul_inj inv_9,
    xorShift_eq_iff (by decide), mul_inj inv_8193, eq_not_iff, eq_not_iff, Collide, or_assoc,
    ← BitVec.add_mul, ← BitVec.add_mul]
  simp only [BitVec.mul_comm]
  rfl

theorem bytes_split (buf : Buffer) {pos n : Nat} (h : pos < n) :
    bytes buf n =
      bytes buf pos ++ buf pos :: (List.range' (pos + 1) (n - (pos + 1))).map buf := by
  obtain ⟨k, rfl⟩ : ∃ k, n = pos + (k + 1) := ⟨n - pos - 1, by omega⟩
  have htail : pos + (k + 1) - (pos + 1) = k := by omega
  have happend := List.range'_append_1 (s := 0) (m := pos) (n := k + 1)
  rw [List.range'_succ, Nat.zero_add] at happend
  rw [bytes, bytes, List.range_eq_range', List.range_eq_range', htail, ← happend, List.map_append,
    List.map_cons]

theorem DifferAt.map_eq {buf buf' : Buffer} {len pos : Nat} (h : DifferAt buf buf' len pos)
    {l : List Nat} (hl : ∀ k ∈ l, k < len ∧ k ≠ pos) : l.map buf = l.map buf' := by
  apply List.map_congr_left
  intro k hk
  exact h.same k (hl k hk).1 (hl k hk).2

theorem fnv1a_bytes_eq_iff {buf buf' : Buffer} {len pos : Nat} (h : DifferAt buf buf' len pos)
    {n : Nat} (hn : n ≤ len) : fnv1a (bytes buf n) = fnv1a (bytes buf' n) ↔ n ≤ pos := by
  have hinside := h.inside
  constructor
  · intro heq
    by_contra hlt
    have hbefore : bytes buf pos = bytes buf' pos := by
      apply h.map_eq
      intro k hk
      rw [List.mem_range] at hk
      omega
    have hbehind : (List.range' (pos + 1) (n - (pos + 1))).map buf =
        (List.range' (pos + 1) (n - (pos + 1))).map buf' := by
      apply h.map_eq
      intro k hk
      rw [List.mem_range'_1] at hk
      omega
    rw [bytes_split buf (Nat.not_le.mp hlt), bytes_split buf' (Nat.not_le.mp hlt), hbefore,
      hbehind] at heq
    exact fnv1a_ne_of_one _ _ h.differ heq
  · intro hle
    have hsame : bytes buf n = bytes buf' n := by
      apply h.map_eq
      intro k hk
      rw [List.mem_range] at hk
      omega
    rw [hsame]

theorem checksum_eq_iff {buf buf' : Buffer} {len pos : Nat} (hpos : 0 < len) (hmul : 4 ∣ len)
    (h : DifferAt buf buf' len pos) :
    checksum buf len = checksum buf' len ↔
      len - 4 ≤ pos ∨ Collide (fnv1a (bytes buf (len - 4))) (fnv1a (bytes buf' (len - 4))) := by
  rw [checksum_eq hpos hmul, checksum_eq hpos hmul, avalanche_eq_iff,
    fnv1a_bytes_eq_iff h (Nat.sub_le len 4)]

theorem md5_passes_iff {digest digest' : Buffer} {pos : Nat} (h : DifferAt digest digest' 16 pos)
    {expected : Word} (hright : benchMd5Validate digest expected = true) :
    benchMd5Validate digest' expected = true ↔
      12 ≤ pos ∨ Collide (fnv1a (bytes digest 12)) (fnv1a (bytes digest' 12)) := by
  have hexpected : checksum digest 16 = expected := of_decide_eq_true hright
  rw [benchMd5Validate, decide_eq_true_iff, ← hexpected, eq_comm]
  exact checksum_eq_iff (by decide) (by decide) h

theorem qsort_passes_iff {data data' : Buffer} {N pos : Nat} (hN : 0 < N)
    (h : DifferAt data data' (4 * N) pos) {expected : Word}
    (hright : benchQsortValidate data N expected = true) :
    benchQsortValidate data' N expected = true ↔
      4 * N - 4 ≤ pos ∨
        Collide (fnv1a (bytes data (4 * N - 4))) (fnv1a (bytes data' (4 * N - 4))) := by
  have hexpected : checksum data (4 * N) = expected := of_decide_eq_true hright
  rw [benchQsortValidate, decide_eq_true_iff, ← hexpected, eq_comm]
  exact checksum_eq_iff (by omega) (Nat.dvd_mul_right 4 N) h

/-- One byte that differs changes the checksum exactly when it is before the last four and the
hashes do not collide. -/
theorem checksum_sees_iff {buf buf' : Buffer} {len pos : Nat} (hpos : 0 < len) (hmul : 4 ∣ len)
    (h : DifferAt buf buf' len pos) :
    checksum buf len ≠ checksum buf' len ↔
      pos < len - 4 ∧ ¬Collide (fnv1a (bytes buf (len - 4))) (fnv1a (bytes buf' (len - 4))) := by
  rw [ne_eq, checksum_eq_iff hpos hmul h, not_or, Nat.not_le]

/-- The buffer whose first bytes are these, with zeros behind them. -/
def padded (l : List (BitVec 8)) : Buffer := fun k => l.getD k 0

theorem firstByte_differs : DifferAt (padded [1]) (padded []) 8 0 where
  inside := by decide
  differ := by decide
  same k _ hk := by
    cases k with
    | zero => exact absurd rfl hk
    | succ k => rfl

theorem firstByte_seen : checksum (padded [1]) 8 ≠ checksum (padded []) 8 :=
  (checksum_sees_iff (by decide) (by decide) firstByte_differs).mpr
    ⟨by decide, by unfold Collide; decide +kernel⟩

/-- The only word of a buffer is not hashed; and of two words, the first ones can collide. -/
theorem lastWord_not_seen :
    (DifferAt (padded [1]) (padded []) 4 0 ∧
      checksum (padded [1]) 4 = checksum (padded []) 4) ∧
    DifferAt (padded [60, 118, 217]) (padded [60, 118, 217, 145]) 8 3 ∧
      checksum (padded [60, 118, 217]) 8 = checksum (padded [60, 118, 217, 145]) 8 := by
  have hone : DifferAt (padded [1]) (padded []) 4 0 :=
    ⟨by decide, by decide, fun k hk => firstByte_differs.same k (by omega)⟩
  have hfour : DifferAt (padded [60, 118, 217]) (padded [60, 118, 217, 145]) 8 3 := by
    refine ⟨by decide, by decide, fun k hk hne => ?_⟩
    interval_cases k <;> first | rfl | exact absurd rfl hne
  refine ⟨⟨hone, (checksum_eq_iff (by decide) (by decide) hone).mpr (.inl (by decide))⟩, hfour, ?_⟩
  refine (checksum_eq_iff (by decide) (by decide) hfour).mpr (.inr ?_)
  unfold Collide
  decide +kernel

end Riscv32Cpu.Microbench.Checksum
