/- module: Riscv32Cpu/Microbench/Alloc
   source: CODE/am-kernels/benchmarks/microbench/src/bench.c,
     abstract-machine/klib/include/klib-macros.h
   digest: The allocator of microbench: blocks laid one behind the other, and sizes that wrap. -/

import Mathlib.Algebra.BigOperators.Group.List.Basic
import Riscv32Cpu.Lib.Align
import Riscv32Cpu.Lib.Memory
import Riscv32Cpu.Lib.Trace

set_option autoImplicit false
set_option relaxedAutoImplicit false

namespace Riscv32Cpu.Microbench.Alloc

open Lib.Align Lib.Memory Lib.Trace

/-- A pointer, a `size_t` and an `unsigned long` have `w` bits. -/
abbrev Word (w : Nat) := BitVec w

variable {w : Nat}

def roundup (a sz : Word w) : Word w := (a + sz - 1) &&& ~~~(sz - 1)

/-- `heap`, and `setting->mlim`. -/
structure Config (w : Nat) where
  start : Word w
  last : Word w
  mlim : Word w

/-- `hbrk` and the memory. -/
structure State (w : Nat) where
  hbrk : Word w
  mem : Mem w

inductive Stop
  | assert
  | unfinished

def benchReset (cfg : Config w) (mem : Mem w) : State w := ⟨roundup cfg.start 8, mem⟩

/-- The loop that writes zeros, of eight bytes each. -/
def zeroLoop (hbrk : Word w) : Nat → Word w → Mem w → Except Stop (Mem w)
  | 0, _, _ => .error .unfinished
  | fuel + 1, p, mem =>
    if p ≠ hbrk then zeroLoop hbrk fuel (p + 8) (overlay mem p 8 fun _ => 0) else .ok mem

/-- The pointer that is returned, and the state afterwards. -/
def benchAlloc (cfg : Config w) (fuel : Nat) (size : Word w) (s : State w) :
    Except Stop (Word w × State w) := do
  let size := roundup size 8
  let old := s.hbrk
  let hbrk := s.hbrk + size
  if cfg.start ≤ hbrk ∧ hbrk < cfg.last then
    let mem ← zeroLoop hbrk fuel old s.mem
    if hbrk - cfg.start ≤ cfg.mlim then return (old, ⟨hbrk, mem⟩) else throw .assert
  else throw .assert

/-- What was asked for, and where it is. -/
structure Block (w : Nat) where
  addr : Word w
  size : Word w

/-- The state, and the blocks returned since the reset. -/
structure History (w : Nat) where
  state : State w
  blocks : List (Block w)

def start (cfg : Config w) (mem : Mem w) : History w := ⟨benchReset cfg mem, []⟩

/-- A call of `bench_alloc` that returns. -/
def step (cfg : Config w) (fuel : Nat) (size : Word w) (h : History w) : Option (History w) :=
  match benchAlloc cfg fuel size h.state with
  | .ok (p, s) => some ⟨s, h.blocks ++ [⟨p, size⟩]⟩
  | .error _ => none

/-- The address is one of the block's. -/
def Block.Holds (b : Block w) (a : Nat) : Prop :=
  b.addr.toNat ≤ a ∧ a < b.addr.toNat + b.size.toNat

def total (blocks : List (Block w)) : Nat := (blocks.map fun b => b.size.toNat).sum

/-- A block as it should be, behind some others. -/
structure Block.Sound (cfg : Config w) (blocks : List (Block w)) (b : Block w) (mem : Mem w) :
    Prop where
  aligned : b.addr.toNat % 8 = 0
  first : cfg.start.toNat ≤ b.addr.toNat
  last : b.addr.toNat + b.size.toNat ≤ cfg.last.toNat
  zeroed : ∀ a, b.Holds a → mem (BitVec.ofNat w a) = 0
  apart : ∀ c ∈ blocks, ∀ a, ¬(b.Holds a ∧ c.Holds a)
  total : total (blocks ++ [b]) ≤ cfg.mlim.toNat

/-- The call fails an assertion, or it returns a block as it should be. -/
def Right (cfg : Config w) (fuel : Nat) (size : Word w) (h : History w) : Prop :=
  benchAlloc cfg fuel size h.state = .error .assert ∨
    ∃ p s, benchAlloc cfg fuel size h.state = .ok (p, s) ∧
      Block.Sound cfg h.blocks ⟨p, size⟩ s.mem

/-- The size rounded up, as a number. -/
def rounded (size : Word w) : Nat := (size.toNat + 7) / 8 * 8

/-- The assertions hold of this break. -/
def Passes (cfg : Config w) (hbrk : Word w) : Prop :=
  (cfg.start ≤ hbrk ∧ hbrk < cfg.last) ∧ hbrk - cfg.start ≤ cfg.mlim

instance (cfg : Config w) (hbrk : Word w) : Decidable (Passes cfg hbrk) :=
  inferInstanceAs (Decidable (_ ∧ _))

/-- The break does not go past the end of the address space, or it is found out. -/
def NoWrap (cfg : Config w) (size : Word w) (h : History w) : Prop :=
  h.state.hbrk.toNat + rounded size < 2 ^ w ∨ ¬Passes cfg (h.state.hbrk + roundup size 8)

theorem exists_units (hw : 4 ≤ w) : ∃ m, 2 ^ w = 8 * m ∧ 2 ≤ m := by
  refine ⟨2 ^ (w - 3), ?_, ?_⟩
  · have hsplit : w = 3 + (w - 3) := by omega
    conv_lhs => rw [hsplit, Nat.pow_add]
  · exact Nat.le_self_pow (by omega) 2

theorem toNat_small (hw : 4 ≤ w) {n : Nat} (hn : n < 16) : (BitVec.ofNat w n).toNat = n := by
  obtain ⟨m, hm, hlow⟩ := exists_units hw
  rw [BitVec.toNat_ofNat, Nat.mod_eq_of_lt (by omega)]

/-- As a word, what is rounded past the end of the address space wraps. -/
theorem toNat_roundup (hw : 4 ≤ w) (a : Word w) : (roundup a 8).toNat = rounded a % 2 ^ w := by
  obtain ⟨m, hm, hlow⟩ := exists_units hw
  have hmask : (8 - 1 : Word w) = BitVec.ofNat w (2 ^ 3 - 1) := by
    show BitVec.ofNat w (7 + 1) - BitVec.ofNat w 1 = BitVec.ofNat w 7
    rw [BitVec.ofNat_add, add_sub_cancel_right]
  have hseven : (BitVec.ofNat w (2 ^ 3 - 1)).toNat = 7 := toNat_small hw (by decide)
  have hlt := a.isLt
  rw [roundup, add_sub_assoc, hmask, toNat_and_not_mask, BitVec.toNat_add, hseven, hm, rounded]
  rw [hm] at hlt
  by_cases hwrap : a.toNat + 7 < 8 * m
  · rw [Nat.mod_eq_of_lt hwrap, Nat.mod_eq_of_lt (by omega)]
    rfl
  · have hover : (a.toNat + 7) / 8 * 8 = 8 * m := by omega
    have hsmall : a.toNat + 7 - 8 * m < 8 * m := by omega
    rw [hover, Nat.mod_self, Nat.mod_eq_sub_mod (Nat.not_lt.mp hwrap), Nat.mod_eq_of_lt hsmall]
    omega

theorem roundup_units (hw : 4 ≤ w) (a : Word w) : ∃ k, (roundup a 8).toNat = 8 * k := by
  obtain ⟨m, hm, -⟩ := exists_units hw
  refine ⟨(a.toNat + 7) / 8 % m, ?_⟩
  rw [toNat_roundup hw, rounded, hm, Nat.mul_comm _ 8, Nat.mul_mod_mul_left]

theorem le_rounded (a : Word w) : a.toNat ≤ rounded a := by
  unfold rounded
  omega

theorem zeroLoop_ok {k : Nat} (hk : 8 * k < 2 ^ w) {fuel : Nat} (hfuel : k < fuel)
    (p : Word w) (mem : Mem w) :
    zeroLoop (p + BitVec.ofNat w (8 * k)) fuel p mem =
      .ok (overlay mem p (8 * k) fun _ => 0) := by
  induction k generalizing fuel p mem with
  | zero =>
    obtain ⟨fuel, rfl⟩ := Nat.exists_eq_add_of_lt hfuel
    rw [zeroLoop, Nat.mul_zero, overlay_zero]
    exact if_neg (not_not_intro (BitVec.add_zero p).symm)
  | succ k ih =>
    obtain ⟨fuel, rfl⟩ : ∃ n, fuel = n + 1 := ⟨fuel - 1, by omega⟩
    have hne : p ≠ p + BitVec.ofNat w (8 * (k + 1)) := by
      intro heq
      have hoff := toNat_add_sub p hk
      have hzero : (0 : Word w).toNat = 0 := BitVec.toNat_zero
      rw [← heq, sub_self, hzero] at hoff
      omega
    have hnext : p + BitVec.ofNat w (8 * (k + 1)) = p + 8 + BitVec.ofNat w (8 * k) := by
      rw [Nat.mul_succ, Nat.add_comm, BitVec.ofNat_add, BitVec.add_assoc]
      rfl
    have hjoin := overlay_append mem p (fun _ => 0) (by omega : 8 + 8 * k ≤ 2 ^ w)
    rw [zeroLoop, if_pos hne, hnext, ih (by omega) (by omega), Nat.mul_succ, Nat.add_comm _ 8]
    exact congrArg _ hjoin

variable {cfg : Config w} {fuel : Nat} {size : Word w} {s : State w}

theorem benchAlloc_loop (hw : 4 ≤ w) (hfuel : 2 ^ w ≤ fuel) (s : State w) (size : Word w) :
    zeroLoop (s.hbrk + roundup size 8) fuel s.hbrk s.mem =
      .ok (overlay s.mem s.hbrk (roundup size 8).toNat fun _ => 0) := by
  obtain ⟨k, hk⟩ := roundup_units hw size
  have hlt := (roundup size 8).isLt
  have hsize : roundup size 8 = BitVec.ofNat w (8 * k) := by
    rw [← hk, BitVec.ofNat_toNat, BitVec.setWidth_eq]
  rw [hk, hsize]
  exact zeroLoop_ok (by omega) (by omega) _ _

theorem benchAlloc_fails (hw : 4 ≤ w) (hfuel : 2 ^ w ≤ fuel)
    (h : ¬Passes cfg (s.hbrk + roundup size 8)) :
    benchAlloc cfg fuel size s = .error .assert := by
  rw [benchAlloc, benchAlloc_loop hw hfuel]
  split
  · next hin => exact if_neg fun hlim => h ⟨hin, hlim⟩
  · rfl

theorem benchAlloc_passes (hw : 4 ≤ w) (hfuel : 2 ^ w ≤ fuel)
    (h : Passes cfg (s.hbrk + roundup size 8)) :
    benchAlloc cfg fuel size s = .ok (s.hbrk, ⟨s.hbrk + roundup size 8,
      overlay s.mem s.hbrk (roundup size 8).toNat fun _ => 0⟩) := by
  rw [benchAlloc, benchAlloc_loop hw hfuel, if_pos h.1]
  exact if_pos h.2

/-- Where the break is. Rounding the start of the heap may leave the address space; nothing can be
allocated then. -/
structure Inv (cfg : Config w) (h : History w) : Prop where
  aligned : h.state.hbrk.toNat % 8 = 0
  room : cfg.start.toNat + total h.blocks ≤ h.state.hbrk.toNat ∨
    h.state.hbrk.toNat = 0 ∧ 2 ^ w < cfg.start.toNat + 8
  below : ∀ b ∈ h.blocks, ∀ a, b.Holds a → a < h.state.hbrk.toNat

theorem inv_start (hw : 4 ≤ w) (cfg : Config w) (mem : Mem w) : Inv cfg (start cfg mem) where
  aligned := by
    obtain ⟨k, hk⟩ := roundup_units hw cfg.start
    show (roundup cfg.start 8).toNat % 8 = 0
    omega
  room := by
    obtain ⟨m, hm, -⟩ := exists_units hw
    show _ ≤ (roundup cfg.start 8).toNat ∨ (roundup cfg.start 8).toNat = 0 ∧ _
    have hlt := cfg.start.isLt
    have hle := le_rounded cfg.start
    rw [toNat_roundup hw]
    by_cases hwrap : rounded cfg.start < 2 ^ w
    · rw [Nat.mod_eq_of_lt hwrap]
      exact .inl hle
    · have hover : rounded cfg.start = 2 ^ w := by
        unfold rounded at hwrap ⊢
        omega
      refine .inr ⟨by rw [hover, Nat.mod_self], ?_⟩
      unfold rounded at hover
      omega
  below := by
    intro b hb
    cases hb

variable {h t : History w}

theorem toNat_break (hw : 4 ≤ w) (hroom : h.state.hbrk.toNat + rounded size < 2 ^ w) :
    (h.state.hbrk + roundup size 8).toNat = h.state.hbrk.toNat + rounded size := by
  rw [BitVec.toNat_add, toNat_roundup hw, Nat.add_mod_mod, Nat.mod_eq_of_lt hroom]

theorem Inv.room_of_passes (hi : Inv cfg h) (hw : 4 ≤ w)
    (hroom : h.state.hbrk.toNat + rounded size < 2 ^ w)
    (hpass : Passes cfg (h.state.hbrk + roundup size 8)) :
    cfg.start.toNat + total h.blocks ≤ h.state.hbrk.toNat := by
  refine hi.room.resolve_right fun ⟨hzero, hstart⟩ => ?_
  obtain ⟨m, hm, -⟩ := exists_units hw
  have hfirst : cfg.start.toNat ≤ _ := hpass.1.1
  rw [toNat_break hw hroom] at hfirst
  unfold rounded at hroom hfirst
  omega

theorem total_append (blocks : List (Block w)) (b : Block w) :
    total (blocks ++ [b]) = total blocks + b.size.toNat := by
  rw [total, List.map_append, List.sum_append, List.map_singleton, List.sum_singleton]
  rfl

theorem Inv.sound (hi : Inv cfg h) (hw : 4 ≤ w)
    (hroom : h.state.hbrk.toNat + rounded size < 2 ^ w)
    (hpass : Passes cfg (h.state.hbrk + roundup size 8)) :
    Block.Sound cfg h.blocks ⟨h.state.hbrk, size⟩
      (overlay h.state.mem h.state.hbrk (roundup size 8).toNat fun _ => 0) := by
  have hbehind := hi.room_of_passes hw hroom hpass
  have hbreak := toNat_break hw hroom
  have hfit := le_rounded size
  have hlast : (h.state.hbrk + roundup size 8).toNat < cfg.last.toNat := hpass.1.2
  have hsize : (roundup size 8).toNat = rounded size := by
    rw [toNat_roundup hw, Nat.mod_eq_of_lt (by omega)]
  constructor
  case aligned => exact hi.aligned
  case first =>
    show cfg.start.toNat ≤ h.state.hbrk.toNat
    omega
  case last =>
    show h.state.hbrk.toNat + size.toNat ≤ cfg.last.toNat
    omega
  case zeroed =>
    rintro a ⟨hlow, hhigh⟩
    simp only at hlow hhigh
    have hword : h.state.hbrk = BitVec.ofNat w h.state.hbrk.toNat := by
      rw [BitVec.ofNat_toNat, BitVec.setWidth_eq]
    rw [hsize, hword, overlay_ofNat _ _ (by omega) (by omega), if_pos (by omega)]
  case apart =>
    rintro c hc a ⟨hb, hholds⟩
    exact absurd (hi.below c hc a hholds) (Nat.not_lt.mpr hb.1)
  case total =>
    have hlim : ((h.state.hbrk + roundup size 8) - cfg.start).toNat ≤ cfg.mlim.toNat := hpass.2
    rw [BitVec.toNat_sub_of_le (BitVec.le_def.mpr (by omega)), hbreak] at hlim
    rw [total_append]
    show total h.blocks + size.toNat ≤ cfg.mlim.toNat
    omega

theorem Inv.right (hi : Inv cfg h) (hw : 4 ≤ w) (hfuel : 2 ^ w ≤ fuel)
    (hwrap : NoWrap cfg size h) : Right cfg fuel size h := by
  by_cases hpass : Passes cfg (h.state.hbrk + roundup size 8)
  · have hroom := hwrap.resolve_right (not_not_intro hpass)
    exact .inr ⟨_, _, benchAlloc_passes hw hfuel hpass, hi.sound hw hroom hpass⟩
  · exact .inl (benchAlloc_fails hw hfuel hpass)

theorem Inv.step (hi : Inv cfg h) (hw : 4 ≤ w) (hfuel : 2 ^ w ≤ fuel)
    (hwrap : NoWrap cfg size h) (ht : step cfg fuel size h = some t) : Inv cfg t := by
  by_cases hpass : Passes cfg (h.state.hbrk + roundup size 8)
  · have hroom := hwrap.resolve_right (not_not_intro hpass)
    have hbehind := hi.room_of_passes hw hroom hpass
    have hbreak := toNat_break hw hroom
    have hfit := le_rounded size
    rw [Alloc.step, benchAlloc_passes hw hfuel hpass] at ht
    cases ht
    constructor
    case aligned =>
      have hal := hi.aligned
      show (h.state.hbrk + roundup size 8).toNat % 8 = 0
      rw [hbreak, rounded]
      omega
    case room =>
      refine .inl ?_
      rw [total_append]
      show cfg.start.toNat + (total h.blocks + size.toNat) ≤ (h.state.hbrk + roundup size 8).toNat
      omega
    case below =>
      intro b hb a hholds
      show a < (h.state.hbrk + roundup size 8).toNat
      rcases List.mem_append.mp hb with hold | hnew
      · have := hi.below b hold a hholds
        omega
      · cases List.mem_singleton.mp hnew
        have hhigh : a < h.state.hbrk.toNat + size.toNat := hholds.2
        omega
  · rw [Alloc.step, benchAlloc_fails hw hfuel hpass] at ht
    cases ht

/-- Where no break wraps unnoticed, every call of every run fails an assertion or returns a block
of its own, zeroed, of the size asked for. -/
theorem benchAlloc_along (hw : 4 ≤ w) (hfuel : 2 ^ w ≤ fuel) (cfg : Config w) (mem : Mem w)
    (sizes : List (Word w))
    (hok : Along (step cfg fuel) (NoWrap cfg) sizes (start cfg mem)) :
    Along (step cfg fuel) (Right cfg fuel) sizes (start cfg mem) := by
  have hi := inv_start hw cfg mem
  generalize start cfg mem = h at hi hok ⊢
  induction sizes generalizing h with
  | nil => trivial
  | cons size sizes ih =>
    refine ⟨hi.right hw hfuel hok.1, ?_⟩
    cases ht : Alloc.step cfg fuel size h with
    | none => trivial
    | some t => exact ih t (hi.step hw hfuel hok.1 ht) (hok.tail ht)

/-- A heap of a page, all of it for one benchmark. -/
def page : Config 32 := ⟨0x1000, 0x2000, 0x1000⟩

/-- Twenty bytes, and four more behind them. -/
theorem twenty_four_right : Along (step page (2 ^ 32)) (Right page (2 ^ 32)) [20, 4]
    (start page fun _ => 1) := by
  refine benchAlloc_along (by decide) le_rfl page _ _ ⟨.inl (by decide), ?_⟩
  rw [step, benchAlloc_passes (by decide) le_rfl (by decide)]
  refine ⟨.inl (by decide), ?_⟩
  split <;> trivial

/-- The largest size is rounded up to nothing, and the heap's first byte is returned for it. -/
theorem largest_not_right : ¬Along (step page (2 ^ 32)) (Right page (2 ^ 32)) [0xffffffff]
    (start page fun _ => 1) := by
  rintro ⟨hright, -⟩
  have hpass : Passes page ((benchReset page fun _ => 1).hbrk + roundup 0xffffffff 8) := by decide
  have hok := benchAlloc_passes (by decide) (le_refl (2 ^ 32)) hpass
  rcases hright with herr | ⟨p, s, hret, hsound⟩
  · cases hok.symm.trans herr
  · cases hok.symm.trans hret
    exact absurd hsound.last (by decide)

end Riscv32Cpu.Microbench.Alloc
