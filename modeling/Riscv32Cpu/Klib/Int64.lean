/- module: Riscv32Cpu/Klib/Int64
   source: CODE/abstract-machine/klib/src/int64.c
   digest: Division of 64-bit integers on 32-bit words, and the bits it counts. -/

import Mathlib.Data.BitVec
import Mathlib.Algebra.Ring.Int.Defs
import Riscv32Cpu.Lib.Division

set_option autoImplicit false
set_option relaxedAutoImplicit false

namespace Riscv32Cpu.Klib.Int64

open Lib.Division

abbrev su_int := BitVec 32
abbrev du_int := BitVec 64

structure udwords where
  low : su_int
  high : su_int

namespace udwords

def ofAll (a : du_int) : udwords := ⟨a.setWidth 32, (a >>> 32).setWidth 32⟩

def all (x : udwords) : du_int := x.high ++ x.low

end udwords

/-! What the language leaves undefined is `none`: a division by zero, a shift by the width of the
word or more, and the bits of zero. -/

def shl (x n : su_int) : Option su_int := if n.toNat < 32 then some (x <<< n.toNat) else none

def shr (x n : su_int) : Option su_int := if n.toNat < 32 then some (x >>> n.toNat) else none

def quot (x y : su_int) : Option su_int := if y = 0 then none else some (x / y)

def rem (x y : su_int) : Option su_int := if y = 0 then none else some (x % y)

def builtin_clz (x : su_int) : Option su_int := if x = 0 then none else some x.clz

def builtin_ctz (x : su_int) : Option su_int := if x = 0 then none else some x.ctz

/-- The variables of the loop of `__udivmoddi4`. -/
structure Register where
  q : udwords
  r : udwords
  carry : su_int

namespace Register

/-- The body of the loop. -/
def body (d : du_int) (x : Register) : Register :=
  let r : udwords :=
    ⟨(x.r.low <<< 1) ||| (x.q.high >>> 31), (x.r.high <<< 1) ||| (x.r.low >>> 31)⟩
  let q : udwords := ⟨(x.q.low <<< 1) ||| x.carry, (x.q.high <<< 1) ||| (x.q.low >>> 31)⟩
  let s := (d - r.all - 1).sshiftRight 63
  { q, r := .ofAll (r.all - (d &&& s)), carry := (s &&& 1).setWidth 32 }

/-- `for (; sr > 0; --sr)`. -/
def loop (d : du_int) : Nat → Register → Register
  | 0, x => x
  | sr + 1, x => loop d sr (x.body d)

/-- From the loop on: the quotient and the remainder. -/
def finish (d : udwords) (sr : su_int) (q r : udwords) : du_int × du_int :=
  let x := loop d.all sr.toNat ⟨q, r, 0⟩
  ((x.q.all <<< 1) ||| x.carry.setWidth 64, x.r.all)

end Register

/-- `q.all = n.all << (64 - sr)` and `r.all = n.all >> sr`, for `1 ≤ sr ≤ 31`. -/
def shifted (n : udwords) (sr : su_int) : Option (udwords × udwords) := do
  return (⟨0, ← shl n.low (32 - sr)⟩,
    ⟨(← shl n.high (32 - sr)) ||| (← shr n.low sr), ← shr n.high sr⟩)

/-- `__udivmoddi4`: what it returns, and what it stores where `rem` is not null. -/
def udivmoddi4 (a b : du_int) : Option (du_int × du_int) :=
  let n := udwords.ofAll a
  let d := udwords.ofAll b
  if n.high = 0 then
    if d.high = 0 then do
      return ((← quot n.low d.low).setWidth 64, (← rem n.low d.low).setWidth 64)
    else some (0, n.low.setWidth 64)
  else if d.low = 0 then
    if d.high = 0 then do
      return ((← quot n.high d.low).setWidth 64, (← rem n.high d.low).setWidth 64)
    else if n.low = 0 then do
      return ((← quot n.high d.high).setWidth 64, udwords.all ⟨0, ← rem n.high d.high⟩)
    else if d.high &&& (d.high - 1) = 0 then do
      return ((← shr n.high (← builtin_ctz d.high)).setWidth 64,
        udwords.all ⟨n.low, n.high &&& (d.high - 1)⟩)
    else do
      let sr := (← builtin_clz d.high) - (← builtin_clz n.high)
      if sr.toNat > 30 then return (0, n.all)
      else
        let (q, r) ← shifted n (sr + 1)
        return Register.finish d (sr + 1) q r
  else if d.high = 0 then
    if d.low &&& (d.low - 1) = 0 then
      let rem := (n.low &&& (d.low - 1)).setWidth 64
      if d.low = 1 then some (n.all, rem)
      else do
        let sr ← builtin_ctz d.low
        let q : udwords := ⟨(← shl n.high (32 - sr)) ||| (← shr n.low sr), ← shr n.high sr⟩
        return (q.all, rem)
    else do
      let sr := 1 + 32 + (← builtin_clz d.low) - (← builtin_clz n.high)
      if sr = 32 then return Register.finish d sr ⟨0, n.low⟩ ⟨n.high, 0⟩
      else if sr.toNat < 32 then
        let (q, r) ← shifted n sr
        return Register.finish d sr q r
      else
        let q : udwords :=
          ⟨← shl n.low (64 - sr), (← shl n.high (64 - sr)) ||| (← shr n.low (sr - 32))⟩
        let r : udwords := ⟨← shr n.high (sr - 32), 0⟩
        return Register.finish d sr q r
  else do
    let sr := (← builtin_clz d.high) - (← builtin_clz n.high)
    if sr.toNat > 31 then return (0, n.all)
    else if sr + 1 = 32 then return Register.finish d (sr + 1) ⟨0, n.low⟩ ⟨n.high, 0⟩
    else
      let (q, r) ← shifted n (sr + 1)
      return Register.finish d (sr + 1) q r

def divdi3 (a b : du_int) : Option du_int :=
  let s_a := a.sshiftRight 63
  let s_b := b.sshiftRight 63
  let a := (a ^^^ s_a) - s_a
  let b := (b ^^^ s_b) - s_b
  let s_a := s_a ^^^ s_b
  (udivmoddi4 a b).map fun x => (x.1 ^^^ s_a) - s_a

/-- What is returned, and `*rem`. -/
def divmoddi4 (a b : du_int) : Option (du_int × du_int) :=
  (divdi3 a b).map fun d => (d, a - d * b)

def moddi3 (a b : du_int) : Option du_int :=
  let s := b.sshiftRight 63
  let b := (b ^^^ s) - s
  let s := a.sshiftRight 63
  let a := (a ^^^ s) - s
  (udivmoddi4 a b).map fun x => (x.2 ^^^ s) - s

def udivdi3 (a b : du_int) : Option du_int := (udivmoddi4 a b).map Prod.fst

def umoddi3 (a b : du_int) : Option du_int := (udivmoddi4 a b).map Prod.snd

/-- The value of a comparison. -/
def ofBool (b : Bool) : su_int := if b then 1 else 0

def clzsi2 (a : su_int) : su_int :=
  let x := a
  let t := ofBool (x &&& 0xFFFF0000 == 0) <<< 4
  let x := x >>> (16 - t)
  let r := t
  let t := ofBool (x &&& 0xFF00 == 0) <<< 3
  let x := x >>> (8 - t)
  let r := r + t
  let t := ofBool (x &&& 0xF0 == 0) <<< 2
  let x := x >>> (4 - t)
  let r := r + t
  let t := ofBool (x &&& 0xC == 0) <<< 1
  let x := x >>> (2 - t)
  let r := r + t
  r + ((2 - x) &&& -ofBool (x &&& 2 == 0))

def ctzsi2 (a : su_int) : su_int :=
  let x := a
  let t := ofBool (x &&& 0x0000FFFF == 0) <<< 4
  let x := x >>> t
  let r := t
  let t := ofBool (x &&& 0x00FF == 0) <<< 3
  let x := x >>> t
  let r := r + t
  let t := ofBool (x &&& 0x0F == 0) <<< 2
  let x := x >>> t
  let r := r + t
  let t := ofBool (x &&& 0x3 == 0) <<< 1
  let x := x >>> t
  let x := x &&& 3
  let r := r + t
  r + ((2 - (x >>> 1)) &&& -ofBool (x &&& 1 == 0))

def ctzdi2 (a : du_int) : su_int :=
  let x := udwords.ofAll a
  let f := -ofBool (x.low == 0)
  ctzsi2 ((x.high &&& f) ||| (x.low &&& ~~~f)) + (f &&& 32)

def clzdi2 (a : du_int) : su_int :=
  let x := udwords.ofAll a
  let f := -ofBool (x.high == 0)
  clzsi2 ((x.high &&& ~~~f) ||| (x.low &&& f)) + (f &&& 32)

/-! ## Words -/

theorem toNat_shiftLeft_or {k : Nat} (x c : BitVec (k + 1)) (hc : c.toNat ≤ 1) :
    ((x <<< 1) ||| c).toNat = 2 * x.toNat % 2 ^ (k + 1) + c.toNat := by
  have heven : x.toNat <<< 1 % 2 ^ (k + 1) = (x.toNat % 2 ^ k) <<< 1 := by
    rw [Nat.shiftLeft_eq, Nat.shiftLeft_eq, pow_one, Nat.pow_succ, Nat.mul_mod_mul_right]
  rw [BitVec.toNat_or, BitVec.toNat_shiftLeft, heven,
    ← Nat.shiftLeft_add_eq_or_of_lt (by omega), ← heven, Nat.shiftLeft_eq, pow_one, Nat.mul_comm]

namespace udwords

theorem toNat_all (x : udwords) : x.all.toNat = x.high.toNat * 2 ^ 32 + x.low.toNat := by
  rw [all, BitVec.toNat_append, Nat.shiftLeft_eq, ← Nat.shiftLeft_eq,
    ← Nat.shiftLeft_add_eq_or_of_lt x.low.isLt, Nat.shiftLeft_eq]

theorem all_ofAll (a : du_int) : (ofAll a).all = a := by
  apply BitVec.eq_of_toNat_eq
  rw [toNat_all, ofAll, BitVec.toNat_setWidth, BitVec.toNat_setWidth, BitVec.toNat_ushiftRight,
    Nat.shiftRight_eq_div_pow]
  have ha := a.isLt
  omega

theorem all_shiftLeft_one (x : udwords) {c : su_int} (hc : c.toNat ≤ 1) :
    (all ⟨(x.low <<< 1) ||| c, (x.high <<< 1) ||| (x.low >>> 31)⟩).toNat =
      (2 * x.all.toNat + c.toNat) % 2 ^ 64 := by
  have htop : (x.low >>> 31).toNat = x.low.toNat / 2 ^ 31 := by
    rw [BitVec.toNat_ushiftRight, Nat.shiftRight_eq_div_pow]
  have hl := x.low.isLt
  have hh := x.high.isLt
  rw [toNat_all, toNat_all, toNat_shiftLeft_or _ _ hc, toNat_shiftLeft_or _ _ (by omega), htop]
  omega

theorem toNat_top (x : udwords) : (x.high >>> 31).toNat = x.all.toNat / 2 ^ 63 := by
  rw [toNat_all, BitVec.toNat_ushiftRight, Nat.shiftRight_eq_div_pow]
  have hl := x.low.isLt
  omega

end udwords

theorem sshiftRight_top (x : du_int) :
    x.sshiftRight 63 = if x.msb then BitVec.allOnes 64 else 0#64 := by
  apply BitVec.eq_of_getLsbD_eq
  intro i hi
  have hsign : (if 63 + i < 64 then x.getLsbD (63 + i) else x.msb) = x.msb := by
    split
    · obtain rfl : i = 0 := by omega
      rfl
    · rfl
  rw [BitVec.getLsbD_sshiftRight, hsign]
  cases x.msb with
  | false => simp
  | true =>
    rw [if_pos rfl, BitVec.getLsbD_allOnes]
    simp [hi]

theorem sign_of_sub {d r : du_int} (h : d.toNat ≤ 2 ^ 63 ∨ 2 ^ 63 ≤ r.toNat)
    (hr : r.toNat < 2 * d.toNat) :
    (d - r - 1).sshiftRight 63 = if d.toNat ≤ r.toNat then BitVec.allOnes 64 else 0#64 := by
  have hd := d.isLt
  have hr' := r.isLt
  have hone : (1 : du_int).toNat = 1 := rfl
  have hmsb : (d - r - 1).msb = decide (d.toNat ≤ r.toNat) := by
    rw [BitVec.msb_eq_decide, BitVec.toNat_sub, BitVec.toNat_sub, hone, decide_eq_decide]
    omega
  rw [sshiftRight_top, hmsb]
  simp

/-! ## The loop -/

namespace Register

variable {d : du_int} {x : Register}

theorem body_spec (hc : x.carry.toNat ≤ 1) {r : Nat}
    (hr : 2 * x.r.all.toNat + x.q.all.toNat / 2 ^ 63 = r) (hfit : r < 2 ^ 64)
    (hlt : r < 2 * d.toNat) (hsign : d.toNat ≤ 2 ^ 63 ∨ 2 ^ 63 ≤ r) :
    (x.body d).q.all.toNat = (2 * x.q.all.toNat + x.carry.toNat) % 2 ^ 64 ∧
      (x.body d).carry.toNat = (if d.toNat ≤ r then 1 else 0) ∧
      (x.body d).r.all.toNat = if d.toNat ≤ r then r - d.toNat else r := by
  have hbit : (x.q.high >>> 31).toNat ≤ 1 := by
    rw [udwords.toNat_top]
    have hq := x.q.all.isLt
    omega
  have hr' : (udwords.all ⟨(x.r.low <<< 1) ||| (x.q.high >>> 31),
      (x.r.high <<< 1) ||| (x.r.low >>> 31)⟩).toNat = r := by
    rw [udwords.all_shiftLeft_one _ hbit, udwords.toNat_top, hr, Nat.mod_eq_of_lt hfit]
  refine ⟨udwords.all_shiftLeft_one _ hc, ?_, ?_⟩
  · unfold body
    dsimp only
    rw [sign_of_sub (by rwa [hr']) (by rwa [hr']), hr']
    split <;> rfl
  · unfold body
    dsimp only
    rw [udwords.all_ofAll, sign_of_sub (by rwa [hr']) (by rwa [hr']), hr']
    split
    · next hle =>
      rw [BitVec.and_allOnes, BitVec.toNat_sub_of_le (by rwa [BitVec.le_def, hr']), hr']
    · rw [BitVec.and_zero, BitVec.sub_zero, hr']

/-- What holds of the register with `s` steps to go: the low `s` bits of `n` on top of the bits
of the quotient. -/
structure Dividing (n d s : Nat) (x : Register) (quotient : Nat) : Prop where
  carry : x.carry.toNat ≤ 1
  bits : quotient = 2 * (x.q.all.toNat % 2 ^ (64 - s)) + x.carry.toNat
  low : x.q.all.toNat / 2 ^ (64 - s) = n % 2 ^ s
  divided : BroughtDown n d s quotient x.r.all.toNat

namespace Dividing

variable {n s quotient : Nat}

theorem top (h : Dividing n d.toNat (s + 1) x quotient) (hs : s + 1 ≤ 63) :
    x.q.all.toNat / 2 ^ 63 = n / 2 ^ s % 2 := by
  have hpow : 2 ^ 63 = 2 ^ (64 - (s + 1)) * 2 ^ s := by
    rw [← Nat.pow_add]
    congr 1
    omega
  rw [hpow, ← Nat.div_div_eq_div_mul, h.low, Nat.pow_succ, Nat.mod_mul_right_div_self]

theorem shift {c : Nat} {q : Nat} (hc : c ≤ 1) (hs : s + 1 ≤ 63) :
    (2 * q + c) % 2 ^ 64 % 2 ^ (64 - s) = 2 * (q % 2 ^ (64 - (s + 1))) + c ∧
      (2 * q + c) % 2 ^ 64 / 2 ^ (64 - s) = q / 2 ^ (64 - (s + 1)) % 2 ^ s := by
  have hmod : (2 * q + c) % 2 = c := by omega
  have hdiv : (2 * q + c) / 2 = q := by omega
  have hsplit : 2 ^ (64 - s) = 2 * 2 ^ (64 - (s + 1)) := by
    rw [← Nat.pow_succ']
    congr 1
    omega
  have hpow : 2 ^ 64 = 2 ^ (64 - s) * 2 ^ s := by
    rw [← Nat.pow_add]
    congr 1
    omega
  constructor
  · rw [Nat.mod_mod_of_dvd _ ⟨_, hpow⟩, hsplit, Nat.mod_mul, hmod, hdiv, Nat.add_comm]
  · rw [hpow, Nat.mod_mul_right_div_self, hsplit, ← Nat.div_div_eq_div_mul, hdiv]

theorem step (h : Dividing n d.toNat (s + 1) x quotient) (hn : n < 2 ^ 64) (hs : s + 1 ≤ 63)
    (hsign : d.toNat ≤ 2 ^ 63 ∨ 2 ^ 63 ≤ n / 2 ^ s) :
    ∃ quotient', Dividing n d.toNat s (x.body d) quotient' := by
  have hnext := h.divided.next
  have hrem := h.divided.rem
  have hle : n / 2 ^ s ≤ n := Nat.div_le_self ..
  -- a divisor with the sign bit has not been subtracted yet
  have hsign' : d.toNat ≤ 2 ^ 63 ∨ 2 ^ 63 ≤ 2 * x.r.all.toNat + n / 2 ^ s % 2 := by
    rcases hsign with hd | hd
    · exact .inl hd
    · rcases Nat.eq_zero_or_pos quotient with rfl | hpos
      · exact .inr (by omega)
      · have hmul : d.toNat ≤ quotient * d.toNat := Nat.le_mul_of_pos_left _ hpos
        rw [Nat.mul_assoc] at hnext
        exact .inl (by omega)
  obtain ⟨hq, hcarry, hr⟩ := body_spec (r := 2 * x.r.all.toNat + n / 2 ^ s % 2) h.carry
    (by rw [h.top hs]) (by omega) (by omega) hsign'
  obtain ⟨hmod, hdiv⟩ := shift (q := x.q.all.toNat) h.carry hs
  have hlow : x.q.all.toNat / 2 ^ (64 - (s + 1)) % 2 ^ s = n % 2 ^ s := by
    rw [h.low, Nat.pow_succ, Nat.mod_mul_right_mod]
  have hbits : quotient = (x.body d).q.all.toNat % 2 ^ (64 - s) := by rw [hq, hmod, h.bits]
  refine ⟨2 * quotient + (x.body d).carry.toNat, by rw [hcarry]; split <;> omega,
    by rw [← hbits], by rw [hq, hdiv, hlow], ?_⟩
  rw [hcarry, hr]
  by_cases hfits : d.toNat ≤ 2 * x.r.all.toNat + n / 2 ^ s % 2
  · rw [if_pos hfits, if_pos hfits]
    exact h.divided.subtract hfits
  · rw [if_neg hfits, if_neg hfits]
    exact h.divided.keep (Nat.not_le.mp hfits)

theorem run (h : Dividing n d.toNat s x quotient) (hn : n < 2 ^ 64) (hs : s ≤ 63)
    (hsign : d.toNat ≤ 2 ^ 63 ∨ 2 ^ 63 ≤ n / 2 ^ (s - 1)) :
    ∃ quotient', Dividing n d.toNat 0 (loop d s x) quotient' := by
  induction s generalizing x quotient with
  | zero => exact ⟨quotient, h⟩
  | succ s ih =>
    obtain ⟨quotient', h'⟩ := h.step hn hs hsign
    refine ih h' (by omega) (hsign.imp_right fun hd => hd.trans ?_)
    exact Nat.div_le_div_left (Nat.pow_le_pow_right (by omega) (by omega)) (Nat.two_pow_pos _)

end Dividing

theorem finish_spec {n d q r : udwords} {sr : su_int}
    (hq : q.all.toNat = n.all.toNat % 2 ^ sr.toNat * 2 ^ (64 - sr.toNat))
    (hr : r.all.toNat = n.all.toNat / 2 ^ sr.toNat) (hsr : sr.toNat ≤ 63)
    (hlt : n.all.toNat / 2 ^ sr.toNat < d.all.toNat)
    (hsign : d.all.toNat ≤ 2 ^ 63 ∨ 2 ^ 63 ≤ n.all.toNat / 2 ^ (sr.toNat - 1)) :
    finish d sr q r = (n.all / d.all, n.all % d.all) := by
  have hn := n.all.isLt
  have hpos := Nat.two_pow_pos (64 - sr.toNat)
  have hstart : Dividing n.all.toNat d.all.toNat sr.toNat ⟨q, r, 0⟩ 0 := by
    refine ⟨Nat.zero_le _, ?_, ?_, ?_⟩
    · rw [hq, Nat.mul_mod_left]
      rfl
    · rw [hq, Nat.mul_div_cancel _ hpos]
    · rw [hr]
      exact .start hlt
  obtain ⟨quotient, h⟩ := hstart.run hn hsr hsign
  obtain ⟨hquot, hrem⟩ := h.divided.done
  have hle : n.all.toNat / d.all.toNat ≤ n.all.toNat := Nat.div_le_self ..
  have hbits := h.bits
  have hcarry := h.carry
  have hone : ((loop d.all sr.toNat ⟨q, r, 0⟩).carry.setWidth 64).toNat =
      (loop d.all sr.toNat ⟨q, r, 0⟩).carry.toNat := by
    rw [BitVec.toNat_setWidth]
    omega
  rw [Nat.sub_zero, Nat.mod_eq_of_lt (BitVec.isLt _)] at hbits
  rw [finish, Prod.mk.injEq]
  refine ⟨BitVec.eq_of_toNat_eq ?_, BitVec.eq_of_toNat_eq ?_⟩
  · rw [toNat_shiftLeft_or _ _ (by omega), hone, BitVec.toNat_udiv, ← hquot]
    omega
  · rw [BitVec.toNat_umod, ← hrem]

end Register

/-! ## The double word shifted to where the loop begins -/

theorem shl_eq {x n : su_int} {k : Nat} (hn : n.toNat = k) (hk : k < 32) :
    shl x n = some (x <<< k) := by
  rw [shl, hn, if_pos hk]

theorem shr_eq {x n : su_int} {k : Nat} (hn : n.toNat = k) (hk : k < 32) :
    shr x n = some (x >>> k) := by
  rw [shr, hn, if_pos hk]

theorem toNat_shl (x : su_int) {s : Nat} (hs : s ≤ 32) :
    (x <<< (32 - s)).toNat = x.toNat % 2 ^ s * 2 ^ (32 - s) := by
  have hpow : 2 ^ 32 = 2 ^ s * 2 ^ (32 - s) := by
    rw [← Nat.pow_add]
    congr 1
    omega
  rw [BitVec.toNat_shiftLeft, Nat.shiftLeft_eq, hpow, Nat.mul_mod_mul_right]

theorem toNat_funnel (h l : su_int) {s : Nat} (hs : s ≤ 32) :
    ((h <<< (32 - s)) ||| (l >>> s)).toNat = h.toNat % 2 ^ s * 2 ^ (32 - s) + l.toNat / 2 ^ s := by
  have hlow : l.toNat >>> s < 2 ^ (32 - s) := by
    rw [Nat.shiftRight_eq_div_pow, Nat.div_lt_iff_lt_mul (Nat.two_pow_pos s), ← Nat.pow_add]
    exact Nat.lt_of_lt_of_le l.isLt (Nat.pow_le_pow_right (by omega) (by omega))
  rw [BitVec.toNat_or, toNat_shl h hs, ← Nat.shiftLeft_eq, BitVec.toNat_ushiftRight,
    ← Nat.shiftLeft_add_eq_or_of_lt hlow, Nat.shiftRight_eq_div_pow]

theorem pow_split {s : Nat} (hs : s ≤ 32) : 2 ^ 32 = 2 ^ (32 - s) * 2 ^ s := by
  rw [← Nat.pow_add]
  congr 1
  omega

theorem toNat_all_div (n : udwords) {s : Nat} (hs : s ≤ 32) :
    n.all.toNat / 2 ^ s = n.high.toNat / 2 ^ s * 2 ^ 32 +
      (n.high.toNat % 2 ^ s * 2 ^ (32 - s) + n.low.toNat / 2 ^ s) := by
  have hhigh := Nat.div_add_mod n.high.toNat (2 ^ s)
  rw [udwords.toNat_all, pow_split hs, ← Nat.mul_assoc, Nat.add_comm,
    Nat.add_mul_div_right _ _ (Nat.two_pow_pos s)]
  nth_rewrite 1 [← hhigh]
  ring

theorem toNat_all_mod (n : udwords) {s : Nat} (hs : s ≤ 32) :
    n.all.toNat % 2 ^ s = n.low.toNat % 2 ^ s := by
  rw [udwords.toNat_all, pow_split hs, ← Nat.mul_assoc, Nat.add_comm, Nat.add_mul_mod_self_right]

theorem shifted_spec (n : udwords) {sr : su_int} (hpos : 0 < sr.toNat) (hsr : sr.toNat < 32) :
    ∃ q r, shifted n sr = some (q, r) ∧
      q.all.toNat = n.all.toNat % 2 ^ sr.toNat * 2 ^ (64 - sr.toNat) ∧
      r.all.toNat = n.all.toNat / 2 ^ sr.toNat := by
  have hsub : (32 - sr).toNat = 32 - sr.toNat := by
    have h32 : (32 : su_int).toNat = 32 := rfl
    rw [BitVec.toNat_sub_of_le (by rw [BitVec.le_def, h32]; omega), h32]
  refine ⟨_, _, by rw [shifted, shl_eq hsub (by omega), shl_eq hsub (by omega), shr_eq rfl hsr,
    shr_eq rfl hsr]; rfl, ?_, ?_⟩
  · have hpow : 2 ^ (64 - sr.toNat) = 2 ^ (32 - sr.toNat) * 2 ^ 32 := by
      rw [← Nat.pow_add]
      congr 1
      omega
    have hzero : (0 : su_int).toNat = 0 := rfl
    rw [udwords.toNat_all, toNat_shl _ (by omega), toNat_all_mod n (by omega), hpow, hzero]
    ring
  · rw [udwords.toNat_all, toNat_funnel _ _ (by omega), toNat_all_div n (by omega),
      BitVec.toNat_ushiftRight, Nat.shiftRight_eq_div_pow]

theorem shifted_beyond (n : udwords) {t : Nat} (ht : t < 32) :
    (udwords.all ⟨n.low <<< (32 - t), (n.high <<< (32 - t)) ||| (n.low >>> t)⟩).toNat =
        n.all.toNat % 2 ^ (32 + t) * 2 ^ (32 - t) ∧
      (udwords.all ⟨n.high >>> t, 0⟩).toNat = n.all.toNat / 2 ^ (32 + t) := by
  have hl := n.low.isLt
  have hdiv : n.all.toNat / 2 ^ 32 = n.high.toNat := by
    rw [udwords.toNat_all]
    omega
  have hmod : n.all.toNat % 2 ^ 32 = n.low.toNat := by
    rw [udwords.toNat_all]
    omega
  have hlow := Nat.div_add_mod n.low.toNat (2 ^ t)
  constructor
  · rw [udwords.toNat_all, toNat_shl _ (by omega), toNat_funnel _ _ (by omega), Nat.pow_add,
      Nat.mod_mul, hdiv, hmod]
    nth_rewrite 3 [← hlow]
    rw [pow_split (s := t) (by omega)]
    ring
  · have hzero : (0 : su_int).toNat = 0 := rfl
    rw [udwords.toNat_all, Nat.pow_add, ← Nat.div_div_eq_div_mul, hdiv, BitVec.toNat_ushiftRight,
      Nat.shiftRight_eq_div_pow, hzero, Nat.zero_mul, Nat.zero_add]

/-! ## Every case divides -/

theorem ne_zero_iff {x : su_int} : x ≠ 0 ↔ x.toNat ≠ 0 :=
  not_congr (by rw [← BitVec.toNat_inj]; rfl)

theorem clz_bounds {x : su_int} (hx : x ≠ 0) :
    x.clz.toNat < 32 ∧ 2 ^ (31 - x.clz.toNat) ≤ x.toNat ∧ x.toNat < 2 ^ (32 - x.clz.toNat) := by
  refine ⟨?_, BitVec.two_pow_sub_clz_le_toNat_of_ne_zero (by decide) hx,
    BitVec.toNat_lt_two_pow_sub_clz⟩
  exact BitVec.lt_def.mp (BitVec.clz_lt_iff_ne_zero.mpr hx)

theorem ctz_of_and {x : su_int} (hx : x ≠ 0) (hand : x &&& (x - 1) = 0) :
    x.ctz.toNat < 32 ∧ x.toNat = 2 ^ x.ctz.toNat := by
  have hpos := ne_zero_iff.mp hx
  have hone : (1 : su_int).toNat = 1 := rfl
  have hlt : x.ctz.toNat < 32 := BitVec.lt_def.mp (BitVec.ctz_lt_iff_ne_zero.mpr hx)
  have hand' : x.toNat &&& (x.toNat - 1) = 0 := by
    have hnat := congrArg BitVec.toNat hand
    rwa [BitVec.toNat_and, BitVec.toNat_sub_of_le (by rw [BitVec.le_def, hone]; omega)] at hnat
  obtain ⟨k, hk⟩ := (Nat.and_sub_one_eq_zero_iff_isPowerOfTwo hpos).mp hand'
  have hbit := BitVec.getLsbD_true_ctz_of_ne_zero hx
  rw [BitVec.getLsbD, hk, Nat.testBit_two_pow, decide_eq_true_iff] at hbit
  exact ⟨hlt, hbit ▸ hk⟩

theorem clz_le_of_and {x : su_int} (hx : x ≠ 0) (hand : x &&& (x - 1) ≠ 0) :
    x.clz.toNat ≤ 30 := by
  obtain ⟨hlt, hlo, hhi⟩ := clz_bounds hx
  by_contra hgt
  have h31 : x.clz.toNat = 31 := by omega
  rw [h31] at hlo hhi
  have hone : x = 1 := BitVec.eq_of_toNat_eq (by
    show x.toNat = 1
    omega)
  exact hand (by rw [hone]; rfl)

theorem toNat_and_pred {x y : su_int} {k : Nat} (hx : x.toNat = 2 ^ k) :
    (y &&& (x - 1)).toNat = y.toNat % 2 ^ k := by
  have hpos := Nat.two_pow_pos k
  have hone : (1 : su_int).toNat = 1 := rfl
  rw [BitVec.toNat_and, BitVec.toNat_sub_of_le (by rw [BitVec.le_def, hone]; omega), hx, hone,
    Nat.and_two_pow_sub_one_eq_mod]

theorem high_distance {n d : udwords} (hn : n.high ≠ 0) (hd : d.high ≠ 0) :
    (d.high.clz.toNat < n.high.clz.toNat ∧ n.all.toNat < d.all.toNat) ∨
      ∃ k, (d.high.clz - n.high.clz).toNat = k ∧ k ≤ d.high.clz.toNat ∧
        n.all.toNat / 2 ^ (k + 1) < d.all.toNat ∧
        (d.all.toNat ≤ 2 ^ 63 ∨ 2 ^ 63 ≤ n.all.toNat / 2 ^ k) := by
  obtain ⟨hcn, hnlo, hnhi⟩ := clz_bounds hn
  obtain ⟨hcd, hdlo, hdhi⟩ := clz_bounds hd
  have hnl := n.low.isLt
  have hdl := d.low.isLt
  have hnall := udwords.toNat_all n
  have hdall := udwords.toNat_all d
  rcases Nat.lt_or_ge d.high.clz.toNat n.high.clz.toNat with hlt | hge
  · refine .inl ⟨hlt, ?_⟩
    have hpow : 2 ^ (32 - n.high.clz.toNat) ≤ 2 ^ (31 - d.high.clz.toNat) :=
      Nat.pow_le_pow_right (by omega) (by omega)
    omega
  · refine .inr ⟨_, BitVec.toNat_sub_of_le hge, Nat.sub_le .., ?_, ?_⟩
    · rw [Nat.div_lt_iff_lt_mul (Nat.two_pow_pos _)]
      have hpow : 2 ^ (31 - d.high.clz.toNat) * 2 ^ (d.high.clz.toNat - n.high.clz.toNat + 1) =
          2 ^ (32 - n.high.clz.toNat) := by
        rw [← Nat.pow_add]
        congr 1
        omega
      calc n.all.toNat < 2 ^ (32 - n.high.clz.toNat) * 2 ^ 32 := by omega
        _ = 2 ^ (31 - d.high.clz.toNat) * 2 ^ 32 *
              2 ^ (d.high.clz.toNat - n.high.clz.toNat + 1) := by rw [← hpow]; ring
        _ ≤ d.all.toNat * 2 ^ (d.high.clz.toNat - n.high.clz.toNat + 1) :=
          Nat.mul_le_mul_right _ (by omega)
    · rcases Nat.eq_zero_or_pos d.high.clz.toNat with hzero | hpos
      · have hzero' : n.high.clz.toNat = 0 := by omega
        rw [hzero'] at hnlo
        rw [hzero, hzero', Nat.sub_zero, pow_zero, Nat.div_one]
        exact .inr (by omega)
      · have hpow : 2 ^ (32 - d.high.clz.toNat) ≤ 2 ^ 31 :=
          Nat.pow_le_pow_right (by omega) (by omega)
        exact .inl (by omega)

theorem divided_eq {a b q r : du_int} (hq : q.toNat = a.toNat / b.toNat)
    (hr : r.toNat = a.toNat % b.toNat) : (q, r) = (a / b, a % b) := by
  rw [Prod.mk.injEq]
  exact ⟨BitVec.eq_of_toNat_eq (hq.trans BitVec.toNat_udiv.symm),
    BitVec.eq_of_toNat_eq (hr.trans BitVec.toNat_umod.symm)⟩

theorem divided_less {n d : udwords} (h : n.all.toNat < d.all.toNat) :
    ((0 : du_int), n.all) = (n.all / d.all, n.all % d.all) :=
  divided_eq (Nat.div_eq_of_lt h).symm (Nat.mod_eq_of_lt h).symm

theorem finish_shifted {n d : udwords} {sr : su_int} (hpos : 0 < sr.toNat) (hsr : sr.toNat < 32)
    (hlt : n.all.toNat / 2 ^ sr.toNat < d.all.toNat)
    (hsign : d.all.toNat ≤ 2 ^ 63 ∨ 2 ^ 63 ≤ n.all.toNat / 2 ^ (sr.toNat - 1)) :
    ((shifted n sr).bind fun x => some (Register.finish d sr x.1 x.2)) =
      some (n.all / d.all, n.all % d.all) := by
  obtain ⟨q, r, hshift, hq, hr⟩ := shifted_spec n hpos hsr
  rw [hshift, Option.bind_some, Register.finish_spec hq hr (by omega) hlt hsign]

theorem finish_words {n d : udwords} {sr : su_int} (hsr : sr.toNat = 32)
    (hlt : n.all.toNat / 2 ^ 32 < d.all.toNat)
    (hsign : d.all.toNat ≤ 2 ^ 63 ∨ 2 ^ 63 ≤ n.all.toNat / 2 ^ 31) :
    Register.finish d sr ⟨0, n.low⟩ ⟨n.high, 0⟩ = (n.all / d.all, n.all % d.all) := by
  have hnall := udwords.toNat_all n
  have hnl := n.low.isLt
  have hzero : (0 : su_int).toNat = 0 := rfl
  refine Register.finish_spec ?_ ?_ (by omega) (by rwa [hsr]) (by rwa [hsr])
  · rw [hsr, udwords.toNat_all]
    dsimp only
    omega
  · rw [hsr, udwords.toNat_all]
    dsimp only
    omega

section Cases

variable {n d : udwords}

theorem all_ne_zero_iff : d.all ≠ 0 ↔ d.high ≠ 0 ∨ d.low ≠ 0 := by
  have hdall := udwords.toNat_all d
  have hall : d.all ≠ 0 ↔ d.all.toNat ≠ 0 := not_congr (by rw [← BitVec.toNat_inj]; rfl)
  rw [hall, ne_zero_iff, ne_zero_iff]
  omega

theorem divided_words {x y : su_int} (hn : n.all.toNat = x.toNat) (hd : d.all.toNat = y.toNat) :
    ((x / y).setWidth 64, (x % y).setWidth 64) = (n.all / d.all, n.all % d.all) := by
  have hx := x.isLt
  have hq := Nat.div_le_self x.toNat y.toNat
  have hr := Nat.mod_le x.toNat y.toNat
  apply divided_eq
  · rw [BitVec.toNat_setWidth, BitVec.toNat_udiv, hn, hd, Nat.mod_eq_of_lt (by omega)]
  · rw [BitVec.toNat_setWidth, BitVec.toNat_umod, hn, hd, Nat.mod_eq_of_lt (by omega)]

theorem divided_highs (hnl : n.low = 0) (hdl : d.low = 0) :
    ((n.high / d.high).setWidth 64, udwords.all ⟨0, n.high % d.high⟩) =
      (n.all / d.all, n.all % d.all) := by
  have hzero : (0 : su_int).toNat = 0 := rfl
  have hnh := n.high.isLt
  have hq := Nat.div_le_self n.high.toNat d.high.toNat
  apply divided_eq
  · rw [BitVec.toNat_setWidth, BitVec.toNat_udiv, udwords.toNat_all, udwords.toNat_all, hnl, hdl,
      hzero, Nat.add_zero, Nat.add_zero, Nat.mul_div_mul_right _ _ (by omega),
      Nat.mod_eq_of_lt (by omega)]
  · rw [udwords.toNat_all, udwords.toNat_all, udwords.toNat_all, hnl, hdl, BitVec.toNat_umod,
      hzero, Nat.add_zero, Nat.add_zero, Nat.add_zero, Nat.mul_mod_mul_right]

theorem divided_high_pow {k : Nat} (hdl : d.low = 0) (hdh : d.high.toNat = 2 ^ k) :
    ((n.high >>> k).setWidth 64, udwords.all ⟨n.low, n.high &&& (d.high - 1)⟩) =
      (n.all / d.all, n.all % d.all) := by
  have hzero : (0 : su_int).toNat = 0 := rfl
  have hnl := n.low.isLt
  have hnh := n.high.isLt
  have hq := Nat.div_le_self n.high.toNat (2 ^ k)
  have hd : d.all.toNat = 2 ^ 32 * 2 ^ k := by
    rw [udwords.toNat_all, hdl, hdh, hzero, Nat.add_zero, Nat.mul_comm]
  have hdiv : n.all.toNat / 2 ^ 32 = n.high.toNat := by
    rw [udwords.toNat_all]
    omega
  have hmod : n.all.toNat % 2 ^ 32 = n.low.toNat := by
    rw [udwords.toNat_all]
    omega
  apply divided_eq
  · rw [BitVec.toNat_setWidth, BitVec.toNat_ushiftRight, Nat.shiftRight_eq_div_pow, hd,
      ← Nat.div_div_eq_div_mul, hdiv, Nat.mod_eq_of_lt (by omega)]
  · rw [udwords.toNat_all, toNat_and_pred hdh, hd, Nat.mod_mul, hdiv, hmod]
    ring

theorem divided_low_pow {k : Nat} (hdh : d.high = 0) (hdl : d.low.toNat = 2 ^ k) (hk : k < 32) :
    (udwords.all ⟨(n.high <<< (32 - k)) ||| (n.low >>> k), n.high >>> k⟩,
      (n.low &&& (d.low - 1)).setWidth 64) = (n.all / d.all, n.all % d.all) := by
  have hzero : (0 : su_int).toNat = 0 := rfl
  have hnl := n.low.isLt
  have hr := Nat.mod_le n.low.toNat (2 ^ k)
  have hd : d.all.toNat = 2 ^ k := by
    rw [udwords.toNat_all, hdh, hdl, hzero, Nat.zero_mul, Nat.zero_add]
  apply divided_eq
  · rw [udwords.toNat_all, toNat_funnel _ _ (by omega), hd, toNat_all_div n (by omega),
      BitVec.toNat_ushiftRight, Nat.shiftRight_eq_div_pow]
  · rw [BitVec.toNat_setWidth, toNat_and_pred hdl, hd, toNat_all_mod n (by omega),
      Nat.mod_eq_of_lt (by omega)]

theorem divided_one (hdh : d.high = 0) (hdl : d.low = 1) :
    (n.all, (n.low &&& (d.low - 1)).setWidth 64) = (n.all / d.all, n.all % d.all) := by
  have hd : d.all.toNat = 1 := by
    rw [udwords.toNat_all, hdh, hdl]
    rfl
  apply divided_eq
  · rw [hd, Nat.div_one]
  · rw [hd, Nat.mod_one, BitVec.toNat_setWidth, toNat_and_pred (k := 0) (by rw [hdl]; rfl),
      pow_zero, Nat.mod_one, Nat.zero_mod]

theorem divided_far (hn : n.high ≠ 0) (hd : d.high ≠ 0) {m : Nat} (hm : d.high.clz.toNat ≤ m)
    (hm32 : m < 32) :
    (if (d.high.clz - n.high.clz).toNat > m then some (0, n.all)
      else if d.high.clz - n.high.clz + 1 = 32 then
        some (Register.finish d (d.high.clz - n.high.clz + 1) ⟨0, n.low⟩ ⟨n.high, 0⟩)
      else (shifted n (d.high.clz - n.high.clz + 1)).bind fun x =>
        some (Register.finish d (d.high.clz - n.high.clz + 1) x.1 x.2)) =
      some (n.all / d.all, n.all % d.all) := by
  have hone : (1 : su_int).toNat = 1 := rfl
  have h32 : (32 : su_int).toNat = 32 := rfl
  obtain ⟨hcn, -⟩ := clz_bounds hn
  rcases high_distance hn hd with ⟨hlt, hless⟩ | ⟨k, hk, hle, hdiv, hsign⟩
  · -- the difference wraps
    have hwrap : (d.high.clz - n.high.clz).toNat > m := by
      rw [BitVec.toNat_sub]
      omega
    rw [if_pos hwrap, divided_less hless]
  · have hnext : (d.high.clz - n.high.clz + 1).toNat = k + 1 := by
      rw [BitVec.toNat_add_of_lt (by omega), hone, hk]
    rw [if_neg (by omega)]
    by_cases hword : d.high.clz - n.high.clz + 1 = 32
    · have hk31 : k + 1 = 32 := by rw [← hnext, hword, h32]
      obtain rfl : k = 31 := by omega
      rw [if_pos hword, finish_words (by omega) hdiv hsign]
    · have hne : k + 1 ≠ 32 := fun h =>
        hword (BitVec.eq_of_toNat_eq (by rw [hnext, h32, h]))
      rw [if_neg hword, finish_shifted (by omega) (by omega) (by rwa [hnext])
        (by rwa [hnext, Nat.add_sub_cancel])]

theorem divided_near (hn : n.high ≠ 0) (hdh : d.high = 0) (hdl : d.low ≠ 0)
    (hand : d.low &&& (d.low - 1) ≠ 0) {sr : su_int}
    (hsr : sr = 1 + 32 + d.low.clz - n.high.clz) :
    (if sr = 32 then some (Register.finish d sr ⟨0, n.low⟩ ⟨n.high, 0⟩)
      else if sr.toNat < 32 then
        (shifted n sr).bind fun x => some (Register.finish d sr x.1 x.2)
      else do
        let q : udwords :=
          ⟨← shl n.low (64 - sr), (← shl n.high (64 - sr)) ||| (← shr n.low (sr - 32))⟩
        let r : udwords := ⟨← shr n.high (sr - 32), 0⟩
        return Register.finish d sr q r) = some (n.all / d.all, n.all % d.all) := by
  have h32 : (32 : su_int).toNat = 32 := rfl
  have h33 : (1 + 32 : su_int).toNat = 33 := rfl
  have h64 : (64 : su_int).toNat = 64 := rfl
  have hzero : (0 : su_int).toNat = 0 := rfl
  obtain ⟨hcn, hnlo, hnhi⟩ := clz_bounds hn
  obtain ⟨hcd, hdlo, hdhi⟩ := clz_bounds hdl
  have hnl := n.low.isLt
  have hnall := udwords.toNat_all n
  have hdall : d.all.toNat = d.low.toNat := by
    rw [udwords.toNat_all, hdh, hzero, Nat.zero_mul, Nat.zero_add]
  have hcd30 := clz_le_of_and hdl hand
  have hadd : (1 + 32 + d.low.clz).toNat = 33 + d.low.clz.toNat := by
    rw [BitVec.toNat_add_of_lt (by omega), h33]
  have hs : sr.toNat = 33 + d.low.clz.toNat - n.high.clz.toNat := by
    rw [hsr, BitVec.toNat_sub_of_le (by rw [BitVec.le_def]; omega), hadd]
  have hsign : d.all.toNat ≤ 2 ^ 63 := by
    have hdl' := d.low.isLt
    omega
  have hlt : n.all.toNat / 2 ^ sr.toNat < d.all.toNat := by
    rw [Nat.div_lt_iff_lt_mul (Nat.two_pow_pos _)]
    have hpow : 2 ^ (31 - d.low.clz.toNat) * 2 ^ sr.toNat =
        2 ^ (32 - n.high.clz.toNat) * 2 ^ 32 := by
      rw [← Nat.pow_add, ← Nat.pow_add]
      congr 1
      omega
    calc n.all.toNat < 2 ^ (32 - n.high.clz.toNat) * 2 ^ 32 := by omega
      _ = 2 ^ (31 - d.low.clz.toNat) * 2 ^ sr.toNat := hpow.symm
      _ ≤ d.all.toNat * 2 ^ sr.toNat := Nat.mul_le_mul_right _ (by omega)
  by_cases hword : sr = 32
  · have hs32 : sr.toNat = 32 := by rw [hword, h32]
    rw [if_pos hword, finish_words hs32 (by rwa [hs32] at hlt) (.inl hsign)]
  · rw [if_neg hword]
    by_cases hshort : sr.toNat < 32
    · rw [if_pos hshort, finish_shifted (by omega) hshort hlt (.inl hsign)]
    · have hne : sr.toNat ≠ 32 := fun h => hword (BitVec.eq_of_toNat_eq (by rw [h, h32]))
      have hup : (64 - sr).toNat = 32 - (sr.toNat - 32) := by
        rw [BitVec.toNat_sub_of_le (by rw [BitVec.le_def, h64]; omega), h64]
        omega
      have hdown : (sr - 32).toNat = sr.toNat - 32 := by
        rw [BitVec.toNat_sub_of_le (by rw [BitVec.le_def, h32]; omega), h32]
      have hsum : 32 + (sr.toNat - 32) = sr.toNat := by omega
      have hrest : 32 - (sr.toNat - 32) = 64 - sr.toNat := by omega
      obtain ⟨hq, hr⟩ := shifted_beyond n (t := sr.toNat - 32) (by omega)
      rw [hsum, hrest] at hq
      rw [hsum] at hr
      rw [hrest] at hup
      rw [if_neg hshort, shl_eq hup (by omega), shl_eq hup (by omega), shr_eq hdown (by omega),
        shr_eq hdown (by omega)]
      exact congrArg some (Register.finish_spec hq hr (by omega) hlt (.inl hsign))

end Cases

/-- `__udivmoddi4` gives the quotient and the remainder of every division but those by zero, and
shifts by less than a word all along. -/
theorem udivmoddi4_divides (a b : du_int) :
    udivmoddi4 a b = if b = 0 then none else some (a / b, a % b) := by
  have ha := udwords.all_ofAll a
  have hb := udwords.all_ofAll b
  rw [udivmoddi4]
  generalize udwords.ofAll a = n at ha ⊢
  generalize udwords.ofAll b = d at hb ⊢
  subst ha hb
  dsimp only
  have hnall := udwords.toNat_all n
  have hdall := udwords.toNat_all d
  have hnl := n.low.isLt
  have hzero : (0 : su_int).toNat = 0 := rfl
  have hne := all_ne_zero_iff (d := d)
  by_cases hnh : n.high = 0
  · rw [if_pos hnh]
    rw [hnh, hzero, Nat.zero_mul, Nat.zero_add] at hnall
    by_cases hdh : d.high = 0
    · rw [if_pos hdh]
      rw [hdh, hzero, Nat.zero_mul, Nat.zero_add] at hdall
      by_cases hdl : d.low = 0
      · rw [if_pos (not_not.mp fun h => (hne.mp h).elim (· hdh) (· hdl)), quot, if_pos hdl]
        rfl
      · rw [if_neg (hne.mpr (.inr hdl)), quot, rem, if_neg hdl, if_neg hdl,
          ← divided_words hnall hdall]
        rfl
    · rw [if_neg hdh, if_neg (hne.mpr (.inl hdh))]
      have hpos := ne_zero_iff.mp hdh
      have hlow : n.low.setWidth 64 = n.all := BitVec.eq_of_toNat_eq (by
        rw [BitVec.toNat_setWidth, hnall]
        omega)
      have hless : n.all.toNat < d.all.toNat := by omega
      rw [hlow, divided_less hless]
  · rw [if_neg hnh]
    by_cases hdl : d.low = 0
    · rw [if_pos hdl]
      by_cases hdh : d.high = 0
      · rw [if_pos hdh, if_pos (not_not.mp fun h => (hne.mp h).elim (· hdh) (· hdl)), quot,
          if_pos hdl]
        rfl
      · rw [if_neg hdh, if_neg (hne.mpr (.inl hdh))]
        by_cases hnl0 : n.low = 0
        · rw [if_pos hnl0, quot, rem, if_neg hdh, if_neg hdh, ← divided_highs hnl0 hdl]
          rfl
        · rw [if_neg hnl0]
          by_cases hand : d.high &&& (d.high - 1) = 0
          · obtain ⟨hlt, hpow⟩ := ctz_of_and hdh hand
            rw [if_pos hand, builtin_ctz, if_neg hdh]
            simp only [Option.bind_eq_bind, Option.bind_some, Option.pure_def, shr_eq rfl hlt]
            rw [divided_high_pow hdl hpow]
          · have hcd := clz_le_of_and hdh hand
            have hfar := divided_far hnh hdh hcd (by omega)
            have hone : (1 : su_int).toNat = 1 := rfl
            rw [if_neg hand, builtin_clz, builtin_clz, if_neg hdh, if_neg hnh, ← hfar]
            simp only [Option.bind_eq_bind, Option.bind_some, Option.pure_def]
            by_cases hgt : (d.high.clz - n.high.clz).toNat > 30
            · rw [if_pos hgt, if_pos hgt]
            · have hword : d.high.clz - n.high.clz + 1 ≠ 32 := fun h => by
                have hnat := congrArg BitVec.toNat h
                rw [BitVec.toNat_add_of_lt (by omega), hone] at hnat
                have h32 : (32 : su_int).toNat = 32 := rfl
                omega
              rw [if_neg hgt, if_neg hgt, if_neg hword]
    · rw [if_neg hdl, if_neg (hne.mpr (.inr hdl))]
      by_cases hdh : d.high = 0
      · rw [if_pos hdh]
        by_cases hand : d.low &&& (d.low - 1) = 0
        · obtain ⟨hlt, hpow⟩ := ctz_of_and hdl hand
          rw [if_pos hand]
          by_cases hone : d.low = 1
          · rw [if_pos hone, divided_one hdh hone]
          · have hpos : d.low.ctz.toNat ≠ 0 := fun h =>
              hone (BitVec.eq_of_toNat_eq (by rw [hpow, h]; rfl))
            have hsub : (32 - d.low.ctz).toNat = 32 - d.low.ctz.toNat := by
              have h32 : (32 : su_int).toNat = 32 := rfl
              rw [BitVec.toNat_sub_of_le (by rw [BitVec.le_def, h32]; omega), h32]
            rw [if_neg hone, builtin_ctz, if_neg hdl, ← divided_low_pow hdh hpow hlt]
            simp only [Option.bind_eq_bind, Option.bind_some, Option.pure_def,
              shl_eq hsub (Nat.sub_lt (by omega) (Nat.pos_of_ne_zero hpos)), shr_eq rfl hlt]
        · rw [if_neg hand, builtin_clz, builtin_clz, if_neg hdl, if_neg hnh,
            ← divided_near hnh hdh hdl hand rfl]
          rfl
      · rw [if_neg hdh, builtin_clz, builtin_clz, if_neg hdh, if_neg hnh,
          ← divided_far hnh hdh (Nat.le_of_lt_succ (clz_bounds hdh).1) (by omega)]
        rfl

/-! ## Signs -/

theorem negate_if (a x : du_int) :
    (a ^^^ x.sshiftRight 63) - x.sshiftRight 63 = if x.msb then -a else a := by
  rw [sshiftRight_top]
  cases x.msb with
  | false => simp
  | true =>
    rw [if_pos rfl, if_pos rfl, BitVec.xor_allOnes, ← BitVec.neg_one_eq_allOnes,
      BitVec.sub_neg, BitVec.neg_eq_not_add]

theorem negate_if_differ (a b x : du_int) :
    (x ^^^ (a.sshiftRight 63 ^^^ b.sshiftRight 63)) - (a.sshiftRight 63 ^^^ b.sshiftRight 63) =
      if a.msb = b.msb then x else -x := by
  rw [← BitVec.sshiftRight_xor_distrib, negate_if, BitVec.msb_xor]
  cases a.msb <;> cases b.msb <;> rfl

theorem divdi3_eq (a b : du_int) : divdi3 a b = if b = 0 then none else some (a.sdiv b) := by
  have hb : (if b.msb then -b else b) = 0 ↔ b = 0 := by cases b.msb <;> simp
  rw [divdi3]
  simp only [negate_if, negate_if_differ, udivmoddi4_divides, hb]
  by_cases h0 : b = 0
  · rw [if_pos h0, if_pos h0, Option.map_none]
  · rw [if_neg h0, if_neg h0, Option.map_some, BitVec.sdiv_eq]
    cases a.msb <;> cases b.msb <;> rfl

theorem moddi3_eq (a b : du_int) : moddi3 a b = if b = 0 then none else some (a.srem b) := by
  have hb : (if b.msb then -b else b) = 0 ↔ b = 0 := by cases b.msb <;> simp
  rw [moddi3]
  simp only [negate_if, udivmoddi4_divides, hb]
  by_cases h0 : b = 0
  · rw [if_pos h0, if_pos h0, Option.map_none]
  · rw [if_neg h0, if_neg h0, Option.map_some, BitVec.srem_eq]
    cases a.msb <;> cases b.msb <;> rfl

theorem sub_sdiv_mul (a b : du_int) : a - a.sdiv b * b = a.srem b := by
  apply BitVec.eq_of_toInt_eq
  rw [BitVec.toInt_sub, BitVec.toInt_mul, BitVec.toInt_sdiv, Int.bmod_mul_bmod, Int.sub_bmod_bmod,
    BitVec.toInt_srem, Int.mul_comm, ← Int.tmod_def, ← BitVec.toInt_srem, BitVec.toInt_bmod_cancel]

theorem divmoddi4_eq (a b : du_int) :
    divmoddi4 a b = if b = 0 then none else some (a.sdiv b, a.srem b) := by
  rw [divmoddi4, divdi3_eq]
  by_cases h0 : b = 0
  · rw [if_pos h0, if_pos h0, Option.map_none]
  · rw [if_neg h0, if_neg h0, Option.map_some, sub_sdiv_mul]

/-- The routines that the compiler calls. The signed ones divide towards zero and leave a
remainder of the dividend's sign; the least number divided by -1 is itself. -/
theorem division_routines (a b : du_int) (hb : b ≠ 0) :
    udivdi3 a b = some (a / b) ∧ umoddi3 a b = some (a % b) ∧ divdi3 a b = some (a.sdiv b) ∧
      moddi3 a b = some (a.srem b) ∧ divmoddi4 a b = some (a.sdiv b, a.srem b) := by
  rw [udivdi3, umoddi3, divdi3_eq, moddi3_eq, divmoddi4_eq, udivmoddi4_divides, if_neg hb,
    if_neg hb, if_neg hb, if_neg hb]
  exact ⟨rfl, rfl, rfl, rfl, rfl⟩

theorem divdi3_least : divdi3 (BitVec.intMin 64) (-1) = some (BitVec.intMin 64) := by
  obtain ⟨-, -, hdiv, -⟩ := division_routines (BitVec.intMin 64) (-1) (by decide)
  exact hdiv.trans (by decide +kernel)

/-! ## Bits counted -/

theorem clz_unique {w k : Nat} {x : BitVec w} (hk : k < w) (hlo : 2 ^ k ≤ x.toNat)
    (hhi : x.toNat < 2 ^ (k + 1)) : x.clz.toNat = w - 1 - k := by
  have hx : x ≠ 0#w := by
    rintro rfl
    rw [BitVec.toNat_ofNat, Nat.zero_mod] at hlo
    exact absurd hlo (Nat.not_le.mpr (Nat.two_pow_pos k))
  have hlo' := BitVec.two_pow_sub_clz_le_toNat_of_ne_zero (by omega) hx
  have hhi' := x.toNat_lt_two_pow_sub_clz
  have hup := (Nat.pow_lt_pow_iff_right (by omega)).mp (Nat.lt_of_le_of_lt hlo hhi')
  have hdown := (Nat.pow_lt_pow_iff_right (by omega)).mp (Nat.lt_of_le_of_lt hlo' hhi)
  omega

theorem ctz_unique {w k : Nat} {x : BitVec w} (hk : x.getLsbD k = true)
    (hlo : ∀ i < k, x.getLsbD i = false) : x.ctz.toNat = k := by
  have hx : x ≠ 0#w := by
    rintro rfl
    rw [BitVec.getLsbD_zero] at hk
    cases hk
  rcases Nat.lt_trichotomy x.ctz.toNat k with hlt | heq | hgt
  · have hbit := BitVec.getLsbD_true_ctz_of_ne_zero hx
    rw [hlo _ hlt] at hbit
    cases hbit
  · exact heq
  · rw [BitVec.getLsbD_false_of_lt_ctz hgt] at hk
    cases hk

theorem and_upper_eq_zero_iff {x mask : su_int} {v : Nat} (hmask : mask.toNat = (2 ^ v - 1) <<< v)
    (hx : x.toNat < 2 ^ (2 * v)) : x &&& mask = 0 ↔ x.toNat < 2 ^ v := by
  have hpos := Nat.two_pow_pos v
  have hupper : x.toNat / 2 ^ v < 2 ^ v := by
    rw [Nat.div_lt_iff_lt_mul hpos, ← Nat.pow_add, ← Nat.two_mul]
    exact hx
  have hand : (x &&& mask).toNat = (x.toNat / 2 ^ v) <<< v := by
    rw [BitVec.toNat_and, hmask]
    apply Nat.eq_of_testBit_eq
    intro i
    rw [Nat.testBit_and, Nat.testBit_shiftLeft, Nat.testBit_shiftLeft, Nat.testBit_two_pow_sub_one,
      Nat.testBit_div_two_pow]
    by_cases hi : v ≤ i
    · rw [Nat.sub_add_cancel hi]
      by_cases hlt : i - v < v
      · simp [hi, hlt]
      · have hbig : x.toNat.testBit i = false := Nat.testBit_lt_two_pow
          (Nat.lt_of_lt_of_le hx (Nat.pow_le_pow_right (by omega) (by omega)))
        simp [hbig]
    · simp [hi]
  rw [← BitVec.toNat_inj, hand, Nat.shiftLeft_eq]
  constructor
  · intro h
    have hzero : x.toNat / 2 ^ v = 0 := (Nat.mul_eq_zero.mp h).resolve_right (by omega)
    exact (Nat.div_eq_zero_iff.mp hzero).resolve_left (by omega)
  · intro h
    rw [Nat.div_eq_of_lt h, Nat.zero_mul]
    rfl

theorem toNat_flag (b : Bool) {s : Nat} (hs : s < 32) :
    (ofBool b <<< s).toNat = if b then 2 ^ s else 0 := by
  cases b with
  | false => simp [ofBool]
  | true =>
    have hone : (1 : su_int).toNat = 1 := rfl
    rw [ofBool, if_pos rfl, if_pos rfl, BitVec.toNat_shiftLeft, hone, Nat.shiftLeft_eq, Nat.one_mul,
      Nat.mod_eq_of_lt (Nat.pow_lt_pow_right (by omega) hs)]

/-- The first bit of `x` is the first of `a` too: `r` zeros of `a` are above the `w` bits that `x`
may have. -/
def Leading (a : su_int) (w : Nat) (x r : su_int) : Prop :=
  ∃ k < w, 2 ^ k ≤ x.toNat ∧ x.toNat < 2 ^ (k + 1) ∧ a.clz.toNat = r.toNat + (w - 1 - k)

theorem Leading.halve {a x r m : su_int} {v s : Nat} (h : Leading a (2 * v) x r)
    (hv : v = 2 ^ s) (hs : s < 5) (hmask : m.toNat = (2 ^ v - 1) <<< v) :
    Leading a v (x >>> (BitVec.ofNat 32 v - ofBool (x &&& m == 0) <<< s))
      (r + ofBool (x &&& m == 0) <<< s) := by
  obtain ⟨k, hk, hlo, hhi, hclz⟩ := h
  have hv16 : v ≤ 16 := hv ▸ Nat.pow_le_pow_right (by omega) (Nat.le_of_lt_succ hs)
  have hofNat : (BitVec.ofNat 32 v).toNat = v := by
    rw [BitVec.toNat_ofNat]
    omega
  have hx : x.toNat < 2 ^ (2 * v) :=
    Nat.lt_of_lt_of_le hhi (Nat.pow_le_pow_right (by omega) (by omega))
  have hclz32 := a.clz_le
  have hflag := toNat_flag (x &&& m == 0) (s := s) (by omega)
  generalize hb : (x &&& m == 0) = b at hflag ⊢
  generalize hf : ofBool b <<< s = f at hflag ⊢
  have hle : a.clz.toNat ≤ 32 := by simpa [BitVec.le_def] using hclz32
  rw [BitVec.ushiftRight_eq']
  by_cases hlow : x.toNat < 2 ^ v
  · have hbt : b = true := by
      rw [← hb, beq_iff_eq]
      exact (and_upper_eq_zero_iff hmask hx).mpr hlow
    rw [hbt, if_pos rfl, ← hv] at hflag
    have hzero : (BitVec.ofNat 32 v - f).toNat = 0 := by
      rw [BitVec.toNat_sub_of_le (by rw [BitVec.le_def]; omega)]
      omega
    have hkv : k < v := (Nat.pow_lt_pow_iff_right (by omega)).mp (Nat.lt_of_le_of_lt hlo hlow)
    refine ⟨k, hkv, by rwa [hzero, BitVec.ushiftRight_zero],
      by rwa [hzero, BitVec.ushiftRight_zero], ?_⟩
    rw [BitVec.toNat_add_of_lt (by omega)]
    omega
  · have hbf : b = false := by
      rw [← hb, beq_eq_false_iff_ne]
      exact fun h0 => hlow ((and_upper_eq_zero_iff hmask hx).mp h0)
    rw [hbf, if_neg (by decide)] at hflag
    have hshift : (BitVec.ofNat 32 v - f).toNat = v := by
      rw [BitVec.toNat_sub_of_le (by rw [BitVec.le_def]; omega)]
      omega
    have hkv : v ≤ k := by
      by_contra hlt
      exact hlow (Nat.lt_of_lt_of_le hhi (Nat.pow_le_pow_right (by omega) (by omega)))
    refine ⟨k - v, by omega, ?_, ?_, ?_⟩
    · rw [hshift, BitVec.toNat_ushiftRight, Nat.shiftRight_eq_div_pow,
        Nat.le_div_iff_mul_le (Nat.two_pow_pos v), ← Nat.pow_add, Nat.sub_add_cancel hkv]
      exact hlo
    · rw [hshift, BitVec.toNat_ushiftRight, Nat.shiftRight_eq_div_pow,
        Nat.div_lt_iff_lt_mul (Nat.two_pow_pos v), ← Nat.pow_add]
      exact Nat.lt_of_lt_of_le hhi (Nat.pow_le_pow_right (by omega) (by omega))
    · rw [BitVec.toNat_add_of_lt (by omega)]
      omega

theorem Leading.last {a x r : su_int} (h : Leading a 2 x r) :
    r + ((2 - x) &&& -ofBool (x &&& 2 == 0)) = a.clz := by
  obtain ⟨k, hk, hlo, hhi, hclz⟩ := h
  have hle : a.clz.toNat ≤ 32 := by simpa [BitVec.le_def] using a.clz_le
  apply BitVec.eq_of_toNat_eq
  have hrest : ((2 - x) &&& -ofBool (x &&& 2 == 0)).toNat = 1 - k := by
    have hone : (1 : su_int).toNat = 1 := rfl
    have htwo : (2 : su_int).toNat = 2 := rfl
    have hthree : (3 : su_int).toNat = 3 := rfl
    rcases (by omega : k = 0 ∨ k = 1) with rfl | rfl
    · obtain rfl : x = 1 := BitVec.eq_of_toNat_eq (by omega)
      rfl
    · rcases Nat.lt_or_ge x.toNat 3 with hlt | hge
      · obtain rfl : x = 2 := BitVec.eq_of_toNat_eq (by omega)
        rfl
      · obtain rfl : x = 3 := BitVec.eq_of_toNat_eq (by omega)
        rfl
  rw [BitVec.toNat_add_of_lt (by omega), hrest, hclz]

theorem clzsi2_eq {a : su_int} (ha : a ≠ 0) : clzsi2 a = a.clz := by
  obtain ⟨hlt, hlo, hhi⟩ := clz_bounds ha
  have hsub : 31 - a.clz.toNat + 1 = 32 - a.clz.toNat := by omega
  have hzero : (0#32).toNat = 0 := rfl
  have hstart : Leading a 32 a 0#32 :=
    ⟨31 - a.clz.toNat, by omega, hlo, by rwa [hsub], by omega⟩
  have h16 := hstart.halve (v := 16) (s := 4) (m := 0xFFFF0000) rfl (by omega) rfl
  have h8 := h16.halve (v := 8) (s := 3) (m := 0xFF00) rfl (by omega) rfl
  have h4 := h8.halve (v := 4) (s := 2) (m := 0xF0) rfl (by omega) rfl
  have h2 := h4.halve (v := 2) (s := 1) (m := 0xC) rfl (by omega) rfl
  rw [BitVec.zero_add] at h2
  exact h2.last

/-- The last bit of `x` is the last of `a` too, which has `r` more zeros below it; it is among the
low `w` bits of `x`. -/
def Trailing (a : su_int) (w : Nat) (x r : su_int) : Prop :=
  ∃ k < w, x.getLsbD k = true ∧ (∀ i < k, x.getLsbD i = false) ∧ a.ctz.toNat = r.toNat + k

theorem and_lower_eq_zero_iff {x m : su_int} {v : Nat} (hmask : m.toNat = 2 ^ v - 1) :
    x &&& m = 0 ↔ ∀ i < v, x.getLsbD i = false := by
  have hbit : ∀ i, (x &&& m).getLsbD i = (x.getLsbD i && decide (i < v)) := by
    intro i
    rw [BitVec.getLsbD_and, ← BitVec.testBit_toNat m, hmask, Nat.testBit_two_pow_sub_one]
  constructor
  · intro h i hi
    have hi' := hbit i
    rw [h] at hi'
    simpa [hi] using hi'.symm
  · intro h
    apply BitVec.eq_of_getLsbD_eq
    intro i _
    rw [hbit]
    by_cases hi : i < v
    · simp [h i hi]
    · simp [hi]

theorem Trailing.halve {a x r m : su_int} {v s : Nat} (h : Trailing a (2 * v) x r)
    (hv : v = 2 ^ s) (hs : s < 5) (hmask : m.toNat = 2 ^ v - 1) :
    Trailing a v (x >>> (ofBool (x &&& m == 0) <<< s)) (r + ofBool (x &&& m == 0) <<< s) := by
  obtain ⟨k, hk, hbit, hlow, hctz⟩ := h
  have hv16 : v ≤ 16 := hv ▸ Nat.pow_le_pow_right (by omega) (Nat.le_of_lt_succ hs)
  have hle : a.ctz.toNat ≤ 32 := by
    rw [BitVec.ctz_eq_reverse_clz]
    simpa [BitVec.le_def] using a.reverse.clz_le
  have hand := and_lower_eq_zero_iff (x := x) hmask
  have hflag := toNat_flag (x &&& m == 0) (s := s) (by omega)
  generalize hb : (x &&& m == 0) = b at hflag ⊢
  generalize hf : ofBool b <<< s = f at hflag ⊢
  rw [BitVec.ushiftRight_eq']
  by_cases hkv : v ≤ k
  · have hbt : b = true := by
      rw [← hb, beq_iff_eq, hand]
      exact fun i hi => hlow i (by omega)
    rw [hbt, if_pos rfl, ← hv] at hflag
    refine ⟨k - v, by omega, ?_, fun i hi => ?_, ?_⟩
    · rw [hflag, BitVec.getLsbD_ushiftRight, Nat.add_sub_cancel' hkv]
      exact hbit
    · rw [hflag, BitVec.getLsbD_ushiftRight]
      exact hlow _ (by omega)
    · rw [BitVec.toNat_add_of_lt (by omega)]
      omega
  · have hbf : b = false := by
      rw [← hb, beq_eq_false_iff_ne]
      intro h0
      rw [hand.mp h0 k (by omega)] at hbit
      cases hbit
    rw [hbf, if_neg (by decide)] at hflag
    refine ⟨k, by omega, by rwa [hflag, BitVec.ushiftRight_zero],
      by rwa [hflag, BitVec.ushiftRight_zero], ?_⟩
    rw [BitVec.toNat_add_of_lt (by omega)]
    omega

theorem Trailing.last {a x r : su_int} (h : Trailing a 2 x r) :
    r + ((2 - ((x &&& 3) >>> 1)) &&& -ofBool (x &&& 3 &&& 1 == 0)) = a.ctz := by
  obtain ⟨k, hk, hbit, hlow, hctz⟩ := h
  have hle : a.ctz.toNat ≤ 32 := by
    rw [BitVec.ctz_eq_reverse_clz]
    simpa [BitVec.le_def] using a.reverse.clz_le
  have hx : (x &&& 3).toNat = x.toNat % 4 := by
    have hthree : (3 : su_int).toNat = 2 ^ 2 - 1 := rfl
    rw [BitVec.toNat_and, hthree, Nat.and_two_pow_sub_one_eq_mod]
  have hfirst : x.getLsbD 0 = decide (x.toNat % 2 = 1) := by
    rw [← BitVec.testBit_toNat, Nat.testBit_zero]
  have hsecond : x.getLsbD 1 = decide (x.toNat / 2 % 2 = 1) := by
    rw [← BitVec.testBit_toNat, Nat.testBit_succ, Nat.testBit_zero]
  have hrest : ((2 - ((x &&& 3) >>> 1)) &&& -ofBool (x &&& 3 &&& 1 == 0)).toNat = k := by
    have hone : (1 : su_int).toNat = 1 := rfl
    have htwo : (2 : su_int).toNat = 2 := rfl
    have hthree : (3 : su_int).toNat = 3 := rfl
    generalize x &&& 3 = y at hx ⊢
    rcases (by omega : k = 0 ∨ k = 1) with rfl | rfl
    · rw [hfirst, decide_eq_true_iff] at hbit
      rcases (by omega : x.toNat % 4 = 1 ∨ x.toNat % 4 = 3) with h | h
      · obtain rfl : y = 1 := BitVec.eq_of_toNat_eq (by omega)
        rfl
      · obtain rfl : y = 3 := BitVec.eq_of_toNat_eq (by omega)
        rfl
    · have hzero := hlow 0 (by omega)
      rw [hfirst, decide_eq_false_iff_not] at hzero
      rw [hsecond, decide_eq_true_iff] at hbit
      obtain rfl : y = 2 := BitVec.eq_of_toNat_eq (by omega)
      rfl
  apply BitVec.eq_of_toNat_eq
  rw [BitVec.toNat_add_of_lt (by omega), hrest, hctz]

theorem ctzsi2_eq {a : su_int} (ha : a ≠ 0) : ctzsi2 a = a.ctz := by
  have hlt : a.ctz.toNat < 32 := BitVec.lt_def.mp (BitVec.ctz_lt_iff_ne_zero.mpr ha)
  have hzero : (0#32).toNat = 0 := rfl
  have hstart : Trailing a 32 a 0#32 :=
    ⟨a.ctz.toNat, hlt, BitVec.getLsbD_true_ctz_of_ne_zero ha,
      fun i hi => BitVec.getLsbD_false_of_lt_ctz hi, by omega⟩
  have h16 := hstart.halve (v := 16) (s := 4) (m := 0x0000FFFF) rfl (by omega) rfl
  have h8 := h16.halve (v := 8) (s := 3) (m := 0x00FF) rfl (by omega) rfl
  have h4 := h8.halve (v := 4) (s := 2) (m := 0x0F) rfl (by omega) rfl
  have h2 := h4.halve (v := 2) (s := 1) (m := 0x3) rfl (by omega) rfl
  rw [BitVec.zero_add] at h2
  exact h2.last

theorem clzdi2_eq {a : du_int} (ha : a ≠ 0) : (clzdi2 a).toNat = a.clz.toNat := by
  have hall := udwords.all_ofAll a
  rw [clzdi2]
  generalize udwords.ofAll a = x at hall ⊢
  subst hall
  have hsum := udwords.toNat_all x
  have hl := x.low.isLt
  have hzero : (0 : su_int).toNat = 0 := rfl
  by_cases hh : x.high = 0
  · have hlow : x.low ≠ 0 := (all_ne_zero_iff.mp ha).resolve_left (not_not.mpr hh)
    obtain ⟨hlt, hlo, hhi⟩ := clz_bounds hlow
    rw [hh, hzero, Nat.zero_mul, Nat.zero_add] at hsum
    have hclz : x.all.clz.toNat = 64 - 1 - (31 - x.low.clz.toNat) := by
      have hsub : 31 - x.low.clz.toNat + 1 = 32 - x.low.clz.toNat := by omega
      exact clz_unique (by omega) (by rwa [hsum]) (by rwa [hsum, hsub])
    have hmask : -ofBool (x.high == 0) = BitVec.allOnes 32 := by
      rw [hh]
      rfl
    have h32 : (BitVec.allOnes 32 &&& 32).toNat = 32 := rfl
    rw [hmask, BitVec.not_allOnes, BitVec.and_zero, BitVec.zero_or, BitVec.and_allOnes,
      clzsi2_eq hlow, BitVec.toNat_add_of_lt (by omega), h32, hclz]
    omega
  · obtain ⟨hlt, hlo, hhi⟩ := clz_bounds hh
    have hup : 2 ^ (63 - x.high.clz.toNat) = 2 ^ (31 - x.high.clz.toNat) * 2 ^ 32 := by
      rw [← Nat.pow_add]
      congr 1
      omega
    have hup' : 2 ^ (63 - x.high.clz.toNat + 1) = 2 ^ (32 - x.high.clz.toNat) * 2 ^ 32 := by
      rw [← Nat.pow_add]
      congr 1
      omega
    have hclz : x.all.clz.toNat = 64 - 1 - (63 - x.high.clz.toNat) :=
      clz_unique (by omega) (by omega) (by omega)
    have hmask : -ofBool (x.high == 0) = 0#32 := by
      rw [beq_eq_false_iff_ne.mpr hh]
      rfl
    rw [hmask, BitVec.not_zero, BitVec.and_allOnes, BitVec.and_zero, BitVec.or_zero,
      BitVec.zero_and, BitVec.add_zero, clzsi2_eq hh, hclz]
    omega

theorem getLsbD_all (x : udwords) (i : Nat) :
    x.all.getLsbD i = if i < 32 then x.low.getLsbD i else x.high.getLsbD (i - 32) := by
  rw [udwords.all, BitVec.getLsbD_append]

theorem ctzdi2_eq {a : du_int} (ha : a ≠ 0) : (ctzdi2 a).toNat = a.ctz.toNat := by
  have hall := udwords.all_ofAll a
  rw [ctzdi2]
  generalize udwords.ofAll a = x at hall ⊢
  subst hall
  by_cases hl : x.low = 0
  · have hhigh : x.high ≠ 0 := (all_ne_zero_iff.mp ha).resolve_right (not_not.mpr hl)
    have hlt : x.high.ctz.toNat < 32 := BitVec.lt_def.mp (BitVec.ctz_lt_iff_ne_zero.mpr hhigh)
    have hctz : x.all.ctz.toNat = x.high.ctz.toNat + 32 := by
      apply ctz_unique
      · rw [getLsbD_all, if_neg (by omega), Nat.add_sub_cancel]
        exact BitVec.getLsbD_true_ctz_of_ne_zero hhigh
      · intro i hi
        rw [getLsbD_all]
        split
        · rw [hl]
          exact BitVec.getLsbD_zero
        · exact BitVec.getLsbD_false_of_lt_ctz (by omega)
    have hmask : -ofBool (x.low == 0) = BitVec.allOnes 32 := by
      rw [hl]
      rfl
    have h32 : (BitVec.allOnes 32 &&& 32).toNat = 32 := rfl
    rw [hmask, BitVec.not_allOnes, BitVec.and_zero, BitVec.or_zero, BitVec.and_allOnes,
      ctzsi2_eq hhigh, BitVec.toNat_add_of_lt (by omega), h32, hctz]
  · have hlt : x.low.ctz.toNat < 32 := BitVec.lt_def.mp (BitVec.ctz_lt_iff_ne_zero.mpr hl)
    have hctz : x.all.ctz.toNat = x.low.ctz.toNat := by
      apply ctz_unique
      · rw [getLsbD_all, if_pos hlt]
        exact BitVec.getLsbD_true_ctz_of_ne_zero hl
      · intro i hi
        rw [getLsbD_all, if_pos (by omega)]
        exact BitVec.getLsbD_false_of_lt_ctz hi
    have hmask : -ofBool (x.low == 0) = 0#32 := by
      rw [beq_eq_false_iff_ne.mpr hl]
      rfl
    rw [hmask, BitVec.not_zero, BitVec.and_allOnes, BitVec.and_zero, BitVec.zero_or,
      BitVec.zero_and, BitVec.add_zero, ctzsi2_eq hl, hctz]

/-- The routines behind `__builtin_clz` and `__builtin_ctz`, without a branch or a loop, count the
zeros before the first and after the last bit, in one word and in two. -/
theorem counts_zeros {a : su_int} {b : du_int} (ha : a ≠ 0) (hb : b ≠ 0) :
    clzsi2 a = a.clz ∧ ctzsi2 a = a.ctz ∧ (clzdi2 b).toNat = b.clz.toNat ∧
      (ctzdi2 b).toNat = b.ctz.toNat := by
  exact ⟨clzsi2_eq ha, ctzsi2_eq ha, clzdi2_eq hb, ctzdi2_eq hb⟩

theorem counts_zeros_of_48 : clzsi2 48 = 26 ∧ ctzdi2 (48 <<< 40) = 44 := by
  obtain ⟨hclz, -, -, hctz⟩ := counts_zeros (a := 48) (b := 48 <<< 40) (by decide) (by decide)
  exact ⟨hclz.trans (by decide +kernel), BitVec.eq_of_toNat_eq (hctz.trans (by decide +kernel))⟩

end Riscv32Cpu.Klib.Int64
