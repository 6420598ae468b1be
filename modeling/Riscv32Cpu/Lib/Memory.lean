/- module: Riscv32Cpu/Lib/Memory
   digest: Little-endian words over a byte-addressed memory, and windows laid over it. -/

import Mathlib.Data.BitVec
import Mathlib.Data.Nat.Bitwise
import Mathlib.Logic.Function.Basic

set_option autoImplicit false
set_option relaxedAutoImplicit false

namespace Riscv32Cpu.Lib.Memory

abbrev Byte := BitVec 8

/-- A memory with `a`-bit addresses; every address holds one byte. -/
abbrev Mem (a : Nat) := BitVec a → Byte

variable {a w : Nat}

/-- Byte `k` of a word, counted from the least significant one. -/
def byteAt (x : BitVec w) (k : Nat) : Byte := x.extractLsb' (8 * k) 8

/-- The word whose byte `k` is `f k`. -/
def ofBytes (w : Nat) (f : Nat → Byte) : BitVec w :=
  BitVec.ofNat w (Nat.ofBits fun i : Fin w => (f (i.val / 8)).getLsbD (i.val % 8))

/-- Replace byte `k` of a word. -/
def setByte (x : BitVec w) (k : Nat) (b : Byte) : BitVec w :=
  ofBytes w (Function.update (byteAt x) k b)

theorem getLsbD_ofBytes (f : Nat → Byte) (i : Nat) :
    (ofBytes w f).getLsbD i = (decide (i < w) && (f (i / 8)).getLsbD (i % 8)) := by
  rw [ofBytes, BitVec.getLsbD_ofNat, Nat.testBit_ofBits]
  by_cases h : i < w <;> simp [h]

theorem getLsbD_byteAt (x : BitVec w) (k i : Nat) :
    (byteAt x k).getLsbD i = (decide (i < 8) && x.getLsbD (8 * k + i)) :=
  BitVec.getLsbD_extractLsb' ..

theorem byteAt_toNat (x : BitVec w) (k : Nat) :
    (byteAt x k).toNat = x.toNat / 2 ^ (8 * k) % 256 := by
  rw [byteAt, BitVec.extractLsb'_toNat, Nat.shiftRight_eq_div_pow]

theorem byteAt_ofBytes (f : Nat → Byte) {k : Nat} (hk : 8 * k + 8 ≤ w) :
    byteAt (ofBytes w f) k = f k := by
  apply BitVec.eq_of_getLsbD_eq
  intro i hi
  rw [getLsbD_byteAt, getLsbD_ofBytes]
  have hdiv : (8 * k + i) / 8 = k := by omega
  have hmod : (8 * k + i) % 8 = i := by omega
  have hlt : 8 * k + i < w := by omega
  simp [hdiv, hmod, hlt, hi]

theorem ofBytes_byteAt (x : BitVec w) : ofBytes w (byteAt x) = x := by
  apply BitVec.eq_of_getLsbD_eq
  intro i hi
  rw [getLsbD_ofBytes, getLsbD_byteAt]
  have hlt : i % 8 < 8 := Nat.mod_lt _ (by decide)
  simp [hi, hlt, Nat.div_add_mod]

theorem ofBytes_congr {f g : Nat → Byte} (h : ∀ k, 8 * k < w → f k = g k) :
    ofBytes w f = ofBytes w g := by
  apply BitVec.eq_of_getLsbD_eq
  intro i hi
  rw [getLsbD_ofBytes, getLsbD_ofBytes, h (i / 8) (by omega)]

theorem eq_of_byteAt_eq {x y : BitVec w} (h : ∀ k, 8 * k < w → byteAt x k = byteAt y k) :
    x = y := by
  rw [← ofBytes_byteAt x, ← ofBytes_byteAt y]
  exact ofBytes_congr h

theorem byteAt_setByte (x : BitVec w) {k : Nat} (b : Byte) {j : Nat} (hj : 8 * j + 8 ≤ w) :
    byteAt (setByte x k b) j = if j = k then b else byteAt x j := by
  rw [setByte, byteAt_ofBytes _ hj, Function.update_apply]

theorem byteAt_setWidth (x : Byte) : byteAt (x.setWidth 32) 0 = x := by
  apply BitVec.eq_of_getLsbD_eq
  intro i hi
  rw [getLsbD_byteAt, BitVec.getLsbD_setWidth]
  have h32 : i < 32 := by omega
  simp only [Nat.mul_zero, Nat.zero_add, hi, h32, decide_true, Bool.true_and]

theorem byteAt_zero (k : Nat) : byteAt 0#w k = 0#8 := by
  apply BitVec.eq_of_getLsbD_eq
  simp [getLsbD_byteAt]

theorem toNat_eq_bytes (x : BitVec 32) :
    x.toNat = (byteAt x 0).toNat + 256 * (byteAt x 1).toNat + 65536 * (byteAt x 2).toNat +
      16777216 * (byteAt x 3).toNat := by
  simp only [byteAt_toNat]
  have := x.isLt
  omega

/-- `f` laid over the `n` bytes from `b` on; addresses wrap around. -/
def overlay (m : Mem a) (b : BitVec a) (n : Nat) (f : Nat → Byte) : Mem a := fun x =>
  if (x - b).toNat < n then f (x - b).toNat else m x

/-- The little-endian word of `w` bits at `x`. -/
def load (m : Mem a) (x : BitVec a) (w : Nat) : BitVec w :=
  ofBytes w fun k => m (x + BitVec.ofNat a k)

/-- Write the low `n` bytes of `v` at `x`. -/
def store (m : Mem a) (x : BitVec a) (n : Nat) (v : BitVec w) : Mem a := overlay m x n (byteAt v)

theorem toNat_add_sub (b : BitVec a) {k : Nat} (hk : k < 2 ^ a) :
    (b + BitVec.ofNat a k - b).toNat = k := by
  rw [BitVec.add_comm, BitVec.add_sub_cancel, BitVec.toNat_ofNat, Nat.mod_eq_of_lt hk]

theorem overlay_in (m : Mem a) (b : BitVec a) {n k : Nat} (f : Nat → Byte) (hk : k < n)
    (hn : n ≤ 2 ^ a) : overlay m b n f (b + BitVec.ofNat a k) = f k := by
  rw [overlay, toNat_add_sub b (by omega), if_pos hk]

theorem overlay_out (m : Mem a) {b : BitVec a} {n : Nat} (f : Nat → Byte) {x : BitVec a}
    (hx : ¬(x - b).toNat < n) : overlay m b n f x = m x := if_neg hx

theorem overlay_self (m : Mem a) (b : BitVec a) (n : Nat) :
    overlay m b n (fun k => m (b + BitVec.ofNat a k)) = m := by
  funext x
  unfold overlay
  split
  · show m (b + BitVec.ofNat a (x - b).toNat) = m x
    rw [BitVec.ofNat_toNat, BitVec.setWidth_eq, BitVec.add_comm, BitVec.sub_add_cancel]
  · rfl

theorem overlay_congr (m : Mem a) (b : BitVec a) {n : Nat} {f g : Nat → Byte}
    (h : ∀ k < n, f k = g k) : overlay m b n f = overlay m b n g := by
  funext x
  unfold overlay
  split
  · next hx => exact h _ hx
  · rfl

theorem overlay_zero (m : Mem a) (b : BitVec a) (f : Nat → Byte) : overlay m b 0 f = m :=
  funext fun _ => if_neg (Nat.not_lt_zero _)

theorem overlay_succ (m : Mem a) (b : BitVec a) {n : Nat} (f : Nat → Byte) (hn : n < 2 ^ a) :
    overlay m b (n + 1) f =
      Function.update (overlay m b n f) (b + BitVec.ofNat a n) (f n) := by
  funext x
  rw [Function.update_apply]
  by_cases hx : x = b + BitVec.ofNat a n
  · rw [if_pos hx, hx, overlay_in m b f (Nat.lt_succ_self n) hn]
  · have hne : (x - b).toNat ≠ n := by
      intro heq
      refine hx ?_
      rw [← heq, BitVec.ofNat_toNat, BitVec.setWidth_eq, BitVec.add_comm, BitVec.sub_add_cancel]
    rw [if_neg hx]
    unfold overlay
    split_ifs <;> first | rfl | omega

theorem toNat_sub_add (x b : BitVec a) (k : Nat) (hk : k < 2 ^ a) :
    (x - (b + BitVec.ofNat a k)).toNat =
      if k ≤ (x - b).toNat then (x - b).toNat - k else 2 ^ a + (x - b).toNat - k := by
  have hsub : x - (b + BitVec.ofNat a k) = (x - b) - BitVec.ofNat a k := sub_add_eq_sub_sub x b _
  have hlt := (x - b).isLt
  rw [hsub, BitVec.toNat_sub, BitVec.toNat_ofNat, Nat.mod_eq_of_lt hk]
  split
  · have hwrap : 2 ^ a - k + (x - b).toNat = (x - b).toNat - k + 2 ^ a := by omega
    rw [hwrap, Nat.add_mod_right, Nat.mod_eq_of_lt (by omega)]
  · rw [Nat.mod_eq_of_lt (by omega)]
    omega

theorem overlay_overlay_inside (m : Mem a) (b : BitVec a) {n k j : Nat} (f g : Nat → Byte)
    (hkj : k + j ≤ n) (hn : n ≤ 2 ^ a) (hj : 0 < j) :
    overlay (overlay m b n f) (b + BitVec.ofNat a k) j g =
      overlay m b n (fun i => if k ≤ i ∧ i < k + j then g (i - k) else f i) := by
  funext x
  have hlt := (x - b).isLt
  simp only [overlay, toNat_sub_add x b k (by omega)]
  split_ifs <;> first | rfl | (exfalso; omega)

theorem overlay_append (m : Mem a) (b : BitVec a) {n k : Nat} (f : Nat → Byte)
    (h : n + k ≤ 2 ^ a) :
    overlay (overlay m b n f) (b + BitVec.ofNat a n) k (fun i => f (n + i)) =
      overlay m b (n + k) f := by
  cases k with
  | zero => exact overlay_zero _ _ _
  | succ k =>
    funext x
    have hlt := (x - b).isLt
    simp only [overlay, toNat_sub_add x b n (by omega)]
    by_cases hx : n ≤ (x - b).toNat
    · have hback : n + ((x - b).toNat - n) = (x - b).toNat := by omega
      rw [if_pos hx, hback]
      split_ifs <;> first | rfl | (exfalso; omega)
    · rw [if_neg hx]
      split_ifs <;> first | rfl | (exfalso; omega)

theorem overlay_ofNat (m : Mem a) {b n x : Nat} (f : Nat → Byte) (hb : b + n ≤ 2 ^ a)
    (hx : x < 2 ^ a) :
    overlay m (BitVec.ofNat a b) n f (BitVec.ofNat a x) =
      if b ≤ x ∧ x < b + n then f (x - b) else m (BitVec.ofNat a x) := by
  by_cases hn : n = 0
  · rw [hn, overlay_zero, if_neg (by omega)]
  · have hoff : (BitVec.ofNat a x - BitVec.ofNat a b).toNat =
        if b ≤ x then x - b else 2 ^ a + x - b := by
      rw [BitVec.toNat_sub, BitVec.toNat_ofNat, BitVec.toNat_ofNat, Nat.mod_eq_of_lt hx,
        Nat.mod_eq_of_lt (by omega : b < 2 ^ a)]
      split
      · have hwrap : 2 ^ a - b + x = x - b + 2 ^ a := by omega
        rw [hwrap, Nat.add_mod_right, Nat.mod_eq_of_lt (by omega)]
      · rw [Nat.mod_eq_of_lt (by omega)]
        omega
    rw [overlay, hoff]
    by_cases hbx : b ≤ x
    · rw [if_pos hbx]
      exact if_congr (by omega) rfl rfl
    · rw [if_neg hbx, if_neg (by omega), if_neg (by omega)]

theorem load_congr {m m' : Mem a} {x : BitVec a}
    (h : ∀ k, 8 * k < w → m (x + BitVec.ofNat a k) = m' (x + BitVec.ofNat a k)) :
    load m x w = load m' x w := ofBytes_congr h

theorem load_byte (m : Mem a) (x : BitVec a) : load m x 8 = m x := by
  apply BitVec.eq_of_getLsbD_eq
  intro i hi
  have hdiv : i / 8 = 0 := by omega
  have hmod : i % 8 = i := by omega
  rw [load, getLsbD_ofBytes, decide_eq_true hi, hdiv, hmod, Bool.true_and]
  show (m (x + 0#a)).getLsbD i = (m x).getLsbD i
  rw [BitVec.add_zero]

theorem store_byte (m : Mem a) (x : BitVec a) (v : BitVec w) :
    store m x 1 v = Function.update m x (byteAt v 0) := by
  funext y
  rw [store, overlay, Function.update_apply]
  have hzero : (y - x).toNat < 1 ↔ y = x := by
    rw [Nat.lt_one_iff, ← BitVec.toNat_zero, BitVec.toNat_inj]
    exact sub_eq_zero
  by_cases hy : y = x
  · rw [if_pos (hzero.mpr hy), if_pos hy, Nat.lt_one_iff.mp (hzero.mpr hy)]
  · rw [if_neg fun h => hy (hzero.mp h), if_neg hy]

theorem store_out (m : Mem a) {x : BitVec a} {n : Nat} (v : BitVec w) {y : BitVec a}
    (hy : ¬(y - x).toNat < n) : store m x n v y = m y := overlay_out m _ hy

theorem load_store (m : Mem a) (x : BitVec a) {n : Nat} (v : BitVec w) (hw : w = 8 * n)
    (hn : n ≤ 2 ^ a) : load (store m x n v) x w = v := by
  rw [← ofBytes_byteAt v, load]
  refine ofBytes_congr fun k hk => ?_
  rw [store, overlay_in m x _ (by omega) hn, ofBytes_byteAt]

end Riscv32Cpu.Lib.Memory
