/- module: Riscv32Cpu/Lib/Slots
   digest: A run of machine words in memory, such as a stack frame, as a function of the word's
   number. -/

import Riscv32Cpu.Lib.Memory

set_option autoImplicit false
set_option relaxedAutoImplicit false

namespace Riscv32Cpu.Lib.Slots

open Lib.Memory

-- The number of bytes of a machine word, which is also an address.
variable {n : Nat}

/-- The address of word `j` from `p` on. -/
def slot (p : BitVec (8 * n)) (j : Nat) : BitVec (8 * n) := p + BitVec.ofNat (8 * n) (n * j)

@[simp] theorem slot_zero (p : BitVec (8 * n)) : slot p 0 = p := by
  rw [slot, Nat.mul_zero]
  exact BitVec.add_zero p

theorem slot_add (p : BitVec (8 * n)) (j k : Nat) :
    slot p j + BitVec.ofNat (8 * n) (n * k) = slot p (j + k) := by
  rw [slot, slot, BitVec.add_assoc, Nat.mul_add, BitVec.ofNat_add]

theorem slot_sub (p : BitVec (8 * n)) (j k : Nat) :
    slot p (j + k) - BitVec.ofNat (8 * n) (n * k) = slot p j := by
  rw [← slot_add, BitVec.add_sub_cancel]

theorem slot_slot (p : BitVec (8 * n)) (j k : Nat) : slot (slot p j) k = slot p (j + k) :=
  slot_add p j k

theorem slot_inj (p : BitVec (8 * n)) {j k : Nat} (hj : n * j < 2 ^ (8 * n))
    (hk : n * k < 2 ^ (8 * n)) (hn : 0 < n) (h : slot p j = slot p k) : j = k := by
  have hsub : ∀ i, n * i < 2 ^ (8 * n) → (slot p i - p).toNat = n * i := fun i hi =>
    toNat_add_sub p hi
  have heq := congrArg (fun x => (x - p).toNat) h
  simp only [hsub j hj, hsub k hk] at heq
  exact Nat.eq_of_mul_eq_mul_left hn heq

/-- The words from `p` on, `count` of them, are those of `f`. -/
def Holds (m : Mem (8 * n)) (p : BitVec (8 * n)) (count : Nat) (f : Nat → BitVec (8 * n)) : Prop :=
  ∀ j < count, load m (slot p j) (8 * n) = f j

variable {m m' : Mem (8 * n)} {p : BitVec (8 * n)} {count : Nat} {f : Nat → BitVec (8 * n)}

theorem holds_load (m : Mem (8 * n)) (p : BitVec (8 * n)) (count : Nat) :
    Holds m p count fun j => load m (slot p j) (8 * n) := fun _ _ => rfl

theorem toNat_slot_sub {j i : Nat} (hfit : n * count ≤ 2 ^ (8 * n)) (hj : j < count) (hi : i < n) :
    (slot p j + BitVec.ofNat (8 * n) i - p).toNat = n * j + i := by
  have hlt : n * j + i < n * count :=
    Nat.lt_of_lt_of_le (Nat.add_lt_add_left hi _)
      (by rw [← Nat.mul_succ]; exact Nat.mul_le_mul_left n hj)
  rw [slot, BitVec.add_assoc, ← BitVec.ofNat_add, toNat_add_sub p (by omega)]

theorem Holds.congr (h : Holds m p count f) (hfit : n * count ≤ 2 ^ (8 * n))
    (heq : ∀ x, (x - p).toNat < n * count → m' x = m x) : Holds m' p count f := by
  intro j hj
  rw [← h j hj]
  refine load_congr fun i hi => heq _ ?_
  rw [toNat_slot_sub hfit hj (by omega)]
  calc n * j + i < n * j + n := by omega
    _ = n * (j + 1) := (Nat.mul_succ n j).symm
    _ ≤ n * count := Nat.mul_le_mul_left n hj

theorem Holds.store (h : Holds m p count f) (hfit : n * count ≤ 2 ^ (8 * n)) {j : Nat}
    (hj : j < count) (v : BitVec (8 * n)) :
    Holds (store m (slot p j) n v) p count (Function.update f j v) := by
  intro k hk
  by_cases hkj : k = j
  · subst hkj
    rw [Function.update_self]
    refine load_store m _ v rfl ?_
    calc n = n * 1 := (Nat.mul_one n).symm
      _ ≤ n * count := Nat.mul_le_mul_left n (by omega)
      _ ≤ 2 ^ (8 * n) := hfit
  · rw [Function.update_of_ne hkj, ← h k hk]
    refine load_congr fun i hi => store_out _ _ ?_
    have hki := toNat_slot_sub (p := p) hfit hk (show i < n by omega)
    have hbound : n * k + i < n * count := by
      calc n * k + i < n * k + n := by omega
        _ = n * (k + 1) := (Nat.mul_succ n k).symm
        _ ≤ n * count := Nat.mul_le_mul_left n hk
    have hjn : n * j + n ≤ n * count := by
      rw [← Nat.mul_succ]
      exact Nat.mul_le_mul_left n hj
    have hslot : slot p j = p + BitVec.ofNat (8 * n) (n * j) := rfl
    rw [hslot, toNat_sub_add _ p (n * j) (by omega), hki]
    rcases Nat.lt_or_gt_of_ne hkj with hlt | hgt
    · have hle : n * k + n ≤ n * j := by
        rw [← Nat.mul_succ]
        exact Nat.mul_le_mul_left n hlt
      rw [if_neg (by omega)]
      omega
    · have hle : n * j + n ≤ n * k := by
        rw [← Nat.mul_succ]
        exact Nat.mul_le_mul_left n hgt
      rw [if_pos (by omega)]
      omega

/-- The words after `k` of those below `hi` were copied up by `s` words. -/
def copiedUp {β : Type} (f : Nat → β) (hi s k : Nat) (j : Nat) : β :=
  if hi + s ≤ j + k ∧ j < hi + s then f (j - s) else f j

theorem copiedUp_zero {β : Type} (f : Nat → β) (hi s : Nat) : copiedUp f hi s 0 = f := by
  ext1 j
  rw [copiedUp, if_neg (by omega)]

theorem copiedUp_succ {β : Type} (f : Nat → β) {hi s k : Nat} (hk : k < hi) :
    Function.update (copiedUp f hi s k) (hi + s - 1 - k) (copiedUp f hi s k (hi - 1 - k)) =
      copiedUp f hi s (k + 1) := by
  have hsource : copiedUp f hi s k (hi - 1 - k) = f (hi - 1 - k) := if_neg (by omega)
  ext1 j
  rw [Function.update_apply, hsource, copiedUp, copiedUp]
  by_cases hj : j = hi + s - 1 - k
  · rw [if_pos hj, if_pos (by omega)]
    exact congrArg f (by omega)
  · rw [if_neg hj]
    by_cases hin : hi + s ≤ j + k ∧ j < hi + s
    · rw [if_pos hin, if_pos (by omega)]
    · rw [if_neg hin, if_neg (by omega)]

theorem Holds.copyUp {hi s k : Nat} (h : Holds m p count (copiedUp f hi s k))
    (hfit : n * count ≤ 2 ^ (8 * n)) (hk : k < hi) (hcount : hi + s ≤ count) :
    Holds (Lib.Memory.store m (slot p (hi + s - 1 - k)) n (load m (slot p (hi - 1 - k)) (8 * n)))
      p count (copiedUp f hi s (k + 1)) := by
  rw [h (hi - 1 - k) (by omega), ← copiedUp_succ f hk]
  exact h.store hfit (by omega) _

/-- The words from `p` on are those of `l`. -/
def Stack (m : Mem (8 * n)) (p : BitVec (8 * n)) (l : List (BitVec (8 * n))) : Prop :=
  Holds m p l.length fun j => l.getD j 0

variable {l l' : List (BitVec (8 * n))} {v : BitVec (8 * n)}

theorem Stack.get (h : Stack m p l) {j : Nat} (hj : j < l.length) :
    load m (slot p j) (8 * n) = l[j] := (h j hj).trans (List.getD_eq_getElem l 0 hj)

theorem stack_of_get (h : ∀ (j : Nat) (hj : j < l.length), load m (slot p j) (8 * n) = l[j]) :
    Stack m p l := fun j hj => (h j hj).trans (List.getD_eq_getElem l 0 hj).symm

theorem stack_append : Stack m p (l ++ l') ↔ Stack m p l ∧ Stack m (slot p l.length) l' := by
  constructor
  · intro h
    refine ⟨stack_of_get fun j hj => ?_, stack_of_get fun j hj => ?_⟩
    · rw [h.get (j := j) (by rw [List.length_append]; omega), List.getElem_append_left hj]
    · rw [slot_slot, h.get (j := l.length + j) (by rw [List.length_append]; omega),
        List.getElem_append_right (Nat.le_add_right _ _)]
      simp only [Nat.add_sub_cancel_left]
  · rintro ⟨hl, hl'⟩
    refine stack_of_get fun j hj => ?_
    rw [List.length_append] at hj
    by_cases hlt : j < l.length
    · rw [hl.get hlt, List.getElem_append_left hlt]
    · have hget := hl'.get (j := j - l.length) (by omega)
      rw [slot_slot, Nat.add_sub_cancel' (by omega)] at hget
      rw [hget, List.getElem_append_right (by omega)]

theorem stack_singleton : Stack m p [v] ↔ load m p (8 * n) = v := by
  constructor
  · intro h
    have hget := h.get (j := 0) Nat.zero_lt_one
    rw [slot_zero] at hget
    exact hget
  · intro h
    refine stack_of_get fun j hj => ?_
    obtain rfl : j = 0 := Nat.lt_one_iff.mp hj
    rw [slot_zero]
    exact h

theorem stack_cons : Stack m p (v :: l) ↔ load m p (8 * n) = v ∧ Stack m (slot p 1) l := by
  rw [← List.singleton_append, stack_append, stack_singleton]
  rfl

theorem exists_stack (m : Mem (8 * n)) (p : BitVec (8 * n)) (k : Nat) :
    ∃ l : List (BitVec (8 * n)), l.length = k ∧ Stack m p l :=
  ⟨(List.range k).map fun j => load m (slot p j) (8 * n), by simp,
    stack_of_get fun j hj => by simp⟩

theorem Stack.congr (h : Stack m p l) (hfit : n * l.length ≤ 2 ^ (8 * n))
    (heq : ∀ x, (x - p).toNat < n * l.length → m' x = m x) : Stack m' p l :=
  Holds.congr h hfit heq

theorem Stack.set (h : Stack m p l) (hfit : n * l.length ≤ 2 ^ (8 * n)) {j : Nat}
    (hj : j < l.length) (v : BitVec (8 * n)) : Stack (store m (slot p j) n v) p (l.set j v) := by
  have hstore := Holds.store h hfit hj v
  refine stack_of_get fun i hi => ?_
  rw [List.length_set] at hi
  rw [hstore i hi, List.getElem_set, Function.update_apply]
  by_cases hij : i = j
  · rw [if_pos hij, if_pos hij.symm]
  · rw [if_neg hij, if_neg (Ne.symm hij)]
    exact List.getD_eq_getElem l 0 hi

theorem Stack.push (h : Stack m (slot p 1) l) (hfit : n * (l.length + 1) ≤ 2 ^ (8 * n))
    (v : BitVec (8 * n)) : Stack (store m p n v) p (v :: l) := by
  have hold : Stack m p (load m p (8 * n) :: l) := stack_cons.mpr ⟨rfl, h⟩
  have hset := hold.set hfit (Nat.zero_lt_succ _) v
  rw [slot_zero] at hset
  exact hset

end Riscv32Cpu.Lib.Slots
