/- module: Riscv32Cpu/Klib/Atoi
   source: CODE/abstract-machine/klib/src/stdlib.c
   digest: Decimal numbers as atoi of klib reads them: no sign, and up to 48 below 2^31. -/

import Mathlib.Algebra.Group.Nat.Defs
import Mathlib.Algebra.Ring.Int.Defs
import Mathlib.Data.List.GetD
import Mathlib.Order.Basic

set_option autoImplicit false
set_option relaxedAutoImplicit false

namespace Riscv32Cpu.Klib.Atoi

/-- The chars from a pointer on, by their codes. It is open whether a `char` has a sign. -/
abbrev Str := Nat → Int

def code (c : Char) : Int := c.toNat

def IsDigit (c : Int) : Prop := code '0' ≤ c ∧ c ≤ code '9'

instance decidableIsDigit (c : Int) : Decidable (IsDigit c) := inferInstanceAs (Decidable (_ ∧ _))

inductive Stop
  | overflow
  | unfinished

/-- The value of an `int` expression. -/
def int (n : Int) : Except Stop Int :=
  if -2 ^ 31 ≤ n ∧ n < 2 ^ 31 then .ok n else .error .overflow

/-- The loop over the spaces. -/
def skipSpaces (nptr : Str) : Nat → Nat → Except Stop Nat
  | 0, _ => .error .unfinished
  | fuel + 1, p => if nptr p = code ' ' then skipSpaces nptr fuel (p + 1) else .ok p

/-- The loop over the digits. -/
def digitLoop (nptr : Str) : Nat → Nat → Int → Except Stop Int
  | 0, _, _ => .error .unfinished
  | fuel + 1, p, x =>
    if IsDigit (nptr p) then do
      let x ← int (x * 10)
      let x ← int (x + nptr p)
      let x ← int (x - code '0')
      digitLoop nptr fuel (p + 1) x
    else .ok x

def atoi (nptr : Str) (fuel : Nat) : Except Stop Int := do
  let p ← skipSpaces nptr fuel 0
  digitLoop nptr fuel p 0

inductive Sign
  | plus
  | minus
  deriving DecidableEq

/-- Spaces, a sign or none, and the digits. -/
structure Numeral where
  spaces : Nat
  sign : Option Sign
  digits : List (Fin 10)
  digits_ne : digits ≠ []

def Sign.code : Sign → Int
  | .plus => Atoi.code '+'
  | .minus => Atoi.code '-'

def digitCode (d : Fin 10) : Int := code '0' + d.val

def Numeral.text (num : Numeral) : List Int :=
  List.replicate num.spaces (code ' ') ++ (num.sign.toList.map Sign.code ++
    num.digits.map digitCode)

/-- The number that some more digits make of `v`. -/
def valueFrom (v : Nat) (digits : List (Fin 10)) : Nat :=
  digits.foldl (fun v (d : Fin 10) => 10 * v + d.val) v

def Numeral.value (num : Numeral) : Int :=
  if num.sign = some .minus then -(valueFrom 0 num.digits) else valueFrom 0 num.digits

/-- The string begins with `text`. -/
def Begins (nptr : Str) (p : Nat) (text : List Int) : Prop :=
  ∀ k (h : k < text.length), nptr (p + k) = text[k]

/-- The string begins with the number, and with no further digit. -/
structure Numeral.At (num : Numeral) (nptr : Str) : Prop where
  text : Begins nptr 0 num.text
  stop : ¬IsDigit (nptr num.text.length)

/-- The call returns the number, and no expression in it overflows. -/
def Returns (nptr : Str) (n : Int) : Prop := ∃ bound, ∀ fuel ≥ bound, atoi nptr fuel = .ok n

theorem Begins.split {nptr : Str} {p : Nat} {s t : List Int} (h : Begins nptr p (s ++ t)) :
    Begins nptr p s ∧ Begins nptr (p + s.length) t := by
  constructor
  · intro k hk
    rw [h k (by simp; omega), List.getElem_append_left]
  · intro k hk
    rw [Nat.add_assoc, h (s.length + k) (by simp; omega), List.getElem_append_right (by omega)]
    simp

theorem Begins.cons {nptr : Str} {p : Nat} {c : Int} {s : List Int} (h : Begins nptr p (c :: s)) :
    nptr p = c ∧ Begins nptr (p + 1) s :=
  ⟨h 0 (Nat.succ_pos _), (Begins.split (s := [c]) h).2⟩

theorem isDigit_digitCode (d : Fin 10) : IsDigit (digitCode d) := by
  have hd := d.isLt
  have hzero : code '0' = 48 := rfl
  have hnine : code '9' = 57 := rfl
  unfold IsDigit digitCode
  omega

theorem le_valueFrom (v : Nat) (digits : List (Fin 10)) : v ≤ valueFrom v digits := by
  induction digits generalizing v with
  | nil => exact Nat.le_refl v
  | cons d digits ih =>
    have hstep : v ≤ 10 * v + d.val := by omega
    exact Nat.le_trans hstep (ih _)

theorem skipSpaces_eq {nptr : Str} {p n fuel : Nat}
    (hspaces : Begins nptr p (List.replicate n (code ' '))) (hstop : nptr (p + n) ≠ code ' ')
    (hfuel : n < fuel) : skipSpaces nptr fuel p = .ok (p + n) := by
  induction n generalizing p fuel with
  | zero =>
    obtain ⟨fuel, rfl⟩ : ∃ k, fuel = k + 1 := ⟨fuel - 1, by omega⟩
    exact if_neg hstop
  | succ n ih =>
    obtain ⟨fuel, rfl⟩ : ∃ k, fuel = k + 1 := ⟨fuel - 1, by omega⟩
    obtain ⟨hspace, hrest⟩ := Begins.cons hspaces
    have hnext : p + (n + 1) = p + 1 + n := by omega
    rw [hnext] at hstop ⊢
    rw [skipSpaces, if_pos hspace]
    exact ih hrest hstop (by omega)

theorem int_bind {n : Int} (h : -2 ^ 31 ≤ n ∧ n < 2 ^ 31) (f : Int → Except Stop Int) :
    (int n >>= f) = f n := by
  rw [int, if_pos h]
  rfl

theorem int_bind_overflow {n : Int} (h : 2 ^ 31 ≤ n) (f : Int → Except Stop Int) :
    (int n >>= f) = .error .overflow := by
  rw [int, if_neg (by omega)]
  rfl

/-- The digits are read to their end, unless a sum with the code of a digit is no `int`. -/
theorem digitLoop_eq {nptr : Str} {digits : List (Fin 10)} {p v fuel : Nat}
    (hdigits : Begins nptr p (digits.map digitCode)) (hstop : ¬IsDigit (nptr (p + digits.length)))
    (hv : v + 48 < 2 ^ 31) (hfuel : digits.length < fuel) :
    digitLoop nptr fuel p v =
      if valueFrom v digits + 48 < 2 ^ 31 then .ok (valueFrom v digits : Int)
      else .error .overflow := by
  induction digits generalizing p v fuel with
  | nil =>
    obtain ⟨fuel, rfl⟩ : ∃ k, fuel = k + 1 := ⟨fuel - 1, by omega⟩
    have hvalue : valueFrom v [] = v := rfl
    rw [hvalue, if_pos hv]
    exact if_neg hstop
  | cons d digits ih =>
    obtain ⟨fuel, rfl⟩ : ∃ k, fuel = k + 1 := ⟨fuel - 1, by omega⟩
    obtain ⟨hd, hrest⟩ := Begins.cons hdigits
    have hzero : code '0' = 48 := rfl
    have hdigit : IsDigit (nptr p) := hd ▸ isDigit_digitCode d
    have hlt := d.isLt
    have hle := le_valueFrom (10 * v + d) digits
    have hvalue : valueFrom v (d :: digits) = valueFrom (10 * v + d) digits := rfl
    rw [List.length_cons] at hstop hfuel
    rw [hvalue, digitLoop, if_pos hdigit, hd, digitCode, hzero]
    by_cases hfits : 10 * v + d.val + 48 < 2 ^ 31
    · have hcast : (v * 10 + (48 + d.val) - 48 : Int) = ((10 * v + d.val : Nat) : Int) := by omega
      rw [int_bind (by omega), int_bind (by omega), int_bind (by omega), hcast]
      exact ih hrest (by rw [Nat.add_right_comm]; exact hstop) hfits (by omega)
    · rw [if_neg (by omega)]
      by_cases hten : v * 10 < 2 ^ 31
      · rw [int_bind (by omega), int_bind_overflow (by omega)]
      · rw [int_bind_overflow (by omega)]

theorem digitLoop_sign {nptr : Str} {p fuel : Nat} {sign : Sign} (hsign : nptr p = sign.code)
    (hfuel : 0 < fuel) : digitLoop nptr fuel p 0 = .ok 0 := by
  obtain ⟨fuel, rfl⟩ : ∃ k, fuel = k + 1 := ⟨fuel - 1, by omega⟩
  have hstop : ¬IsDigit (nptr p) := by
    rw [hsign]
    cases sign <;> decide
  exact if_neg hstop

/-- What `atoi` makes of a number. -/
def Numeral.read (num : Numeral) : Except Stop Int :=
  if num.sign.isSome then .ok 0
  else if valueFrom 0 num.digits + 48 < 2 ^ 31 then .ok (valueFrom 0 num.digits : Int)
  else .error .overflow

theorem atoi_eq {num : Numeral} {nptr : Str} (h : num.At nptr) {fuel : Nat}
    (hfuel : num.text.length < fuel) : atoi nptr fuel = num.read := by
  obtain ⟨spaces, sign, digits, hne⟩ := num
  obtain ⟨htext, hstop⟩ := h
  unfold Numeral.text at htext hstop hfuel
  dsimp only at htext hstop hfuel
  obtain ⟨hspaces, hrest⟩ := htext.split
  simp only [List.length_append, List.length_replicate, List.length_map] at hstop hfuel hrest
  cases sign with
  | none =>
    obtain ⟨d, ds, rfl⟩ := List.exists_cons_of_ne_nil hne
    have hfirst := (Begins.cons hrest).1
    have hblank : nptr (0 + spaces) ≠ code ' ' := by
      intro heq
      have hdigit := isDigit_digitCode d
      rw [← hfirst, heq] at hdigit
      exact absurd hdigit (by decide)
    rw [atoi, skipSpaces_eq hspaces hblank (by omega)]
    dsimp only [bind, Except.bind]
    have hend : 0 + spaces + (d :: ds).length =
        spaces + (([] : List Sign).length + (d :: ds).length) := by
      simp
    rw [← Int.natCast_zero]
    exact digitLoop_eq hrest (hend ▸ hstop) (by decide) (by simp at hfuel ⊢; omega)
  | some sign =>
    have hfirst := (Begins.cons hrest).1
    have hblank : nptr (0 + spaces) ≠ code ' ' := by
      rw [hfirst]
      cases sign <;> decide
    rw [atoi, skipSpaces_eq hspaces hblank (by omega)]
    exact digitLoop_sign hfirst (by omega)

theorem returns_iff_read {num : Numeral} {nptr : Str} (h : num.At nptr) (n : Int) :
    Returns nptr n ↔ num.read = .ok n := by
  constructor
  · rintro ⟨bound, hrun⟩
    rw [← atoi_eq h (Nat.lt_succ_of_le (Nat.le_max_right bound num.text.length))]
    exact hrun _ (by omega)
  · intro hread
    exact ⟨num.text.length + 1, fun fuel hfuel => (atoi_eq h (by omega)).trans hread⟩

/-- A number is returned exactly when it has no sign, or is zero, and it lies more than 48 below
2^31. -/
theorem atoi_returns_iff {num : Numeral} {nptr : Str} (h : num.At nptr) :
    Returns nptr num.value ↔
      (num.sign = none ∨ num.value = 0) ∧ num.value < 2 ^ 31 - 48 := by
  rw [returns_iff_read h, Numeral.read, Numeral.value]
  cases num.sign with
  | none =>
    have hplus : (none : Option Sign) ≠ some .minus := fun h => by cases h
    rw [if_neg hplus]
    by_cases hfits : valueFrom 0 num.digits + 48 < 2 ^ 31
    · rw [if_pos hfits]
      exact iff_of_true rfl ⟨.inl rfl, by omega⟩
    · rw [if_neg hfits]
      refine iff_of_false (fun h => ?_) fun h => ?_
      · cases h
      · omega
  | some sign =>
    cases sign with
    | plus => simp; omega
    | minus => simp; omega

/-- The string that is the number alone, up to its terminator. -/
def Numeral.str (num : Numeral) : Str := fun k => num.text.getD k 0

theorem Numeral.at_str (num : Numeral) : num.At num.str where
  text k hk := by simp [Numeral.str, hk]
  stop := by
    have hend : num.str num.text.length = 0 := by simp [Numeral.str]
    rw [hend]
    decide

def fortyTwo : Numeral := ⟨2, none, [4, 2], by decide⟩

theorem fortyTwo_returned : Returns fortyTwo.str 42 :=
  (atoi_returns_iff fortyTwo.at_str).mpr ⟨.inl rfl, by decide⟩

def minusFive : Numeral := ⟨0, some .minus, [5], by decide⟩

def intMax : Numeral := ⟨0, none, [2, 1, 4, 7, 4, 8, 3, 6, 4, 7], by decide⟩

/-- `-5` is read as 0, and the last digit of `2147483647` overflows. -/
theorem minusFive_intMax_not_returned :
    minusFive.value = -5 ∧ intMax.value = 2 ^ 31 - 1 ∧
      ¬Returns minusFive.str (-5) ∧ ¬Returns intMax.str (2 ^ 31 - 1) := by
  refine ⟨rfl, rfl, fun h => ?_, fun h => ?_⟩
  · have hread := (returns_iff_read minusFive.at_str _).mp h
    cases hread
  · have hread := (returns_iff_read intMax.at_str _).mp h
    cases hread

end Riscv32Cpu.Klib.Atoi
