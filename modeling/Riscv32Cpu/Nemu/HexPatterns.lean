/- module: Riscv32Cpu/Nemu/HexPatterns
   source: CODE/nemu/include/cpu/decode.h
   digest: Hexadecimal pattern strings are decoded as the binary strings they abbreviate. -/

import Riscv32Cpu.Nemu.Decode

set_option autoImplicit false
set_option relaxedAutoImplicit false

namespace Riscv32Cpu.Nemu.HexPatterns

open Riscv32Cpu.Nemu.Decode

def IsDecimal (c : Char) : Prop := c ≥ '0' ∧ c ≤ '9'

instance (c : Char) : Decidable (IsDecimal c) := inferInstanceAs (Decidable (_ ∧ _))

/-- `(c >= '0' && c <= '9') ? c - '0' : c - 'a' + 10` -/
def hexValue (c : Char) : Nat :=
  if IsDecimal c then c.toNat - '0'.toNat else c.toNat - 'a'.toNat + 10

/-- One character of a hexadecimal pattern string. -/
def patternCharHex (p : Pattern) (c : Char) : Except String Pattern :=
  if c ≠ ' ' then
    if IsDecimal c ∨ (c ≥ 'a' ∧ c ≤ 'f') ∨ c = '?' then
      .ok ⟨(p.key <<< 4) ||| (if c = '?' then 0 else BitVec.ofNat 64 (hexValue c)),
        (p.mask <<< 4) ||| (if c = '?' then 0 else 0xf), if c = '?' then p.shift + 4 else 0⟩
    else .error ("invalid character '" ++ c.toString ++ "' in pattern string")
  else .ok p

/-- The unrolled loop `macro16`, with the number of copies of `macro` that are left. -/
def patternLoopHex : Nat → List Char → Pattern → Except String Pattern
  | 0, _, _ => .error "pattern too long"
  | _ + 1, [], p => .ok ⟨p.key >>> p.shift, p.mask >>> p.shift, p.shift⟩
  | n + 1, c :: cs, p => (patternCharHex p c).bind (patternLoopHex n cs)

def patternDecodeHex (str : String) : Except String Pattern :=
  patternLoopHex 16 str.toList ⟨0, 0, 0⟩

/-- The characters of a hexadecimal pattern. -/
def HexChar (c : Char) : Prop := IsDecimal c ∨ (c ≥ 'a' ∧ c ≤ 'f') ∨ c = '?' ∨ c = ' '

def bitChar (b : Bool) : Char := if b then '1' else '0'

/-- The four bits of a digit, the highest first. -/
def nibble (n : Nat) : List Char := [3, 2, 1, 0].map fun i => bitChar (n.testBit i)

def expandChar (c : Char) : List Char :=
  if c = ' ' then [' '] else if c = '?' then ['?', '?', '?', '?'] else nibble (hexValue c)

/-- The binary pattern that a hexadecimal one abbreviates. -/
def expand (str : String) : String := String.ofList (str.toList.flatMap expandChar)

theorem push_four (x a b c d : BitVec 64) :
    ((((x <<< 1 ||| a) <<< 1 ||| b) <<< 1 ||| c) <<< 1 ||| d) =
      x <<< 4 ||| (((a <<< 1 ||| b) <<< 1 ||| c) <<< 1 ||| d) := by
  simp only [BitVec.shiftLeft_or_distrib, ← BitVec.shiftLeft_add, BitVec.or_assoc]

theorem value_of_bits : ∀ n < 16,
    ((((if n.testBit 3 then 1 else 0 : BitVec 64) <<< 1 ||| if n.testBit 2 then 1 else 0) <<< 1 |||
      if n.testBit 1 then 1 else 0) <<< 1 ||| if n.testBit 0 then 1 else 0) = BitVec.ofNat 64 n := by
  decide

theorem patternChar_bit (p : Pattern) (b : Bool) :
    patternChar p (bitChar b) =
      .ok ⟨(p.key <<< 1) ||| (if b then 1 else 0), (p.mask <<< 1) ||| 1, 0⟩ := by
  cases b with
  | false => rfl
  | true => rfl

theorem nibble_step (p : Pattern) {n : Nat} (hn : n < 16) :
    (nibble n).foldlM patternChar p =
      .ok ⟨(p.key <<< 4) ||| BitVec.ofNat 64 n, (p.mask <<< 4) ||| 0xf, 0⟩ := by
  have hrun : (nibble n).foldlM patternChar p =
      (patternChar p (bitChar (n.testBit 3))).bind fun p =>
        (patternChar p (bitChar (n.testBit 2))).bind fun p =>
          (patternChar p (bitChar (n.testBit 1))).bind fun p =>
            (patternChar p (bitChar (n.testBit 0))).bind pure := rfl
  rw [hrun, patternChar_bit]
  show (patternChar _ (bitChar (n.testBit 2))).bind _ = _
  rw [patternChar_bit]
  show (patternChar _ (bitChar (n.testBit 1))).bind _ = _
  rw [patternChar_bit]
  show (patternChar _ (bitChar (n.testBit 0))).bind _ = _
  rw [patternChar_bit]
  show Except.ok (Pattern.mk _ _ _) = _
  dsimp only
  rw [push_four, push_four, value_of_bits n hn]
  rfl

theorem wildcard_step (p : Pattern) :
    ['?', '?', '?', '?'].foldlM patternChar p =
      .ok ⟨(p.key <<< 4) ||| 0, (p.mask <<< 4) ||| 0, p.shift + 4⟩ := by
  have hrun : ['?', '?', '?', '?'].foldlM patternChar p =
      .ok ⟨(((p.key <<< 1 ||| 0) <<< 1 ||| 0) <<< 1 ||| 0) <<< 1 ||| 0,
        (((p.mask <<< 1 ||| 0) <<< 1 ||| 0) <<< 1 ||| 0) <<< 1 ||| 0,
        p.shift + 1 + 1 + 1 + 1⟩ := rfl
  have hfour : p.shift + 1 + 1 + 1 + 1 = p.shift + 4 := by
    rw [BitVec.add_assoc, BitVec.add_assoc, BitVec.add_assoc]
    rfl
  rw [hrun, push_four, push_four, hfour]
  rfl

theorem hexValue_lt {c : Char} (h : IsDecimal c ∨ (c ≥ 'a' ∧ c ≤ 'f')) : hexValue c < 16 := by
  have hle : ∀ d : Char, c ≤ d → c.toNat ≤ d.toNat := fun d hd => UInt32.le_iff_toNat_le.mp hd
  rw [hexValue]
  split
  · next hdec =>
    have hnine := hle '9' hdec.2
    show c.toNat - 48 < 16
    have h57 : c.toNat ≤ 57 := hnine
    omega
  · next hdec =>
    rcases h with h | h
    · exact absurd h hdec
    · have h102 : c.toNat ≤ 102 := hle 'f' h.2
      show c.toNat - 97 + 10 < 16
      omega

theorem patternCharHex_eq (p : Pattern) {c : Char} (hc : HexChar c) :
    ∃ q, patternCharHex p c = .ok q ∧ (expandChar c).foldlM patternChar p = .ok q := by
  by_cases hblank : c = ' '
  · subst hblank
    exact ⟨p, rfl, rfl⟩
  · rw [patternCharHex, if_pos hblank, expandChar, if_neg hblank]
    by_cases hfree : c = '?'
    · rw [if_pos (.inr (.inr hfree)), if_pos hfree, if_pos hfree, if_pos hfree, if_pos hfree,
        wildcard_step]
      exact ⟨_, rfl, rfl⟩
    · have hdigit : IsDecimal c ∨ (c ≥ 'a' ∧ c ≤ 'f') := by
        rcases hc with h | h | h | h
        · exact .inl h
        · exact .inr h
        · exact absurd h hfree
        · exact absurd h hblank
      have hvalid : IsDecimal c ∨ (c ≥ 'a' ∧ c ≤ 'f') ∨ c = '?' := by
        rcases hdigit with h | h
        · exact .inl h
        · exact .inr (.inl h)
      rw [if_pos hvalid, if_neg hfree, if_neg hfree, if_neg hfree, if_neg hfree,
        nibble_step p (hexValue_lt hdigit)]
      exact ⟨_, rfl, rfl⟩

theorem patternLoop_append {l : List Char} {p q : Pattern} (h : l.foldlM patternChar p = .ok q)
    (n : Nat) (cs : List Char) : patternLoop (l.length + n) (l ++ cs) p = patternLoop n cs q := by
  induction l generalizing p with
  | nil =>
    cases h
    rw [List.length_nil, Nat.zero_add, List.nil_append]
  | cons c l ih =>
    rw [List.foldlM_cons] at h
    rw [List.length_cons, Nat.add_right_comm, List.cons_append, patternLoop]
    cases hchar : patternChar p c with
    | error e =>
      rw [hchar] at h
      cases h
    | ok p' =>
      rw [hchar] at h
      exact ih h

theorem length_expandChar_le (c : Char) : (expandChar c).length ≤ 4 := by
  rw [expandChar]
  split
  · exact Nat.succ_le_succ (Nat.zero_le 3)
  · split
    · exact Nat.le_refl 4
    · exact Nat.le_refl 4

theorem patternLoopHex_eq {cs : List Char} (hcs : ∀ c ∈ cs, HexChar c) (p : Pattern) {n m : Nat}
    (hn : cs.length < n) (hm : 4 * cs.length < m) :
    ∃ q, patternLoopHex n cs p = .ok q ∧ patternLoop m (cs.flatMap expandChar) p = .ok q := by
  induction cs generalizing p n m with
  | nil =>
    obtain ⟨n, rfl⟩ := Nat.exists_eq_add_one_of_ne_zero (Nat.ne_of_gt hn)
    obtain ⟨m, rfl⟩ := Nat.exists_eq_add_one_of_ne_zero (Nat.ne_of_gt hm)
    exact ⟨_, rfl, rfl⟩
  | cons c cs ih =>
    rw [List.length_cons] at hn hm
    obtain ⟨n, rfl⟩ := Nat.exists_eq_add_one_of_ne_zero (Nat.ne_zero_of_lt hn)
    have hlen := length_expandChar_le c
    obtain ⟨m, rfl⟩ : ∃ k, m = (expandChar c).length + k := ⟨m - (expandChar c).length, by omega⟩
    obtain ⟨p', hhex, hbin⟩ := patternCharHex_eq p (hcs c List.mem_cons_self)
    obtain ⟨q, hq, hq'⟩ := ih (fun d hd => hcs d (List.mem_cons_of_mem c hd)) p'
      (n := n) (m := m) (by omega) (by omega)
    refine ⟨q, ?_, ?_⟩
    · rw [patternLoopHex, hhex]
      exact hq
    · rw [List.flatMap_cons, patternLoop_append hbin]
      exact hq'

/-- The hexadecimal decoder agrees with the binary one. -/
theorem patternDecodeHex_eq (str : String) (hlen : str.length ≤ 15)
    (hchars : ∀ c ∈ str.toList, HexChar c) :
    ∃ p, patternDecodeHex str = .ok p ∧ patternDecode (expand str) = .ok p := by
  rw [← String.length_toList] at hlen
  rw [patternDecodeHex, patternDecode, expand, String.toList_ofList]
  exact patternLoopHex_eq hchars _ (by omega) (by omega)

/-- A pattern with a blank in its trailing run of wildcards. -/
def trailingRun : String := String.ofList ['f', '?', ' ', '?']

theorem trailingRun_decodes :
    ∃ p, patternDecodeHex trailingRun = .ok p ∧ patternDecode (expand trailingRun) = .ok p := by
  refine patternDecodeHex_eq trailingRun ?_ fun c hc => ?_
  · rw [← String.length_toList, trailingRun, String.toList_ofList]
    decide
  · rw [trailingRun, String.toList_ofList] at hc
    have hcases : c = 'f' ∨ c = '?' ∨ c = ' ' ∨ c = '?' := by simpa using hc
    rcases hcases with rfl | rfl | rfl | rfl
    · exact .inr (.inl (by decide))
    · exact .inr (.inr (.inl rfl))
    · exact .inr (.inr (.inr rfl))
    · exact .inr (.inr (.inl rfl))

end Riscv32Cpu.Nemu.HexPatterns
