/- module: Riscv32Cpu/Nemu/Patterns
   source: CODE/nemu/include/cpu/decode.h
   digest: `pattern_decode` compiles a pattern string into the test its characters describe. -/

import Riscv32Cpu.Nemu.Decode

set_option autoImplicit false
set_option relaxedAutoImplicit false

namespace Riscv32Cpu.Nemu.Patterns

open Riscv32Cpu.Isa.Rv32i Riscv32Cpu.Nemu.Decode

/-- The condition of `INSTPAT`, on all 64 bits. -/
def test (p : Pattern) (w : BitVec 64) : Bool := ((w >>> p.shift) &&& p.mask) == p.key

theorem accepts_eq_test (p : Pattern) (inst : Word) : p.accepts inst = test p (inst.setWidth 64) :=
  rfl

def PatternChar (c : Char) : Prop := c = '0' ∨ c = '1' ∨ c = '?' ∨ c = ' '

/-- The characters that stand for bits, the last one first. -/
def bitChars (cs : List Char) : List Char := (cs.filter (· ≠ ' ')).reverse

/-- What a pattern asks of a word: each character is `?` or the word's bit. -/
def Describes (l : List Char) (w : BitVec 64) : Prop :=
  ∀ (i : Nat) (c : Char), l[i]? = some c → c = '?' ∨ c = if w.getLsbD i then '1' else '0'

def leading (l : List Char) : Nat := (l.takeWhile (· = '?')).length

/-- The accumulators after the characters of `l`, of which the head was read last. -/
structure Stands (p : Pattern) (l : List Char) : Prop where
  key : ∀ i < 64, p.key.getLsbD i = true ↔ l[i]? = some '1'
  mask : ∀ i < 64, p.mask.getLsbD i = true ↔ ∃ c, l[i]? = some c ∧ c ≠ '?'
  shift : p.shift.toNat = leading l

theorem stands_nil : Stands ⟨0, 0, 0⟩ [] :=
  ⟨fun _ _ => by simp, fun _ _ => by simp, rfl⟩

theorem push_zero (x : BitVec 64) (c : Prop) [Decidable c] :
    ((x <<< 1) ||| (if c then 1 else 0)).getLsbD 0 = true ↔ c := by
  by_cases hc : c
  · simp [hc]
  · simp [hc]

theorem push_succ (x : BitVec 64) (c : Prop) [Decidable c] {i : Nat} (hi : i + 1 < 64) :
    ((x <<< 1) ||| (if c then 1 else 0)).getLsbD (i + 1) = x.getLsbD i := by
  have hbit : (if c then 1 else 0 : BitVec 64).getLsbD (i + 1) = false := by
    split
    · exact BitVec.getLsbD_one.trans (by simp)
    · exact BitVec.getLsbD_zero
  rw [BitVec.getLsbD_or, hbit, Bool.or_false, BitVec.getLsbD_shiftLeft]
  simp [hi]

theorem leading_le (l : List Char) : leading l ≤ l.length := by
  induction l with
  | nil => exact Nat.le_refl 0
  | cons c l ih =>
    rw [leading, List.takeWhile_cons]
    split
    · exact Nat.succ_le_succ ih
    · exact Nat.zero_le _

theorem leading_cons (c : Char) (l : List Char) :
    leading (c :: l) = if c = '?' then leading l + 1 else 0 := by
  rw [leading, List.takeWhile_cons]
  by_cases hc : c = '?'
  · simp [hc, leading]
  · simp [hc]

theorem leading_free {l : List Char} {i : Nat} (hi : i < leading l) : l[i]? = some '?' := by
  induction l generalizing i with
  | nil => exact absurd hi (Nat.not_lt_zero i)
  | cons c l ih =>
    rw [leading_cons] at hi
    by_cases hc : c = '?'
    · rw [if_pos hc] at hi
      cases i with
      | zero => rw [hc]; rfl
      | succ i => exact ih (Nat.lt_of_succ_lt_succ hi)
    · rw [if_neg hc] at hi
      exact absurd hi (Nat.not_lt_zero i)

theorem Stands.push {p : Pattern} {l : List Char} (hp : Stands p l) (hl : l.length < 63) (c : Char) :
    Stands ⟨(p.key <<< 1) ||| (if c = '1' then 1 else 0),
      (p.mask <<< 1) ||| (if c = '?' then 0 else 1), if c = '?' then p.shift + 1 else 0⟩ (c :: l) := by
  have hmask : (if c = '?' then 0 else 1 : BitVec 64) = if ¬c = '?' then 1 else 0 :=
    (ite_not ..).symm
  rw [hmask]
  constructor
  · intro i hi
    cases i with
    | zero => exact (push_zero _ _).trans (by simp)
    | succ i =>
      rw [push_succ _ _ hi]
      exact hp.key i (by omega)
  · intro i hi
    cases i with
    | zero => exact (push_zero _ _).trans (by simp)
    | succ i =>
      rw [push_succ _ _ hi]
      exact hp.mask i (by omega)
  · have hle := leading_le l
    rw [leading_cons]
    dsimp only
    split
    · -- the count of trailing `?` stays below the number of characters
      rw [BitVec.toNat_add, hp.shift]
      show (leading l + 1) % 2 ^ 64 = leading l + 1
      omega
    · rfl

theorem patternChar_stands {p : Pattern} {l : List Char} (hp : Stands p l) (hl : l.length < 63)
    {c : Char} (hc : PatternChar c) :
    ∃ p', patternChar p c = .ok p' ∧ Stands p' (bitChars [c] ++ l) := by
  by_cases hblank : c = ' '
  · subst hblank
    exact ⟨p, rfl, hp⟩
  · have hbits : bitChars [c] = [c] := by simp [bitChars, hblank]
    have hvalid : c = '0' ∨ c = '1' ∨ c = '?' := by
      rcases hc with h | h | h | h
      · exact .inl h
      · exact .inr (.inl h)
      · exact .inr (.inr h)
      · exact absurd h hblank
    rw [patternChar, if_pos hblank, if_pos hvalid, hbits]
    exact ⟨_, rfl, hp.push hl c⟩

theorem bitChars_cons (c : Char) (cs : List Char) :
    bitChars (c :: cs) = bitChars cs ++ bitChars [c] := by
  rw [bitChars, bitChars, bitChars, ← List.reverse_append, ← List.filter_append,
    List.singleton_append]

theorem length_bitChars_le (cs : List Char) : (bitChars cs).length ≤ cs.length := by
  rw [bitChars, List.length_reverse]
  exact List.length_filter_le _ cs

theorem patternLoop_stands {n : Nat} {cs : List Char} (hn : cs.length < n)
    (hcs : ∀ c ∈ cs, PatternChar c) {p : Pattern} {l : List Char} (hp : Stands p l)
    (hl : l.length + cs.length ≤ 63) :
    ∃ q, patternLoop n cs p = .ok ⟨q.key >>> q.shift, q.mask >>> q.shift, q.shift⟩ ∧
      Stands q (bitChars cs ++ l) := by
  induction cs generalizing n p l with
  | nil =>
    cases n with
    | zero => exact absurd hn (Nat.not_lt_zero _)
    | succ n => exact ⟨p, rfl, hp⟩
  | cons c cs ih =>
    cases n with
    | zero => exact absurd hn (Nat.not_lt_zero _)
    | succ n =>
      rw [List.length_cons] at hl hn
      obtain ⟨p', hchar, hp'⟩ :=
        patternChar_stands hp (by omega) (hcs c List.mem_cons_self)
      have hone := length_bitChars_le [c]
      rw [List.length_singleton] at hone
      obtain ⟨q, hloop, hq⟩ := ih (n := n) (by omega)
        (fun d hd => hcs d (List.mem_cons_of_mem c hd)) hp' (by
          rw [List.length_append]
          omega)
      refine ⟨q, ?_, ?_⟩
      · rw [patternLoop, hchar]
        exact hloop
      · rw [bitChars_cons, List.append_assoc]
        exact hq

theorem mem_bitChars {cs : List Char} (hcs : ∀ c ∈ cs, PatternChar c) {c : Char}
    (hc : c ∈ bitChars cs) : c = '0' ∨ c = '1' ∨ c = '?' := by
  rw [bitChars, List.mem_reverse, List.mem_filter, decide_eq_true_iff] at hc
  rcases hcs c hc.1 with h | h | h | h
  · exact .inl h
  · exact .inr (.inl h)
  · exact .inr (.inr h)
  · exact absurd h hc.2

theorem bit_agrees_iff {q : Pattern} {l : List Char} (hq : Stands q l)
    (hl : ∀ c ∈ l, c = '0' ∨ c = '1' ∨ c = '?') (w : BitVec 64) {i : Nat} (hi : i < 64) :
    (w.getLsbD i && q.mask.getLsbD i) = q.key.getLsbD i ↔
      ∀ c, l[i]? = some c → c = '?' ∨ c = if w.getLsbD i then '1' else '0' := by
  have hkey := hq.key i hi
  have hmask := hq.mask i hi
  cases hchar : l[i]? with
  | none =>
    rw [hchar] at hkey hmask
    simp_all
  | some c =>
    rw [hchar] at hkey hmask
    rcases hl c (List.mem_of_getElem? hchar) with rfl | rfl | rfl
    · cases hw : w.getLsbD i <;> simp_all
    · cases hw : w.getLsbD i <;> simp_all
    · simp_all

/-- Shifting the trailing `?` away changes no answer. -/
theorem test_iff_describes {q : Pattern} {l : List Char} (hq : Stands q l)
    (hl : ∀ c ∈ l, c = '0' ∨ c = '1' ∨ c = '?') (hlen : l.length ≤ 64) (w : BitVec 64) :
    test ⟨q.key >>> q.shift, q.mask >>> q.shift, q.shift⟩ w = true ↔ Describes l w := by
  have hbit : ∀ k, (((w >>> q.shift) &&& (q.mask >>> q.shift)).getLsbD k =
      (w.getLsbD (leading l + k) && q.mask.getLsbD (leading l + k))) := by
    intro k
    rw [BitVec.getLsbD_and, BitVec.ushiftRight_eq', BitVec.ushiftRight_eq',
      BitVec.getLsbD_ushiftRight, BitVec.getLsbD_ushiftRight, hq.shift]
  have hkey : ∀ k, (q.key >>> q.shift).getLsbD k = q.key.getLsbD (leading l + k) := by
    intro k
    rw [BitVec.ushiftRight_eq', BitVec.getLsbD_ushiftRight, hq.shift]
  rw [test, beq_iff_eq]
  constructor
  · intro htest i c hc
    obtain ⟨hi, -⟩ := List.getElem?_eq_some_iff.mp hc
    by_cases hfree : i < leading l
    · rw [leading_free hfree] at hc
      exact .inl (Option.some.inj hc).symm
    · obtain ⟨k, rfl⟩ := Nat.exists_eq_add_of_le (Nat.le_of_not_lt hfree)
      refine (bit_agrees_iff hq hl w (by omega)).mp ?_ c hc
      rw [← hbit, ← hkey, htest]
  · intro hdesc
    apply BitVec.eq_of_getLsbD_eq
    intro k _
    rw [hbit, hkey]
    by_cases hk : leading l + k < 64
    · exact (bit_agrees_iff hq hl w hk).mpr fun c hc => hdesc _ c hc
    · rw [BitVec.getLsbD_of_ge w _ (by omega), BitVec.getLsbD_of_ge q.key _ (by omega)]
      rfl

/-- `pattern_decode` and `INSTPAT` together test exactly what the pattern string says. -/
theorem patternDecode_describes (str : String) (hchars : ∀ c ∈ str.toList, PatternChar c)
    (hlen : str.length ≤ 63) :
    ∃ p, patternDecode str = .ok p ∧
      ∀ w, test p w = true ↔ Describes (bitChars str.toList) w := by
  have hlen' : str.toList.length ≤ 63 := hlen
  obtain ⟨q, hdec, hq⟩ := patternLoop_stands (n := 64) (by omega) hchars stands_nil (by
    rw [List.length_nil]
    omega)
  rw [List.append_nil] at hq
  have hle := length_bitChars_le str.toList
  exact ⟨_, hdec, test_iff_describes hq (fun c hc => mem_bitChars hchars hc) (by omega)⟩

/-- The pattern of `lbu`, and a pattern of 63 `?`. -/
theorem lbuPattern_describes :
    (∃ p, patternDecode lbuPattern = .ok p ∧
      ∀ w, test p w = true ↔ Describes (bitChars lbuPattern.toList) w) ∧
    ∃ p, patternDecode (String.ofList (List.replicate 63 '?')) = .ok p ∧ ∀ w, test p w = true ↔
      Describes (bitChars (String.ofList (List.replicate 63 '?')).toList) w :=
  ⟨patternDecode_describes _ (by simp [lbuPattern, PatternChar]) (by decide),
    patternDecode_describes _ (by
      intro c hc
      rw [String.toList_ofList] at hc
      rw [List.eq_of_mem_replicate hc]
      exact .inr (.inr (.inl rfl)))
      (by rw [String.length_ofList, List.length_replicate])⟩

end Riscv32Cpu.Nemu.Patterns
