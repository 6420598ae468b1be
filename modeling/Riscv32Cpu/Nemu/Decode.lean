/- module: Riscv32Cpu/Nemu/Decode
   source: CODE/nemu/include/macro.h, include/cpu/decode.h, src/isa/riscv32/inst.c
   digest: Bit fields, instruction patterns and operands; their agreement with RV32I. -/

import Riscv32Cpu.Nemu.Memory

set_option autoImplicit false
set_option relaxedAutoImplicit false

namespace Riscv32Cpu.Nemu.Decode

open Riscv32Cpu.Lib.Memory Riscv32Cpu.Lib.Effect Riscv32Cpu.Isa.Rv32i Riscv32Cpu.Nemu.Memory

def bitmask (bits : Nat) : BitVec 64 := (1#64 <<< bits) - 1

def bits (x : Word) (hi lo : Nat) : BitVec 64 := (x >>> lo).setWidth 64 &&& bitmask (hi - lo + 1)

/-- A store to a signed bit-field of `len` bits, read back as 64 bits. -/
def sext (x : BitVec 64) (len : Nat) : BitVec 64 := (x.setWidth len).signExtend 64

structure Pattern where
  key : BitVec 64
  mask : BitVec 64
  shift : BitVec 64
  deriving DecidableEq

/-- One character of a pattern string. -/
def patternChar (p : Pattern) (c : Char) : Except String Pattern :=
  if c ≠ ' ' then
    if c = '0' ∨ c = '1' ∨ c = '?' then
      .ok ⟨(p.key <<< 1) ||| (if c = '1' then 1 else 0),
        (p.mask <<< 1) ||| (if c = '?' then 0 else 1), if c = '?' then p.shift + 1 else 0⟩
    else .error ("invalid character '" ++ c.toString ++ "' in pattern string")
  else .ok p

/-- The unrolled loop `macro64`, with the number of copies of `macro` that are left. -/
def patternLoop : Nat → List Char → Pattern → Except String Pattern
  | 0, _, _ => .error "pattern too long"
  | _ + 1, [], p => .ok ⟨p.key >>> p.shift, p.mask >>> p.shift, p.shift⟩
  | n + 1, c :: cs, p => (patternChar p c).bind (patternLoop n cs)

def patternDecode (str : String) : Except String Pattern := patternLoop 64 str.toList ⟨0, 0, 0⟩

/-- The test of `INSTPAT`. -/
def Pattern.accepts (p : Pattern) (inst : Word) : Bool :=
  ((inst.setWidth 64 >>> p.shift) &&& p.mask) == p.key

/-- The fields of `Decode` that are not log text. -/
structure DecodeInfo where
  pc : Word
  snpc : Word
  dnpc : Word
  inst : Word

inductive InstType
  | I
  | U
  | S
  | N
  deriving DecidableEq, Repr

structure Operands where
  rd : Nat
  src1 : Word
  src2 : Word
  imm : Word

/-- `R(i)` as a value; `check_reg_idx` guards the index. -/
def gpr (idx : Nat) : M Word := do
  if h : idx < 32 then return (← get).cpu.gpr ⟨idx, h⟩
  throw "Assertion \x60idx >= 0 && idx < 32' failed."

/-- `R(i)` as the target of an assignment. -/
def setGpr (idx : Nat) (v : Word) : M Unit := do
  if h : idx < 32 then
    return ← modify fun m =>
      { m with cpu := { m.cpu with gpr := Function.update m.cpu.gpr ⟨idx, h⟩ v } }
  throw "Assertion \x60idx >= 0 && idx < 32' failed."

def immI (i : Word) : Word := (sext (bits i 31 20) 12).setWidth 32
def immU (i : Word) : Word := (sext (bits i 31 12) 20 <<< 12).setWidth 32
def immS (i : Word) : Word := ((sext (bits i 31 25) 7 <<< 5) ||| bits i 11 7).setWidth 32

def decodeOperand (s : DecodeInfo) (type : InstType) : M Operands := do
  let i := s.inst
  let rs1 := (bits i 19 15).toNat
  let rs2 := (bits i 24 20).toNat
  let rd := (bits i 11 7).toNat
  match type with
  | .I => return ⟨rd, ← gpr rs1, 0, immI i⟩
  | .U => return ⟨rd, 0, 0, immU i⟩
  | .S => return ⟨rd, ← gpr rs1, ← gpr rs2, immS i⟩
  | .N => return ⟨rd, 0, 0, 0⟩

/-- `INSTPAT` between `INSTPAT_START` and `INSTPAT_END`: an arm that matches jumps to the end. -/
def instPat (s : DecodeInfo) (pattern : String) (type : InstType) (body : Operands → M Unit)
    (next : M Unit) : M Unit :=
  match patternDecode pattern with
  | .error e => throw e
  | .ok p => if p.accepts s.inst then do body (← decodeOperand s type) else next

/-- `m` with one register overwritten. -/
def setReg (m : Machine) (r : Reg) (v : Word) : Machine :=
  { m with cpu := { m.cpu with gpr := Function.update m.cpu.gpr r v } }

theorem gpr_eq {idx : Nat} {r : Reg} (h : idx = r.val) (m : Machine) :
    gpr idx m = .ok (m.cpu.gpr r) m := by
  subst h
  rw [gpr, dif_pos r.isLt]
  rfl

theorem setGpr_eq {idx : Nat} {r : Reg} (h : idx = r.val) (v : Word) (m : Machine) :
    setGpr idx v m = .ok () (setReg m r v) := by
  subst h
  rw [setGpr, dif_pos r.isLt]
  rfl

theorem bitmask_toNat {k : Nat} (hk : k < 64) : (bitmask k).toNat = 2 ^ k - 1 := by
  have hpow : 2 ^ k < 2 ^ 64 := Nat.pow_lt_pow_right (by decide) hk
  have hpos : 0 < 2 ^ k := Nat.two_pow_pos k
  have hone : (1#64 <<< k).toNat = 2 ^ k := by
    rw [BitVec.toNat_shiftLeft, Nat.shiftLeft_eq]
    show 1 * 2 ^ k % 2 ^ 64 = 2 ^ k
    rw [Nat.one_mul, Nat.mod_eq_of_lt hpow]
  rw [bitmask, BitVec.toNat_sub, hone]
  show (2 ^ 64 - 1 + 2 ^ k) % 2 ^ 64 = 2 ^ k - 1
  omega

theorem bits_toNat (x : Word) (hi lo : Nat) (h : hi < 32) :
    (bits x hi lo).toNat = x.toNat / 2 ^ lo % 2 ^ (hi - lo + 1) := by
  have hlt : x.toNat / 2 ^ lo < 2 ^ 64 := by
    have := Nat.div_le_self x.toNat (2 ^ lo)
    have := x.isLt
    omega
  rw [bits, BitVec.toNat_and, bitmask_toNat (by omega), BitVec.toNat_setWidth,
    BitVec.toNat_ushiftRight, Nat.shiftRight_eq_div_pow, Nat.mod_eq_of_lt hlt,
    Nat.and_two_pow_sub_one_eq_mod]

theorem bits_setWidth (x : Word) (hi lo : Nat) {n : Nat} (hn : hi - lo + 1 = n) (h : hi < 32) :
    (bits x hi lo).setWidth n = x.extractLsb' lo n := by
  apply BitVec.eq_of_toNat_eq
  rw [BitVec.toNat_setWidth, bits_toNat x hi lo h, hn, Nat.mod_mod, BitVec.extractLsb'_toNat,
    Nat.shiftRight_eq_div_pow]

theorem bits_reg (x : Word) (hi lo : Nat) (hn : hi - lo + 1 = 5) (h : hi < 32) :
    (bits x hi lo).toNat = (x.extractLsb' lo 5).toFin.val := by
  rw [bits_toNat x hi lo h, hn]
  show _ = (x.extractLsb' lo 5).toNat
  rw [BitVec.extractLsb'_toNat, Nat.shiftRight_eq_div_pow]

theorem sext_setWidth {n : Nat} (v : BitVec n) : (v.signExtend 64).setWidth 32 = v.signExtend 32 := by
  apply BitVec.eq_of_getLsbD_eq
  intro i hi
  have h64 : i < 64 := by omega
  simp only [BitVec.getLsbD_setWidth, BitVec.getLsbD_signExtend, hi, h64, decide_true,
    Bool.true_and]

theorem immI_eq (i : Word) : immI i = (immIField i).signExtend 32 := by
  rw [immI, sext, bits_setWidth i 31 20 rfl (by decide), sext_setWidth, immIField]

theorem immU_eq (i : Word) : immU i = upper (immUField i) := by
  rw [immU, sext, bits_setWidth i 31 12 rfl (by decide), upper, immUField]
  apply BitVec.eq_of_getLsbD_eq
  intro k hk
  have h64 : k < 64 := by omega
  -- the bits that bit 19 is copied to are shifted out
  have hlow : k - 12 < 20 ∧ k - 12 < 32 ∧ k - 12 < 64 := by omega
  simp only [BitVec.getLsbD_setWidth, BitVec.getLsbD_shiftLeft, BitVec.getLsbD_signExtend, hk, h64,
    hlow, decide_true, Bool.true_and, if_true]

theorem immS_eq (i : Word) : immS i = (immSField i).signExtend 32 := by
  have hlow : ∀ k, (bits i 11 7).getLsbD k = (i.extractLsb' 7 5).getLsbD k := by
    intro k
    rw [BitVec.getLsbD, BitVec.getLsbD, bits_toNat i 11 7 (by decide), BitVec.extractLsb'_toNat,
      Nat.shiftRight_eq_div_pow]
  rw [immS, sext, bits_setWidth i 31 25 rfl (by decide), immSField]
  apply BitVec.eq_of_getLsbD_eq
  intro k hk
  have h64 : k < 64 := by omega
  have hmsb : (i.extractLsb' 25 7 ++ i.extractLsb' 7 5).msb = (i.extractLsb' 25 7).msb := by
    rw [BitVec.msb_append]
    rfl
  simp only [BitVec.getLsbD_setWidth, BitVec.getLsbD_or, BitVec.getLsbD_shiftLeft,
    BitVec.getLsbD_signExtend, BitVec.getLsbD_append, hlow, hmsb, hk, h64, decide_true,
    Bool.true_and]
  -- bits 4:0 come from the raw part, the others from the sign-extended one
  rcases Nat.lt_or_ge k 5 with h5 | h5
  · have h12 : k < 12 := by omega
    simp only [h5, h12, decide_true, Bool.not_true, Bool.false_and, Bool.false_or, if_true]
  · have hraw : (i.extractLsb' 7 5).getLsbD k = false := BitVec.getLsbD_of_ge _ _ h5
    have hk5 : ¬k < 5 := by omega
    have h64' : k - 5 < 64 := by omega
    have h12 : k - 5 < 7 ↔ k < 12 := by omega
    simp only [hraw, hk5, h64', h12, decide_false, decide_true, Bool.not_false, Bool.true_and,
      Bool.or_false, if_false]

/-- The operands of an instruction word in terms of its RV32I fields. -/
def fieldOperands (i : Word) (x : Reg → Word) : InstType → Operands
  | .I => ⟨(rdField i).val, x (rs1Field i), 0, (immIField i).signExtend 32⟩
  | .U => ⟨(rdField i).val, 0, 0, upper (immUField i)⟩
  | .S => ⟨(rdField i).val, x (rs1Field i), x (rs2Field i), (immSField i).signExtend 32⟩
  | .N => ⟨(rdField i).val, 0, 0, 0⟩

theorem decodeOperand_eq (s : DecodeInfo) (type : InstType) (m : Machine) :
    decodeOperand s type m = .ok (fieldOperands s.inst m.cpu.gpr type) m := by
  have hrd := bits_reg s.inst 11 7 rfl (by decide)
  have hrs1 := bits_reg s.inst 19 15 rfl (by decide)
  have hrs2 := bits_reg s.inst 24 20 rfl (by decide)
  cases type with
  | I =>
    dsimp only [decodeOperand]
    rw [bind_of_ok (gpr_eq hrs1 m), immI_eq, hrd]
    rfl
  | U =>
    dsimp only [decodeOperand]
    rw [immU_eq, hrd]
    rfl
  | S =>
    dsimp only [decodeOperand]
    rw [bind_of_ok (gpr_eq hrs1 m), bind_of_ok (gpr_eq hrs2 m), immS_eq, hrd]
    rfl
  | N =>
    dsimp only [decodeOperand]
    rw [hrd]
    rfl

theorem accepts_iff_bits (p : Pattern) (hp : p.shift = 0) (inst : Word) :
    p.accepts inst = true ↔
      ∀ i < 64, ((inst.setWidth 64).getLsbD i && p.mask.getLsbD i) = p.key.getLsbD i := by
  rw [Pattern.accepts, beq_iff_eq, hp]
  show (inst.setWidth 64 >>> 0) &&& p.mask = p.key ↔ _
  rw [BitVec.ushiftRight_zero]
  constructor
  · intro h i _
    rw [← BitVec.getLsbD_and, h]
  · intro h
    apply BitVec.eq_of_getLsbD_eq
    intro i hi
    rw [BitVec.getLsbD_and]
    exact h i hi

/-- The bits of `mask` are those of two fields, and `key` has the values `c` and `d` there. -/
structure Pattern.Fixes (p : Pattern) (lo : Nat) {n : Nat} (c : BitVec n) (lo' : Nat) {n' : Nat}
    (d : BitVec n') : Prop where
  shift : p.shift = 0
  mask : ∀ i < 64, p.mask.getLsbD i =
    (decide (lo ≤ i ∧ i < lo + n) || decide (lo' ≤ i ∧ i < lo' + n'))
  key : ∀ i < 64, p.key.getLsbD i = true → p.mask.getLsbD i = true
  first : ∀ i < n, p.key.getLsbD (lo + i) = c.getLsbD i
  second : ∀ i < n', p.key.getLsbD (lo' + i) = d.getLsbD i

theorem Pattern.Fixes.accepts_iff {p : Pattern} {lo n lo' n' : Nat} {c : BitVec n} {d : BitVec n'}
    (hp : p.Fixes lo c lo' d) (h : lo + n ≤ 32) (h' : lo' + n' ≤ 32) (inst : Word) :
    p.accepts inst = true ↔ inst.extractLsb' lo n = c ∧ inst.extractLsb' lo' n' = d := by
  rw [accepts_iff_bits p hp.shift]
  have hwide : ∀ i < 32, (inst.setWidth 64).getLsbD i = inst.getLsbD i := by
    intro i hi
    have h64 : i < 64 := by omega
    rw [BitVec.getLsbD_setWidth, decide_eq_true h64, Bool.true_and]
  constructor
  · intro hbits
    constructor
    · apply BitVec.eq_of_getLsbD_eq
      intro i hi
      have hmask : p.mask.getLsbD (lo + i) = true := by
        rw [hp.mask _ (by omega), decide_eq_true (by omega), Bool.true_or]
      rw [BitVec.getLsbD_extractLsb', decide_eq_true hi, Bool.true_and, ← hp.first i hi,
        ← hbits (lo + i) (by omega), hmask, Bool.and_true, hwide _ (by omega)]
    · apply BitVec.eq_of_getLsbD_eq
      intro i hi
      have hmask : p.mask.getLsbD (lo' + i) = true := by
        rw [hp.mask _ (by omega), decide_eq_true (p := lo' ≤ lo' + i ∧ lo' + i < lo' + n')
          (by omega), Bool.or_true]
      rw [BitVec.getLsbD_extractLsb', decide_eq_true hi, Bool.true_and, ← hp.second i hi,
        ← hbits (lo' + i) (by omega), hmask, Bool.and_true, hwide _ (by omega)]
  · rintro ⟨hc, hd⟩ i hi
    cases hm : p.mask.getLsbD i with
    | false =>
      have hkey : p.key.getLsbD i = false := by
        by_contra hk
        rw [hp.key i hi (Bool.eq_true_of_not_eq_false hk)] at hm
        exact Bool.noConfusion hm
      rw [Bool.and_false, hkey]
    | true =>
      rw [Bool.and_true]
      have hfield := hp.mask i hi
      rw [hm, eq_comm, Bool.or_eq_true, decide_eq_true_iff, decide_eq_true_iff] at hfield
      rcases hfield with ⟨hlo, hhi⟩ | ⟨hlo, hhi⟩
      · obtain ⟨k, rfl⟩ := Nat.exists_eq_add_of_le hlo
        have hk : k < n := by omega
        rw [hp.first k hk, ← hc, hwide _ (by omega), BitVec.getLsbD_extractLsb', decide_eq_true hk,
          Bool.true_and]
      · obtain ⟨k, rfl⟩ := Nat.exists_eq_add_of_le hlo
        have hk : k < n' := by omega
        rw [hp.second k hk, ← hd, hwide _ (by omega), BitVec.getLsbD_extractLsb',
          decide_eq_true hk, Bool.true_and]

def auipcPattern : String := "??????? ????? ????? ??? ????? 00101 11"
def lbuPattern : String := "??????? ????? ????? 100 ????? 00000 11"
def sbPattern : String := "??????? ????? ????? 000 ????? 01000 11"
def ebreakPattern : String := "0000000 00001 00000 000 00000 11100 11"
def invPattern : String := "??????? ????? ????? ??? ????? ????? ??"

theorem auipcPattern_fixes : ∃ p, patternDecode auipcPattern = .ok p ∧
    p.Fixes 0 0b0010111#7 0 0#0 :=
  ⟨⟨0x17, 0x7f, 0⟩, by decide +kernel, by constructor <;> decide⟩

theorem lbuPattern_fixes : ∃ p, patternDecode lbuPattern = .ok p ∧
    p.Fixes 0 0b0000011#7 12 0b100#3 :=
  ⟨⟨0x4003, 0x707f, 0⟩, by decide +kernel, by constructor <;> decide⟩

theorem sbPattern_fixes : ∃ p, patternDecode sbPattern = .ok p ∧
    p.Fixes 0 0b0100011#7 12 0b000#3 :=
  ⟨⟨0x23, 0x707f, 0⟩, by decide +kernel, by constructor <;> decide⟩

theorem ebreakPattern_fixes : ∃ p, patternDecode ebreakPattern = .ok p ∧
    p.Fixes 0 0x00100073#32 0 0#0 :=
  ⟨⟨0x00100073, 0xffffffff, 0⟩, by decide +kernel, by constructor <;> decide⟩

theorem invPattern_accepts : ∃ p, patternDecode invPattern = .ok p ∧
    ∀ inst, p.accepts inst = true := by
  refine ⟨⟨0, 0, 32⟩, by decide +kernel, fun inst => ?_⟩
  rw [Pattern.accepts, beq_iff_eq]
  exact BitVec.and_zero

theorem instPat_take {pattern : String} {lo n lo' n' : Nat} {c : BitVec n} {d : BitVec n'}
    (hp : ∃ p, patternDecode pattern = .ok p ∧ p.Fixes lo c lo' d) (h : lo + n ≤ 32)
    (h' : lo' + n' ≤ 32) {s : DecodeInfo}
    (hs : s.inst.extractLsb' lo n = c ∧ s.inst.extractLsb' lo' n' = d) (type : InstType)
    (body : Operands → M Unit) (next : M Unit) (m : Machine) :
    instPat s pattern type body next m = body (fieldOperands s.inst m.cpu.gpr type) m := by
  obtain ⟨p, hdec, hfix⟩ := hp
  have hacc := (hfix.accepts_iff h h' s.inst).mpr hs
  rw [instPat, hdec]
  show (if p.accepts s.inst = true then do body (← decodeOperand s type) else next) m = _
  rw [if_pos hacc, bind_of_ok (decodeOperand_eq s type m)]

theorem instPat_skip {pattern : String} {lo n lo' n' : Nat} {c : BitVec n} {d : BitVec n'}
    (hp : ∃ p, patternDecode pattern = .ok p ∧ p.Fixes lo c lo' d) (h : lo + n ≤ 32)
    (h' : lo' + n' ≤ 32) {s : DecodeInfo}
    (hs : ¬(s.inst.extractLsb' lo n = c ∧ s.inst.extractLsb' lo' n' = d)) (type : InstType)
    (body : Operands → M Unit) (next : M Unit) : instPat s pattern type body next = next := by
  obtain ⟨p, hdec, hfix⟩ := hp
  have hrej : ¬p.accepts s.inst = true := fun hacc => hs ((hfix.accepts_iff h h' s.inst).mp hacc)
  rw [instPat, hdec]
  exact if_neg hrej

end Riscv32Cpu.Nemu.Decode
