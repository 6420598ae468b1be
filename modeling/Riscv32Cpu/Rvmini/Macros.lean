/- module: Riscv32Cpu/Rvmini/Macros
   source: CODE/abstract-machine/tools/rvmini/inst-replace.h
   digest: The assembler macros that rewrite RV32I into eight base instructions. -/

import Riscv32Cpu.Isa.Rv32i

set_option autoImplicit false
set_option relaxedAutoImplicit false

namespace Riscv32Cpu.Rvmini.Macros

open Riscv32Cpu.Lib.Memory Riscv32Cpu.Isa.Rv32i

/-- How an operand is spelled. `.if` in a macro compares spellings: `\rd == x0` is false of an
operand written `zero`. -/
inductive RegName
  | x (n : Reg)
  | abi (n : Reg)
  | fp
  deriving DecidableEq, Repr

namespace RegName

def reg : RegName → Reg
  | x n => n
  | abi n => n
  | fp => 8

instance : CoeOut RegName Reg := ⟨reg⟩

end RegName

def x0 : RegName := .x 0
def zero : RegName := .abi 0
def sp : RegName := .abi 2
def gp : RegName := .abi 3
def tp : RegName := .abi 4
def s0 : RegName := .abi 8
def s1 : RegName := .abi 9

/-- A memory operand `off(base)`. -/
structure Operand where
  off : Int
  base : RegName

def add (rd rs1 rs2 : RegName) : Op := .add rd rs1 rs2
def addi (rd rs1 : RegName) (imm : BitVec 12) : Op := .addi rd rs1 imm
def lw (rd : RegName) (a : Operand) : Op := .lw rd (BitVec.ofInt 12 a.off) a.base
def lbu (rd : RegName) (a : Operand) : Op := .lbu rd (BitVec.ofInt 12 a.off) a.base
def sw (rs : RegName) (a : Operand) : Op := .sw rs (BitVec.ofInt 12 a.off) a.base
def sb (rs : RegName) (a : Operand) : Op := .sb rs (BitVec.ofInt 12 a.off) a.base

/-- The assembler's own aliases `mv` and, for a 12-bit value, `li`. -/
def mv (rd rs : RegName) : Op := addi rd rs 0
def li (rd : RegName) (imm : BitVec 12) : Op := addi rd zero imm

def spVarByte (n boffset : Nat) : Operand := ⟨-(n : Int) * 4 + boffset, sp⟩
def spVar (n : Nat) : Operand := spVarByte n 0

abbrev varA : Nat := 4
abbrev varB : Nat := 5
abbrev varC : Nat := 6
abbrev varD : Nat := 7

def push (r : RegName) (n : Nat) : Op := sw r (spVar n)
def pop (r : RegName) (n : Nat) : Op := lw r (spVar n)

/-- `0(r)`. -/
def at0 (r : RegName) : Operand := ⟨0, r⟩

/-- `%hi(addr)`, rounded so that adding the signed `%lo(addr)` gives `addr`. -/
def hi (addr : Word) : BitVec 20 := (addr + 0x800).extractLsb' 12 20

/-- `%lo(addr)`. -/
def lo (addr : Word) : BitVec 12 := addr.extractLsb' 0 12

def la (r : RegName) (addr : Word) : List Op := [.lui r (hi addr), addi r r (lo addr)]

/-- Where the linker put the tables. -/
structure Symbols where
  checkSameArray : Word
  sameResultTable : Word
  check8bit0Table : Word
  slt1Table : Word
  sltu1Table : Word
  or1Table : Word
  logicShiftTable : Word

namespace Symbols

def and8Table (sym : Symbols) : Word := sym.logicShiftTable
def or8Table (sym : Symbols) : Word := sym.and8Table + 256 * 256
def xor8Table (sym : Symbols) : Word := sym.or8Table + 256 * 256
def sll8Table (sym : Symbols) : Word := sym.xor8Table + 256 * 256
def srl8Table (sym : Symbols) : Word := sym.sll8Table + 32 * 256 * 4
def sra8Table (sym : Symbols) : Word := sym.srl8Table + 32 * 256 * 4

end Symbols

def getbyte (rd rs1 : RegName) (byte : Nat) : List Op :=
  [sw rs1 (spVar varC), lbu rd (spVarByte varC byte)]

def sh (rs : RegName) (addr : Operand) : List Op :=
  [sb rs ⟨0 + addr.off, addr.base⟩] ++ getbyte tp rs 1 ++ [sb tp ⟨1 + addr.off, addr.base⟩]

def slli (rd rs1 : RegName) (imm : Nat) : List Op :=
  if imm = 0 then
    if rd ≠ rs1 then [mv rd rs1] else []
  else if imm ≥ 24 then
    [sw x0 (spVar varA), sb rs1 (spVarByte varA 3), lw rd (spVar varA)] ++ slli rd rd (imm - 24)
  else if imm ≥ 16 then
    [sw x0 (spVar varA)] ++ sh rs1 (spVarByte varA 2) ++ [lw rd (spVar varA)] ++
      slli rd rd (imm - 16)
  else [add rd rs1 rs1] ++ List.replicate (imm - 1) (add rd rd rd)

def msb (rd rs1 : RegName) : List Op :=
  getbyte rd rs1 3 ++ slli rd rd 1 ++ getbyte rd rd 1

def notByte (byte : Nat) : List Op :=
  [lbu gp (spVarByte varC byte), add gp gp tp, lbu gp (at0 gp), sb gp (spVarByte varD byte)]

def not (sym : Symbols) (rd rs1 : RegName) : List Op :=
  [push gp 3, sw rs1 (spVar varC)] ++ la tp (sym.xor8Table + (0xff : Word) <<< 8) ++
    notByte 3 ++ notByte 2 ++ notByte 1 ++ notByte 0 ++ [pop gp 3, lw rd (spVar varD)]

def sub (sym : Symbols) (rd rs1 rs2 : RegName) : List Op :=
  not sym tp rs2 ++ [add rd rs1 tp, addi rd rd 1]

def neg (sym : Symbols) (rd rs : RegName) : List Op := sub sym rd x0 rs

def sltTemplate (sym : Symbols) (lut : Word) (rd rs1 rs2 : RegName) : List Op :=
  [push s0 1, push s1 2, sw rs2 (spVar varA), mv s0 rs1, lw s1 (spVar varA)] ++
    msb gp s0 ++ slli gp gp 1 ++
    msb tp s1 ++ [add gp gp tp] ++ slli gp gp 1 ++
    sub sym tp s0 s1 ++ msb tp tp ++ [add gp gp tp] ++
    la tp lut ++ [add tp tp gp, pop s1 2, pop s0 1, lbu rd (at0 tp)]

def slt (sym : Symbols) (rd rs1 rs2 : RegName) : List Op :=
  sltTemplate sym sym.slt1Table rd rs1 rs2

def sltu (sym : Symbols) (rd rs1 rs2 : RegName) : List Op :=
  sltTemplate sym sym.sltu1Table rd rs1 rs2

/-- `def_itype`: load the immediate into `tp` and use the register form. -/
def defItype {α : Type} (rtype : RegName → RegName → RegName → α) (rd rs1 : RegName)
    (imm : BitVec 12) : Op × α := (li tp imm, rtype rd rs1 tp)

def slti (sym : Symbols) (rd rs1 : RegName) (imm : BitVec 12) : List Op :=
  let (l, r) := defItype (slt sym) rd rs1 imm
  l :: r

def sltiu (sym : Symbols) (rd rs1 : RegName) (imm : BitVec 12) : List Op :=
  let (l, r) := defItype (sltu sym) rd rs1 imm
  l :: r

def snez (sym : Symbols) (rd rs : RegName) : List Op := sltu sym rd x0 rs
def sltz (rd rs : RegName) : List Op := msb rd rs
def sgt (sym : Symbols) (rd rs1 rs2 : RegName) : List Op := slt sym rd rs2 rs1
def sgtu (sym : Symbols) (rd rs1 rs2 : RegName) : List Op := sltu sym rd rs2 rs1
def sgtz (sym : Symbols) (rd rs : RegName) : List Op := slt sym rd x0 rs

def logic8ByteInternal (lutReg : RegName) (boffset : Nat) : List Op :=
  [lbu tp (spVarByte varA boffset), sb tp (spVarByte varD 1),
   lbu tp (spVarByte varB boffset), sb tp (spVarByte varD 0),
   lw tp (spVar varD), add tp lutReg tp, lbu tp (at0 tp), sb tp (spVarByte varC boffset)]

/-- `none` is the assembler's `.abort`. -/
def logic (lut : Word) (rd rs1 rs2 : RegName) : Option (List Op) :=
  if rd = x0 then some []
  else if rd = sp ∨ rs1 = sp ∨ rs2 = sp then none
  else if rd = gp ∨ rs1 = gp ∨ rs2 = gp then none
  else if rd = tp ∨ rs1 = tp then none
  else some <|
    [sw rs1 (spVar varA), sw rs2 (spVar varB)] ++ la rd lut ++ [sw x0 (spVar varD)] ++
    logic8ByteInternal rd 3 ++ logic8ByteInternal rd 2 ++
    logic8ByteInternal rd 1 ++ logic8ByteInternal rd 0 ++ [lw rd (spVar varC)]

def and (sym : Symbols) (rd rs1 rs2 : RegName) : Option (List Op) := logic sym.and8Table rd rs1 rs2
def or (sym : Symbols) (rd rs1 rs2 : RegName) : Option (List Op) := logic sym.or8Table rd rs1 rs2
def xor (sym : Symbols) (rd rs1 rs2 : RegName) : Option (List Op) := logic sym.xor8Table rd rs1 rs2

def logicItype (rtype : RegName → RegName → RegName → Option (List Op)) (rd rs1 : RegName)
    (imm : BitVec 12) : Option (List Op) :=
  let (l, r) := defItype rtype rd rs1 imm
  r.map (l :: ·)

def andi (sym : Symbols) : RegName → RegName → BitVec 12 → Option (List Op) := logicItype (and sym)
def ori (sym : Symbols) : RegName → RegName → BitVec 12 → Option (List Op) := logicItype (or sym)
def xori (sym : Symbols) : RegName → RegName → BitVec 12 → Option (List Op) := logicItype (xor sym)

def check8bitSame (table rd : RegName) (boffset : Nat) : List Op :=
  [lbu rd (spVarByte varA boffset), add tp table rd, addi rd x0 1, sb rd (at0 tp),
   lbu rd (spVarByte varB boffset), add rd table rd, sb x0 (at0 rd), lbu rd (at0 tp)]

def seq (sym : Symbols) (rd rs1 rs2 : RegName) : List Op :=
  [sw rs1 (spVar varA), sw rs2 (spVar varB), push s0 1, push s1 2] ++
    la s0 sym.checkSameArray ++ check8bitSame s0 gp 0 ++
    check8bitSame s0 s1 1 ++ [add gp gp s1] ++
    check8bitSame s0 s1 2 ++ [add gp gp s1] ++
    check8bitSame s0 s1 3 ++ [add gp gp s1] ++
    la tp sym.sameResultTable ++ [add tp tp gp, lbu rd (at0 tp), pop s1 2, pop s0 1]

def check8bit0 (table rd : RegName) (boffset : Nat) : List Op :=
  [lbu rd (spVarByte varA boffset), add rd table rd, lbu rd (at0 rd)]

def seqz (sym : Symbols) (rd rs1 : RegName) : List Op :=
  [sw rs1 (spVar varA), push s0 1] ++ la s0 sym.check8bit0Table ++
    check8bit0 s0 gp 0 ++
    check8bit0 s0 tp 1 ++ [add gp gp tp] ++
    check8bit0 s0 tp 2 ++ [add gp gp tp] ++
    check8bit0 s0 tp 3 ++ [add gp gp tp] ++
    la tp sym.sameResultTable ++ [add tp tp gp, lbu rd (at0 tp), pop s0 1]

def getshamt (sym : Symbols) (rd rs1 : RegName) : List Op :=
  [sb rs1 (spVarByte varB 0), lbu rd (spVarByte varB 0)] ++
    la tp (sym.and8Table + (0x1f : Word) <<< 8) ++ [add rd rd tp, lbu rd (at0 rd)]

def getShiftByteInTp (base : RegName) (boffset : Nat) : List Op :=
  [lbu tp (spVarByte varA boffset)] ++ slli tp tp 2 ++ [add tp base tp, lw tp (at0 tp)]

def sll (sym : Symbols) (rd rs1 rs2 : RegName) : List Op :=
  [push s0 1, sw rs1 (spVar varA)] ++ getshamt sym s0 rs2 ++
    [sw x0 (spVar varB), sb s0 (spVarByte varB 1), lw s0 (spVar varB)] ++ slli s0 s0 2 ++
    la tp sym.sll8Table ++ [add s0 s0 tp] ++
    [sw x0 (spVar varB)] ++ getShiftByteInTp s0 3 ++
    [sb tp (spVarByte varB 3), lw gp (spVar varB)] ++
    getShiftByteInTp s0 2 ++ sh tp (spVarByte varB 2) ++ [lw tp (spVar varB), add gp gp tp] ++
    getShiftByteInTp s0 1 ++ slli tp tp 8 ++ [add gp gp tp] ++
    getShiftByteInTp s0 0 ++ [pop s0 1, add rd gp tp]

/-- The operand `\rs2` of `shift_right_template`, with the flag `\is_rs2_imm`. -/
inductive Shamt
  | reg (r : RegName)
  | imm (n : Nat)

/-- Bytes 0, 1 and 2 of the result less its top word. -/
def mergeBytes : List Op :=
  [lbu gp (spVarByte varB 1), lbu tp (spVarByte varC 2), add gp gp tp,
   lbu tp (spVarByte varD 3), add gp gp tp, sw gp (spVar varD),
   lbu gp (spVarByte varB 2), lbu tp (spVarByte varC 3), add gp gp tp, sb gp (spVarByte varD 1),
   lbu gp (spVarByte varB 3), sb gp (spVarByte varD 2), lw gp (spVar varD)]

/-- `s0` receives the address of the table row for the shift amount. -/
def shiftRightRow (sym : Symbols) : Shamt → List Op
  | .reg r =>
    getshamt sym s0 r ++
      [sw x0 (spVar varB), sb s0 (spVarByte varB 1), lw s0 (spVar varB)] ++ slli s0 s0 2 ++
      la tp sym.srl8Table ++ [add s0 s0 tp]
  | .imm n => la s0 (sym.srl8Table + BitVec.ofNat 32 (n <<< 10))

/-- With the row in `s0`, four table words make up the result. -/
def shiftRightTail (sym : Symbols) (rd : RegName) (isArith : Bool) : List Op :=
  getShiftByteInTp s0 2 ++ [sw tp (spVar varB)] ++
  getShiftByteInTp s0 1 ++ [sw tp (spVar varC)] ++
  getShiftByteInTp s0 0 ++ [sw tp (spVar varD)] ++
  mergeBytes ++
  (if isArith then la tp (sym.sra8Table - sym.srl8Table) ++ [add s0 s0 tp] else []) ++
  getShiftByteInTp s0 3 ++ [pop s0 1, add rd gp tp]

def shiftRightTemplate (sym : Symbols) (rd rs1 : RegName) (rs2 : Shamt) (isArith : Bool) :
    List Op :=
  match rs2 with
  | .imm 24 => -- fast path
    if isArith then
      [sw rs1 (spVar varA)] ++ la tp (sym.sra8Table + (24 : Word) <<< 10) ++
        [lbu rd (spVarByte varA 3)] ++ slli rd rd 2 ++ [add tp tp rd, lw rd (at0 tp)]
    else getbyte rd rs1 3
  | rs2 =>
    [push s0 1, sw rs1 (spVar varA)] ++ shiftRightRow sym rs2 ++ shiftRightTail sym rd isArith

def srl (sym : Symbols) (rd rs1 rs2 : RegName) : List Op :=
  shiftRightTemplate sym rd rs1 (.reg rs2) false

def sra (sym : Symbols) (rd rs1 rs2 : RegName) : List Op :=
  shiftRightTemplate sym rd rs1 (.reg rs2) true

def srli (sym : Symbols) (rd rs1 : RegName) (imm : Nat) : List Op :=
  shiftRightTemplate sym rd rs1 (.imm imm) false

def srai (sym : Symbols) (rd rs1 : RegName) (imm : Nat) : List Op :=
  shiftRightTemplate sym rd rs1 (.imm imm) true

def lb (sym : Symbols) (rd : RegName) (addr : Operand) : List Op :=
  [sw x0 (spVar varA), lbu rd addr, sb rd (spVarByte varA 3), lw rd (spVar varA)] ++
    srai sym rd rd 24

def lhu (rd : RegName) (addr : Operand) : List Op :=
  [sw x0 (spVar varA), lbu tp ⟨1 + addr.off, addr.base⟩, sb tp (spVarByte varA 1),
   lw tp (spVar varA), lbu rd ⟨0 + addr.off, addr.base⟩, add rd rd tp]

def lh (sym : Symbols) (rd : RegName) (addr : Operand) : List Op :=
  [sw x0 (spVar varA), lbu gp ⟨1 + addr.off, addr.base⟩, sb gp (spVarByte varA 3),
   lw gp (spVar varA)] ++ srai sym gp gp 16 ++ [lbu rd ⟨0 + addr.off, addr.base⟩, add rd rd gp]

/-! Branches. `label` is the address of `LABEL_NAME`, just after the expansion. -/

/-- `\r == zero || \r == x0`. -/
def isZero (r : RegName) : Prop := r = zero ∨ r = x0

instance (r : RegName) : Decidable (isZero r) := inferInstanceAs (Decidable (_ ∨ _))

def branchSlots (target : Word) (isTpHighSelTarget : Bool) (label : Word) : List Op :=
  slli tp tp 2 ++ [add tp sp tp] ++
    (if isTpHighSelTarget then
      la gp target ++ [sw gp (spVar varA)] ++ la gp label ++ [sw gp (spVar varB)]
    else
      la gp label ++ [sw gp (spVar varA)] ++ la gp target ++ [sw gp (spVar varB)]) ++
    [lw tp ⟨-5 * 4, tp⟩]

/-- `branch_resolve`: the slots, then `jr tp`. -/
def branchResolve (target : Word) (isTpHighSelTarget : Bool) (label : Word) : List Inst :=
  (branchSlots target isTpHighSelTarget label).map .op ++ [.jalr 0 tp 0]

/-- `beq` and `bne` differ in the slot the target goes to. -/
def branchEq (sel : Bool) (sym : Symbols) (rs1 rs2 : RegName) (target label : Word) : List Inst :=
  if isZero rs2 then (seqz sym tp rs1).map .op ++ branchResolve target sel label
  else if isZero rs1 then branchEq sel sym rs2 rs1 target label
  else (seq sym tp rs1 rs2).map .op ++ branchResolve target sel label
termination_by if isZero rs2 then 0 else 1
decreasing_by simp_all

def beq : Symbols → RegName → RegName → Word → Word → List Inst := branchEq true
def bne : Symbols → RegName → RegName → Word → Word → List Inst := branchEq false

/-- `tp` becomes 1 if `rs2 <= 0` as a signed number, else 0. -/
def signTest (sym : Symbols) (rs2 : RegName) : List Op :=
  msb gp rs2 ++ [addi tp rs2 (-1)] ++ msb tp tp ++ [add gp gp tp] ++
    la tp sym.or1Table ++ [add tp gp tp, lbu tp (at0 tp)]

def blt (sym : Symbols) (rs1 rs2 : RegName) (target label : Word) : List Inst :=
  if isZero rs2 then (msb tp rs1).map .op ++ branchResolve target true label
  else if isZero rs1 then (signTest sym rs2).map .op ++ branchResolve target false label
  else (slt sym tp rs1 rs2).map .op ++ branchResolve target true label

def bltu (sym : Symbols) (rs1 rs2 : RegName) (target label : Word) : List Inst :=
  (sltu sym tp rs1 rs2).map .op ++ branchResolve target true label

def bge (sym : Symbols) (rs1 rs2 : RegName) (target label : Word) : List Inst :=
  if isZero rs1 then (signTest sym rs2).map .op ++ branchResolve target true label
  else (slt sym tp rs1 rs2).map .op ++ branchResolve target false label

def bgeu (sym : Symbols) (rs1 rs2 : RegName) (target label : Word) : List Inst :=
  (sltu sym tp rs1 rs2).map .op ++ branchResolve target false label

def beqz (sym : Symbols) (rs : RegName) : Word → Word → List Inst := beq sym rs x0
def bnez (sym : Symbols) (rs : RegName) : Word → Word → List Inst := bne sym rs x0
def blez (sym : Symbols) (rs : RegName) : Word → Word → List Inst := bge sym x0 rs
def bgez (sym : Symbols) (rs : RegName) : Word → Word → List Inst := bge sym rs x0
def bltz (sym : Symbols) (rs : RegName) : Word → Word → List Inst := blt sym rs x0
def bgtz (sym : Symbols) (rs : RegName) : Word → Word → List Inst := blt sym x0 rs
def bgt (sym : Symbols) (rs rt : RegName) : Word → Word → List Inst := blt sym rt rs
def ble (sym : Symbols) (rs rt : RegName) : Word → Word → List Inst := bge sym rt rs
def bgtu (sym : Symbols) (rs rt : RegName) : Word → Word → List Inst := bltu sym rt rs
def bleu (sym : Symbols) (rs rt : RegName) : Word → Word → List Inst := bgeu sym rt rs

def ra : RegName := .abi 1

def callTemplate (r : RegName) (addr : Word) : List Inst := (la r addr).map .op ++ [.jalr r r 0]

/-- The assembler's own alias `jr`. -/
def jr (rs : RegName) : Inst := .jalr 0 rs 0

def j (addr : Word) : List Inst := callTemplate tp addr

def jal (rd : RegName) (addr : Word) : List Inst :=
  if rd = zero then j addr
  else if rd = x0 then j addr
  else callTemplate rd addr

def call (addr : Word) : List Inst := callTemplate ra addr

/-- What follows `jr tp` is never reached. -/
def tail (addr : Word) : List Inst := (la tp addr).map .op ++ [jr tp] ++ callTemplate ra addr

end Riscv32Cpu.Rvmini.Macros
