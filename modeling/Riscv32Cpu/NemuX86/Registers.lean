/- module: Riscv32Cpu/NemuX86/Registers
   source: CODE/nemu/src/isa/x86/include/isa-def.h, local-include/reg.h, inst.c
   digest: The register storage of NEMU's x86 against the overlapping registers of the i386. -/

import Mathlib.Data.BitVec
import Mathlib.Logic.Function.Basic

set_option autoImplicit false
set_option relaxedAutoImplicit false

namespace Riscv32Cpu.NemuX86.Registers

abbrev Word := BitVec 32

/-- One entry of `gpr`. It is a `struct`: the three members are stored one after the other. -/
structure Gpr where
  _32 : BitVec 32
  _16 : BitVec 16
  _8 : Fin 2 → BitVec 8

/-- `x86_CPU_state`. -/
structure CpuState where
  gpr : Fin 8 → Gpr
  eax : Word
  ecx : Word
  edx : Word
  ebx : Word
  esp : Word
  ebp : Word
  esi : Word
  edi : Word
  pc : Word

/-- With `CONFIG_RT_CHECK`. -/
def checkRegIndex (index : Int) : Except String (Fin 8) :=
  if h : index ≥ 0 ∧ index < 8 then .ok ⟨index.toNat, by omega⟩
  else .error "Assertion \x60index >= 0 && index < 8' failed."

def regL (cpu : CpuState) (index : Int) : Except String (BitVec 32) := do
  return (cpu.gpr (← checkRegIndex index))._32

def regW (cpu : CpuState) (index : Int) : Except String (BitVec 16) := do
  return (cpu.gpr (← checkRegIndex index))._16

/-- `_8[index >> 2]` of a checked index. -/
def byteIndex (i : Fin 8) : Fin 2 := ⟨i.val >>> 2, by omega⟩

def regB (cpu : CpuState) (index : Int) : Except String (BitVec 8) := do
  let i ← checkRegIndex index
  return (cpu.gpr (i &&& 3))._8 (byteIndex i)

def CpuState.setGpr (cpu : CpuState) (i : Fin 8) (g : Gpr) : CpuState :=
  { cpu with gpr := Function.update cpu.gpr i g }

def setRegL (cpu : CpuState) (index : Int) (v : BitVec 32) : Except String CpuState := do
  let i ← checkRegIndex index
  return cpu.setGpr i { cpu.gpr i with _32 := v }

def setRegW (cpu : CpuState) (index : Int) (v : BitVec 16) : Except String CpuState := do
  let i ← checkRegIndex index
  return cpu.setGpr i { cpu.gpr i with _16 := v }

def setRegB (cpu : CpuState) (index : Int) (v : BitVec 8) : Except String CpuState := do
  let i ← checkRegIndex index
  let g := cpu.gpr (i &&& 3)
  return cpu.setGpr (i &&& 3) { g with _8 := Function.update g._8 (byteIndex i) v }

def assertZero : String := "Assertion \x600' failed."

def regRead (cpu : CpuState) (idx width : Int) : Except String Word :=
  match width with
  | 4 => regL cpu idx
  | 1 => return (← regB cpu idx).setWidth 32
  | 2 => return (← regW cpu idx).setWidth 32
  | _ => throw assertZero

def regWrite (cpu : CpuState) (idx width : Int) (data : Word) : Except String CpuState :=
  match width with
  | 4 => setRegL cpu idx data
  | 1 => setRegB cpu idx (data.setWidth 8)
  | 2 => setRegW cpu idx (data.setWidth 16)
  | _ => throw assertZero

inductive Width
  | b
  | w
  | l
  deriving DecidableEq

def Width.bytes : Width → Int
  | .b => 1
  | .w => 2
  | .l => 4

/-- The part of a word that a write of this width stores. -/
def Width.kept (width : Width) (data : Word) : Word :=
  match width with
  | .b => (data.setWidth 8).setWidth 32
  | .w => (data.setWidth 16).setWidth 32
  | .l => data

/-- One 32-bit word for each of EAX, ECX, EDX, EBX, ESP, EBP, ESI and EDI; the narrower registers
are parts of them. -/
abbrev RegisterFile := Fin 8 → Word

/-- The register that byte register `i` is a part of. -/
def owner (i : Fin 8) : Fin 8 := if i < 4 then i else i - 4

def RegisterFile.read (file : RegisterFile) (i : Fin 8) : Width → Word
  | .l => file i
  | .w => ((file i).extractLsb' 0 16).setWidth 32
  | .b =>
    if i < 4 then ((file (owner i)).extractLsb' 0 8).setWidth 32
    else ((file (owner i)).extractLsb' 8 8).setWidth 32

def RegisterFile.write (file : RegisterFile) (i : Fin 8) (width : Width) (data : Word) :
    RegisterFile :=
  match width with
  | .l => Function.update file i data
  | .w => Function.update file i ((file i).extractLsb' 16 16 ++ data.setWidth 16)
  | .b =>
    let x := file (owner i)
    Function.update file (owner i) <|
      if i < 4 then x.extractLsb' 8 24 ++ data.setWidth 8
      else x.extractLsb' 16 16 ++ data.setWidth 8 ++ x.extractLsb' 0 8

/-- The named fields, in the order of the registers' numbers. -/
def CpuState.named (cpu : CpuState) : RegisterFile
  | 0 => cpu.eax
  | 1 => cpu.ecx
  | 2 => cpu.edx
  | 3 => cpu.ebx
  | 4 => cpu.esp
  | 5 => cpu.ebp
  | 6 => cpu.esi
  | 7 => cpu.edi

/-- Every view of the registers shows what the register file holds. -/
structure Agrees (cpu : CpuState) (file : RegisterFile) : Prop where
  read : ∀ (i : Fin 8) (width : Width), regRead cpu i.val width.bytes = .ok (file.read i width)
  named : ∀ i, cpu.named i = file i

/-- One call of `reg_write`. -/
structure Write where
  idx : Fin 8
  width : Width
  data : Word

def regWrites (cpu : CpuState) (writes : List Write) : Except String CpuState :=
  writes.foldlM (fun cpu w => regWrite cpu w.idx.val w.width.bytes w.data) cpu

def RegisterFile.writes (file : RegisterFile) (writes : List Write) : RegisterFile :=
  writes.foldl (fun file w => file.write w.idx w.width w.data) file

theorem checkRegIndex_eq (i : Fin 8) : checkRegIndex (i.val : Int) = .ok i := by
  have h : (i.val : Int) ≥ 0 ∧ (i.val : Int) < 8 := by omega
  rw [checkRegIndex, dif_pos h]
  rfl

theorem extract_low {m n : Nat} (hi : BitVec m) (lo : BitVec n) :
    (hi ++ lo).extractLsb' 0 n = lo := by
  rw [BitVec.extractLsb'_append_eq_of_add_le (Nat.le_of_eq (Nat.zero_add n)),
    BitVec.extractLsb'_eq_self]

theorem extract_middle {m k n : Nat} (hi : BitVec m) (mid : BitVec k) (lo : BitVec n) :
    (hi ++ mid ++ lo).extractLsb' n k = mid := by
  rw [BitVec.extractLsb'_append_eq_of_le (Nat.le_refl n), Nat.sub_self, extract_low]

theorem setWidth_injective {m n : Nat} (h : m ≤ n) {x y : BitVec m}
    (heq : x.setWidth n = y.setWidth n) : x = y := by
  have hback := congrArg (BitVec.setWidth m) heq
  rwa [BitVec.setWidth_setWidth_of_le x h, BitVec.setWidth_setWidth_of_le y h, BitVec.setWidth_eq,
    BitVec.setWidth_eq] at hback

theorem read_write (file : RegisterFile) (i : Fin 8) (width : Width) (data : Word) :
    (file.write i width data).read i width = width.kept data := by
  cases width with
  | l => exact Function.update_self ..
  | w =>
    rw [RegisterFile.write, RegisterFile.read, Function.update_self, extract_low]
    rfl
  | b =>
    rw [RegisterFile.write, RegisterFile.read, Function.update_self]
    by_cases h : i < 4
    · rw [if_pos h, if_pos h, extract_low]
      rfl
    · rw [if_neg h, if_neg h, extract_middle]
      rfl

theorem write_of_stored {file : RegisterFile} {i : Fin 8} {width : Width} {data : Word}
    (h : file.read i width = width.kept data) : file.write i width data = file := by
  cases width with
  | l => rw [RegisterFile.write, ← show file i = data from h, Function.update_eq_self]
  | w =>
    have hlow : (file i).extractLsb' 0 16 = data.setWidth 16 := setWidth_injective (by decide) h
    rw [RegisterFile.write, ← hlow, BitVec.extractLsb'_append_extractLsb'_eq_extractLsb' (by rfl),
      BitVec.extractLsb'_eq_self, Function.update_eq_self]
  | b =>
    rw [RegisterFile.read] at h
    rw [RegisterFile.write]
    by_cases hi : i < 4
    · rw [if_pos hi] at h
      have hlow : (file (owner i)).extractLsb' 0 8 = data.setWidth 8 :=
        setWidth_injective (by decide) h
      rw [if_pos hi, ← hlow, BitVec.extractLsb'_append_extractLsb'_eq_extractLsb' (by rfl),
        BitVec.extractLsb'_eq_self, Function.update_eq_self]
    · rw [if_neg hi] at h
      have hsecond : (file (owner i)).extractLsb' 8 8 = data.setWidth 8 :=
        setWidth_injective (by decide) h
      rw [if_neg hi, ← hsecond, BitVec.extractLsb'_append_extractLsb'_eq_extractLsb' (by rfl),
        BitVec.extractLsb'_append_extractLsb'_eq_extractLsb' (by rfl), BitVec.extractLsb'_eq_self,
        Function.update_eq_self]

theorem regRead_eq (cpu : CpuState) (i : Fin 8) (width : Width) :
    regRead cpu i.val width.bytes = .ok (match width with
      | .l => (cpu.gpr i)._32
      | .w => (cpu.gpr i)._16.setWidth 32
      | .b => ((cpu.gpr (i &&& 3))._8 (byteIndex i)).setWidth 32) := by
  cases width with
  | l =>
    show regL cpu i.val = _
    rw [regL, checkRegIndex_eq]
    rfl
  | w =>
    show (do return (← regW cpu i.val).setWidth 32) = _
    rw [regW, checkRegIndex_eq]
    rfl
  | b =>
    show (do return (← regB cpu i.val).setWidth 32) = _
    rw [regB, checkRegIndex_eq]
    rfl

theorem regWrite_eq (cpu : CpuState) (i : Fin 8) (width : Width) (data : Word) :
    regWrite cpu i.val width.bytes data = .ok (match width with
      | .l => cpu.setGpr i { cpu.gpr i with _32 := data }
      | .w => cpu.setGpr i { cpu.gpr i with _16 := data.setWidth 16 }
      | .b => cpu.setGpr (i &&& 3) { cpu.gpr (i &&& 3) with
          _8 := Function.update (cpu.gpr (i &&& 3))._8 (byteIndex i) (data.setWidth 8) }) := by
  cases width with
  | l =>
    show setRegL cpu i.val data = _
    rw [setRegL, checkRegIndex_eq]
    rfl
  | w =>
    show setRegW cpu i.val (data.setWidth 16) = _
    rw [setRegW, checkRegIndex_eq]
    rfl
  | b =>
    show setRegB cpu i.val (data.setWidth 8) = _
    rw [setRegB, checkRegIndex_eq]
    rfl

theorem named_regWrite {cpu cpu' : CpuState} {i : Fin 8} {width : Width} {data : Word}
    (h : regWrite cpu i.val width.bytes data = .ok cpu') : cpu'.named = cpu.named := by
  rw [regWrite_eq] at h
  cases h
  cases width with
  | l => rfl
  | w => rfl
  | b => rfl

theorem setGpr_self (cpu : CpuState) (i : Fin 8) : cpu.setGpr i (cpu.gpr i) = cpu := by
  rw [CpuState.setGpr, Function.update_eq_self]

theorem Agrees.regWrite {cpu : CpuState} {file : RegisterFile} (h : Agrees cpu file) {i : Fin 8}
    {width : Width} {data : Word} (hdata : file.read i width = width.kept data) :
    regWrite cpu i.val width.bytes data = .ok cpu := by
  have hread := (regRead_eq cpu i width).symm.trans (h.read i width)
  rw [hdata, Except.ok.injEq] at hread
  rw [regWrite_eq, Except.ok.injEq]
  cases width with
  | l =>
    have hsame : (cpu.gpr i)._32 = data := hread
    dsimp only
    rw [← hsame]
    exact setGpr_self cpu i
  | w =>
    have hsame : (cpu.gpr i)._16 = data.setWidth 16 := setWidth_injective (by decide) hread
    dsimp only
    rw [← hsame]
    exact setGpr_self cpu i
  | b =>
    have hsame : (cpu.gpr (i &&& 3))._8 (byteIndex i) = data.setWidth 8 :=
      setWidth_injective (by decide) hread
    dsimp only
    rw [← hsame, Function.update_eq_self]
    exact setGpr_self cpu (i &&& 3)

theorem regWrites_cons (cpu : CpuState) (w : Write) (writes : List Write) :
    regWrites cpu (w :: writes) =
      (regWrite cpu w.idx.val w.width.bytes w.data).bind (regWrites · writes) :=
  List.foldlM_cons ..

/-- The views agree with the register file throughout a sequence of writes exactly when every
write stores what the register file holds from the start. -/
theorem registers_alias_iff (cpu : CpuState) (file : RegisterFile) (writes : List Write)
    (h : Agrees cpu file) :
    (∀ past, past <+: writes →
      ∃ cpu', regWrites cpu past = .ok cpu' ∧ Agrees cpu' (file.writes past)) ↔
      ∀ w ∈ writes, file.read w.idx w.width = w.width.kept w.data := by
  induction writes with
  | nil =>
    refine iff_of_true (fun past hpast => ?_) fun w hw => absurd hw List.not_mem_nil
    rw [List.prefix_nil.mp hpast]
    exact ⟨cpu, rfl, h⟩
  | cons w writes ih =>
    rw [List.forall_mem_cons]
    constructor
    · intro hall
      -- the first write leaves the named fields, so it may not change the register file
      obtain ⟨cpu₁, hrun, hagree⟩ := hall [w] (List.prefix_append [w] writes)
      have hone : regWrites cpu [w] = regWrite cpu w.idx.val w.width.bytes w.data := by
        rw [regWrites_cons, regWrite_eq]
        rfl
      have hnamed := named_regWrite (hone.symm.trans hrun)
      have hsame : file.write w.idx w.width w.data = file := by
        funext i
        have hview : cpu₁.named i = file.write w.idx w.width w.data i := hagree.named i
        rw [← hview, hnamed, h.named i]
      have hw : file.read w.idx w.width = w.width.kept w.data := by
        calc file.read w.idx w.width
            = (file.write w.idx w.width w.data).read w.idx w.width := by rw [hsame]
          _ = w.width.kept w.data := read_write ..
      refine ⟨hw, ih.mp fun past hpast => ?_⟩
      obtain ⟨cpu', hrun', hagree'⟩ := hall (w :: past) (List.cons_prefix_cons.mpr ⟨rfl, hpast⟩)
      rw [regWrites_cons, h.regWrite hw] at hrun'
      have hfile : file.writes (w :: past) = (file.write w.idx w.width w.data).writes past := rfl
      rw [hfile, hsame] at hagree'
      exact ⟨cpu', hrun', hagree'⟩
    · rintro ⟨hw, hrest⟩ past hpast
      have hrest := ih.mpr hrest
      cases past with
      | nil => exact ⟨cpu, rfl, h⟩
      | cons v past =>
        obtain ⟨rfl, htail⟩ := List.cons_prefix_cons.mp hpast
        obtain ⟨cpu', hrun, hagree⟩ := hrest past htail
        have hfile : file.writes (v :: past) = (file.write v.idx v.width v.data).writes past := rfl
        rw [regWrites_cons, h.regWrite hw, hfile, write_of_stored hw]
        exact ⟨cpu', hrun, hagree⟩

/-- `cpu` before the first instruction. -/
def start : CpuState := ⟨fun _ => ⟨0, 0, fun _ => 0⟩, 0, 0, 0, 0, 0, 0, 0, 0, 0⟩

theorem start_agrees : Agrees start fun _ => 0 := by
  refine ⟨fun i width => ?_, by decide⟩
  rw [regRead_eq]
  cases width with
  | l => rfl
  | w => rfl
  | b =>
    by_cases hi : i < 4
    · rw [RegisterFile.read, if_pos hi]
      rfl
    · rw [RegisterFile.read, if_neg hi]
      rfl

/-- Clearing AH and storing a value whose low half is zero in BP. -/
def clears : List Write := [⟨4, .b, 0⟩, ⟨5, .w, 0x30000⟩]

theorem clears_alias :
    (∀ past, past <+: clears → ∃ cpu', regWrites start past = .ok cpu' ∧
      Agrees cpu' (RegisterFile.writes (fun _ => 0) past)) ↔
      ∀ w ∈ clears, RegisterFile.read (fun _ => 0) w.idx w.width = w.width.kept w.data :=
  registers_alias_iff start (fun _ => 0) clears start_agrees

/-- A value written to EAX is seen neither in AX nor in the field `eax`. -/
theorem eax_not_aliased :
    ∃ cpu, regWrites start [⟨0, .l, 0x12345678⟩] = .ok cpu ∧ regRead cpu 0 2 = .ok 0 ∧ cpu.eax = 0 ∧
      ¬Agrees cpu (RegisterFile.writes (fun _ => 0) [⟨0, .l, 0x12345678⟩]) := by
  refine ⟨_, rfl, rfl, rfl, fun h => ?_⟩
  have heax : (0 : Word) = 0x12345678 := h.named 0
  exact absurd heax (by decide)

end Riscv32Cpu.NemuX86.Registers
