/- module: Riscv32Cpu/NemuX86/Operands
   source: CODE/nemu/src/isa/x86/inst.c, include/cpu/ifetch.h, src/memory/vaddr.c
   digest: ModR/M and SIB bytes: the decoder against the i386's tables of addressing forms. -/

import Riscv32Cpu.Lib.Effect
import Riscv32Cpu.Lib.Memory
import Riscv32Cpu.NemuX86.Registers

set_option autoImplicit false
set_option relaxedAutoImplicit false

namespace Riscv32Cpu.NemuX86.Operands

open Riscv32Cpu.Lib.Effect Riscv32Cpu.Lib.Memory Riscv32Cpu.NemuX86.Registers

/-- `Decode`; `inst` is `isa.inst`, an array of 16 bytes. -/
structure Decode where
  pc : Word
  snpc : Word
  dnpc : Word
  inst : Nat → Byte

/-- The `Decode` and the variables that the pointers passed to `decode_rm` point to. -/
structure Locals where
  s : Decode
  rmReg : Int
  rmAddr : Word
  reg : Int

abbrev M := EStateM String Locals

def lift {α : Type} : Except String α → M α
  | .ok a => pure a
  | .error e => throw e

def rEsp : Int := 4
def rEbp : Int := 5

def rmField (val : Byte) : BitVec 3 := val.extractLsb' 0 3
def regField (val : Byte) : BitVec 3 := val.extractLsb' 3 3
def modField (val : Byte) : BitVec 2 := val.extractLsb' 6 2
def baseField (val : Byte) : BitVec 3 := val.extractLsb' 0 3
def indexField (val : Byte) : BitVec 3 := val.extractLsb' 3 3
def ssField (val : Byte) : BitVec 2 := val.extractLsb' 6 2

def instLen : Nat := 16

def assertInst : String := "Assertion \x60s->snpc - s->pc < sizeof(s->isa.inst)' failed."

section

-- Whether `CONFIG_ITRACE` or `CONFIG_IQUEUE` is set, the guest's bytes, and `cpu`.
variable (itrace : Bool) (mem : Mem 32) (cpu : CpuState)

/-- `paddr_read` of guest memory, by `host_read`. -/
def vaddrIfetch (addr : Word) (len : Nat) : Except String Word :=
  match len with
  | 1 => .ok ((load mem addr 8).setWidth 32)
  | 2 => .ok ((load mem addr 16).setWidth 32)
  | 4 => .ok (load mem addr 32)
  | _ => .error assertZero

def instFetch (len : Nat) : M Word := do
  let inst ← lift (vaddrIfetch mem (← get).s.snpc len)
  modify fun v => { v with s := { v.s with snpc := v.s.snpc + BitVec.ofNat 32 len } }
  return inst

/-- The loop of `x86_inst_fetch` from its `i`-th round on, with the rounds that are left. -/
def traceBytes (p : Nat) : Nat → Nat → Word → (Nat → Byte) → Nat → Byte
  | 0, _, _, inst => inst
  | n + 1, i, ret, inst =>
    traceBytes p n (i + 1) (ret >>> 8) (Function.update inst (p + i) (ret.setWidth 8))

def x86InstFetch (len : Nat) : M Word := do
  if itrace then
    let v ← get
    let p := (v.s.snpc - v.s.pc).toNat
    let ret ← instFetch mem len
    let v ← get
    ensure ((v.s.snpc - v.s.pc).toNat < instLen) assertInst
    set { v with s := { v.s with inst := traceBytes p len 0 ret v.s.inst } }
    return ret
  else instFetch mem len

/-- The first `if` of `load_addr`: `base_reg`, `index_reg` and `scale`. -/
def loadSib (m : Byte) : M (Int × Int × Nat) := do
  if ((rmField m).toNat : Int) = rEsp then
    let sib := (← x86InstFetch itrace mem 1).setWidth 8
    let index : Int := (indexField sib).toNat
    return ((baseField sib).toNat, if index ≠ rEsp then index else -1, (ssField sib).toNat)
  else return ((rmField m).toNat, -1, 0)

/-- The second `if`: `base_reg` and `disp_size`. -/
def dispSize (mod : BitVec 2) (baseReg : Int) : Int × Nat :=
  if mod = 0 then
    if baseReg = rEbp then (-1, 4) else (baseReg, 0)
  else if mod = 1 then (baseReg, 1)
  else (baseReg, 4)

/-- The third `if`: `disp`. -/
def loadDisp (size : Nat) : M Word := do
  if size ≠ 0 then
    let disp ← x86InstFetch itrace mem size
    return if size = 1 then (disp.setWidth 8).signExtend 32 else disp
  else return 0

def addReg (addr : Word) (reg : Int) (scale : Nat) : M Word := do
  if reg ≠ -1 then return addr + (← lift (regL cpu reg)) <<< scale
  else return addr

def loadAddr (m : Byte) : M Unit := do
  ensure (modField m ≠ 3) "Assertion \x60m->mod != 3' failed."
  let (baseReg, indexReg, scale) ← loadSib itrace mem m
  let (baseReg, size) := dispSize (modField m) baseReg
  let disp ← loadDisp itrace mem size
  let addr ← addReg cpu disp baseReg 0
  let addr ← addReg cpu addr indexReg scale
  modify fun v => { v with rmAddr := addr }

/-- `hasReg` says that `reg` is not `NULL`. -/
def decodeRm (hasReg : Bool) (_width : Int) : M Unit := do
  let m := (← x86InstFetch itrace mem 1).setWidth 8
  if hasReg then modify fun v => { v with reg := (regField m).toNat }
  if modField m = 3 then modify fun v => { v with rmReg := (rmField m).toNat }
  else
    loadAddr itrace mem cpu m
    modify fun v => { v with rmReg := -1 }

end

inductive Disp
  | zero
  | disp8
  | disp32
  deriving DecidableEq

def Disp.size : Disp → Nat
  | .zero => 0
  | .disp8 => 1
  | .disp32 => 4

inductive RmRow
  | register (r : BitVec 3)
  | address (base : Option (BitVec 3)) (disp : Disp)
  | sib
  deriving DecidableEq

/-- The table of ModR/M bytes. -/
def rmTable : BitVec 2 → BitVec 3 → RmRow
  | 0, 4 => .sib
  | 0, 5 => .address none .disp32
  | 0, r => .address (some r) .zero
  | 1, 4 => .sib
  | 1, r => .address (some r) .disp8
  | 2, 4 => .sib
  | 2, r => .address (some r) .disp32
  | _, r => .register r

/-- The base column of the table of SIB bytes, by the `mod` of the ModR/M byte. -/
def sibBase : BitVec 2 → BitVec 3 → Option (BitVec 3) × Disp
  | 0, 5 => (none, .disp32)
  | 0, r => (some r, .zero)
  | 1, r => (some r, .disp8)
  | _, r => (some r, .disp32)

/-- The index column. -/
def sibIndex : BitVec 3 → Option (BitVec 3)
  | 4 => none
  | r => some r

section

variable (mem : Mem 32) (regs : BitVec 3 → Word)

def Disp.value (a : Word) : Disp → Word
  | .zero => 0
  | .disp8 => (mem a).signExtend 32
  | .disp32 => load mem a 32

def effective (base index : Option (BitVec 3)) (ss : BitVec 2) (disp : Word) : Word :=
  base.elim 0 regs + index.elim 0 (fun r => regs r * BitVec.ofNat 32 (2 ^ ss.toNat)) + disp

inductive Operand
  | register (r : BitVec 3)
  | memory (addr : Word)

/-- The operand that the bytes from `a` on encode, and how many they are. -/
def manualOperand (a : Word) : Operand × Nat :=
  match rmTable (modField (mem a)) (rmField (mem a)) with
  | .register r => (.register r, 1)
  | .address base disp => (.memory (effective regs base none 0 (disp.value mem (a + 1))), 1 + disp.size)
  | .sib =>
    let sib := mem (a + 1)
    let (base, disp) := sibBase (modField (mem a)) (baseField sib)
    (.memory (effective regs base (sibIndex (indexField sib)) (ssField sib) (disp.value mem (a + 2))),
      2 + disp.size)

end

variable {itrace : Bool} {mem : Mem 32} {cpu : CpuState}

/-- With tracing, the bytes of the instruction up to the `n`-th one from here fit in `inst`. -/
def Fits (itrace : Bool) (v : Locals) (n : Nat) : Prop :=
  itrace = true → (v.s.snpc - v.s.pc).toNat + n < instLen

/-- `t` is `v` after `n` bytes were fetched. -/
structure Advanced (v t : Locals) (n : Nat) : Prop where
  snpc : t.s.snpc = v.s.snpc + BitVec.ofNat 32 n
  pc : t.s.pc = v.s.pc
  rmReg : t.rmReg = v.rmReg
  rmAddr : t.rmAddr = v.rmAddr
  reg : t.reg = v.reg

theorem Advanced.refl (v : Locals) : Advanced v v 0 := ⟨(BitVec.add_zero _).symm, rfl, rfl, rfl, rfl⟩

theorem Advanced.trans {v t u : Locals} {n k : Nat} (h : Advanced v t n) (h' : Advanced t u k) :
    Advanced v u (n + k) := by
  refine ⟨?_, h'.pc.trans h.pc, h'.rmReg.trans h.rmReg, h'.rmAddr.trans h.rmAddr, h'.reg.trans h.reg⟩
  rw [h'.snpc, h.snpc, BitVec.add_assoc, BitVec.ofNat_add]

theorem Fits.mono {v : Locals} {n k : Nat} (h : Fits itrace v n) (hk : k ≤ n) : Fits itrace v k := by
  intro htrace
  have hall := h htrace
  omega

theorem toNat_advance {v t : Locals} {n : Nat} (h : Advanced v t n)
    (hn : (v.s.snpc - v.s.pc).toNat + n < instLen) :
    (t.s.snpc - t.s.pc).toNat = (v.s.snpc - v.s.pc).toNat + n := by
  have hlen : instLen = 16 := rfl
  have hsplit : t.s.snpc - t.s.pc = v.s.snpc - v.s.pc + BitVec.ofNat 32 n := by
    rw [h.snpc, h.pc, BitVec.sub_eq_add_neg, BitVec.sub_eq_add_neg, BitVec.add_assoc, BitVec.add_assoc,
      BitVec.add_comm (BitVec.ofNat 32 n)]
  rw [hsplit, BitVec.toNat_add, BitVec.toNat_ofNat]
  omega

theorem Fits.advance {v t : Locals} {n k : Nat} (h : Fits itrace v (n + k)) (ht : Advanced v t n) :
    Fits itrace t k := by
  intro htrace
  have hall := h htrace
  rw [toNat_advance ht (by omega)]
  omega

theorem instFetch_eq {len : Nat} {ret : Word} {v : Locals}
    (h : vaddrIfetch mem v.s.snpc len = .ok ret) :
    instFetch mem len v =
      .ok ret { v with s := { v.s with snpc := v.s.snpc + BitVec.ofNat 32 len } } := by
  have hlift : lift (vaddrIfetch mem v.s.snpc len) v = .ok ret v := by
    rw [h]
    rfl
  have hcall : instFetch mem len v = (lift (vaddrIfetch mem v.s.snpc len) >>= fun inst => do
    modify fun v => { v with s := { v.s with snpc := v.s.snpc + BitVec.ofNat 32 len } }
    return inst) v := rfl
  rw [hcall, bind_of_ok hlift]
  rfl

theorem x86InstFetch_eq {len : Nat} {ret : Word} {v : Locals}
    (h : vaddrIfetch mem v.s.snpc len = .ok ret) (hfit : Fits itrace v len) :
    ∃ t, x86InstFetch itrace mem len v = .ok ret t ∧ Advanced v t len := by
  have hfetch := instFetch_eq h
  cases itrace with
  | false => exact ⟨_, hfetch, rfl, rfl, rfl, rfl, rfl⟩
  | true =>
    have hnext : Advanced v { v with s := { v.s with snpc := v.s.snpc + BitVec.ofNat 32 len } } len :=
      ⟨rfl, rfl, rfl, rfl, rfl⟩
    have hlt : (v.s.snpc + BitVec.ofNat 32 len - v.s.pc).toNat < instLen := by
      rw [toNat_advance hnext (hfit rfl)]
      exact hfit rfl
    refine ⟨{ v with s := { v.s with
        snpc := v.s.snpc + BitVec.ofNat 32 len
        inst := traceBytes (v.s.snpc - v.s.pc).toNat len 0 ret v.s.inst } }, ?_,
      rfl, rfl, rfl, rfl, rfl⟩
    have hcall : x86InstFetch true mem len v = (instFetch mem len >>= fun ret => do
      let w ← get
      ensure ((w.s.snpc - w.s.pc).toNat < instLen) assertInst
      set { w with s := { w.s with
        inst := traceBytes (v.s.snpc - v.s.pc).toNat len 0 ret w.s.inst } }
      return ret) v := rfl
    rw [hcall, bind_of_ok hfetch]
    show (ensure ((v.s.snpc + BitVec.ofNat 32 len - v.s.pc).toNat < instLen) assertInst >>= _) _ = _
    rw [ensure, if_pos hlt]
    rfl

theorem byte_of_word (b : Byte) : (b.setWidth 32).setWidth 8 = b := by
  rw [BitVec.setWidth_setWidth_of_le b (by decide), BitVec.setWidth_eq]

theorem fetchByte (mem : Mem 32) {v : Locals} (hfit : Fits itrace v 1) :
    ∃ t, x86InstFetch itrace mem 1 v = .ok ((mem v.s.snpc).setWidth 32) t ∧ Advanced v t 1 := by
  have hret : vaddrIfetch mem v.s.snpc 1 = .ok ((mem v.s.snpc).setWidth 32) := by
    rw [← load_byte mem v.s.snpc]
    rfl
  exact x86InstFetch_eq hret hfit

/-- `-1` stands for no register. -/
def regNum (r : Option (BitVec 3)) : Int := r.elim (-1) fun r => r.toNat

theorem loadSib_plain {m : Byte} (h : rmField m ≠ 4) (v : Locals) :
    loadSib itrace mem m v = .ok (((rmField m).toNat : Int), -1, 0) v := by
  have hne : ((rmField m).toNat : Int) ≠ rEsp := fun heq =>
    h (BitVec.eq_of_toNat_eq (Int.ofNat.inj heq))
  rw [loadSib, if_neg hne]
  rfl

theorem index_eq : ∀ i : BitVec 3,
    (if (i.toNat : Int) ≠ rEsp then (i.toNat : Int) else -1) = regNum (sibIndex i) := by
  decide

theorem loadSib_sib {m : Byte} (h : rmField m = 4) {v : Locals} (hfit : Fits itrace v 1) :
    ∃ t, Advanced v t 1 ∧ loadSib itrace mem m v =
      .ok (((baseField (mem v.s.snpc)).toNat : Int), regNum (sibIndex (indexField (mem v.s.snpc))),
        (ssField (mem v.s.snpc)).toNat) t := by
  obtain ⟨t, hfetch, ht⟩ := fetchByte mem hfit
  have heq : ((rmField m).toNat : Int) = rEsp := by
    rw [h]
    rfl
  refine ⟨t, ht, ?_⟩
  rw [loadSib, if_pos heq, bind_of_ok hfetch, byte_of_word, ← index_eq]
  rfl

theorem rmTable_register : ∀ r : BitVec 3, rmTable 3 r = .register r := by decide

theorem rmTable_sib : ∀ mod : BitVec 2, mod ≠ 3 → rmTable mod 4 = .sib := by decide

/-- Apart from the row that announces a SIB byte, the two tables have the same bases. -/
theorem rmTable_plain : ∀ (mod : BitVec 2) (rm : BitVec 3), mod ≠ 3 → rm ≠ 4 →
    rmTable mod rm = .address (sibBase mod rm).1 (sibBase mod rm).2 := by
  decide

theorem dispSize_eq : ∀ (mod : BitVec 2) (base : BitVec 3), mod ≠ 3 →
    dispSize mod base.toNat = (regNum (sibBase mod base).1, (sibBase mod base).2.size) := by
  decide

theorem loadDisp_eq (mem : Mem 32) (disp : Disp) {v : Locals} (hfit : Fits itrace v disp.size) :
    ∃ t, Advanced v t disp.size ∧
      loadDisp itrace mem disp.size v = .ok (disp.value mem v.s.snpc) t := by
  cases disp with
  | zero => exact ⟨v, .refl v, rfl⟩
  | disp8 =>
    obtain ⟨t, hfetch, ht⟩ := fetchByte mem hfit
    refine ⟨t, ht, ?_⟩
    show (x86InstFetch itrace mem 1 >>= fun disp => pure ((disp.setWidth 8).signExtend 32)) v = _
    rw [bind_of_ok hfetch, byte_of_word]
    rfl
  | disp32 =>
    have hret : vaddrIfetch mem v.s.snpc 4 = .ok (load mem v.s.snpc 32) := rfl
    obtain ⟨t, hfetch, ht⟩ := x86InstFetch_eq hret hfit
    refine ⟨t, ht, ?_⟩
    show (x86InstFetch itrace mem 4 >>= pure) v = _
    rw [bind_of_ok hfetch]
    rfl

/-- The 32-bit registers. -/
def regs (cpu : CpuState) (r : BitVec 3) : Word := (cpu.gpr r.toFin)._32

theorem addReg_eq (addr : Word) (r : Option (BitVec 3)) (scale : Nat) (v : Locals) :
    addReg cpu addr (regNum r) scale v =
      .ok (addr + r.elim 0 fun r => regs cpu r * BitVec.ofNat 32 (2 ^ scale)) v := by
  cases r with
  | none =>
    show EStateM.Result.ok addr v = .ok (addr + 0#32) v
    rw [BitVec.add_zero]
  | some r =>
    have hne : regNum (some r) ≠ -1 := by
      show ((r.toNat : Int)) ≠ -1
      omega
    have hreg : regL cpu (regNum (some r)) = .ok (regs cpu r) := by
      show regL cpu (r.toFin.val : Int) = _
      rw [regL, checkRegIndex_eq]
      rfl
    have hlift : lift (regL cpu (regNum (some r))) v = .ok (regs cpu r) v := by
      rw [hreg]
      rfl
    have hpow : BitVec.twoPow 32 scale = BitVec.ofNat 32 (2 ^ scale) := by
      apply BitVec.eq_of_toNat_eq
      rw [BitVec.toNat_twoPow, BitVec.toNat_ofNat]
    rw [addReg, if_pos hne, bind_of_ok hlift, BitVec.shiftLeft_eq_mul_twoPow, hpow]
    rfl

theorem addReg_unscaled (addr : Word) (r : Option (BitVec 3)) (v : Locals) :
    addReg cpu addr (regNum r) 0 v = .ok (addr + r.elim 0 (regs cpu)) v := by
  have hone : (fun r => regs cpu r * BitVec.ofNat 32 (2 ^ 0)) = regs cpu := by
    funext r
    exact BitVec.mul_one _
  rw [addReg_eq, hone]

theorem loadAddr_eq (cpu : CpuState) {m : Byte} (hmod : modField m ≠ 3) {b : BitVec 3}
    {i : Option (BitVec 3)} {ss : BitVec 2} {n : Nat} {v t : Locals} (ht : Advanced v t n)
    (hsib : loadSib itrace mem m v = .ok ((b.toNat : Int), regNum i, ss.toNat) t)
    (hfit : Fits itrace v (n + (sibBase (modField m) b).2.size)) :
    ∃ u, loadAddr itrace mem cpu m v = .ok () u ∧
      u.s.snpc = v.s.snpc + BitVec.ofNat 32 (n + (sibBase (modField m) b).2.size) ∧
      u.reg = v.reg ∧ u.rmAddr = effective (regs cpu) (sibBase (modField m) b).1 i ss
        ((sibBase (modField m) b).2.value mem t.s.snpc) := by
  obtain ⟨w, hw, hdisp⟩ := loadDisp_eq mem (sibBase (modField m) b).2 (hfit.advance ht)
  have hall := ht.trans hw
  obtain ⟨addr, haddr⟩ : ∃ addr, addr = effective (regs cpu) (sibBase (modField m) b).1 i ss
    ((sibBase (modField m) b).2.value mem t.s.snpc) := ⟨_, rfl⟩
  refine ⟨{ w with rmAddr := addr }, ?_, hall.snpc, hall.reg, haddr⟩
  rw [loadAddr, ensure, if_pos hmod]
  show (loadSib itrace mem m >>= _) v = _
  rw [bind_of_ok hsib]
  dsimp only
  rw [dispSize_eq _ _ hmod]
  dsimp only
  rw [bind_of_ok hdisp, bind_of_ok (addReg_unscaled ..), bind_of_ok (addReg_eq ..), haddr, effective,
    BitVec.add_comm _ (Disp.value ..), ← BitVec.add_assoc]
  rfl

/-- What a call that started in `v` leaves in `t`, for an operand that `n` bytes encode. -/
structure Decoded (hasReg : Bool) (v t : Locals) (m : Byte) (operand : Operand) (n : Nat) : Prop where
  snpc : t.s.snpc = v.s.snpc + BitVec.ofNat 32 n
  length : n = 1 ∨ n = 2 ∨ n = 3 ∨ n = 5 ∨ n = 6
  reg : t.reg = if hasReg then ((regField m).toNat : Int) else v.reg
  operand : match operand with
    | .register r => t.rmReg = r.toNat ∧ n = 1
    | .memory addr => t.rmReg = -1 ∧ t.rmAddr = addr

theorem decodeRm_head (mem : Mem 32) (cpu : CpuState) (hasReg : Bool) (width : Int) {v : Locals}
    (hfit : Fits itrace v 1) :
    ∃ t, Advanced v { t with reg := v.reg } 1 ∧
      t.reg = (if hasReg then ((regField (mem v.s.snpc)).toNat : Int) else v.reg) ∧
      decodeRm itrace mem cpu hasReg width v =
        (if modField (mem v.s.snpc) = 3 then
          modify fun v' => { v' with rmReg := (rmField (mem v.s.snpc)).toNat }
        else do
          loadAddr itrace mem cpu (mem v.s.snpc)
          modify fun v => { v with rmReg := -1 } : M Unit) t := by
  obtain ⟨t, hfetch, ht⟩ := fetchByte mem hfit
  cases hasReg with
  | false =>
    refine ⟨t, ⟨ht.snpc, ht.pc, ht.rmReg, ht.rmAddr, rfl⟩, ht.reg, ?_⟩
    rw [decodeRm, bind_of_ok hfetch, byte_of_word]
    rfl
  | true =>
    refine ⟨{ t with reg := (regField (mem v.s.snpc)).toNat },
      ⟨ht.snpc, ht.pc, ht.rmReg, ht.rmAddr, rfl⟩, rfl, ?_⟩
    rw [decodeRm, bind_of_ok hfetch, byte_of_word]
    rfl

theorem Disp.size_cases (disp : Disp) : disp.size = 0 ∨ disp.size = 1 ∨ disp.size = 4 := by
  cases disp with
  | zero => exact .inl rfl
  | disp8 => exact .inr (.inl rfl)
  | disp32 => exact .inr (.inr rfl)

section

variable {hasReg : Bool} {width : Int} {v : Locals}

theorem decodeRm_register (hmod : modField (mem v.s.snpc) = 3) (hfit : Fits itrace v 1) :
    ∃ t, decodeRm itrace mem cpu hasReg width v = .ok () t ∧
      Decoded hasReg v t (mem v.s.snpc) (.register (rmField (mem v.s.snpc))) 1 := by
  obtain ⟨t, ht, hreg, hrun⟩ := decodeRm_head mem cpu hasReg width hfit
  rw [if_pos hmod] at hrun
  exact ⟨_, hrun, ht.snpc, .inl rfl, hreg, rfl, rfl⟩

theorem decodeRm_memory (hmod : modField (mem v.s.snpc) ≠ 3) {b : BitVec 3}
    {i : Option (BitVec 3)} {ss : BitVec 2} {n : Nat} (hn : n ≤ 1)
    (hsib : ∀ t, t.s.snpc = v.s.snpc + 1 → Fits itrace t n →
      ∃ u, Advanced t u n ∧ loadSib itrace mem (mem v.s.snpc) t =
        .ok ((b.toNat : Int), regNum i, ss.toNat) u)
    (hfit : Fits itrace v (1 + n + (sibBase (modField (mem v.s.snpc)) b).2.size)) :
    ∃ t, decodeRm itrace mem cpu hasReg width v = .ok () t ∧
      Decoded hasReg v t (mem v.s.snpc)
        (.memory (effective (regs cpu) (sibBase (modField (mem v.s.snpc)) b).1 i ss
          ((sibBase (modField (mem v.s.snpc)) b).2.value mem
            (v.s.snpc + 1 + BitVec.ofNat 32 n))))
        (1 + n + (sibBase (modField (mem v.s.snpc)) b).2.size) := by
  obtain ⟨t, ht, hreg, hrun⟩ := decodeRm_head mem cpu hasReg width (hfit.mono (by omega))
  have hsnpc : t.s.snpc = v.s.snpc + 1 := ht.snpc
  have hrest : Fits itrace t (n + (sibBase (modField (mem v.s.snpc)) b).2.size) := by
    rw [Nat.add_assoc] at hfit
    have hnext : Fits itrace { t with reg := v.reg } _ := hfit.advance ht
    exact hnext
  obtain ⟨u, hu, hload⟩ := hsib t hsnpc (hrest.mono (by omega))
  obtain ⟨w, haddr, hw, hwreg, hwaddr⟩ := loadAddr_eq cpu hmod hu hload hrest
  rw [if_neg hmod, bind_of_ok haddr] at hrun
  refine ⟨_, hrun, ?_, ?_, hwreg.trans hreg, rfl, ?_⟩
  · show w.s.snpc = _
    rw [hw, hsnpc, BitVec.add_assoc, Nat.add_assoc 1, BitVec.ofNat_add 1]
    rfl
  · have hsize := (sibBase (modField (mem v.s.snpc)) b).2.size_cases
    omega
  · show w.rmAddr = _
    rw [hwaddr, hu.snpc, hsnpc]

end

theorem manualOperand_register {f : BitVec 3 → Word} {a : Word} (hmod : modField (mem a) = 3) :
    manualOperand mem f a = (.register (rmField (mem a)), 1) := by
  rw [manualOperand, hmod, rmTable_register]

theorem manualOperand_sib {f : BitVec 3 → Word} {a : Word} (hmod : modField (mem a) ≠ 3)
    (hrm : rmField (mem a) = 4) :
    manualOperand mem f a =
      (.memory (effective f (sibBase (modField (mem a)) (baseField (mem (a + 1)))).1
        (sibIndex (indexField (mem (a + 1)))) (ssField (mem (a + 1)))
        ((sibBase (modField (mem a)) (baseField (mem (a + 1)))).2.value mem (a + 2))),
      2 + (sibBase (modField (mem a)) (baseField (mem (a + 1)))).2.size) := by
  rw [manualOperand, hrm, rmTable_sib _ hmod]

theorem manualOperand_plain {f : BitVec 3 → Word} {a : Word} (hmod : modField (mem a) ≠ 3)
    (hrm : rmField (mem a) ≠ 4) :
    manualOperand mem f a =
      (.memory (effective f (sibBase (modField (mem a)) (rmField (mem a))).1 none 0
        ((sibBase (modField (mem a)) (rmField (mem a))).2.value mem (a + 1))),
      1 + (sibBase (modField (mem a)) (rmField (mem a))).2.size) := by
  rw [manualOperand, rmTable_plain _ _ hmod hrm]

/-- The bytes from `snpc` on are decoded as the manual's tables say. -/
theorem decodeRm_follows_manual (itrace : Bool) (mem : Mem 32) (cpu : CpuState) (hasReg : Bool)
    (width : Int) (v : Locals)
    (hfit : Fits itrace v (manualOperand mem (regs cpu) v.s.snpc).2) :
    ∃ t, decodeRm itrace mem cpu hasReg width v = .ok () t ∧
      Decoded hasReg v t (mem v.s.snpc) (manualOperand mem (regs cpu) v.s.snpc).1
        (manualOperand mem (regs cpu) v.s.snpc).2 := by
  by_cases hmod : modField (mem v.s.snpc) = 3
  · rw [manualOperand_register hmod] at hfit ⊢
    exact decodeRm_register hmod hfit
  · by_cases hrm : rmField (mem v.s.snpc) = 4
    · rw [manualOperand_sib hmod hrm] at hfit ⊢
      have htwo : v.s.snpc + 2 = v.s.snpc + 1 + BitVec.ofNat 32 1 := by
        rw [BitVec.add_assoc]
        rfl
      rw [htwo]
      refine decodeRm_memory hmod (Nat.le_refl 1) (fun t ht htfit => ?_) hfit
      have hone : v.s.snpc + 1 = t.s.snpc := ht.symm
      rw [hone]
      exact loadSib_sib hrm htfit
    · rw [manualOperand_plain hmod hrm] at hfit ⊢
      have hzero : v.s.snpc + 1 = v.s.snpc + 1 + BitVec.ofNat 32 0 := (BitVec.add_zero _).symm
      rw [hzero]
      exact decodeRm_memory hmod (Nat.zero_le 1)
        (fun t _ _ => ⟨t, .refl t, loadSib_plain hrm t⟩) hfit

/-- `movw $0x1,-0x2000(%ecx,%ebx,4)` of the built-in image, from its ModR/M byte on. -/
def builtinMov (a : Word) : Byte := [0x84, 0x99, 0x00, 0xe0, 0xff, 0xff].getD (a - 0x100019).toNat 0

def atBuiltinMov : Locals := ⟨⟨0x100017, 0x100019, 0x100017, fun _ => 0⟩, 0, 0, 0⟩

theorem builtinMov_follows_manual :
    ∃ t, decodeRm true builtinMov start true 2 atBuiltinMov = .ok () t ∧
      Decoded true atBuiltinMov t (builtinMov atBuiltinMov.s.snpc)
        (manualOperand builtinMov (regs start) atBuiltinMov.s.snpc).1
        (manualOperand builtinMov (regs start) atBuiltinMov.s.snpc).2 :=
  decodeRm_follows_manual true builtinMov start true 2 atBuiltinMov (by unfold Fits; decide)

/-- A `mov` behind 14 operand-size prefixes, up to its opcode. -/
def prefixedMov (a : Word) : Byte :=
  if a = 0x10000f then 0x00 else if a = 0x10000e then 0x88 else 0x66

def atPrefixedMov : Locals := ⟨⟨0x100000, 0x10000f, 0x100000, fun _ => 0⟩, 0, 0, 0⟩

/-- With tracing, the 16th byte of an instruction is not decoded. -/
theorem prefixedMov_stops :
    ∃ t, decodeRm true prefixedMov start true 1 atPrefixedMov = .error assertInst t := ⟨_, rfl⟩

end Riscv32Cpu.NemuX86.Operands
