/- module: Riscv32Cpu/X86Trap/Model
   source: abstract-machine/am/src/x86/qemu/trap32.S, trap64.S, cte.c, x86-qemu.h, src/x86/x86.h,
   include/arch/x86-qemu.h, x86_64-qemu.h
   digest: Interrupt delivery, the stubs, the C handler between them and the return. -/

import Mathlib.Logic.Function.Basic
import Riscv32Cpu.Lib.Slots

set_option autoImplicit false
set_option relaxedAutoImplicit false

namespace Riscv32Cpu.X86Trap

open Lib.Memory Lib.Slots

/-- Which of the two files is built. -/
inductive Mode
  | m32
  | m64
  deriving DecidableEq

/-- Bytes of a machine word. -/
def Mode.n : Mode → Nat
  | .m32 => 4
  | .m64 => 8

abbrev Word (m : Mode) := BitVec (8 * m.n)

/-- A segment selector. -/
abbrev Sel := BitVec 16

/-- The general registers; in 32-bit mode the first eight. -/
inductive Gpr
  | ax | bx | cx | dx | si | di | bp | sp
  | r8 | r9 | r10 | r11 | r12 | r13 | r14 | r15
  deriving DecidableEq

inductive Seg
  | ds | es | ss
  deriving DecidableEq

/-- A processor. `ip` is that of the interrupted code: where a stub itself stands is given by the
rest of its instructions. -/
structure Cpu (m : Mode) where
  gpr : Gpr → Word m
  mem : Mem (8 * m.n)
  ip : Word m
  cs : Sel
  flags : Word m
  seg : Seg → Sel

/-- The rest of the system that the handler touches: `cr2`, `cr3`, the stack of ring 0 in the task
state segment, and the end-of-interrupt writes made. -/
structure System (m : Mode) where
  cr2 : Word m
  cr3 : Word m
  sp0 : Word m
  ss0 : Sel
  eois : Nat

def segKcode : Nat := 1
def segKdata : Nat := 2
def segUcode : Nat := 3
def segUdata : Nat := 4
def dplKern : Nat := 0
def dplUser : Nat := 3
def ksel (seg : Nat) : Sel := BitVec.ofNat 16 ((seg <<< 3) ||| dplKern)
def usel (seg : Nat) : Sel := BitVec.ofNat 16 ((seg <<< 3) ||| dplUser)

/-- `FL_IF`. -/
def flIf {m : Mode} : Word m := 0x200

/-- `IRQS`: the vectors with a stub of their own, and whether the hardware pushes an error code. -/
def irqs : List (Nat × Bool) :=
  [(0, false), (1, false), (2, false), (3, false), (4, false), (5, false), (6, false), (7, false),
    (8, true), (9, false), (10, true), (11, true), (12, true), (13, true), (14, true), (15, false),
    (16, false), (19, false), (31, false), (32, false), (33, false), (34, false), (35, false),
    (36, false), (37, false), (38, false), (39, false), (40, false), (41, false), (42, false),
    (43, false), (44, false), (45, false), (46, false), (47, false), (128, false), (129, false)]

section

variable {m : Mode}

def Cpu.setGpr (s : Cpu m) (r : Gpr) (v : Word m) : Cpu m :=
  { s with gpr := Function.update s.gpr r v }

/-- Word `j` of the stack, counted from its top. -/
def Cpu.top (s : Cpu m) (j : Nat) : Word m := load s.mem (slot (s.gpr .sp) j) _

def Cpu.pushWord (s : Cpu m) (v : Word m) : Cpu m :=
  let p := s.gpr .sp - BitVec.ofNat _ m.n
  { s.setGpr .sp p with mem := Lib.Memory.store s.mem p m.n v }

/-- The privilege level. -/
def Cpu.cpl (s : Cpu m) : Sel := s.cs &&& 3

inductive Operand
  | reg (r : Gpr)
  | imm (i : Int)
  deriving DecidableEq

def Operand.val (o : Operand) (s : Cpu m) : Word m :=
  match o with
  | .reg r => s.gpr r
  | .imm i => BitVec.ofInt _ i

/-- The instructions of the stubs, operands in their order there. -/
inductive Instr
  | cli
  | push (o : Operand)
  | pop (r : Gpr)
  | add (k : Nat) (r : Gpr)
  | sub (k : Nat) (r : Gpr)
  | mov (src dst : Gpr)
  | load (off : Int) (base dst : Gpr)
  | store (src : Gpr) (off : Int) (base : Gpr)
  | lea (off : Int) (base dst : Gpr)
  | movwImm (imm : Sel) (r : Gpr)
  | movwFromSeg (seg : Seg) (r : Gpr)
  | movwToSeg (r : Gpr) (seg : Seg)
  | iret
  deriving DecidableEq

def lowWord {w : Nat} (x : BitVec w) : Sel := x.setWidth 16

/-- A 16-bit move to a register leaves its upper part alone. -/
def setLowWord (w : Word m) (v : Sel) : Word m := (w &&& ~~~(0xffff : Word m)) ||| v.setWidth _

/-- `iret` and `iretq`. The first gives back `esp` and `ss` only where the privilege changes. -/
def Cpu.iret (s : Cpu m) : Cpu m :=
  let t := { s with ip := s.top 0, cs := lowWord (s.top 1), flags := s.top 2 }
  if m = .m32 ∧ t.cpl = s.cpl then t.setGpr .sp (slot (s.gpr .sp) 3)
  else { t.setGpr .sp (s.top 3) with seg := Function.update s.seg .ss (lowWord (s.top 4)) }

/-- The arithmetic flags that `add` and `sub` set are left out: nothing reads them. -/
def exec (i : Instr) (s : Cpu m) : Cpu m :=
  match i with
  | .cli => { s with flags := s.flags &&& ~~~flIf }
  | .push o => s.pushWord (o.val s)
  | .pop r => (s.setGpr .sp (slot (s.gpr .sp) 1)).setGpr r (s.top 0)
  | .add k r => s.setGpr r (s.gpr r + BitVec.ofNat _ k)
  | .sub k r => s.setGpr r (s.gpr r - BitVec.ofNat _ k)
  | .mov src dst => s.setGpr dst (s.gpr src)
  | .load off base dst => s.setGpr dst (Lib.Memory.load s.mem (s.gpr base + BitVec.ofInt _ off) _)
  | .store src off base =>
    { s with mem := Lib.Memory.store s.mem (s.gpr base + BitVec.ofInt _ off) m.n (s.gpr src) }
  | .lea off base dst => s.setGpr dst (s.gpr base + BitVec.ofInt _ off)
  | .movwImm imm r => s.setGpr r (setLowWord (s.gpr r) imm)
  | .movwFromSeg seg r => s.setGpr r (setLowWord (s.gpr r) (s.seg seg))
  | .movwToSeg r seg => { s with seg := Function.update s.seg seg (lowWord (s.gpr r)) }
  | .iret => s.iret

def execAll (is : List Instr) (s : Cpu m) : Cpu m := is.foldl (fun s i => exec i s) s

/-- `popl` one after the other. -/
def pops (rs : List Gpr) : List Instr := rs.map .pop

def pushes (rs : List Gpr) : List Instr := rs.map fun r => .push (.reg r)

end

/-! Delivery of an interrupt through a trap gate, with the error code that the hardware pushes for
it, if any. -/

/-- `TF`, `NT`, `RF` and `VM`, which a trap gate clears. -/
def flGate {m : Mode} : Word m := 0x100 ||| 0x4000 ||| 0x10000 ||| 0x20000

/-- What is pushed of the interrupted stack. In 64-bit mode that is always done, on a stack that is
aligned to 16 bytes first; in 32-bit mode only where the privilege changes. -/
def pushStack {m : Mode} (sys : System m) (s : Cpu m) : Cpu m :=
  let oldSs := (s.seg .ss).setWidth (8 * m.n)
  if m = .m32 then
    if s.cpl = 0 then s
    else
      (({ s.setGpr .sp sys.sp0 with seg := Function.update s.seg .ss sys.ss0 }).pushWord
        oldSs).pushWord (s.gpr .sp)
  else
    let t :=
      if s.cpl = 0 then s
      else { s.setGpr .sp sys.sp0 with seg := Function.update s.seg .ss 0 }
    ((t.setGpr .sp (t.gpr .sp &&& ~~~(15 : Word m))).pushWord oldSs).pushWord (s.gpr .sp)

def deliver {m : Mode} (sys : System m) (errcode : Option (Word m)) (s : Cpu m) : Cpu m :=
  let t := pushStack sys s
  let t := ((t.pushWord s.flags).pushWord (s.cs.setWidth _)).pushWord s.ip
  let t := { t with cs := ksel segKcode, flags := s.flags &&& ~~~flGate }
  match errcode with
  | none => t
  | some e => t.pushWord e

/-- `IRQ_DEF(id, dpl, err)` for the vectors in `IRQS`, `__am_irqall` for the others. -/
def irqStub (vector : Nat) : List Instr :=
  match irqs.find? (fun irq => irq.1 = vector) with
  | some (id, true) => [.cli, .push (.imm id)]
  | some (id, false) => [.cli, .push (.imm 0), .push (.imm id)]
  | none => [.cli, .push (.imm 0), .push (.imm (-1))]

/-- `trap`, up to the call of `__am_irq_handle`. -/
def trap : Mode → List Instr
  | .m32 =>
    [.cli, .sub 20 .sp] ++ pushes [.bp, .di, .si] ++ [.push (.imm 0)] ++
      pushes [.dx, .cx, .bx, .ax] ++
      [.movwFromSeg .ds .ax, .push (.reg .ax), .push (.imm 0), .movwImm (ksel segKdata) .ax,
        .movwToSeg .ax .ds, .movwToSeg .ax .es, .movwToSeg .ax .ss, .push (.reg .sp)]
  | .m64 =>
    [.cli, .sub 48 .sp] ++
      pushes [.r15, .r14, .r13, .r12, .r11, .r10, .r9, .r8, .di, .si, .bp, .dx, .cx, .bx, .ax] ++
      [.push (.imm 0), .mov .sp .di]

/-- `trap32.S`, `__am_iret` up to the `je`. -/
def iretHead32 : List Instr :=
  [.add 4 .sp, .pop .ax, .mov .ax .sp, .add 4 .sp, .pop .ax, .movwToSeg .ax .ds,
    .movwToSeg .ax .es]

def userIret : List Instr :=
  pops [.ax, .bx, .cx, .dx] ++ [.add 4 .sp] ++ pops [.si, .di, .bp] ++ [.iret]

/-- One word of the stack frame moved to below the new `esp`. -/
def moveWord (src dst : Int) : List Instr := [.load src .bp .si, .store .si dst .di]

def kernelIret : List Instr :=
  pops [.ax, .bx, .cx, .dx] ++ [.add 4 .sp] ++
    [.mov .sp .bp, .load 24 .bp .di] ++
    (moveWord 20 (-4) ++ moveWord 16 (-8) ++ moveWord 12 (-12) ++ moveWord 8 (-16) ++
      moveWord 4 (-20) ++ moveWord 0 (-24)) ++
    [.lea (-24) .di .sp] ++ pops [.si, .di, .bp] ++ [.iret]

def iret64 : List Instr :=
  [.mov .di .sp, .load 160 .sp .ax, .movwToSeg .ax .ds, .movwToSeg .ax .es, .add 8 .sp] ++
    pops [.ax, .bx, .cx, .dx, .bp, .si, .di, .r8, .r9, .r10, .r11, .r12, .r13, .r14, .r15] ++
    [.iret]

/-- `__am_iret`. -/
def amIret {m : Mode} (s : Cpu m) : Cpu m :=
  if m = .m32 then
    let s : Cpu m := execAll iretHead32 s
    -- `cmpw $KSEL(SEG_KCODE), 36(%esp)`
    if lowWord (load s.mem (s.gpr .sp + 36) (8 * m.n)) = ksel segKcode then execAll kernelIret s
    else execAll userIret s
  else execAll iret64 s

/-- The members of `struct Context`, under the names of the registers they hold. -/
inductive Member
  | cr3 | ds | gpr (r : Gpr) | sp0 | ip | cs | flags | sp | ss
  deriving DecidableEq

/-- Their order in the declaration; each is one machine word. -/
def contextMembers : Mode → List Member
  | .m32 =>
    [.cr3, .ds, .gpr .ax, .gpr .bx, .gpr .cx, .gpr .dx, .sp0, .gpr .si, .gpr .di, .gpr .bp, .ip,
      .cs, .flags, .sp, .ss]
  | .m64 =>
    [.cr3, .gpr .ax, .gpr .bx, .gpr .cx, .gpr .dx, .gpr .bp, .gpr .si, .gpr .di, .gpr .r8, .gpr .r9,
      .gpr .r10, .gpr .r11, .gpr .r12, .gpr .r13, .gpr .r14, .gpr .r15, .ip, .cs, .flags, .sp,
      .ss, .sp0]

/-- The members of `struct trap_frame` after the saved context. -/
inductive TrapMember
  | irq | errcode | ip | cs | flags | sp | ss
  deriving DecidableEq

def trapMembers : List TrapMember := [.irq, .errcode, .ip, .cs, .flags, .sp, .ss]

section

variable {m : Mode}

/-- `sizeof(Context)`, in words. -/
def contextWords (m : Mode) : Nat := (contextMembers m).length

def trapFrameWords (m : Mode) : Nat := contextWords m + trapMembers.length

def Member.idx (x : Member) (m : Mode) : Nat := (contextMembers m).idxOf x

def TrapMember.idx (x : TrapMember) (m : Mode) : Nat := contextWords m + trapMembers.idxOf x

/-- `ctx->x`. -/
def getMember (mem : Mem (8 * m.n)) (ctx : Word m) (x : Member) : Word m :=
  load mem (slot ctx (x.idx m)) _

def setMember (ctx : Word m) (x : Member) (v : Word m) (mem : Mem (8 * m.n)) : Mem (8 * m.n) :=
  store mem (slot ctx (x.idx m)) m.n v

/-- `tf->x`. -/
def getTrap (mem : Mem (8 * m.n)) (tf : Word m) (x : TrapMember) : Word m :=
  load mem (slot tf (x.idx m)) _

/-- The first part of `__am_irq_handle`, which completes the saved context. -/
def saveContext (sys : System m) (tf : Word m) (mem : Mem (8 * m.n)) : Mem (8 * m.n) :=
  let mem := setMember tf .ip (getTrap mem tf .ip) mem
  let mem := setMember tf .cs (getTrap mem tf .cs) mem
  let mem := setMember tf .flags (getTrap mem tf .flags) mem
  let mem :=
    if m = .m64 then
      let mem := setMember tf .sp (getTrap mem tf .sp) mem
      let mem := setMember tf .sp0 sys.sp0 mem
      setMember tf .ss (getTrap mem tf .ss) mem
    else
      let mem := setMember tf .sp0 sys.sp0 mem
      let mem := setMember tf .ss ((usel segUdata).setWidth _) mem
      setMember tf .sp
        (if getTrap mem tf .cs &&& BitVec.ofNat _ dplUser ≠ 0 then getTrap mem tf .sp
          else slot tf (trapFrameWords m) - 8) mem
  setMember tf .cr3 sys.cr3 mem

inductive EventKind
  | null | yield | syscall | pagefault | error | irqTimer | irqIodev
  deriving DecidableEq

structure Event (m : Mode) where
  event : EventKind
  cause : Word m
  ref : Word m
  msg : String

/-- `MMAP_NONE`, `MMAP_READ` and `MMAP_WRITE`. -/
def mmapNone : Word m := 0
def mmapRead : Word m := 1
def mmapWrite : Word m := 2

/-- `switch (tf->irq)`. -/
def irqEvent (sys : System m) (irq errcode : Word m) : Event m :=
  if irq = 32 then ⟨.irqTimer, 0, 0, "timer interrupt (lapic)"⟩
  else if irq = 33 then ⟨.irqIodev, 0, 0, "I/O device IRQ1 (keyboard)"⟩
  else if irq = 36 then ⟨.irqIodev, 0, 0, "I/O device IRQ4 (COM1)"⟩
  else if irq = 0x80 then ⟨.syscall, 0, 0, "int $0x80 system call"⟩
  else if irq = 0x81 then ⟨.yield, 0, 0, "int $0x81 yield"⟩
  else if irq = 0 then ⟨.error, 0, 0, "DE #0 divide by zero"⟩
  else if irq = 6 then ⟨.error, 0, 0, "UD #6 invalid opcode"⟩
  else if irq = 7 then ⟨.error, 0, 0, "NM #7 coprocessor error"⟩
  else if irq = 8 then ⟨.error, 0, 0, "DF #8 double fault"⟩
  else if irq = 10 then ⟨.error, 0, 0, "TS #10 invalid TSS"⟩
  else if irq = 11 then ⟨.error, 0, 0, "NP #11 segment/gate not present"⟩
  else if irq = 12 then ⟨.error, 0, 0, "SS #12 stack fault"⟩
  else if irq = 13 then ⟨.error, 0, 0, "GP #13, general protection fault"⟩
  else if irq = 14 then
    ⟨.pagefault,
      (if errcode &&& 1 ≠ 0 then mmapNone else 0) |||
        (if errcode &&& 2 ≠ 0 then mmapWrite else mmapRead),
      sys.cr2, "PF #14, page fault, @cause: PROT_XXX"⟩
  else ⟨.error, errcode, 0, "unrecognized interrupt/exception"⟩

/-- `user_handler`: it may change the memory and the system, and returns a context. -/
abbrev UserHandler (m : Mode) :=
  Event m → Word m → Mem (8 * m.n) → System m → Word m × Mem (8 * m.n) × System m

/-- The call of the handler that `__am_irq_handle` makes, with what it gives back. -/
def callHandler (userHandler : UserHandler m) (sys : System m) (tf : Word m)
    (mem : Mem (8 * m.n)) : Word m × Mem (8 * m.n) × System m :=
  let mem := saveContext sys tf mem
  let irq := getTrap mem tf .irq
  let sys := if 32 ≤ irq ∧ irq < 64 then { sys with eois := sys.eois + 1 } else sys
  userHandler (irqEvent sys irq (getTrap mem tf .errcode)) tf mem sys

/-- `__am_irq_handle`, up to its last line, the call of `__am_iret` on the context it gives. -/
def amIrqHandle (userHandler : UserHandler m) (sys : System m) (tf : Word m)
    (mem : Mem (8 * m.n)) : Except String (Word m × Mem (8 * m.n) × System m) :=
  let (ret, mem, sys) := callHandler userHandler sys tf mem
  if ret = 0 then .error "returning to NULL context"
  else if getMember mem ret .cr3 ≠ 0 then
    let sys := { sys with cr3 := getMember mem ret .cr3, sp0 := getMember mem ret .sp0 }
    if m = .m64 then .ok (ret, mem, sys)
    else .ok (ret, mem, { sys with ss0 := ksel segKdata })
  else .ok (ret, mem, sys)

/-- `GPR1` and `GPR2`. -/
def gpr1 : Mode → Gpr
  | .m32 => .ax
  | .m64 => .di

def gpr2 : Mode → Gpr
  | .m32 => .bx
  | .m64 => .si

/-- `*ctx = (Context) { 0 }`. -/
def clearContext (ctx : Word m) (mem : Mem (8 * m.n)) : Mem (8 * m.n) :=
  (contextMembers m).foldl (fun mem x => setMember ctx x 0 mem) mem

/-- `kcontext`, given the address of `__am_kcontext_start` and the end of the stack. -/
def kcontext (start kstackEnd entry arg : Word m) (mem : Mem (8 * m.n)) :
    Word m × Mem (8 * m.n) :=
  let ctx := kstackEnd - BitVec.ofNat _ (m.n * contextWords m)
  let mem := clearContext ctx mem
  let mem :=
    if m = .m64 then mem else setMember ctx .ds ((ksel segKdata).setWidth _) mem
  let mem := setMember ctx .cs ((ksel segKcode).setWidth _) mem
  let mem := setMember ctx .ip start mem
  let mem := setMember ctx .flags flIf mem
  let mem := setMember ctx .sp kstackEnd mem
  let mem := setMember ctx (.gpr (gpr1 m)) arg mem
  let mem := setMember ctx (.gpr (gpr2 m)) entry mem
  (ctx, mem)

end

end Riscv32Cpu.X86Trap
