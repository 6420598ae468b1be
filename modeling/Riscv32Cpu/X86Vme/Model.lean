/- module: Riscv32Cpu/X86Vme/Model
   source: CODE/abstract-machine/am/src/x86/qemu/vme.c
   digest: The VME operations on page tables, and the processor's page walk. -/

import Riscv32Cpu.Lib.Effect
import Riscv32Cpu.X86Vme.Config
import Mathlib.Logic.Function.Basic

set_option autoImplicit false
set_option relaxedAutoImplicit false

namespace Riscv32Cpu.X86Vme.Model

open Riscv32Cpu.X86Vme.Config

/-- The `AddrSpace` objects: the local of `vme_init` and those of the client. -/
inductive Space (α : Type)
  | boot
  | user (as : α)
  deriving DecidableEq

/-- What a `uintptr_t *` of `vme.c` points at: the field `ptr` of an `AddrSpace`, or a page. -/
inductive Loc (a : Arch) (α : Type)
  | slot (sp : Space α)
  | page (base : Word a)
  deriving DecidableEq

/-- The other fields of an `AddrSpace`. -/
structure AddrSpace (a : Arch) where
  pgsize : Word a
  area : Area a

/-- `mem`, `kpt` and `info` are the data of the source. The others are a record: the pages in use
as tables, those obtained for each address space since its `protect`, and the `pgfree` calls. -/
structure St (a : Arch) (α : Type) where
  mem : Loc a α → Nat → Word a
  kpt : Word a
  info : α → AddrSpace a
  tables : List (Word a)
  owned : Space α → List (Word a)
  freed : List (Loc a α)

/-- The client's `pgalloc` and `pgfree`. A page it returns is not in use as a table; what it
leaves in a page it gets back is up to it. -/
structure Allocator (a : Arch) (α : Type) where
  page : St a α → Word a
  fresh : ∀ s, page s ≠ 0#_ → IsPage (page s) ∧ page s ∉ s.tables
  scribble : St a α → Word a → Nat → Word a

/-- `panic_on` stops the machine with a message. -/
abbrev M (a : Arch) (α : Type) := EStateM String (St a α)

def panicOn {a : Arch} {α : Type} (cond : Bool) (msg : String) : M a α Unit :=
  if cond then throw msg else return

variable {a : Arch} {α : Type} [DecidableEq α]

def St.put (s : St a α) (pt : Loc a α) (index : Nat) (v : Word a) : St a α :=
  { s with mem := Function.update s.mem pt (Function.update (s.mem pt) index v) }

/-- `s` with the cleared page `base` obtained for `sp`. -/
def St.grow (s : St a α) (sp : Space α) (base : Word a) : St a α :=
  { s with
    mem := Function.update s.mem (.page base) fun _ => 0#_
    tables := base :: s.tables
    owned := Function.update s.owned sp (base :: s.owned sp) }

/-- `pt[index] = v`. -/
def setEntry (pt : Loc a α) (index : Nat) (v : Word a) : M a α Unit :=
  modify fun s => s.put pt index v

variable (al : Allocator a α)

def pgallocz (sp : Space α) : M a α (Word a) := do
  let base := al.page (← get)
  panicOn (base == 0#_) "cannot allocate page"
  modify fun s => s.grow sp base
  return base

/-- `ptwalk` from level `ptlevels - n` on, where the table is `pt`. -/
def ptwalkLoop (sp : Space α) (addr flags : Word a) : Nat → Loc a α → M a α (Loc a α × Nat)
  | 0, pt => return (pt, indexof addr (pgtables a (ptlevels a)))
  | n + 1, pt => do
    let index := indexof addr (pgtables a (ptlevels a - (n + 1)))
    let entry := (← get).mem pt index
    if !has entry pteP then
      let next ← pgallocz al sp
      setEntry pt index (next ||| pteP ||| flags)
      ptwalkLoop sp addr flags n (.page next)
    else
      ptwalkLoop sp addr flags n (.page (baseof entry))

/-- The pointer `&pt[index]` that `ptwalk` returns, as its two parts. -/
def ptwalk (sp : Space α) (addr flags : Word a) : M a α (Loc a α × Nat) :=
  ptwalkLoop al sp addr flags (ptlevels a) (.slot sp)

def pgfree (pt : Loc a α) (s : St a α) : St a α :=
  match pt with
  | .page base =>
    { s with
      mem := Function.update s.mem pt (al.scribble s base)
      tables := s.tables.filter (· ≠ base)
      freed := pt :: s.freed }
  | .slot _ => { s with freed := pt :: s.freed }

/-- `teardown` at level `ptlevels + 1 - n`; past the last level it returns at once. -/
def teardown : Nat → Loc a α → St a α → St a α
  | 0, _, s => s
  | n + 1, pt, s =>
    let level := ptlevels a - n
    let s := (List.range (1 <<< (pgtables a level).bits)).foldl (fun s index =>
      if has (s.mem pt index) pteP && has (s.mem pt index) pteU then
        teardown n (.page (baseof (s.mem pt index))) s
      else s) s
    if 1 ≤ level then pgfree al pt s else s

/-- `for (cur = start; cur != stop; cur += step)`, with a bound on the rounds. -/
def forRange (body : Word a → M a α Unit) (stop step : Word a) : Nat → Word a → M a α Unit
  | 0, _ => return
  | n + 1, cur =>
    if cur = stop then return
    else do
      body cur
      forRange body stop step n (cur + step)

/-- The loop over `vm_areas` with the kernel areas cut into steps. -/
def forKernel (step : Word a) (body : Word a → M a α Unit) : List (VmArea a) → M a α Unit
  | [] => return
  | vma :: rest => do
    (if vma.kernel then
      forRange body vma.area.stop step (vma.area.stop - vma.area.start).toNat vma.area.start
    else return)
    forKernel step body rest

def pml4Addr : Word a := 0x1000
def pdptAddr : Word a := 0x2000

/-- What `start64.S` has written before: one entry of the level-1 table leads to pages of 1 GiB. -/
def startTables : (a : Arch) → List (Word a)
  | .i386 => []
  | .x86_64 => [pml4Addr, pdptAddr]

/-- The state in which the client calls `vme_init`. -/
structure AtStart (s : St a α) : Prop where
  tables : s.tables = startTables a
  owned : ∀ sp, s.owned sp = []
  pml4 : a = .x86_64 → s.mem (.page pml4Addr) 0 = pdptAddr ||| pteP ||| pteW
  pdpt : a = .x86_64 → ∀ i < 512, s.mem (.page pdptAddr) i =
    BitVec.ofNat _ i <<< 30 ||| pteP ||| pteW ||| ptePS

/-- The identity mapping of one kernel page. -/
def mapKernel (cur : Word a) : M a α Unit := do
  let (pt, index) ← ptwalk al .boot cur pteW
  setEntry pt index (cur ||| pteP ||| pteW)

/-- The two ways of setting `kpt`. -/
def buildKernel : M a α Unit :=
  if a = .x86_64 then modify fun s => { s with kpt := pml4Addr }
  else do
    setEntry (.slot .boot) 0 0#_
    forKernel pgsize (mapKernel al) (vmAreas a)
    modify fun s => { s with kpt := baseof (s.mem (.slot .boot) 0) }

/-- Loading `cr3` and `cr0` changes no table and is left out. -/
def vmeInit (cpuCurrent : Nat) : M a α Bool := do
  panicOn (cpuCurrent != 0) "init VME in non-bootstrap CPU"
  buildKernel al
  return true

/-- Copy one kernel entry of the level-1 table. -/
def shareKernel (upt : Word a) (cur : Word a) : M a α Unit := do
  let index := indexof cur (pgtables a 1)
  let s ← get
  setEntry (.page upt) index (s.mem (.page s.kpt) index)

def protect (as : α) : M a α Unit := do
  modify fun s => { s with owned := Function.update s.owned (.user as) [] }
  let upt ← pgallocz al (.user as)
  forKernel (1#a.width <<< (pgtables a 1).shift) (shareKernel upt) (vmAreas a)
  modify fun s => { s with info := Function.update s.info as ⟨pgsize, uvmArea a⟩ }
  setEntry (.slot (.user as)) 0 (upt ||| pteP ||| pteU)

def unprotect (as : α) : M a α Unit := modify (teardown al (ptlevels a + 1) (.slot (.user as)))

def pteOf (pa : PhysAddr a) (prot : BitVec 32) : Word a :=
  pa.val ||| pteP ||| pteU ||| (if prot &&& mmapWrite ≠ 0#_ then pteW else 0#_)

/-- The branch of `map` on `prot`. -/
def setPte (pt : Loc a α) (index : Nat) (pa : PhysAddr a) (prot : BitVec 32) : M a α Unit := do
  let entry := (← get).mem pt index
  if prot = mmapNone then do
    panicOn (!has entry pteP) "unmapping a non-mapped page"
    setEntry pt index 0#_
  else do
    panicOn (has entry pteP) "remapping a mapped page"
    setEntry pt index (pteOf pa prot)

def map (as : α) (va : Word a) (pa : PhysAddr a) (prot : BitVec 32) : M a α Unit := do
  panicOn (!inRange va (uvmArea a)) "mapping an invalid address"
  panicOn (va != rounddown va pgsize || pa.val != rounddown pa.val pgsize)
    "non-page-boundary address"
  let (pt, index) ← ptwalk al (.user as) va (pteW ||| pteU)
  setPte pt index pa prot
  let _ ← ptwalk al (.user as) va (pteW ||| pteU)

/-- The client's calls after `vme_init`. -/
inductive Call (a : Arch) (α : Type)
  | protect (as : α)
  | unprotect (as : α)
  | map (as : α) (va : Word a) (pa : PhysAddr a) (prot : BitVec 32)

def Call.run : Call a α → M a α Unit
  | .protect as => Model.protect al as
  | .unprotect as => Model.unprotect al as
  | .map as va pa prot => Model.map al as va pa prot

def runCalls : List (Call a α) → M a α Unit
  | [] => return
  | call :: calls => do
    call.run al
    runCalls calls

structure Translation (a : Arch) where
  page : Word a
  shift : Nat
  user : Bool
  writable : Bool

/-- Entries of a table of this level may map a large page; on i386 `CR4.PSE` is clear. -/
def largePage : Arch → Nat → Bool
  | .i386, _ => false
  | .x86_64, level => level == 2 || level == 3

/-- The walk from a table of level `ptlevels + 1 - n` on, with the rights granted so far. -/
def hwWalk (mem : Word a → Nat → Word a) (va : Word a) :
    Nat → Word a → Bool → Bool → Option (Translation a)
  | 0, _, _, _ => none
  | n + 1, table, user, writable =>
    let level := ptlevels a - n
    let entry := mem table (hwIndex va level)
    if !has entry pteP then none
    else
      let user := user && has entry pteU
      let writable := writable && has entry pteW
      if n = 0 ∨ (largePage a level && has entry ptePS) then
        some ⟨frameOf entry &&& ~~~(1#a.width <<< levelShift a level - 1#a.width),
          levelShift a level, user, writable⟩
      else hwWalk mem va n (frameOf entry) user writable

/-- The translation under a page table whose root is in `cr3`. -/
def hwTranslate (mem : Word a → Nat → Word a) (cr3 va : Word a) : Option (Translation a) :=
  hwWalk mem va (ptlevels a) (frameOf cr3) true true

/-- What the tables in memory say. -/
def St.pages (s : St a α) : Word a → Nat → Word a := fun base index => s.mem (.page base) index

/-- The translation while `as` runs: `ucontext` puts `as->ptr` in `cr3`. -/
def St.translate (s : St a α) (as : α) (va : Word a) : Option (Translation a) :=
  hwTranslate s.pages (s.mem (.slot (.user as)) 0) va

end Riscv32Cpu.X86Vme.Model
