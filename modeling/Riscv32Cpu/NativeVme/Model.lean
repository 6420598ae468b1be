/- module: Riscv32Cpu/NativeVme/Model
   source: CODE/abstract-machine/am/src/native/vme.c, am/src/native/platform.c
   digest: Address spaces of the native platform as lists of pages mapped into the host. -/

import Mathlib.Data.Nat.Digits.Defs
import Riscv32Cpu.Lib.Chains

set_option autoImplicit false
set_option relaxedAutoImplicit false

namespace Riscv32Cpu.NativeVme.Model

open Riscv32Cpu.Lib.Chains

/-- `void *` of a 64-bit host; 0 is `NULL`. -/
abbrev Ptr := BitVec 64

structure PageMap where
  va : Ptr
  pa : Ptr
  next : Ptr
  prot : BitVec 32
  is_mapped : Bool
  key : List Char

/-- `hash` is the table of `hsearch_r`: the `data` of the entry with a key. -/
structure VMHead where
  head : Ptr
  hash : List Char → Option Ptr
  nr_page : Nat

/-- The memory and the `AddrSpace` objects, `thiscpu->vm_head` and the pages of the host mapped by
`__am_pmem_map`. The last three fields are a record: the pages obtained from `pgalloc`, the
`VMHead` objects made, and for each of these the last `pa` and `prot` given for a `va`. -/
structure St (α : Type) where
  vme_enable : Bool
  pages : Ptr → PageMap
  heads : Ptr → VMHead
  ptr : α → Ptr
  vm_head : Ptr
  host : Ptr → Option (Ptr × BitVec 32)
  used : List Ptr
  made : List Ptr
  latest : Ptr → Ptr → Option (Ptr × BitVec 32)

/-- A call stops at a failed assertion or at a `NULL` access; `outOfFuel` says that a loop was
still running. -/
inductive Stop
  | assertion
  | crash
  | outOfFuel

abbrev M (α : Type) := EStateM Stop (St α)

/-- The client's `pgalloc`: a page that is not in use, or `NULL`. -/
structure Allocator (α : Type) where
  page : St α → Ptr
  fresh : ∀ s, page s ≠ 0 → page s ∉ s.used

variable {α : Type} [DecidableEq α]

def inUserSpace (p : Ptr) : Bool := (0x40000000#64).ule p && p.ult 0xc0000000#64

/-- `snprintf(buf, 32, "%x", va)`: the argument is read as an `unsigned int`. -/
def hexKey (va : Ptr) : List Char :=
  let n := (va.setWidth 32).toNat
  if n = 0 then ['0'] else (Nat.digits 16 n).reverse.map Nat.digitChar

def check (cond : Bool) (stop : Stop) : M α Unit := if cond then return else throw stop

def setPage (p : Ptr) (f : PageMap → PageMap) : M α Unit :=
  modify fun s => { s with pages := Function.update s.pages p (f (s.pages p)) }

def setHead (h : Ptr) (f : VMHead → VMHead) : M α Unit :=
  modify fun s => { s with heads := Function.update s.heads h (f (s.heads h)) }

/-- `mmap` with `MAP_FIXED` and `munmap` of one page. -/
def pmemMap (va pa : Ptr) (prot : BitVec 32) : M α Unit :=
  modify fun s => { s with host := Function.update s.host va (some (pa, prot)) }

def pmemUnmap (va : Ptr) : M α Unit :=
  modify fun s => { s with host := Function.update s.host va none }

def vmeInit : M α Bool := do
  modify fun s => { s with vme_enable := true }
  return true

variable (al : Allocator α) (pgsize : Nat)

def pgalloc (failed : Stop) : M α Ptr := do
  let p := al.page (← get)
  check (p != 0) failed
  modify fun s => { s with used := p :: s.used }
  return p

def protect (as : α) : M α Unit := do
  let h ← pgalloc al .assertion
  setHead h fun _ => ⟨0, fun _ => none, 0⟩
  modify fun s => { s with
    ptr := Function.update s.ptr as h
    made := h :: s.made
    latest := Function.update s.latest h fun _ => none }

def link (s : St α) (p : Ptr) : Ptr := (s.pages p).next

/-- `list_foreach`. -/
def listForeach (body : Ptr → M α Unit) : Nat → Ptr → M α Unit :=
  forEach link 0 .outOfFuel body

def unmapPage (pp : Ptr) : M α Unit := do
  let page := (← get).pages pp
  if page.is_mapped then do
    pmemUnmap page.va
    setPage pp fun page => { page with is_mapped := false }
  else return

/-- Map the page of `pp` and mark it. -/
def enforceMap (pp : Ptr) : M α Unit := do
  let page := (← get).pages pp
  pmemMap page.va page.pa page.prot
  setPage pp fun page => { page with is_mapped := true }

def mapPage (pp : Ptr) : M α Unit := do
  check (inUserSpace ((← get).pages pp).va) .assertion
  enforceMap pp

/-- `__am_switch` with `c->vm_head` equal to `head`. -/
def amSwitch (fuel : Nat) (head : Ptr) : M α Unit := do
  let s ← get
  if !s.vme_enable then return
  else do
    (if head = s.vm_head then return
    else do
      (if s.vm_head ≠ 0 then listForeach unmapPage fuel (s.heads s.vm_head).head else return)
      let s ← get
      (if head ≠ 0 then listForeach mapPage fuel (s.heads head).head else return))
    modify fun s => { s with vm_head := head }

/-- The page that the hash table has for `va`, or a new one entered into it. -/
def findPage (h va : Ptr) : M α Ptr := do
  match ((← get).heads h).hash (hexKey va) with
  | some pp => return pp
  | none => do
    let pp ← pgalloc al .crash
    setPage pp fun page => { page with key := hexKey va }
    setHead h fun head => { head with
      hash := Function.update head.hash (hexKey va) (some pp)
      nr_page := head.nr_page + 1 }
    return pp

omit [DecidableEq α] in
theorem findPage_eq (h va : Ptr) (s : St α) :
    findPage al h va s = (match (s.heads h).hash (hexKey va) with
      | some pp => return pp
      | none => do
        let pp ← pgalloc al .crash
        setPage pp fun page => { page with key := hexKey va }
        setHead h fun head => { head with
          hash := Function.update head.hash (hexKey va) (some pp)
          nr_page := head.nr_page + 1 }
        return pp) s := rfl

/-- Fill in `pp` and put it at the head of the list. -/
def linkPage (h pp va pa : Ptr) (prot : BitVec 32) : M α Unit := do
  let head := ((← get).heads h).head
  setPage pp fun page =>
    { page with va := va, pa := pa, prot := prot, is_mapped := false, next := head }
  setHead h fun head => { head with head := pp }
  modify fun s => { s with
    latest := Function.update s.latest h (Function.update (s.latest h) va (some (pa, prot))) }

def map (as : α) (va pa : Ptr) (prot : BitVec 32) : M α Unit := do
  check (inUserSpace va) .assertion
  check (va.toNat % pgsize == 0) .assertion
  check (pa.toNat % pgsize == 0) .assertion
  let h := (← get).ptr as
  check (h != 0) .assertion
  let pp ← findPage al h va
  linkPage h pp va pa prot
  if h = (← get).vm_head then enforceMap pp else return

inductive Call (α : Type)
  | protect (as : α)
  | map (as : α) (va pa : Ptr) (prot : BitVec 32)
  | switch (head : Ptr)

/-- `fuel` bounds the loops of `__am_switch`. -/
def Call.run (fuel : Nat) : Call α → M α Unit
  | .protect as => Model.protect al as
  | .map as va pa prot => Model.map al pgsize as va pa prot
  | .switch head => amSwitch fuel head

/-- `map` needs a space that was protected, a context has the `VMHead` of one or none. -/
def Allowed (s : St α) : Call α → Prop
  | .protect _ => True
  | .map as _ _ _ => s.ptr as ∈ s.made
  | .switch head => head = 0 ∨ head ∈ s.made

end Riscv32Cpu.NativeVme.Model
