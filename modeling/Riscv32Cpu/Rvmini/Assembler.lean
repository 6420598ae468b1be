/- module: Riscv32Cpu/Rvmini/Assembler
   source: CODE/abstract-machine/tools/rvmini/inst-replace.h, rvmini-common.sh
   digest: Lines with symbolic labels, laid out one expansion after the other. -/

import Mathlib.Algebra.BigOperators.Group.List.Basic
import Riscv32Cpu.Rvmini.Simulation

set_option autoImplicit false
set_option relaxedAutoImplicit false

namespace Riscv32Cpu.Rvmini.Assembler

open Riscv32Cpu.Lib.Run Riscv32Cpu.Isa.Rv32i Riscv32Cpu.Rvmini.Assembly
open Riscv32Cpu.Rvmini.Tables Riscv32Cpu.Rvmini.Logic Riscv32Cpu.Rvmini.SubWord
open Riscv32Cpu.Rvmini.Branch Riscv32Cpu.Rvmini.Lines Riscv32Cpu.Rvmini.Simulation
open Riscv32Cpu.Rvmini.Macros

/-- A source text; a label is the number of the line it stands before. -/
abbrev Text := List (Line Nat)

/-- How many instructions a line takes; where its labels are does not matter. -/
def size {L : Type} (sym : Symbols) (l : Line L) : Nat :=
  (((l.map fun _ => (0 : Word)).expand sym 0).getD []).length

/-- The instructions before line `k`. -/
def offset (sym : Symbols) (text : Text) (k : Nat) : Nat := ((text.take k).map (size sym)).sum

/-- The address of line `k`. -/
def addressOf (sym : Symbols) (origin : Word) (text : Text) (k : Nat) : Word :=
  after origin (offset sym text k)

/-- Line `k` with its labels resolved by `addr`. -/
def entry (addr : Nat → Word) (k : Nat) (l : Line Nat) : Entry := ⟨l.map addr, addr (k + 1)⟩

def assembleFrom (sym : Symbols) (addr : Nat → Word) : Nat → Text → Option (List Inst)
  | _, [] => some []
  | k, l :: ls => do
    let is ← (entry addr k l).line.expand sym (entry addr k l).next
    let rest ← assembleFrom sym addr (k + 1) ls
    return is ++ rest

/-- The second pass: every line expanded, with the addresses that the sizes give. -/
def assemble (sym : Symbols) (origin : Word) (text : Text) : Option (List Inst) :=
  assembleFrom sym (addressOf sym origin text) 0 text

/-- The line at an address. A line without instructions has none of its own. -/
def listing (sym : Symbols) (origin : Word) (text : Text) : Listing := fun a =>
  ((List.range text.length).find? fun k =>
      decide (addressOf sym origin text k = a) && ((text[k]?.map (size sym)).getD 0 != 0)).bind
    fun k => text[k]?.map (entry (addressOf sym origin text) k)

theorem length_branchResolve (target target' label label' : Word) (sel : Bool) :
    (branchResolve target sel label).length = (branchResolve target' sel label').length := by
  cases sel <;> simp [branchResolve, branchSlots, la]

theorem length_branchEq (sel : Bool) (sym : Symbols) (rs1 rs2 : RegName)
    (target target' label label' : Word) :
    (branchEq sel sym rs1 rs2 target label).length =
      (branchEq sel sym rs1 rs2 target' label').length := by
  have htail := length_branchResolve target target' label label' sel
  unfold branchEq
  split_ifs with h2 h1
  · simp only [List.length_append, htail]
  · have hswap : ∀ t l, branchEq sel sym rs2 rs1 t l =
        (seqz sym tp rs2).map .op ++ branchResolve t sel l := by
      intro t l
      rw [branchEq, if_pos h1]
    simp only [hswap, List.length_append, htail]
  · simp only [List.length_append, htail]

theorem length_branch (i : BranchInst) (sym : Symbols) (target target' label label' : Word) :
    (i.expand sym target label).length = (i.expand sym target' label').length := by
  have htail := length_branchResolve target target' label label'
  have heq := fun sel rs1 rs2 => length_branchEq sel sym rs1 rs2 target target' label label'
  have hblt : ∀ rs1 rs2, (blt sym rs1 rs2 target label).length =
      (blt sym rs1 rs2 target' label').length := by
    intro rs1 rs2
    unfold blt
    split_ifs <;> simp only [List.length_append, htail]
  have hbge : ∀ rs1 rs2, (bge sym rs1 rs2 target label).length =
      (bge sym rs1 rs2 target' label').length := by
    intro rs1 rs2
    unfold bge
    split_ifs <;> simp only [List.length_append, htail]
  have hbltu : ∀ rs1 rs2, (bltu sym rs1 rs2 target label).length =
      (bltu sym rs1 rs2 target' label').length := by
    intro rs1 rs2
    simp only [bltu, List.length_append, htail]
  have hbgeu : ∀ rs1 rs2, (bgeu sym rs1 rs2 target label).length =
      (bgeu sym rs1 rs2 target' label').length := by
    intro rs1 rs2
    simp only [bgeu, List.length_append, htail]
  cases i with
  | beq rs1 rs2 => exact heq true rs1 rs2
  | bne rs1 rs2 => exact heq false rs1 rs2
  | beqz rs => exact heq true rs x0
  | bnez rs => exact heq false rs x0
  | blt rs1 rs2 => exact hblt rs1 rs2
  | bltz rs => exact hblt rs x0
  | bgtz rs => exact hblt x0 rs
  | bgt rs rt => exact hblt rt rs
  | bge rs1 rs2 => exact hbge rs1 rs2
  | blez rs => exact hbge x0 rs
  | bgez rs => exact hbge rs x0
  | ble rs rt => exact hbge rt rs
  | bltu rs1 rs2 => exact hbltu rs1 rs2
  | bgtu rs rt => exact hbltu rt rs
  | bgeu rs1 rs2 => exact hbgeu rs1 rs2
  | bleu rs rt => exact hbgeu rt rs

theorem length_expand {L : Type} {sym : Symbols} {l : Line L} {f : L → Word} {next : Word}
    {is : List Inst} (h : (l.map f).expand sym next = some is) : is.length = size sym l := by
  rw [size]
  cases l with
  | op o | logic i | shift i | set i | seqz rd rs | subWord i | jalr rd rs1 imm | ebreak =>
    simp only [Line.map, Line.expand] at h ⊢
    rw [h, Option.getD_some]
  | la rd label | call label | tail label | j label =>
    obtain rfl := Option.some.inj h
    simp [Line.map, Line.expand, la, call, tail, j, callTemplate]
  | branch i label =>
    obtain rfl := Option.some.inj h
    exact length_branch i sym _ _ _ _
  | jal rd label =>
    obtain rfl := Option.some.inj h
    simp only [Line.map, Line.expand, Option.getD_some, jal]
    split_ifs <;> simp [j, callTemplate, la]

section Layout

variable {sym : Symbols} {origin : Word} {text : Text} {code : Code}

theorem offset_zero : offset sym text 0 = 0 := by simp [offset]

theorem offset_cons (l : Line Nat) (k : Nat) :
    offset sym (l :: text) (k + 1) = size sym l + offset sym text k := by
  simp [offset]

theorem offset_succ {k : Nat} {l : Line Nat} (h : text[k]? = some l) :
    offset sym text (k + 1) = offset sym text k + size sym l := by
  rw [offset, offset, List.take_add_one, h, List.map_append, List.sum_append]
  simp

theorem offset_mono {j k : Nat} (h : j ≤ k) : offset sym text j ≤ offset sym text k := by
  induction k, h using Nat.le_induction with
  | base => exact Nat.le_refl _
  | succ k _ ih =>
    have hstep : offset sym text k ≤ offset sym text (k + 1) := by
      rw [offset, offset, List.take_add_one, List.map_append, List.sum_append]
      exact Nat.le_add_right _ _
    exact Nat.le_trans ih hstep

theorem offset_le (k : Nat) : offset sym text k ≤ offset sym text text.length := by
  rcases Nat.le_total k text.length with h | h
  · exact offset_mono h
  · rw [offset, offset, List.take_of_length_le h, List.take_length]

theorem addressOf_even (horigin : origin.toNat % 2 = 0) (k : Nat) :
    (addressOf sym origin text k).toNat % 2 = 0 := even_after _ horigin

theorem map_aligned {addr : Nat → Word} (h : ∀ k, (addr k).toNat % 2 = 0) (l : Line Nat) :
    (l.map addr).Aligned := by
  cases l <;> first | exact h _ | trivial

theorem listing_some {a : Word} {e : Entry} (h : listing sym origin text a = some e) :
    ∃ k l, text[k]? = some l ∧ addressOf sym origin text k = a ∧
      e = entry (addressOf sym origin text) k l := by
  obtain ⟨k, hk, hmap⟩ := Option.bind_eq_some_iff.mp h
  obtain ⟨l, hl, rfl⟩ := Option.map_eq_some_iff.mp hmap
  have haddr := List.find?_some hk
  rw [Bool.and_eq_true, decide_eq_true_iff] at haddr
  exact ⟨k, l, hl, haddr.1, rfl⟩

theorem listing_at (hfit : 4 * offset sym text text.length < 2 ^ 32) {k : Nat} {l : Line Nat}
    (hl : text[k]? = some l) (hsize : size sym l ≠ 0) :
    listing sym origin text (addressOf sym origin text k) =
      some (entry (addressOf sym origin text) k l) := by
  have hk : k < text.length := (List.getElem?_eq_some_iff.mp hl).1
  have hfind : (List.range text.length).find? (fun j =>
      decide (addressOf sym origin text j = addressOf sym origin text k) &&
        ((text[j]?.map (size sym)).getD 0 != 0)) = some k := by
    rw [List.find?_range_eq_some]
    refine ⟨by simp [hl, hsize], List.mem_range.mpr hk, fun j hj => ?_⟩
    -- an earlier line with instructions ends before this one begins
    obtain ⟨lj, hjl⟩ : ∃ lj, text[j]? = some lj :=
      ⟨_, List.getElem?_eq_getElem (hj.trans hk)⟩
    have hmono : offset sym text (j + 1) ≤ offset sym text k := offset_mono hj
    rw [offset_succ hjl] at hmono
    have hkn : offset sym text k ≤ offset sym text text.length := offset_le k
    by_contra hboth
    simp only [Bool.not_eq_true', Bool.not_eq_false, Bool.and_eq_true, decide_eq_true_iff,
      bne_iff_ne, hjl, Option.map_some, Option.getD_some] at hboth
    have heq := after_inj (by omega) (by omega) hboth.1
    omega
  rw [listing, hfind, Option.bind_some, hl, Option.map_some]

theorem placed_line {addr : Nat → Word} {k : Nat} {pc : Word} {is : List Inst}
    (h : assembleFrom sym addr k text = some is) (hplaced : Placed code pc is) {j : Nat}
    {l : Line Nat} (hl : text[j]? = some l) :
    ∃ js, (entry addr (k + j) l).line.expand sym (entry addr (k + j) l).next = some js ∧
      Placed code (after pc (offset sym text j)) js := by
  induction text generalizing k pc is j with
  | nil => simp at hl
  | cons l' ls ih =>
    obtain ⟨js, hjs, hbind⟩ := Option.bind_eq_some_iff.mp h
    obtain ⟨rest, hrest, his⟩ := Option.bind_eq_some_iff.mp hbind
    obtain rfl := Option.some.inj his
    obtain ⟨hhere, hthere⟩ := hplaced.append
    cases j with
    | zero =>
      obtain rfl := Option.some.inj hl
      exact ⟨js, hjs, by rw [offset_zero, after_zero]; exact hhere⟩
    | succ j =>
      obtain ⟨ks, hks, hpl⟩ := ih hrest hthere hl
      rw [length_expand hjs, after_after] at hpl
      rw [offset_cons]
      have hsucc : k + 1 + j = k + (j + 1) := by omega
      rw [hsucc] at hks
      exact ⟨ks, hks, hpl⟩

theorem assembled_of_placed {is : List Inst} (h : assemble sym origin text = some is)
    (hplaced : Placed code origin is) (horigin : origin.toNat % 2 = 0) :
    Assembled sym (listing sym origin text) code where
  placed := by
    intro pc e he
    obtain ⟨k, l, hl, rfl, rfl⟩ := listing_some he
    obtain ⟨js, hjs, hpl⟩ := placed_line h hplaced hl
    rw [Nat.zero_add] at hjs
    refine ⟨js, hjs, hpl, ?_⟩
    show addressOf sym origin text (k + 1) = _
    rw [length_expand hjs, addressOf, addressOf, after_after, offset_succ hl]
  even := by
    intro pc e he
    obtain ⟨k, l, -, rfl, rfl⟩ := listing_some he
    exact ⟨addressOf_even horigin k, map_aligned (addressOf_even horigin) l⟩

end Layout

/-- The program has the text's lines, line `k` at `addr k`. -/
def Laid (prog : Listing) (addr : Nat → Word) (text : Text) : Prop :=
  ∀ {k : Nat} {l : Line Nat}, text[k]? = some l → prog (addr k) = some (entry addr k l)

/-- Only the registers of the list may differ. -/
def SameBut (l : List Reg) (x y : RegFile) : Prop := ∀ r, r ∉ l → y r = x r

theorem SameBut.trans {l : List Reg} {x y z : RegFile} (h : SameBut l x y) (k : SameBut l y z) :
    SameBut l x z := fun r hr => (k r hr).trans (h r hr)

theorem SameBut.mono {l k : List Reg} {x y : RegFile} (h : SameBut l x y) (hlk : ∀ r ∈ l, r ∈ k) :
    SameBut k x y := fun r hr => h r fun hl => hr (hlk r hl)

theorem SameBut.set {l : List Reg} (x : RegFile) {d : Reg} (v : Word) (hd : d ∈ l) :
    SameBut l x (x.set d v) := fun _ hr => RegFile.set_ne x v fun h => hr (h ▸ hd)

section Runs

variable {prog : Listing} {addr : Nat → Word} {text : Text} {k : Nat} {c : Core} {t : State}

theorem Laid.step (h : Laid prog addr text) {l : Line Nat} (hl : text[k]? = some l) {s : State}
    (hexec : (l.map addr).exec (addr (k + 1)) ⟨c, addr k⟩ = some s)
    (hrest : Reaches prog.step s t) : Reaches prog.step ⟨c, addr k⟩ t := by
  refine Reaches.head ?_ hrest
  rw [Listing.step, h hl, Option.bind_some]
  exact hexec

theorem Laid.taken (h : Laid prog addr text) {i : BranchInst} {j : Nat}
    (hl : text[k]? = some (.branch i j)) (htaken : i.taken c.x = true)
    (hrest : Reaches prog.step ⟨c, addr j⟩ t) : Reaches prog.step ⟨c, addr k⟩ t := by
  refine h.step hl ?_ hrest
  simp only [Line.map, Line.exec, htaken, if_true]

theorem Laid.passed (h : Laid prog addr text) {i : BranchInst} {j : Nat}
    (hl : text[k]? = some (.branch i j)) (htaken : i.taken c.x = false)
    (hrest : Reaches prog.step ⟨c, addr (k + 1)⟩ t) : Reaches prog.step ⟨c, addr k⟩ t := by
  refine h.step hl ?_ hrest
  simp only [Line.map, Line.exec, htaken, Bool.false_eq_true, if_false]

variable {rd rs : RegName}

theorem add_signExtend_zero (v : Word) : v + (0 : BitVec 12).signExtend 32 = v := by
  have hzero : (0 : BitVec 12).signExtend 32 = (0 : Word) := by decide
  rw [hzero, add_zero]

theorem Laid.mv (h : Laid prog addr text) (hl : text[k]? = some (.op (Macros.mv rd rs)))
    (hrest : Reaches prog.step ⟨⟨c.x.set rd (c.x rs), c.mem⟩, addr (k + 1)⟩ t) :
    Reaches prog.step ⟨c, addr k⟩ t := by
  refine h.step hl ?_ hrest
  rw [← add_signExtend_zero (c.x rs)]
  rfl

theorem Laid.li (h : Laid prog addr text) {imm : BitVec 12}
    (hl : text[k]? = some (.op (Macros.li rd imm)))
    (hrest : Reaches prog.step ⟨⟨c.x.set rd (imm.signExtend 32), c.mem⟩, addr (k + 1)⟩ t) :
    Reaches prog.step ⟨c, addr k⟩ t := by
  refine h.step hl ?_ hrest
  have hzero : c.x Macros.zero + imm.signExtend 32 = imm.signExtend 32 := by
    have h0 : c.x Macros.zero = 0 := c.x.zero
    rw [h0, zero_add]
  rw [← hzero]
  rfl

theorem Laid.jr (h : Laid prog addr text) (hl : text[k]? = some (.jr rs))
    (hrest : Reaches prog.step ⟨c, c.x rs &&& ~~~1⟩ t) : Reaches prog.step ⟨c, addr k⟩ t := by
  refine h.step hl ?_ hrest
  rw [← add_signExtend_zero (c.x rs)]
  show some (State.mk ⟨c.x.set 0 (addr (k + 1)), c.mem⟩ _) = _
  rw [RegFile.set_zero]

end Runs

section Image

variable {sym : Symbols} {origin : Word} {text : Text} {code : Code}

theorem expand_isSome {l : Line Word} (h : l.Allowed) (next : Word) :
    ∃ is, l.expand sym next = some is := by
  cases l with
  | logic i =>
    have hsome : ∃ ops, i.expand sym = some ops := by
      cases i with
      | and rd rs1 rs2 | or rd rs1 rs2 | xor rd rs1 rs2 => exact logic_accepts _ h.1 h.2.1 h.2.2
      | andi rd rs1 imm | ori rd rs1 imm | xori rd rs1 imm =>
        obtain ⟨ops, hops⟩ := logic_accepts _ h.1 h.2 (.inr (by decide : (tp : Reg) = 4))
        exact ⟨_, congrArg (Option.map _) hops⟩
      | not rd rs | sub rd rs1 rs2 | neg rd rs => exact ⟨_, rfl⟩
    obtain ⟨ops, hops⟩ := hsome
    exact ⟨_, congrArg (Option.map _) hops⟩
  | subWord i => exact ⟨_, congrArg (Option.map _) (if_pos ((encodable_iff i).mpr h.2))⟩
  | op o | la rd label | shift i | set i | seqz rd rs | branch i label | jal rd label | call label
  | tail label | j label | jalr rd rs1 imm | ebreak => exact ⟨_, rfl⟩

theorem assembleFrom_isSome {addr : Nat → Word} {k : Nat} (h : ∀ l ∈ text, (l.map addr).Allowed) :
    ∃ is, assembleFrom sym addr k text = some is := by
  induction text generalizing k with
  | nil => exact ⟨[], rfl⟩
  | cons l ls ih =>
    have hexpand : ∃ is, (l.map addr).expand sym (addr (k + 1)) = some is :=
      expand_isSome (h l (List.mem_cons_self ..)) _
    obtain ⟨is, his⟩ := hexpand
    obtain ⟨rest, hrest⟩ := ih (k := k + 1) fun l hl => h l (List.mem_cons_of_mem _ hl)
    refine ⟨is ++ rest, ?_⟩
    show (Option.bind _ _ : Option (List Inst)) = _
    rw [entry, his, Option.bind_some]
    show (Option.bind _ _ : Option (List Inst)) = _
    rw [hrest]
    rfl

theorem length_assembleFrom {addr : Nat → Word} {k : Nat} {is : List Inst}
    (h : assembleFrom sym addr k text = some is) : is.length = offset sym text text.length := by
  induction text generalizing k is with
  | nil =>
    obtain rfl := Option.some.inj h
    exact offset_zero.symm
  | cons l ls ih =>
    obtain ⟨js, hjs, hbind⟩ := Option.bind_eq_some_iff.mp h
    obtain ⟨rest, hrest, his⟩ := Option.bind_eq_some_iff.mp hbind
    obtain rfl := Option.some.inj his
    rw [List.length_append, length_expand hjs, ih hrest, List.length_cons, offset_cons]

theorem laid_listing (hfit : 4 * offset sym text text.length < 2 ^ 32)
    (hsize : ∀ l ∈ text, size sym l ≠ 0) :
    Laid (listing sym origin text) (addressOf sym origin text) text :=
  fun hl => listing_at hfit hl (hsize _ (List.mem_of_getElem? hl))

theorem realizes_of_text {is : List Inst} (hassemble : assemble sym origin text = some is)
    (hplaced : Placed code origin is) (horigin : origin.toNat % 2 = 0) (hapart : Apart sym)
    (hregs : ∀ l ∈ text, InRegisters l) {t s' : State} (hlinked : Linked sym (t.x 2) t.mem)
    (hrun : Reaches (listing sym origin text).step t s') : Realizes sym code t s' := by
  refine realizes_of_inRegisters (assembled_of_placed hassemble hplaced horigin) hapart ?_ hlinked
    hrun
  intro pc e he
  obtain ⟨k, l, hl, -, rfl⟩ := listing_some he
  exact (hregs l (List.mem_of_getElem? hl)).map _

/-- The same for a routine that returns: what it computes, and what it leaves alone. -/
theorem rewritten_routine {is : List Inst} (hassemble : assemble sym origin text = some is)
    (hplaced : Placed code origin is) (horigin : origin.toNat % 2 = 0) (hapart : Apart sym)
    (hregs : ∀ l ∈ text, InRegisters l) {t : State} (hlinked : Linked sym (t.x 2) t.mem)
    {y : RegFile} {pc : Word} {clob : List Reg}
    (hrun : Reaches (listing sym origin text).step ⟨⟨t.x, t.mem⟩, t.pc⟩ ⟨⟨y, t.mem⟩, pc⟩)
    (hsame : SameBut clob t.x y) :
    ∃ n u, runN (step fun s => code s.pc) n t = some u ∧ u.pc = pc ∧
      (∀ r : Reg, r ≠ 3 → r ≠ 4 → u.x r = y r) ∧ SameBut (3 :: 4 :: clob) t.x u.x ∧
      ∀ a, a ∉ scratchArea sym (t.x 2) → u.mem a = t.mem a := by
  obtain ⟨n, u, hn, hmirrors⟩ := realizes_of_text hassemble hplaced horigin hapart hregs hlinked hrun
  refine ⟨n, u, hn, hmirrors.pc, hmirrors.x, fun r hr => ?_, hmirrors.mem⟩
  rw [List.mem_cons, List.mem_cons, not_or, not_or] at hr
  exact (hmirrors.x r hr.1 hr.2.1).trans (hsame r hr.2.2)

end Image

end Riscv32Cpu.Rvmini.Assembler
