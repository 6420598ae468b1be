/- module: Riscv32Cpu/X86Trap/Return
   source: abstract-machine/am/src/x86/qemu/trap32.S, trap64.S
   digest: `__am_iret` loads a context, also where it moves the frame over it. -/

import Riscv32Cpu.X86Trap.Entry

set_option autoImplicit false
set_option relaxedAutoImplicit false

namespace Riscv32Cpu.X86Trap

open Lib.Memory Lib.Slots

section

variable {m : Mode}

/-- The registers of a processor are those of a context. -/
structure Loaded (u : Cpu m) (c : Member → Word m) : Prop where
  gpr : ∀ r ∈ generalRegs m, u.gpr r = c (.gpr r)
  ip : u.ip = c .ip
  cs : u.cs = lowWord (c .cs)
  flags : u.flags = c .flags
  sp : u.gpr .sp = c .sp

theorem iret_switch {s : Cpu m} {ip cs flags sp ss : Word m} {l : List (Word m)}
    (h : s.Sees (ip :: cs :: flags :: sp :: ss :: l))
    (hswitch : ¬(m = .m32 ∧ lowWord cs &&& 3 = s.cpl)) :
    s.iret.ip = ip ∧ s.iret.cs = lowWord cs ∧ s.iret.flags = flags ∧ s.iret.gpr .sp = sp ∧
      ∀ r, r ≠ .sp → s.iret.gpr r = s.gpr r := by
  have hip : s.top 0 = ip := h.top (j := 0) (by simp)
  have hcs : s.top 1 = cs := h.top (j := 1) (by simp)
  have hflags : s.top 2 = flags := h.top (j := 2) (by simp)
  have hsp : s.top 3 = sp := h.top (j := 3) (by simp)
  have hiret : s.iret = { ({ s with ip := ip, cs := lowWord cs, flags := flags } : Cpu m).setGpr
      .sp sp with seg := Function.update s.seg .ss (lowWord (s.top 4)) } := by
    rw [Cpu.iret, hip, hcs, hflags]
    refine (if_neg hswitch).trans ?_
    show ({ Cpu.setGpr _ .sp (s.top 3) with seg := _ } : Cpu m) = _
    rw [hsp]
  rw [hiret]
  refine ⟨rfl, rfl, rfl, ?_, fun r hr => ?_⟩
  · show Function.update s.gpr .sp sp .sp = sp
    exact Function.update_self _ _ _
  · show Function.update s.gpr .sp sp r = s.gpr r
    exact Function.update_of_ne hr _ _

theorem iret_same {s : Cpu .m32} {ip cs flags : Word .m32} {l : List (Word .m32)}
    (h : s.Sees (ip :: cs :: flags :: l)) (hsame : lowWord cs &&& 3 = s.cpl) :
    s.iret.ip = ip ∧ s.iret.cs = lowWord cs ∧ s.iret.flags = flags ∧
      s.iret.gpr .sp = slot (s.gpr .sp) 3 ∧ ∀ r, r ≠ .sp → s.iret.gpr r = s.gpr r := by
  have hip : s.top 0 = ip := h.top (j := 0) (by simp)
  have hcs : s.top 1 = cs := h.top (j := 1) (by simp)
  have hflags : s.top 2 = flags := h.top (j := 2) (by simp)
  have hiret : s.iret = ({ s with ip := ip, cs := lowWord cs, flags := flags } : Cpu .m32).setGpr
      .sp (slot (s.gpr .sp) 3) := by
    rw [Cpu.iret, hip, hcs, hflags]
    exact if_pos ⟨rfl, hsame⟩
  rw [hiret]
  exact ⟨rfl, rfl, rfl, gpr_setGpr_self _ _ _, fun r hr => gpr_setGpr_of_ne _ hr _⟩

theorem Cpu.Sees.skip {s : Cpu m} {v : Word m} {l : List (Word m)} (h : s.Sees (v :: l)) :
    (s.setGpr .sp (slot (s.gpr .sp) 1)).Sees l := by
  rw [Cpu.Sees, gpr_setGpr_self]
  exact (stack_cons.mp h).2

def head64 : List Instr :=
  [.mov .di .sp, .load 160 .sp .ax, .movwToSeg .ax .ds, .movwToSeg .ax .es, .add 8 .sp]

/-- The registers in the order in which they are popped. -/
def regs64 : List Gpr :=
  [.ax, .bx, .cx, .dx, .bp, .si, .di, .r8, .r9, .r10, .r11, .r12, .r13, .r14, .r15]

theorem loaded64 {u : Cpu .m64} {c : Member → Word .m64} (h : Frame u.mem (u.gpr .di) c []) :
    Loaded (amIret u) c := by
  have hsees : (execAll head64 u).Sees (regs64.map (fun r => c (.gpr r)) ++
      [c .ip, c .cs, c .flags, c .sp, c .ss, c .sp0]) := (stack_cons.mp h).2
  have hpops := execAll_pops regs64 (by decide) hsees
  have htop := Cpu.Sees.pops regs64 (by decide) hsees
  obtain ⟨hip, hcs, hflags, hsp, hgpr⟩ := iret_switch htop fun h => nomatch h.1
  have hall : amIret u = (execAll (pops regs64) (execAll head64 u)).iret := rfl
  refine ⟨fun r hr => ?_, hip, hcs, hflags, hsp⟩
  have hr' : r ∈ regs64 ∧ r ≠ .sp := by
    revert r
    decide
  rw [hall, hgpr r hr'.2, hpops]
  exact if_pos hr'.1

end

section

variable {u t : Cpu .m32} {ctx : Word .m32} {c : Member → Word .m32} {l : List (Word .m32)}

/-- What is popped with the first four registers and with the other three. -/
def low32 : List Gpr := [.ax, .bx, .cx, .dx]

def high32 : List Gpr := [.si, .di, .bp]

/-- The words from `eip` on, as the last pops and `iret` find them. -/
def tail32 (c : Member → Word .m32) (l : List (Word .m32)) : List (Word .m32) :=
  high32.map (fun r => c (.gpr r)) ++ c .ip :: c .cs :: c .flags :: l

/-- The state after the pops that both returns begin with. -/
structure Halfway (u : Cpu .m32) (c : Member → Word .m32) (t : Cpu .m32) : Prop where
  gpr : ∀ r ∈ low32, t.gpr r = c (.gpr r)
  cs : t.cs = u.cs

theorem sp_iretHead32 (h : u.top 1 = ctx) :
    (execAll iretHead32 u).gpr .sp = slot ctx 2 := by
  have hhead : (execAll iretHead32 u).gpr .sp =
      slot (slot (load u.mem (slot (slot (u.gpr .sp) 1) 0) _) 1) 1 := rfl
  have harg : load u.mem (slot (u.gpr .sp) 1) _ = ctx := h
  rw [hhead, slot_zero, harg, slot_slot]

theorem iretHead32_keeps (u : Cpu .m32) :
    (execAll iretHead32 u).mem = u.mem ∧ (execAll iretHead32 u).cs = u.cs := ⟨rfl, rfl⟩

theorem exec_skip (s : Cpu .m32) :
    exec (.add 4 .sp) s = s.setGpr .sp (slot (s.gpr .sp) 1) := rfl

theorem halfway (h : u.top 1 = ctx) (hframe : Frame u.mem ctx c l) {t : Cpu .m32}
    (ht : t = execAll (pops low32 ++ [.add 4 .sp]) (execAll iretHead32 u)) :
    Halfway u c t ∧ t.mem = u.mem ∧ t.gpr .sp = slot ctx 7 ∧
      t.Sees (tail32 c (c .sp :: c .ss :: l)) := by
  have hsp := sp_iretHead32 h
  have hsees : (execAll iretHead32 u).Sees (low32.map (fun r => c (.gpr r)) ++
      c .sp0 :: tail32 c (c .sp :: c .ss :: l)) := by
    rw [Cpu.Sees, hsp, (iretHead32_keeps u).1, ← slot_slot ctx 1 1]
    exact (stack_cons.mp (stack_cons.mp hframe).2).2
  have hpops := execAll_pops low32 (by decide) hsees
  have hskip := (Cpu.Sees.pops low32 (by decide) hsees).skip
  have hlow : (execAll (pops low32) (execAll iretHead32 u)).gpr .sp = slot ctx 6 := by
    rw [sp_pops low32 (by decide) hsees, hsp, slot_slot]
    rfl
  have hadd : t = (execAll (pops low32) (execAll iretHead32 u)).setGpr .sp
      (slot ((execAll (pops low32) (execAll iretHead32 u)).gpr .sp) 1) := by
    rw [ht, execAll_append]
    exact exec_skip _
  rw [hadd]
  refine ⟨⟨fun r hr => ?_, ?_⟩, ?_, ?_, hskip⟩
  · have hr' : r ≠ .sp := by
      rintro rfl
      exact absurd hr (by decide)
    rw [gpr_setGpr_of_ne _ hr', hpops]
    exact if_pos hr
  · rw [cs_setGpr, cs_pops]
    exact (iretHead32_keeps u).2
  · rw [mem_setGpr, mem_pops]
    exact (iretHead32_keeps u).1
  · rw [gpr_setGpr_self, hlow, slot_slot]

theorem loaded_tail (hhalf : Halfway u c t) (h : t.Sees (tail32 c l))
    (hiret : ∀ s : Cpu .m32, s.Sees (c .ip :: c .cs :: c .flags :: l) → s.cs = u.cs →
      slot (t.gpr .sp) 3 = s.gpr .sp →
      s.iret.ip = c .ip ∧ s.iret.cs = lowWord (c .cs) ∧ s.iret.flags = c .flags ∧
        s.iret.gpr .sp = c .sp ∧ ∀ r, r ≠ .sp → s.iret.gpr r = s.gpr r) :
    Loaded (execAll (pops high32 ++ [.iret]) t) c := by
  have hpops := execAll_pops high32 (by decide) h
  have htop := Cpu.Sees.pops high32 (by decide) h
  obtain ⟨hip, hcs, hflags, hsp, hgpr⟩ := hiret (execAll (pops high32) t) htop
    ((cs_pops high32 t).trans hhalf.cs) (sp_pops high32 (by decide) h).symm
  rw [execAll_append]
  refine ⟨fun r hr => ?_, hip, hcs, hflags, hsp⟩
  have hr' : r ≠ .sp ∧ (r ∈ high32 ∨ r ∈ low32) := by
    revert r
    decide
  refine (hgpr r hr'.1).trans ?_
  rw [hpops]
  show popped t.gpr high32 (fun r => c (.gpr r)) r = _
  by_cases hhigh : r ∈ high32
  · exact if_pos hhigh
  · rw [popped, if_neg hhigh, if_neg hr'.1]
    exact hhalf.gpr r (hr'.2.resolve_left hhigh)

theorem amIret32 (h : u.top 1 = ctx) (hframe : Frame u.mem ctx c l) :
    amIret u = if lowWord (c .cs) = ksel segKcode then execAll kernelIret (execAll iretHead32 u)
      else execAll userIret (execAll iretHead32 u) := by
  have hcs : load u.mem (slot ctx 11) _ = c .cs := Frame.getMember hframe (x := .cs) (by decide)
  have hoffset : ∀ p : Word .m32, p + 36 = slot p 9 := fun _ => rfl
  have hamIret : amIret u =
      if lowWord (load (execAll iretHead32 u).mem ((execAll iretHead32 u).gpr .sp + 36) _) =
        ksel segKcode then execAll kernelIret (execAll iretHead32 u)
      else execAll userIret (execAll iretHead32 u) := if_pos rfl
  rw [hamIret, hoffset, sp_iretHead32 h, slot_slot, (iretHead32_keeps u).1, hcs]

theorem loaded_user (h : u.top 1 = ctx) (hframe : Frame u.mem ctx c l)
    (hcpl : u.cpl = 0) (huser : lowWord (c .cs) &&& 3 ≠ 0) : Loaded (amIret u) c := by
  have hsel : lowWord (c .cs) ≠ ksel segKcode := by
    intro heq
    rw [heq] at huser
    exact huser rfl
  obtain ⟨hhalf, -, -, hsees⟩ := halfway h hframe rfl
  have hsplit : userIret = (pops low32 ++ [.add 4 .sp]) ++ (pops high32 ++ [.iret]) := rfl
  rw [amIret32 h hframe, if_neg hsel, hsplit, execAll_append]
  refine loaded_tail hhalf hsees fun s hs hcs _ => iret_switch hs ?_
  rintro ⟨-, hsame⟩
  have hscpl : s.cpl = 0 := by
    rw [Cpu.cpl, hcs]
    exact hcpl
  exact huser (hsame.trans hscpl)

/-- Move `k`, which takes word `12 - k` of the context to the `k`-th word below the new `esp`. -/
def moveAt (k : Nat) : List Instr := moveWord (20 - 4 * k) (-(4 + 4 * k))

/-- The instructions between the pops. -/
def moveFrame : List Instr :=
  [.mov .sp .bp, .load 24 .bp .di] ++ (List.range 6).flatMap moveAt ++ [.lea (-24) .di .sp]

theorem kernelIret_eq : kernelIret =
    (pops low32 ++ [.add 4 .sp]) ++ (moveFrame ++ (pops high32 ++ [.iret])) := rfl

theorem slot_below (p : Word .m32) {j k : Nat} (hk : k ≤ j) :
    slot p j + BitVec.ofInt _ (-(4 * k : Nat)) = slot p (j - k) := by
  rw [BitVec.ofInt_neg, BitVec.ofInt_natCast, ← BitVec.sub_eq_add_neg]
  have hsub := slot_sub (n := Mode.m32.n) p (j - k) k
  rw [Nat.sub_add_cancel hk] at hsub
  exact hsub

theorem slot_source (p : Word .m32) {k : Nat} (hk : k ≤ 5) :
    slot p 7 + BitVec.ofInt _ (20 - 4 * (k : Int)) = slot p (13 - 1 - k) := by
  have hoffset : (20 - 4 * (k : Int)) = ((4 * (5 - k) : Nat) : Int) := by omega
  have hword : 13 - 1 - k = 7 + (5 - k) := by omega
  rw [hoffset, BitVec.ofInt_natCast, hword]
  exact slot_add (n := Mode.m32.n) p 7 (5 - k)

theorem moves_spec {f : Nat → Word .m32} {s k : Nat} (hk : k ≤ 6) (hs : 13 + s ≤ 64)
    (hbp : t.gpr .bp = slot ctx 7) (hdi : t.gpr .di = slot ctx (13 + s))
    (h : Holds t.mem ctx 64 f) :
    (execAll ((List.range k).flatMap moveAt) t).cs = t.cs ∧
      (∀ r, r ≠ .si → (execAll ((List.range k).flatMap moveAt) t).gpr r = t.gpr r) ∧
      Holds (execAll ((List.range k).flatMap moveAt) t).mem ctx 64 (copiedUp f 13 s k) := by
  induction k with
  | zero =>
    rw [copiedUp_zero]
    exact ⟨rfl, fun r _ => rfl, h⟩
  | succ k ih =>
    obtain ⟨hcs, hgpr, hmem⟩ := ih (by omega)
    have hstep : ∀ t' : Cpu .m32, (execAll (moveAt k) t').cs = t'.cs ∧
        (∀ r, r ≠ .si → (execAll (moveAt k) t').gpr r = t'.gpr r) ∧
        (execAll (moveAt k) t').mem = store t'.mem
          (t'.gpr .di + BitVec.ofInt _ (-(4 + 4 * (k : Int)))) Mode.m32.n
          (load t'.mem (t'.gpr .bp + BitVec.ofInt _ (20 - 4 * (k : Int))) (8 * Mode.m32.n)) := by
      intro t'
      exact ⟨rfl, fun r hr => gpr_setGpr_of_ne t' hr _, rfl⟩
    obtain ⟨hcs', hgpr', hmem'⟩ := hstep (execAll ((List.range k).flatMap moveAt) t)
    have hdest : (-(4 + 4 * (k : Int))) = -((4 * (1 + k) : Nat) : Int) := by omega
    have hbelow : 13 + s - (1 + k) = 13 + s - 1 - k := by omega
    rw [hgpr .di (by decide), hgpr .bp (by decide), hbp, hdi, slot_source ctx (by omega), hdest,
      slot_below ctx (by omega), hbelow] at hmem'
    rw [List.range_succ, List.flatMap_append, execAll_append, List.flatMap_singleton]
    refine ⟨hcs'.trans hcs, fun r hr => (hgpr' r hr).trans (hgpr r hr), ?_⟩
    rw [hmem']
    exact hmem.copyUp (fits (Nat.le_refl 64)) (by omega) hs

theorem exec_moveSetup (h : t.gpr .sp = slot ctx 7) :
    (execAll [.mov .sp .bp, .load 24 .bp .di] t).gpr .bp = slot ctx 7 ∧
      (execAll [.mov .sp .bp, .load 24 .bp .di] t).gpr .di = t.top 6 ∧
      (execAll [.mov .sp .bp, .load 24 .bp .di] t).cs = t.cs ∧
      ∀ r ∈ low32, (execAll [.mov .sp .bp, .load 24 .bp .di] t).gpr r = t.gpr r := by
  refine ⟨h, rfl, rfl, ?_⟩
  simp only [low32, List.forall_mem_cons]
  exact ⟨rfl, rfl, rfl, rfl, fun _ hr => absurd hr List.not_mem_nil⟩

theorem exec_lea (t : Cpu .m32) :
    execAll [.lea (-24) .di .sp] t =
      t.setGpr .sp (t.gpr .di + BitVec.ofInt _ (-(4 * 6 : Nat))) := rfl

theorem moveFrame_spec {s : Nat} (hs : 13 + s ≤ 64) (hsp : t.gpr .sp = slot ctx 7)
    (hnew : c .sp = slot ctx (13 + s)) (h : t.Sees (tail32 c (c .sp :: l))) :
    (execAll moveFrame t).cs = t.cs ∧
      (∀ r, r ∈ low32 → (execAll moveFrame t).gpr r = t.gpr r) ∧
      (execAll moveFrame t).gpr .sp = slot ctx (7 + s) ∧ (execAll moveFrame t).Sees (tail32 c []) := by
  obtain ⟨hbp, hdi, hcs, hlow⟩ := exec_moveSetup hsp
  have htop : t.top 6 = c .sp := h.top (j := 6) (by simp [tail32, high32])
  rw [htop, hnew] at hdi
  obtain ⟨hcs', hgpr, hmem⟩ := moves_spec (Nat.le_refl 6) hs hbp hdi (holds_load t.mem _ _)
  have hbelow : 13 + s - 6 = 7 + s := by omega
  rw [moveFrame, execAll_append, execAll_append, exec_lea, hgpr .di (by decide), hdi,
    slot_below ctx (by omega), hbelow]
  refine ⟨?_, fun r hr => ?_, gpr_setGpr_self _ _ _, ?_⟩
  · rw [cs_setGpr, hcs', hcs]
  · have hr' : r ≠ .sp ∧ r ≠ .si := by
      revert r
      decide
    rw [gpr_setGpr_of_ne _ hr'.1, hgpr r hr'.2, hlow r hr]
  · rw [Cpu.Sees, gpr_setGpr_self]
    refine stack_of_get fun j hj => ?_
    have hj' : j < 6 := hj
    have hfound : load t.mem (slot (slot ctx 7) j) _ = (tail32 c [])[j] := by
      rw [← hsp]
      exact (stack_append (l := tail32 c []).mp h).1.get hj
    have hword : 7 + s + j - s = 7 + j := by omega
    refine Eq.trans ?_ hfound
    rw [slot_slot, slot_slot, mem_setGpr, hmem (7 + s + j) (by omega), copiedUp, if_pos (by omega),
      hword]

theorem loaded_kernel (h : u.top 1 = ctx) (hframe : Frame u.mem ctx c l) (hcpl : u.cpl = 0)
    (hkernel : lowWord (c .cs) = ksel segKcode) {s : Nat} (hs : 13 + s ≤ 64)
    (hnew : c .sp = slot ctx (13 + s)) : Loaded (amIret u) c := by
  obtain ⟨hhalf, -, hsp, hsees⟩ := halfway h hframe rfl
  obtain ⟨hcs, hgpr, hsp', hsees'⟩ := moveFrame_spec hs hsp hnew hsees
  rw [amIret32 h hframe, if_pos hkernel, kernelIret_eq, execAll_append, execAll_append]
  refine loaded_tail ⟨fun r hr => (hgpr r hr).trans (hhalf.gpr r hr), hcs.trans hhalf.cs⟩ hsees'
    fun v hv hvcs hvsp => ?_
  have hsame : lowWord (c .cs) &&& 3 = v.cpl := by
    rw [hkernel, Cpu.cpl, hvcs]
    exact hcpl.symm
  obtain ⟨hip, hcs'', hflags, hsp'', hkeep⟩ := iret_same hv hsame
  refine ⟨hip, hcs'', hflags, ?_, hkeep⟩
  rw [hsp'', ← hvsp, hsp', slot_slot, slot_slot, hnew]
  exact congrArg (slot ctx) (by omega)

end

end Riscv32Cpu.X86Trap
