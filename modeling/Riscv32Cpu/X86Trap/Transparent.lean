/- module: Riscv32Cpu/X86Trap/Transparent
   source: abstract-machine/am/src/x86/qemu/trap32.S, trap64.S, cte.c, src/x86/x86.h
   digest: What the handler sees of an interrupted processor, and what resumes. -/

import Riscv32Cpu.X86Trap.Return

set_option autoImplicit false
set_option relaxedAutoImplicit false

namespace Riscv32Cpu.X86Trap

open Lib.Memory Lib.Slots

variable {m : Mode}

/-- Code interrupted in ring 0 or in ring 3. -/
def InRing (s : Cpu m) : Prop := s.cs = ksel segKcode ∨ s.cs = usel segUcode

/-- The context at `ctx` holds the registers of the interrupted processor. -/
structure Passed (s : Cpu m) (mem : Mem (8 * m.n)) (ctx : Word m) : Prop where
  gpr : ∀ r ∈ generalRegs m, getMember mem ctx (.gpr r) = s.gpr r
  ip : getMember mem ctx .ip = s.ip
  cs : getMember mem ctx .cs = s.cs.setWidth _
  flags : getMember mem ctx .flags = s.flags
  sp : getMember mem ctx .sp = s.gpr .sp

/-- The bytes of the context are the same. -/
def SameContext (ctx : Word m) (mem mem' : Mem (8 * m.n)) : Prop :=
  ∀ x, (x - ctx).toNat < m.n * contextWords m → mem' x = mem x

/-- `__am_iret` is entered in ring 0 with the context `ret`, whose bytes are those of `mem`. The
registers and the rest of the memory are as the compiled code left them. -/
structure AtIret (ret : Word m) (mem : Mem (8 * m.n)) (u : Cpu m) : Prop where
  arg : (if m = .m32 then u.top 1 else u.gpr .di) = ret
  ring : u.cs = ksel segKcode
  context : SameContext ret mem u.mem

structure Restored (s u : Cpu m) : Prop where
  gpr : ∀ r ∈ generalRegs m, u.gpr r = s.gpr r
  ip : u.ip = s.ip
  cs : u.cs = s.cs
  flags : u.flags = s.flags
  sp : u.gpr .sp = s.gpr .sp

/-- The trap path for an interrupt of `s`: the context passed to the handler holds the registers,
and a handler that returns it unchanged, not at `NULL`, has them restored. -/
structure Transparent (sys : System m) (vector : Nat) (err : Option (Word m)) (s : Cpu m) :
    Prop where
  passed : Passed s
    (saveContext sys (s.atCall sys vector err).tf (s.atCall sys vector err).mem)
    (s.atCall sys vector err).tf
  resumed : ∀ userHandler mem' sys',
    callHandler userHandler sys (s.atCall sys vector err).tf (s.atCall sys vector err).mem =
      ((s.atCall sys vector err).tf, mem', sys') →
    SameContext (s.atCall sys vector err).tf
      (saveContext sys (s.atCall sys vector err).tf (s.atCall sys vector err).mem) mem' →
    (s.atCall sys vector err).tf ≠ 0 →
    ∃ sys'', amIrqHandle userHandler sys (s.atCall sys vector err).tf
        (s.atCall sys vector err).mem = .ok ((s.atCall sys vector err).tf, mem', sys'') ∧
      ∀ u, AtIret (s.atCall sys vector err).tf mem' u → Restored s (amIret u)

/-- `__am_kcontext_start` begins as `kcontext` was asked to. -/
structure Started (start kstackEnd entry arg : Word m) (u : Cpu m) : Prop where
  ip : u.ip = start
  gpr1 : u.gpr (gpr1 m) = arg
  gpr2 : u.gpr (gpr2 m) = entry
  enabled : u.flags &&& flIf ≠ 0
  sp : u.gpr .sp = kstackEnd

def KcontextStarts (m : Mode) : Prop :=
  ∀ (start kstackEnd entry arg : Word m) (mem : Mem (8 * m.n)) (u : Cpu m),
    AtIret (kcontext start kstackEnd entry arg mem).1 (kcontext start kstackEnd entry arg mem).2 u →
    Started start kstackEnd entry arg (amIret u)

/-- The hardware pushes at least five words, and the five on top are one and the same. -/
def Indistinct (err : Option (Word m)) (s : Cpu m) : Prop :=
  (err.toList ++ hwWords s).take 5 = List.replicate 5 s.ip

theorem lowWord_setWidth (x : Sel) : lowWord (x.setWidth (8 * m.n)) = x := by
  have hwidth : 16 ≤ 8 * m.n := by cases m <;> decide
  exact BitVec.setWidth_setWidth_of_le x hwidth

theorem loaded {u : Cpu m} {ctx : Word m} {mem : Mem (8 * m.n)} {c : Member → Word m}
    {l : List (Word m)} (h : AtIret ctx mem u) (hframe : Frame mem ctx c l)
    (hcs : lowWord (c .cs) = ksel segKcode ∨ lowWord (c .cs) = usel segUcode)
    (hsp : m = .m32 → lowWord (c .cs) = ksel segKcode →
      ∃ s, 13 + s ≤ 64 ∧ c .sp = slot ctx (13 + s)) : Loaded (amIret u) c := by
  have hmem := hframe.congr h.context
  cases m with
  | m64 =>
    obtain rfl : u.gpr .di = ctx := h.arg
    exact loaded64 hmem
  | m32 =>
    have hcpl : u.cpl = 0 := by
      rw [Cpu.cpl, h.ring]
      rfl
    rcases hcs with hkernel | huser
    · obtain ⟨s, hs, hnew⟩ := hsp rfl hkernel
      exact loaded_kernel h.arg hmem hcpl hkernel hs hnew
    · refine loaded_user h.arg hmem hcpl ?_
      rw [huser]
      decide

theorem mem_contextMembers {r : Gpr} (hr : r ∈ generalRegs m) : .gpr r ∈ contextMembers m := by
  revert r
  cases m <;> decide

theorem amIrqHandle_ok {userHandler : UserHandler m} {sys sys' : System m} {tf ret : Word m}
    {mem mem' : Mem (8 * m.n)} (h : callHandler userHandler sys tf mem = (ret, mem', sys'))
    (hret : ret ≠ 0) : ∃ sys'', amIrqHandle userHandler sys tf mem = .ok (ret, mem', sys'') := by
  simp only [amIrqHandle, h, if_neg hret]
  split_ifs <;> exact ⟨_, rfl⟩

theorem InRing.cpl {s : Cpu m} (h : InRing s) : s.cs = ksel segKcode ↔ s.cpl = 0 := by
  unfold Cpu.cpl
  rcases h with hk | hu
  · rw [hk]
    decide
  · rw [hu]
    decide

theorem setWidth_and_three (x : Sel) : x.setWidth (8 * m.n) &&& 3 = 0 ↔ x &&& 3 = 0 := by
  have hthree : (3 : Word m) = (3 : Sel).setWidth (8 * m.n) := by cases m <;> rfl
  have hwidth : 16 ≤ 8 * m.n := by cases m <;> decide
  rw [hthree, ← BitVec.setWidth_and]
  constructor
  · intro h
    rw [← lowWord_setWidth (m := m) (x &&& 3), h]
    exact BitVec.setWidth_zero ..
  · intro h
    rw [h]
    exact BitVec.setWidth_zero ..

section

variable {sys : System m} {vector : Nat} {err : Option (Word m)} {s : Cpu m} {mem : Mem (8 * m.n)}
  {tf : Word m} {c : Member → Word m} {irq errcode ip cs flags sp ss : Word m} {l : List (Word m)}

/-- What decides whether the registers are passed are the five words after the two that the stub
is for. -/
theorem passed_iff (sys : System m) (h : TrapFrame mem tf c irq errcode ip cs flags sp ss l)
    (hl : l.length ≤ 20)
    (hgpr : ∀ r ∈ generalRegs m, c (.gpr r) = s.gpr r) :
    Passed s (saveContext sys tf mem) tf ↔
      ip = s.ip ∧ cs = s.cs.setWidth _ ∧ flags = s.flags ∧
        (if m = .m32 ∧ s.cpl = 0 then slot tf (contextWords m + 5) else sp) = s.gpr .sp := by
  obtain ⟨c', hframe, hgpr', hip, hcs, hflags, hsp⟩ := saveContext_spec sys h hl
  have hget : ∀ x ∈ completed, getMember (saveContext sys tf mem) tf x = c' x := by
    intro x hx
    have hcompleted : completed ⊆ contextMembers m := by cases m <;> decide
    exact Frame.getMember hframe (hcompleted hx)
  have hring : cs = s.cs.setWidth _ → (cs &&& 3 = 0 ↔ s.cpl = 0) := by
    rintro rfl
    exact setWidth_and_three s.cs
  constructor
  · intro hp
    have hcs' : cs = s.cs.setWidth _ := by rw [← hcs, ← hget .cs (by decide), hp.cs]
    refine ⟨?_, hcs', ?_, ?_⟩
    · rw [← hip, ← hget .ip (by decide), hp.ip]
    · rw [← hflags, ← hget .flags (by decide), hp.flags]
    · rw [← hp.sp, hget .sp (by decide), hsp]
      simp only [hring hcs']
  · rintro ⟨rfl, hcs', rfl, hsp'⟩
    refine ⟨fun r hr => ?_, ?_, ?_, ?_, ?_⟩
    · rw [Frame.getMember hframe (mem_contextMembers hr), hgpr' r, hgpr r hr]
    · rw [hget .ip (by decide), hip]
    · rw [hget .cs (by decide), hcs, hcs']
    · rw [hget .flags (by decide), hflags]
    · rw [hget .sp (by decide), hsp, ← hsp']
      simp only [hring hcs']

theorem entryWords_cases (vector : Nat) (err : Option (Word m)) (s : Cpu m) :
    (err.isSome = expectsErr vector ∧
      ∃ irq errcode, entryWords vector err s = irq :: errcode :: hwWords s) ∨
    (∃ e irq, err = some e ∧ expectsErr vector = false ∧
      entryWords vector err s = irq :: 0 :: e :: hwWords s) ∨
    (err = none ∧ expectsErr vector = true ∧ ∃ irq, entryWords vector err s = irq :: hwWords s) := by
  obtain ⟨id, hid⟩ := stubWords_eq m vector
  rw [entryWords, hid]
  cases hexp : expectsErr vector with
  | false =>
    cases err with
    | none => exact .inl ⟨rfl, id, 0, rfl⟩
    | some e => exact .inr (.inl ⟨e, id, rfl, rfl, rfl⟩)
  | true =>
    cases err with
    | none => exact .inr (.inr ⟨rfl, rfl, id, rfl⟩)
    | some e => exact .inl ⟨rfl, id, e, rfl⟩

theorem hwWords_kernel (hk : m = .m32 ∧ s.cpl = 0) :
    hwWords s = [s.ip, s.cs.setWidth _, s.flags] := by
  rw [hwWords, if_pos hk, List.append_nil]

theorem hwWords_user (hu : ¬(m = .m32 ∧ s.cpl = 0)) :
    hwWords s = [s.ip, s.cs.setWidth _, s.flags, s.gpr .sp, (s.seg .ss).setWidth _] := by
  rw [hwWords, if_neg hu]
  rfl

/-- The registers are passed at the call that an interrupt of `s` leads to. -/
def PassedAtCall (sys : System m) (vector : Nat) (err : Option (Word m)) (s : Cpu m) : Prop :=
  Passed s (saveContext sys (s.atCall sys vector err).tf (s.atCall sys vector err).mem)
    (s.atCall sys vector err).tf

theorem slot_ne (p : Word m) {j k : Nat} (hj : j < 64) (hk : k < 64) (hne : j ≠ k) :
    slot p j ≠ slot p k := by
  have hpos : 0 < m.n := by cases m <;> decide
  have hfit : ∀ i, i < 64 → m.n * i < 2 ^ (8 * m.n) := fun i hi =>
    Nat.lt_of_lt_of_le (Nat.mul_lt_mul_of_pos_left hi hpos) (fits (Nat.le_refl 64))
  intro heq
  exact hne (slot_inj p (hfit j hj) (hfit k hk) hpos heq)

theorem passed_iff_kernel (hk : m = .m32 ∧ s.cpl = 0) :
    PassedAtCall sys vector err s ↔ err.isSome = expectsErr vector := by
  obtain ⟨c, above, habove, hframe, hgpr, hbase⟩ := atCall_spec sys vector err s
  have hbase := hbase hk.1 hk.2
  have hwords : contextWords m ≤ 22 := by cases m <;> decide
  obtain ⟨a, a', a'', rfl⟩ := List.length_eq_three.mp habove
  rcases entryWords_cases vector err s with
    ⟨hexp, irq, errcode, heq⟩ | ⟨e, irq, rfl, hexp, heq⟩ | ⟨rfl, hexp, irq, heq⟩
  · rw [heq, hwWords_kernel hk] at hframe hbase
    have hiff := passed_iff sys hframe (by simp) hgpr
    rw [PassedAtCall, hiff, if_pos hk]
    exact ⟨fun _ => hexp, fun _ => ⟨rfl, rfl, rfl, hbase⟩⟩
  · rw [heq, hwWords_kernel hk] at hframe hbase
    have hiff := passed_iff sys hframe (by simp) hgpr
    have hne := slot_ne (s.atCall sys vector (some e)).tf (j := contextWords m + 5)
      (k := contextWords m + 6) (by omega) (by omega) (by omega)
    rw [PassedAtCall, hiff, if_pos hk, hexp, ← hbase]
    exact ⟨fun h => absurd h.2.2.2 hne, fun h => nomatch h⟩
  · rw [heq, hwWords_kernel hk] at hframe hbase
    have hiff := passed_iff sys hframe (by simp) hgpr
    have hne := slot_ne (s.atCall sys vector none).tf (j := contextWords m + 5)
      (k := contextWords m + 4) (by omega) (by omega) (by omega)
    rw [PassedAtCall, hiff, if_pos hk, hexp, ← hbase]
    exact ⟨fun h => absurd h.2.2.2 hne, fun h => nomatch h⟩

theorem passed_iff_user (hu : ¬(m = .m32 ∧ s.cpl = 0)) :
    PassedAtCall sys vector err s ↔ err.isSome = expectsErr vector ∨ Indistinct err s := by
  obtain ⟨c, above, habove, hframe, hgpr, -⟩ := atCall_spec sys vector err s
  obtain ⟨a, a', a'', rfl⟩ := List.length_eq_three.mp habove
  rcases entryWords_cases vector err s with
    ⟨hexp, irq, errcode, heq⟩ | ⟨e, irq, rfl, hexp, heq⟩ | ⟨rfl, hexp, irq, heq⟩
  · rw [heq, hwWords_user hu] at hframe
    have hiff := passed_iff sys hframe (by simp) hgpr
    rw [PassedAtCall, hiff, if_neg hu]
    exact ⟨fun _ => .inl hexp, fun _ => ⟨rfl, rfl, rfl, rfl⟩⟩
  · rw [heq, hwWords_user hu] at hframe
    have hiff := passed_iff sys hframe (by simp) hgpr
    have htop : Indistinct (some e) s ↔ [e, s.ip, s.cs.setWidth _, s.flags, s.gpr .sp] =
        List.replicate 5 s.ip := by
      rw [Indistinct, hwWords_user hu]
      rfl
    simp only [List.replicate, List.cons.injEq] at htop
    rw [PassedAtCall, hiff, if_neg hu, htop]
    grind
  · rw [heq, hwWords_user hu] at hframe
    have hiff := passed_iff sys hframe (by simp) hgpr
    have htop : Indistinct none s ↔ [s.ip, s.cs.setWidth _, s.flags, s.gpr .sp,
        (s.seg .ss).setWidth _] = List.replicate 5 s.ip := by
      rw [Indistinct, hwWords_user hu]
      rfl
    simp only [List.replicate, List.cons.injEq] at htop
    rw [PassedAtCall, hiff, if_neg hu, htop]
    grind

theorem exists_trapFrame {l : List (Word m)} (h : 7 ≤ l.length) :
    ∃ irq errcode ip cs flags sp ss l',
      l = irq :: errcode :: ip :: cs :: flags :: sp :: ss :: l' := by
  match l, h with
  | irq :: errcode :: ip :: cs :: flags :: sp :: ss :: l', _ =>
    exact ⟨irq, errcode, ip, cs, flags, sp, ss, l', rfl⟩

theorem atCall_saved (sys : System m) (vector : Nat) (err : Option (Word m)) (s : Cpu m) :
    ∃ c l, Frame (saveContext sys (s.atCall sys vector err).tf (s.atCall sys vector err).mem)
        (s.atCall sys vector err).tf c l ∧
      (m = .m32 → c .cs &&& 3 = 0 →
        c .sp = slot (s.atCall sys vector err).tf (contextWords m + 5)) := by
  obtain ⟨c, above, habove, hframe, -, -⟩ := atCall_spec sys vector err s
  have hlen := length_entryWords vector err s
  have happend : (entryWords vector err s ++ above).length = (entryWords vector err s).length + 3 := by
    rw [List.length_append, habove]
  obtain ⟨irq, errcode, ip, cs, flags, sp, ss, l, hl⟩ :=
    exists_trapFrame (l := entryWords vector err s ++ above) (by omega)
  rw [hl] at hframe happend
  have hshort : l.length ≤ 20 := by
    have hseven : l.length + 7 = (entryWords vector err s).length + 3 := happend
    omega
  obtain ⟨c', hframe', -, -, hcs, -, hsp⟩ := saveContext_spec sys hframe hshort
  refine ⟨c', _, hframe', fun hm hring => ?_⟩
  rw [hsp, if_pos ⟨hm, hcs ▸ hring⟩]

theorem transparent_iff_passed (hring : InRing s) : Transparent sys vector err s ↔
    PassedAtCall sys vector err s := by
  refine ⟨fun h => h.passed, fun hpassed => ⟨hpassed, ?_⟩⟩
  intro userHandler mem' sys' hcall hsame htf
  obtain ⟨sys'', hok⟩ := amIrqHandle_ok hcall htf
  refine ⟨sys'', hok, fun u hu => ?_⟩
  obtain ⟨c', l, hframe, hsp⟩ := atCall_saved sys vector err s
  have hget : ∀ x ∈ contextMembers m, c' x = getMember (saveContext sys
      (s.atCall sys vector err).tf (s.atCall sys vector err).mem) (s.atCall sys vector err).tf x :=
    fun x hx => (hframe.getMember hx).symm
  have hcs : c' .cs = s.cs.setWidth _ := (hget .cs (by cases m <;> decide)).trans hpassed.cs
  have hlow : lowWord (c' .cs) = s.cs := by rw [hcs, lowWord_setWidth]
  have hloaded := loaded hu (hframe.congr hsame) (by rw [hlow]; exact hring) (by
    intro hm hkernel
    rw [hlow] at hkernel
    have hsp' := hsp hm (by
      rw [hcs]
      exact (setWidth_and_three s.cs).mpr (hring.cpl.mp hkernel))
    subst hm
    exact ⟨7, by omega, hsp'⟩)
  refine ⟨fun r hr => ?_, ?_, ?_, ?_, ?_⟩
  · rw [hloaded.gpr r hr, hget _ (mem_contextMembers hr), hpassed.gpr r hr]
  · rw [hloaded.ip, hget _ (by cases m <;> decide), hpassed.ip]
  · rw [hloaded.cs, hlow]
  · rw [hloaded.flags, hget _ (by cases m <;> decide), hpassed.flags]
  · rw [hloaded.sp, hget _ (by cases m <;> decide), hpassed.sp]

end

theorem kcontext_spec (start kstackEnd entry arg : Word m) (mem : Mem (8 * m.n)) : ∃ c,
    Frame (kcontext start kstackEnd entry arg mem).2 (kcontext start kstackEnd entry arg mem).1 c
      [] ∧
    c .cs = (ksel segKcode).setWidth _ ∧ c .ip = start ∧ c .flags = flIf ∧ c .sp = kstackEnd ∧
    c (.gpr (gpr1 m)) = arg ∧ c (.gpr (gpr2 m)) = entry ∧
    slot (kcontext start kstackEnd entry arg mem).1 (contextWords m) = kstackEnd := by
  have hmem : ∀ x ∈ [.cs, .ip, .flags, .sp, .gpr (gpr1 m), .gpr (gpr2 m)], x ∈ contextMembers m := by
    cases m <;> decide
  have hne : gpr1 m ≠ gpr2 m := by cases m <;> decide
  simp only [kcontext]
  generalize (if m = .m64 then clearContext (kstackEnd - _) mem else _) = cleared
  obtain ⟨l, hl, hstack⟩ := exists_stack cleared
    (kstackEnd - BitVec.ofNat _ (m.n * contextWords m)) (contextWords m)
  obtain ⟨c, rfl⟩ := exists_members hl
  have hframe : Frame cleared (kstackEnd - BitVec.ofNat _ (m.n * contextWords m)) c [] := by
    rw [Frame, List.append_nil]
    exact hstack
  have hcs := hframe.setMember (Nat.zero_le _) (hmem .cs (by simp)) ((ksel segKcode).setWidth _)
  have hip := hcs.setMember (Nat.zero_le _) (hmem .ip (by simp)) start
  have hflags := hip.setMember (Nat.zero_le _) (hmem .flags (by simp)) flIf
  have hsp := hflags.setMember (Nat.zero_le _) (hmem .sp (by simp)) kstackEnd
  have harg := hsp.setMember (Nat.zero_le _) (hmem (.gpr (gpr1 m)) (by simp)) arg
  have hentry := harg.setMember (Nat.zero_le _) (hmem (.gpr (gpr2 m)) (by simp)) entry
  refine ⟨_, hentry, ?_, ?_, ?_, ?_, ?_, ?_, ?_⟩
  · simp
  · simp
  · simp
  · simp
  · simp [hne]
  · simp
  · rw [slot, BitVec.sub_add_cancel]

theorem kcontext_starts (m : Mode) : KcontextStarts m := by
  intro start kstackEnd entry arg mem u hu
  obtain ⟨c, hframe, hcs, hip, hflags, hsp, harg, hentry, hend⟩ :=
    kcontext_spec start kstackEnd entry arg mem
  have hlow : lowWord (c .cs) = ksel segKcode := by rw [hcs, lowWord_setWidth]
  have hloaded := loaded hu hframe (.inl hlow) (by
    rintro rfl -
    exact ⟨2, by omega, hsp.trans hend.symm⟩)
  have hregs : gpr1 m ∈ generalRegs m ∧ gpr2 m ∈ generalRegs m := by cases m <;> decide
  refine ⟨?_, ?_, ?_, ?_, ?_⟩
  · rw [hloaded.ip, hip]
  · rw [hloaded.gpr _ hregs.1, harg]
  · rw [hloaded.gpr _ hregs.2, hentry]
  · rw [hloaded.flags, hflags]
    cases m <;> decide
  · rw [hloaded.sp, hsp]

theorem not_indistinct {err : Option (Word m)} {s : Cpu m} (hk : m = .m32 ∧ s.cpl = 0) :
    ¬Indistinct err s := by
  intro h
  have hlen := congrArg List.length h
  have herr : err.toList.length ≤ 1 := by cases err <;> simp
  rw [hwWords_kernel hk, List.length_take, List.length_append, List.length_replicate] at hlen
  have hthree : [s.ip, s.cs.setWidth _, s.flags].length = 3 := rfl
  omega

/-- The trap path is transparent where the hardware pushes an error code just for the vectors that
`IRQS` has with one, and elsewhere only where the words cannot be told apart. -/
theorem trapPath_transparent_iff (sys : System m) (vector : Nat) (err : Option (Word m)) (s : Cpu m)
    (hring : InRing s) : Transparent sys vector err s ∧ KcontextStarts m ↔
      err.isSome = expectsErr vector ∨ Indistinct err s := by
  rw [and_iff_left (kcontext_starts m), transparent_iff_passed hring]
  by_cases hk : m = .m32 ∧ s.cpl = 0
  · rw [passed_iff_kernel hk, or_iff_left (not_indistinct hk)]
  · exact passed_iff_user hk

/-- User code with alignment checks on, about to make an access that is not aligned. -/
def userCpu : Cpu .m32 where
  gpr _ := 0x7fffff01
  mem _ := 0
  ip := 0x8048000
  cs := usel segUcode
  flags := 0x40202
  seg _ := usel segUdata

def userSystem : System .m32 := ⟨0, 0x1000, 0x102000, ksel segKdata, 0⟩

theorem userCpu_syscall : Transparent userSystem 0x80 none userCpu ∧ KcontextStarts .m32 :=
  (trapPath_transparent_iff userSystem 0x80 none userCpu (.inr rfl)).mpr (.inl (by decide))

def kernelCpu : Cpu .m32 := { userCpu with cs := ksel segKcode }

/-- The alignment check pushes an error code, which `__am_irqall` does not expect, and `int $13` in
the kernel pushes none, which `__am_irq13` does. -/
theorem wrongErrcode_not_transparent : ¬Transparent userSystem 17 (some 0) userCpu ∧
    ¬Transparent userSystem 13 none kernelCpu := by
  have huser : ¬(Mode.m32 = .m32 ∧ userCpu.cpl = 0) := by decide
  rw [transparent_iff_passed (.inr rfl), transparent_iff_passed (.inl rfl), passed_iff_user huser,
    passed_iff_kernel ⟨rfl, by decide⟩]
  refine ⟨?_, by decide⟩
  rintro (hexpects | hsame)
  · exact absurd hexpects (by decide)
  · exact absurd (List.cons.inj hsame).1 (by decide)

end Riscv32Cpu.X86Trap
