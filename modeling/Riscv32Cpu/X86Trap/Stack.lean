/- module: Riscv32Cpu/X86Trap/Stack
   source: abstract-machine/am/src/x86/qemu/trap32.S, trap64.S, x86-qemu.h
   digest: Pushes, pops and the two structures, on the words of a stack. -/

import Mathlib.Data.List.Nodup
import Mathlib.Tactic.SplitIfs
import Riscv32Cpu.X86Trap.Model

set_option autoImplicit false
set_option relaxedAutoImplicit false

namespace Riscv32Cpu.X86Trap

open Lib.Memory Lib.Slots

variable {m : Mode}

/-- The stack of a processor, top first. -/
def Cpu.Sees (s : Cpu m) (l : List (Word m)) : Prop := Stack s.mem (s.gpr .sp) l

theorem execAll_append (is js : List Instr) (s : Cpu m) :
    execAll (is ++ js) s = execAll js (execAll is s) := List.foldl_append

@[simp] theorem mem_setGpr (s : Cpu m) (r : Gpr) (v : Word m) : (s.setGpr r v).mem = s.mem := rfl

@[simp] theorem cs_setGpr (s : Cpu m) (r : Gpr) (v : Word m) : (s.setGpr r v).cs = s.cs := rfl

theorem gpr_setGpr_self (s : Cpu m) (r : Gpr) (v : Word m) : (s.setGpr r v).gpr r = v := by
  show Function.update s.gpr r v r = v
  exact Function.update_self _ _ _

theorem gpr_setGpr_of_ne (s : Cpu m) {r i : Gpr} (hi : i ≠ r) (v : Word m) :
    (s.setGpr r v).gpr i = s.gpr i := by
  show Function.update s.gpr r v i = s.gpr i
  exact Function.update_of_ne hi _ _

theorem fits {k : Nat} (hk : k ≤ 64) : m.n * k ≤ 2 ^ (8 * m.n) := by
  cases m with
  | m32 =>
    have hpow : 2 ^ (8 * Mode.m32.n) = 4294967296 := rfl
    show 4 * k ≤ _
    omega
  | m64 =>
    have hpow : 2 ^ (8 * Mode.m64.n) = 18446744073709551616 := rfl
    show 8 * k ≤ _
    omega

/-- The words of `l` pushed one after the other, the last one first. -/
def Cpu.pushWords (s : Cpu m) (l : List (Word m)) : Cpu m := l.foldr (fun v t => t.pushWord v) s

theorem pushWords_cons (s : Cpu m) (v : Word m) (l : List (Word m)) :
    s.pushWords (v :: l) = (s.pushWords l).pushWord v := rfl

theorem pushWords_append (s : Cpu m) (l l' : List (Word m)) :
    s.pushWords (l ++ l') = (s.pushWords l').pushWords l := List.foldr_append ..

theorem gpr_pushWords (s : Cpu m) (l : List (Word m)) {r : Gpr} (hr : r ≠ .sp) :
    (s.pushWords l).gpr r = s.gpr r := by
  induction l with
  | nil => rfl
  | cons v l ih => exact (gpr_setGpr_of_ne _ hr _).trans ih

theorem sp_pushWord (s : Cpu m) (v : Word m) :
    (s.pushWord v).gpr .sp = s.gpr .sp - BitVec.ofNat _ m.n := gpr_setGpr_self s .sp _

theorem slot_pushWord (s : Cpu m) (v : Word m) : slot ((s.pushWord v).gpr .sp) 1 = s.gpr .sp := by
  rw [sp_pushWord, slot, Nat.mul_one, BitVec.sub_add_cancel]

theorem slot_pushWords (s : Cpu m) (l : List (Word m)) :
    slot ((s.pushWords l).gpr .sp) l.length = s.gpr .sp := by
  induction l with
  | nil => exact slot_zero _
  | cons v l ih =>
    rw [pushWords_cons, List.length_cons, Nat.add_comm, ← slot_slot, slot_pushWord, ih]

theorem Cpu.Sees.pushWord {s : Cpu m} {l : List (Word m)} (h : s.Sees l) (hl : l.length < 64)
    (v : Word m) : (s.pushWord v).Sees (v :: l) := by
  have hsp := slot_pushWord s v
  have hpush := Stack.push (p := (s.pushWord v).gpr .sp) (by rw [hsp]; exact h) (fits hl) v
  have hmem : (s.pushWord v).mem = store s.mem ((s.pushWord v).gpr .sp) m.n v := by
    rw [sp_pushWord]
    rfl
  rw [Cpu.Sees, hmem]
  exact hpush

theorem Cpu.Sees.pushWords {s : Cpu m} {l : List (Word m)} (h : s.Sees l) (l' : List (Word m))
    (hl : l'.length + l.length ≤ 64) : (s.pushWords l').Sees (l' ++ l) := by
  induction l' with
  | nil => exact h
  | cons v l' ih =>
    rw [List.length_cons] at hl
    exact (ih (by omega)).pushWord (by rw [List.length_append]; omega) v

theorem Cpu.Sees.reserve {s t : Cpu m} {l : List (Word m)} (h : s.Sees l) {k : Nat}
    (hsp : slot (t.gpr .sp) k = s.gpr .sp) (hmem : t.mem = s.mem) :
    ∃ l', l'.length = k ∧ t.Sees (l' ++ l) := by
  obtain ⟨l', hl', hstack⟩ := exists_stack t.mem (t.gpr .sp) k
  refine ⟨l', hl', stack_append.mpr ⟨hstack, ?_⟩⟩
  rw [hl', hsp, hmem]
  exact h

theorem Cpu.Sees.top {s : Cpu m} {l : List (Word m)} (h : s.Sees l) {j : Nat} (hj : j < l.length) :
    s.top j = l[j] := h.get hj

/-- The registers after pops into `rs`, with the words of `f` on the stack. -/
def popped (g : Gpr → Word m) (rs : List Gpr) (f : Gpr → Word m) (r : Gpr) : Word m :=
  if r ∈ rs then f r else if r = .sp then slot (g .sp) rs.length else g r

theorem popped_cons (g : Gpr → Word m) {r : Gpr} (hr : Gpr.sp ≠ r) (rs : List Gpr)
    (f : Gpr → Word m) :
    popped (Function.update (Function.update g .sp (slot (g .sp) 1)) r (f r)) rs f =
      popped g (r :: rs) f := by
  ext1 i
  simp only [popped, List.mem_cons, List.length_cons, Function.update_apply, if_neg hr, if_true]
  by_cases hi : i ∈ rs
  · rw [if_pos hi, if_pos (.inr hi)]
  · by_cases hir : i = r
    · subst hir
      rw [if_neg hi, if_neg (Ne.symm hr), if_pos rfl, if_pos (.inl rfl)]
    · have hnot : ¬(i = r ∨ i ∈ rs) := fun hor => hor.elim hir hi
      rw [if_neg hi, if_neg hnot, if_neg hir, slot_slot, Nat.add_comm]
      split_ifs <;> rfl

theorem execAll_pops (rs : List Gpr) {s : Cpu m} {f : Gpr → Word m} {l : List (Word m)}
    (hsp : .sp ∉ rs) (h : s.Sees (rs.map f ++ l)) :
    execAll (pops rs) s = { s with gpr := popped s.gpr rs f } := by
  induction rs generalizing s with
  | nil =>
    have hgpr : popped s.gpr [] f = s.gpr := by
      ext1 i
      by_cases hi : i = .sp
      · rw [popped, if_neg List.not_mem_nil, if_pos hi, List.length_nil, slot_zero, hi]
      · rw [popped, if_neg List.not_mem_nil, if_neg hi]
    rw [hgpr]
    rfl
  | cons r rs ih =>
    obtain ⟨hv, hrest⟩ := stack_cons.mp h
    have hr : Gpr.sp ≠ r := fun heq => hsp (heq ▸ List.mem_cons_self)
    have hexec : exec (.pop r) s = { s with
        gpr := Function.update (Function.update s.gpr .sp (slot (s.gpr .sp) 1)) r (f r) } := by
      show ({ s with gpr := Function.update _ r (load s.mem (slot (s.gpr .sp) 0) _) } : Cpu m) = _
      rw [slot_zero, hv]
      rfl
    have hstep := ih (s := exec (.pop r) s) (fun hmem => hsp (List.mem_cons_of_mem r hmem)) (by
      rw [hexec]
      show Stack s.mem (Function.update (Function.update s.gpr .sp _) r (f r) .sp) (rs.map f ++ l)
      rw [Function.update_of_ne hr, Function.update_self]
      exact hrest)
    show execAll (pops rs) (exec (.pop r) s) = _
    rw [hstep, hexec]
    exact congrArg (fun g => ({ s with gpr := g } : Cpu m)) (popped_cons s.gpr hr rs f)

theorem mem_pops (rs : List Gpr) (s : Cpu m) : (execAll (pops rs) s).mem = s.mem := by
  induction rs generalizing s with
  | nil => rfl
  | cons r rs ih => exact ih (exec (.pop r) s)

theorem cs_pops (rs : List Gpr) (s : Cpu m) : (execAll (pops rs) s).cs = s.cs := by
  induction rs generalizing s with
  | nil => rfl
  | cons r rs ih => exact ih (exec (.pop r) s)

theorem sp_pops (rs : List Gpr) {s : Cpu m} {f : Gpr → Word m} {l : List (Word m)}
    (hsp : .sp ∉ rs) (h : s.Sees (rs.map f ++ l)) :
    (execAll (pops rs) s).gpr .sp = slot (s.gpr .sp) rs.length := by
  rw [execAll_pops rs hsp h]
  show popped s.gpr rs f .sp = _
  rw [popped, if_neg hsp, if_pos rfl]

theorem Cpu.Sees.pops (rs : List Gpr) {s : Cpu m} {f : Gpr → Word m} {l : List (Word m)}
    (hsp : .sp ∉ rs) (h : s.Sees (rs.map f ++ l)) : (execAll (pops rs) s).Sees l := by
  rw [Cpu.Sees, sp_pops rs hsp h, mem_pops]
  have hrest := (stack_append.mp h).2
  rw [List.length_map] at hrest
  exact hrest

theorem nodup_contextMembers (m : Mode) : (contextMembers m).Nodup := by
  cases m <;> decide

/-- The context at `ctx` has the members `c`, and the words after it are `rest`. -/
def Frame (mem : Mem (8 * m.n)) (ctx : Word m) (c : Member → Word m) (rest : List (Word m)) : Prop :=
  Stack mem ctx ((contextMembers m).map c ++ rest)

variable {mem mem' : Mem (8 * m.n)} {ctx : Word m} {c : Member → Word m} {rest : List (Word m)}

theorem Frame.getMember (h : Frame mem ctx c rest) {x : Member} (hx : x ∈ contextMembers m) :
    getMember mem ctx x = c x := by
  have hlt := List.idxOf_lt_length_of_mem hx
  have hget := (stack_append.mp h).1.get (j := x.idx m) (by rw [List.length_map]; exact hlt)
  rw [List.getElem_map] at hget
  refine hget.trans (congrArg c ?_)
  exact List.getElem_idxOf hlt

theorem Frame.setMember (h : Frame mem ctx c rest) (hrest : rest.length ≤ 32) {x : Member}
    (hx : x ∈ contextMembers m) (v : Word m) :
    Frame (setMember ctx x v mem) ctx (Function.update c x v) rest := by
  have hlt := List.idxOf_lt_length_of_mem hx
  have hwords : (contextMembers m).length ≤ 22 := by cases m <;> decide
  have hset := Stack.set h (j := x.idx m) (fits (by
    rw [List.length_append, List.length_map]
    omega)) (by
      rw [List.length_append, List.length_map]
      exact Nat.lt_add_right _ hlt) v
  rw [List.set_append_left _ _ (by rw [List.length_map]; exact hlt)] at hset
  have hmap : ((contextMembers m).map c).set (x.idx m) v =
      (contextMembers m).map (Function.update c x v) := by
    refine List.ext_getElem (by simp) fun i hi hi' => ?_
    rw [List.length_map] at hi'
    rw [List.getElem_set, List.getElem_map, List.getElem_map, Function.update_apply]
    by_cases hidx : x.idx m = i
    · have heq : (contextMembers m)[i] = x := by
        simp only [← hidx]
        exact List.getElem_idxOf hlt
      rw [if_pos hidx, if_pos heq]
    · rw [if_neg hidx, if_neg fun heq => hidx ?_]
      rw [← heq]
      exact (nodup_contextMembers m).idxOf_getElem i hi'
  rw [hmap] at hset
  exact hset

theorem Frame.getTrap (h : Frame mem ctx c rest) {x : TrapMember}
    (hx : trapMembers.idxOf x < rest.length) :
    getTrap mem ctx x = rest[trapMembers.idxOf x] := by
  have hget := (stack_append.mp h).2.get hx
  rw [List.length_map, slot_slot] at hget
  exact hget

theorem exists_members {l : List (Word m)} (h : l.length = contextWords m) :
    ∃ c : Member → Word m, l = (contextMembers m).map c := by
  refine ⟨fun x => l.getD (x.idx m) 0, List.ext_getElem (by rw [List.length_map, h]; rfl)
    fun i hi hi' => ?_⟩
  rw [List.length_map] at hi'
  have hidx : ((contextMembers m)[i]).idx m = i := (nodup_contextMembers m).idxOf_getElem i hi'
  rw [List.getElem_map, hidx, List.getD_eq_getElem l 0 hi]

theorem Frame.congr (h : Frame mem ctx c rest)
    (heq : ∀ x, (x - ctx).toNat < m.n * contextWords m → mem' x = mem x) :
    Frame mem' ctx c [] := by
  have hwords : (contextMembers m).length ≤ 22 := by cases m <;> decide
  have hctx := (stack_append.mp h).1
  rw [Frame, List.append_nil]
  refine hctx.congr (fits (by rw [List.length_map]; omega)) fun x hx => heq x ?_
  rw [List.length_map] at hx
  exact hx

end Riscv32Cpu.X86Trap
