/- module: Riscv32Cpu/Nemu/DeviceSpace
   source: CODE/nemu/src/device/io/map.c, mmio.c, include/memory/vaddr.h
   digest: The arena that devices get their bytes from, and how far an access reaches into it. -/

import Mathlib.Data.List.Pairwise
import Riscv32Cpu.Lib.Align
import Riscv32Cpu.Lib.Trace
import Riscv32Cpu.Nemu.Confinement
import Riscv32Cpu.Nemu.Mmio

set_option autoImplicit false
set_option relaxedAutoImplicit false

namespace Riscv32Cpu.Nemu.DeviceSpace

open Riscv32Cpu.Lib.Align Riscv32Cpu.Lib.Effect Riscv32Cpu.Lib.Memory Riscv32Cpu.Lib.Trace
open Riscv32Cpu.Isa.Rv32i
open Riscv32Cpu.Nemu.Mmio Riscv32Cpu.Nemu.Confinement
open Riscv32Cpu.Nemu.Memory hiding paddrRead paddrWrite

variable {κ : Type}

/-- What a call of `new_space` returned, and for how many bytes it was called. -/
structure Space where
  start : BitVec 64
  size : Word
  deriving DecidableEq

def Space.Holds (sp : Space) (b : BitVec 64) : Prop := (b - sp.start).toNat < sp.size.toNat

/-- `p_space`, the spaces that devices keep pointers to, and the table of `mmio.c`. -/
structure Setup (κ : Type) where
  pSpace : BitVec 64
  spaces : List Space
  maps : List (IOMap κ)

def ioSpaceMax : Nat := 32 * 1024 * 1024
def pageSize : BitVec 64 := 1 <<< 12
def pageMask : BitVec 64 := pageSize - 1

def assertSpace : String := "Assertion \x60p_space - io_space < IO_SPACE_MAX' failed."

section

-- The address that `malloc` gave the arena.
variable (ioSpace : BitVec 64)

/-- The sum is an `unsigned long`, and is cut down to an `int` again. -/
def newSpace (size : Word) : EStateM String (Setup κ) (BitVec 64) := do
  let p := (← get).pSpace
  let size : Word := ((size.signExtend 64 + (pageSize - 1)) &&& ~~~pageMask).setWidth 32
  modify fun s => { s with pSpace := s.pSpace + size.signExtend 64 }
  ensure (((← get).pSpace - ioSpace).toInt < ioSpaceMax) assertSpace
  return p

def initMap : Setup κ := ⟨ioSpace, [], []⟩

/-- One call of a device's `init`; a range is registered for a space, with the space's size. -/
inductive Call (κ : Type)
  | newSpace (size : Word)
  | addMmioMap (name : String) (addr : Word) (space : Space) (callback : Option κ)

/-- `none` when an assertion fails, or there is no such space. -/
def step : Call κ → Setup κ → Option (Setup κ)
  | .newSpace size, s =>
    match newSpace ioSpace size s with
    | .ok p s' => some { s' with spaces := s'.spaces ++ [⟨p, size⟩] }
    | .error _ _ => none
  | .addMmioMap name addr space callback, s =>
    if space ∈ s.spaces then
      match addMmioMap ⟨name, addr, space.start, space.size, callback⟩ s.maps with
      | .ok _ maps => some { s with maps := maps }
      | .error _ _ => none
    else none

/-- The bytes of the space were taken from the arena. -/
def InArena (sp : Space) : Prop := (sp.start - ioSpace).toNat + sp.size.toNat ≤ ioSpaceMax

end

/-- The range of the map is the one for the space. -/
def Backs (sp : Space) (map : IOMap κ) : Prop :=
  map.space = sp.start ∧ map.high = map.low + sp.size - 1

/-- From `m` to `m'` the accesses `l` were made, all of them to bytes of the space, and no other
byte has changed. -/
structure Within (sp : Space) (l : List Access) (m m' : Machine) : Prop where
  log : m'.touched = l ++ m.touched
  bytes : ∀ a ∈ l, ∀ b, Access.Covers a b → sp.Holds b
  frame : ∀ b, ¬sp.Holds b → m'.host b = m.host b

/-- Besides, no byte of any other space was read or changed. -/
def Stays (sp : Space) (spaces : List Space) (m m' : Machine) : Prop :=
  ∃ l, Within sp l m m' ∧ ∀ other ∈ spaces, other ≠ sp → ∀ b, other.Holds b →
    (∀ a ∈ l, ¬Access.Covers a b) ∧ m'.host b = m.host b

/-- The callback of the map uses the bytes of its space only. The static variables that a handler has
of its own are no part of `host`. -/
def KeepsTo (call : κ → Word → Nat → Bool → M Unit) (map : IOMap κ) (sp : Space) : Prop :=
  ∀ c, map.callback = some c → ∀ offset len isWrite m,
    ∃ l, Within sp l m (finalState (call c offset len isWrite m))

theorem and_not_pageMask (x : BitVec 64) : (x &&& ~~~pageMask).toNat = x.toNat / 4096 * 4096 :=
  toNat_and_not_mask x 12

theorem rounded_toNat {size : Word} (h : size.toNat ≤ ioSpaceMax) :
    ((((size.signExtend 64 + (pageSize - 1)) &&& ~~~pageMask).setWidth 32).signExtend 64).toNat =
      (size.toNat + 4095) / 4096 * 4096 := by
  have hmax : ioSpaceMax = 33554432 := rfl
  have hext : ∀ x : Word, x.toNat < 2 ^ 31 → (x.signExtend 64).toNat = x.toNat := by
    intro x hx
    have hmsb : x.msb = false := by
      rw [BitVec.msb_eq_false_iff_two_mul_lt]
      omega
    rw [BitVec.signExtend_eq_setWidth_of_msb_false hmsb, BitVec.toNat_setWidth]
    omega
  have hpage : (pageSize - 1).toNat = 4095 := rfl
  have hlow : (((size.signExtend 64 + (pageSize - 1)) &&& ~~~pageMask).setWidth 32).toNat =
      (size.toNat + 4095) / 4096 * 4096 := by
    rw [BitVec.toNat_setWidth, and_not_pageMask, BitVec.toNat_add, hext size (by omega), hpage]
    omega
  rw [hext _ (by omega), hlow]

/-- The spaces lie in the arena one after the other, below `p_space`. -/
structure Laid (ioSpace : BitVec 64) (s : Setup κ) : Prop where
  top : (s.pSpace - ioSpace).toNat < ioSpaceMax
  below : ∀ sp ∈ s.spaces,
    (sp.start - ioSpace).toNat + sp.size.toNat ≤ (s.pSpace - ioSpace).toNat
  apart : s.spaces.Pairwise fun sp later =>
    (sp.start - ioSpace).toNat + sp.size.toNat ≤ (later.start - ioSpace).toNat

variable {ioSpace : BitVec 64}

theorem laid_initMap : Laid ioSpace (initMap ioSpace : Setup κ) := by
  refine ⟨?_, fun sp hsp => absurd hsp List.not_mem_nil, .nil⟩
  show (ioSpace - ioSpace).toNat < ioSpaceMax
  rw [BitVec.sub_self]
  decide

theorem newSpace_ok {size : Word} {s s' : Setup κ} {p : BitVec 64}
    (h : newSpace ioSpace size s = .ok p s') :
    p = s.pSpace ∧ (s'.pSpace - ioSpace).toInt < ioSpaceMax ∧
      s' = { s with pSpace := s.pSpace +
        (((size.signExtend 64 + (pageSize - 1)) &&& ~~~pageMask).setWidth 32).signExtend 64 } := by
  obtain ⟨s₁, t₁, hget, h⟩ := bind_eq_ok h
  cases hget
  obtain ⟨u, t₂, hset, h⟩ := bind_eq_ok h
  cases hset
  obtain ⟨s₂, t₃, hget, h⟩ := bind_eq_ok h
  cases hget
  obtain ⟨hroom, h⟩ := ensure_bind_ok h
  cases h
  exact ⟨rfl, hroom, rfl⟩

theorem Laid.newSpace {size : Word} {s s' : Setup κ} {p : BitVec 64} (hs : Laid ioSpace s)
    (h : newSpace ioSpace size s = .ok p s') (harena : InArena ioSpace ⟨p, size⟩) :
    Laid ioSpace { s' with spaces := s.spaces ++ [⟨p, size⟩] } := by
  obtain ⟨rfl, hroom, rfl⟩ := newSpace_ok h
  have hmax : ioSpaceMax = 33554432 := rfl
  have htop := hs.top
  have hend : (s.pSpace - ioSpace).toNat + size.toNat ≤ ioSpaceMax := harena
  have hsize : size.toNat ≤ ioSpaceMax := by omega
  have hround := rounded_toNat hsize
  generalize (((size.signExtend 64 + (pageSize - 1)) &&& ~~~pageMask).setWidth 32).signExtend 64 =
    r at hround hroom ⊢
  have hnew : (s.pSpace + r - ioSpace).toNat = (s.pSpace - ioSpace).toNat + r.toNat := by
    have hcomm : s.pSpace + r - ioSpace = s.pSpace - ioSpace + r := add_sub_right_comm ..
    rw [hcomm, BitVec.toNat_add]
    omega
  have hlast : (s.pSpace - ioSpace).toNat + size.toNat ≤ (s.pSpace + r - ioSpace).toNat := by omega
  refine ⟨?_, fun sp hsp => ?_,
    List.pairwise_append.mpr ⟨hs.apart, List.pairwise_singleton _ _, ?_⟩⟩
  · have hint : (s.pSpace + r - ioSpace).toInt < 33554432 := hroom
    rw [BitVec.toInt_eq_toNat_of_lt (by omega)] at hint
    show (s.pSpace + r - ioSpace).toNat < ioSpaceMax
    omega
  · rcases List.mem_append.mp hsp with hsp | hsp
    · have hbelow := hs.below sp hsp
      show _ ≤ (s.pSpace + r - ioSpace).toNat
      omega
    · rw [List.mem_singleton.mp hsp]
      exact hlast
  · intro sp hsp later hlater
    rw [List.mem_singleton.mp hlater]
    exact hs.below sp hsp

theorem step_cases {call : Call κ} {s t : Setup κ} (h : step ioSpace call s = some t) :
    (∃ size p s', newSpace ioSpace size s = .ok p s' ∧
      t = { s' with spaces := s.spaces ++ [⟨p, size⟩] }) ∨
    ∃ name addr space callback maps, space ∈ s.spaces ∧
      addMmioMap ⟨name, addr, space.start, space.size, callback⟩ s.maps = .ok () maps ∧
      t = { s with maps := maps } := by
  cases call with
  | newSpace size =>
    have hcall : (match newSpace ioSpace size s with
      | .ok p s' => some { s' with spaces := s'.spaces ++ [⟨p, size⟩] }
      | .error _ _ => none) = some t := h
    cases hnew : newSpace ioSpace size s with
    | error e s' =>
      rw [hnew] at hcall
      cases hcall
    | ok p s' =>
      rw [hnew] at hcall
      cases hcall
      obtain ⟨-, -, rfl⟩ := newSpace_ok hnew
      exact .inl ⟨size, p, _, hnew, rfl⟩
  | addMmioMap name addr space callback =>
    have hcall : (if space ∈ s.spaces then
        match addMmioMap ⟨name, addr, space.start, space.size, callback⟩ s.maps with
        | .ok _ maps => some { s with maps := maps }
        | .error _ _ => none
      else none) = some t := h
    split at hcall
    · next hspace =>
      cases hadd : addMmioMap ⟨name, addr, space.start, space.size, callback⟩ s.maps with
      | error e maps =>
        rw [hadd] at hcall
        cases hcall
      | ok u maps =>
        rw [hadd] at hcall
        cases hcall
        exact .inr ⟨name, addr, space, callback, maps, hspace, hadd, rfl⟩
    · cases hcall

theorem step_laid {call : Call κ} {s t : Setup κ}
    (hs : (∀ sp ∈ s.spaces, InArena ioSpace sp) → Laid ioSpace s)
    (h : step ioSpace call s = some t) :
    (∀ sp ∈ t.spaces, InArena ioSpace sp) → Laid ioSpace t := by
  intro harena
  obtain ⟨size, p, s', hnew, rfl⟩ | ⟨name, addr, space, callback, maps, -, -, rfl⟩ := step_cases h
  · have hold : Laid ioSpace s := hs fun sp hsp => harena sp (List.mem_append_left _ hsp)
    have hlast : InArena ioSpace ⟨p, size⟩ :=
      harena _ (List.mem_append_right _ (List.mem_singleton_self _))
    exact hold.newSpace hnew hlast
  · have hold : Laid ioSpace s := hs harena
    exact ⟨hold.top, hold.below, hold.apart⟩

theorem spaces_disjoint {calls : List (Call κ)} {s : Setup κ}
    (hrun : play (step ioSpace) calls (initMap ioSpace) = some s)
    (harena : ∀ sp ∈ s.spaces, InArena ioSpace sp) {sp other : Space} (hsp : sp ∈ s.spaces)
    (hother : other ∈ s.spaces) (hne : other ≠ sp) (b : BitVec 64) :
    ¬(sp.Holds b ∧ other.Holds b) := by
  have hlaid : Laid ioSpace s :=
    play_invariant_all (p := fun s => (∀ sp ∈ s.spaces, InArena ioSpace sp) → Laid ioSpace s)
      (fun _ _ _ hs h => step_laid hs h) hrun (fun _ => laid_initMap) harena
  have hmax : ioSpaceMax = 33554432 := rfl
  have hplace : ∀ sp ∈ s.spaces, sp.Holds b →
      (sp.start - ioSpace).toNat ≤ (b - ioSpace).toNat ∧
        (b - ioSpace).toNat < (sp.start - ioSpace).toNat + sp.size.toNat := by
    intro sp hsp hb
    have hin : (sp.start - ioSpace).toNat + sp.size.toNat ≤ ioSpaceMax := harena sp hsp
    have hb' : (b - sp.start).toNat < sp.size.toNat := hb
    have hsum : b - ioSpace = b - sp.start + (sp.start - ioSpace) := (sub_add_sub_cancel ..).symm
    rw [hsum, BitVec.toNat_add]
    omega
  have hsymm : Std.Symm fun sp later : Space => ¬(sp.Holds b ∧ later.Holds b) :=
    ⟨fun _ _ h hboth => h hboth.symm⟩
  have hpair : s.spaces.Pairwise fun sp later => ¬(sp.Holds b ∧ later.Holds b) := by
    refine hlaid.apart.imp_of_mem fun {sp later} hsp hlater hle hboth => ?_
    have h₁ := hplace sp hsp hboth.1
    have h₂ := hplace later hlater hboth.2
    omega
  exact hpair.forall hsp hother (Ne.symm hne)

theorem backed {calls : List (Call κ)} {s : Setup κ}
    (hrun : play (step ioSpace) calls (initMap ioSpace) = some s) :
    ∀ map ∈ s.maps, ∃ sp ∈ s.spaces, Backs sp map := by
  refine play_invariant_all (p := fun s => ∀ map ∈ s.maps, ∃ sp ∈ s.spaces, Backs sp map)
    (fun call s t hs h map hmap => ?_) hrun fun map hmap => absurd hmap List.not_mem_nil
  obtain ⟨size, p, s', hnew, rfl⟩ | ⟨name, addr, space, callback, maps, hspace, hadd, rfl⟩ :=
    step_cases h
  · obtain ⟨-, -, rfl⟩ := newSpace_ok hnew
    obtain ⟨sp, hsp, hback⟩ := hs map hmap
    exact ⟨sp, List.mem_append_left _ hsp, hback⟩
  · obtain ⟨rfl, -, -⟩ := addMmioMap_ok hadd
    rcases List.mem_append.mp hmap with hmap | hmap
    · exact hs map hmap
    · rw [List.mem_singleton.mp hmap]
      exact ⟨space, hspace, rfl, rfl⟩

theorem Within.refl (sp : Space) (m : Machine) : Within sp [] m m :=
  ⟨rfl, fun _ ha => absurd ha List.not_mem_nil, fun _ _ => rfl⟩

theorem Within.trans {sp : Space} {l k : List Access} {m m' m'' : Machine} (h : Within sp l m m')
    (h' : Within sp k m' m'') : Within sp (k ++ l) m m'' := by
  refine ⟨by rw [h'.log, h.log, List.append_assoc], fun a ha => ?_, fun b hb => ?_⟩
  · rcases List.mem_append.mp ha with ha | ha
    · exact h'.bytes a ha
    · exact h.bytes a ha
  · rw [h'.frame b hb, h.frame b hb]

theorem invokeCallback_within {call : κ → Word → Nat → Bool → M Unit} {map : IOMap κ} {sp : Space}
    (hkeeps : KeepsTo call map sp) {offset : Word} {len : Nat} {isWrite : Bool} {m m' : Machine}
    (h : invokeCallback call map.callback offset len isWrite m = .ok () m') :
    ∃ l, Within sp l m m' := by
  cases hc : map.callback with
  | none =>
    rw [hc] at h
    cases h
    exact ⟨[], Within.refl sp m⟩
  | some c =>
    obtain ⟨l, hl⟩ := hkeeps c hc offset len isWrite m
    rw [hc] at h
    have hcall : call c offset len isWrite m = .ok () m' := h
    rw [hcall] at hl
    exact ⟨l, hl⟩

theorem checkBound_ok {map : Option (IOMap κ)} {map' : IOMap κ} {addr : Word} {m m' : Machine}
    (h : checkBound map addr m = .ok map' m') : map = some map' ∧ m' = m := by
  cases map with
  | none =>
    obtain ⟨t, u, -, h⟩ := bind_eq_ok h
    cases h
  | some map =>
    obtain ⟨t, u, hget, h⟩ := bind_eq_ok h
    cases hget
    obtain ⟨-, h⟩ := ensure_bind_ok h
    cases h
    exact ⟨rfl, rfl⟩

theorem mapRead_ok {call : κ → Word → Nat → Bool → M Unit} {map : IOMap κ} {addr : Word}
    {len : Nat} (hl : Width len) {v : Word} {m m' : Machine}
    (h : mapRead call addr len (some map) m = .ok v m') :
    ∃ m₁, invokeCallback call map.callback (addr - map.low) len false m = .ok () m₁ ∧
      m' = m₁.touching (map.space + (addr - map.low).setWidth 64) len := by
  obtain ⟨-, h⟩ := ensure_bind_ok h
  obtain ⟨map', m₀, hcheck, h⟩ := bind_eq_ok h
  obtain ⟨hmap, rfl⟩ := checkBound_ok hcheck
  cases hmap
  obtain ⟨u, m₁, hcall, h⟩ := bind_eq_ok h
  rw [hostRead_eq hl] at h
  cases h
  exact ⟨m₁, hcall, rfl⟩

theorem mapWrite_ok {call : κ → Word → Nat → Bool → M Unit} {map : IOMap κ} {addr : Word}
    {len : Nat} (hl : Width len) {data : Word} {m m' : Machine}
    (h : mapWrite call addr len data (some map) m = .ok () m') :
    invokeCallback call map.callback (addr - map.low) len true
      { m.touching (map.space + (addr - map.low).setWidth 64) len with
        host := store m.host (map.space + (addr - map.low).setWidth 64) len data } =
      .ok () m' := by
  obtain ⟨-, h⟩ := ensure_bind_ok h
  obtain ⟨map', m₀, hcheck, h⟩ := bind_eq_ok h
  obtain ⟨hmap, rfl⟩ := checkBound_ok hcheck
  cases hmap
  obtain ⟨u, m₁, hwrite, h⟩ := bind_eq_ok h
  rw [hostWrite_eq hl] at hwrite
  cases hwrite
  exact h

theorem covers_iff (sp : Space) (offset : Word) {len : Nat} (hl : Width len) :
    (∀ b, Access.Covers ⟨sp.start + offset.setWidth 64, len⟩ b → sp.Holds b) ↔
      offset.toNat + len ≤ sp.size.toNat := by
  have hlen : 0 < len ∧ len ≤ 4 := by
    unfold Width at hl
    omega
  have hoff := offset.isLt
  have hplace : offset.setWidth 64 = BitVec.ofNat 64 offset.toNat :=
    (BitVec.ofNat_toNat 64 offset).symm
  rw [hplace]
  constructor
  · intro hall
    have hlast := hall (sp.start + BitVec.ofNat 64 (offset.toNat + len - 1)) (by
      show (_ - (sp.start + BitVec.ofNat 64 offset.toNat)).toNat < len
      rw [toNat_sub_add _ _ _ (by omega), toNat_add_sub _ (by omega)]
      split <;> omega)
    rw [Space.Holds, toNat_add_sub _ (by omega)] at hlast
    omega
  · intro hfit b hb
    have hcover : (b - (sp.start + BitVec.ofNat 64 offset.toNat)).toNat < len := hb
    have hlt := (b - sp.start).isLt
    rw [toNat_sub_add _ _ _ (by omega)] at hcover
    show (b - sp.start).toNat < sp.size.toNat
    split at hcover <;> omega

theorem Within.stays {sp : Space} {spaces : List Space} {l : List Access} {m m' : Machine}
    (h : Within sp l m m')
    (hdisj : ∀ other ∈ spaces, other ≠ sp → ∀ b, ¬(sp.Holds b ∧ other.Holds b)) :
    Stays sp spaces m m' := by
  refine ⟨l, h, fun other hother hne b hb => ⟨fun a ha hcov => ?_, ?_⟩⟩
  · exact hdisj other hother hne b ⟨h.bytes a ha b hcov, hb⟩
  · exact h.frame b fun hin => hdisj other hother hne b ⟨hin, hb⟩

theorem Stays.bytes {sp : Space} {spaces : List Space} {l : List Access} {m m' : Machine}
    (h : Stays sp spaces m m') (hlog : m'.touched = l ++ m.touched) {a : Access} (ha : a ∈ l) :
    ∀ b, Access.Covers a b → sp.Holds b := by
  obtain ⟨k, hk, -⟩ := h
  have hsame : l = k := List.append_cancel_right (hlog.symm.trans hk.log)
  exact hk.bytes a (hsame ▸ ha)

section

variable {call : κ → Word → Nat → Bool → M Unit} {map : IOMap κ} {sp : Space} {spaces : List Space}
  {addr : Word} {len : Nat} {m m' : Machine}

theorem mapRead_stays_iff (hback : Backs sp map) (hkeep : KeepsTo call map sp) (hl : Width len)
    (hdisj : ∀ other ∈ spaces, other ≠ sp → ∀ b, ¬(sp.Holds b ∧ other.Holds b)) {v : Word}
    (h : mapRead call addr len (some map) m = .ok v m') :
    Stays sp spaces m m' ↔ (addr - map.low).toNat + len ≤ sp.size.toNat := by
  obtain ⟨m₁, hcall, rfl⟩ := mapRead_ok hl h
  obtain ⟨l, hl₁⟩ := invokeCallback_within hkeep hcall
  rw [hback.1, ← covers_iff sp (addr - map.low) hl]
  constructor
  · intro hstays
    refine hstays.bytes (l := ⟨_, len⟩ :: l) ?_ List.mem_cons_self
    show _ :: m₁.touched = _
    rw [hl₁.log]
    rfl
  · intro hin
    have hlast : Within sp [⟨_, len⟩] m₁ (m₁.touching _ len) :=
      ⟨rfl, fun a ha => List.mem_singleton.mp ha ▸ hin, fun _ _ => rfl⟩
    exact (hl₁.trans hlast).stays hdisj

theorem mapWrite_stays_iff (hback : Backs sp map) (hkeep : KeepsTo call map sp) (hl : Width len)
    (hdisj : ∀ other ∈ spaces, other ≠ sp → ∀ b, ¬(sp.Holds b ∧ other.Holds b)) {data : Word}
    (h : mapWrite call addr len data (some map) m = .ok () m') :
    Stays sp spaces m m' ↔ (addr - map.low).toNat + len ≤ sp.size.toNat := by
  obtain ⟨l, hl₁⟩ := invokeCallback_within hkeep (mapWrite_ok hl h)
  rw [hback.1] at hl₁
  rw [← covers_iff sp (addr - map.low) hl]
  constructor
  · intro hstays
    refine hstays.bytes (l := l ++ [⟨_, len⟩]) ?_
      (List.mem_append_right _ (List.mem_singleton_self _))
    rw [hl₁.log, List.append_assoc]
    rfl
  · intro hin
    have hfirst : Within sp [⟨sp.start + (addr - map.low).setWidth 64, len⟩] m
        { m.touching (sp.start + (addr - map.low).setWidth 64) len with
          host := store m.host (sp.start + (addr - map.low).setWidth 64) len data } :=
      ⟨rfl, fun a ha => List.mem_singleton.mp ha ▸ hin,
        fun b hb => store_out m.host data fun hcov => hb (hin b hcov)⟩
    exact (hfirst.trans hl₁).stays hdisj

end

/-- An access of a set-up stays inside its device exactly when its last byte is in the device's
range too, given that the device's own callback does. -/
theorem device_access_stays_iff (ioSpace : BitVec 64) (calls : List (Call κ)) (s : Setup κ)
    (hrun : play (step ioSpace) calls (initMap ioSpace) = some s)
    (harena : ∀ sp ∈ s.spaces, InArena ioSpace sp) (call : κ → Word → Nat → Bool → M Unit)
    (addr : Word) (len : Nat) (hl : Width len) (map : IOMap κ)
    (hfetch : fetchMmioMap s.maps addr = some map)
    (hkeeps : ∀ sp ∈ s.spaces, Backs sp map → KeepsTo call map sp) :
    ∃ sp ∈ s.spaces, Backs sp map ∧ ∀ m m',
      (∀ v, mmioRead call s.maps addr len m = .ok v m' →
        (Stays sp s.spaces m m' ↔ (addr - map.low).toNat + len ≤ sp.size.toNat)) ∧
      ∀ data, mmioWrite call s.maps addr len data m = .ok () m' →
        (Stays sp s.spaces m m' ↔ (addr - map.low).toNat + len ≤ sp.size.toNat) := by
  have hmap : map ∈ s.maps := by
    rw [fetchMmioMap] at hfetch
    split at hfetch
    · cases hfetch
    · exact List.mem_of_getElem? hfetch
  obtain ⟨sp, hsp, hback⟩ := backed hrun map hmap
  have hkeep := hkeeps sp hsp hback
  have hdisj : ∀ other ∈ s.spaces, other ≠ sp → ∀ b, ¬(sp.Holds b ∧ other.Holds b) :=
    fun other hother hne b => spaces_disjoint hrun harena hsp hother hne b
  refine ⟨sp, hsp, hback, fun m m' => ⟨fun v hread => ?_, fun data hwrite => ?_⟩⟩
  · rw [mmioRead, hfetch] at hread
    exact mapRead_stays_iff hback hkeep hl hdisj hread
  · rw [mmioWrite, hfetch] at hwrite
    exact mapWrite_stays_iff hback hkeep hl hdisj hwrite

/-- `init_audio` and `init_sdcard` with the sizes and addresses of the default configuration. -/
def audioCalls : List (Call Unit) :=
  [.newSpace 20, .addMmioMap "audio" 0xa0000200 ⟨0x10000000, 20⟩ (some ()),
    .newSpace 0x10000, .addMmioMap "audio-sbuf" 0xa1200000 ⟨0x10001000, 0x10000⟩ none,
    .newSpace 0x80, .addMmioMap "sdhci" 0xa3000000 ⟨0x10011000, 0x80⟩ (some ())]

def sbufMap : IOMap Unit := ⟨"audio-sbuf", 0xa1200000, 0xa120ffff, 0x10001000, none⟩

def audioSetup : Setup Unit :=
  ⟨0x10012000, [⟨0x10000000, 20⟩, ⟨0x10001000, 0x10000⟩, ⟨0x10011000, 0x80⟩],
    [⟨"audio", 0xa0000200, 0xa0000213, 0x10000000, some ()⟩, sbufMap,
      ⟨"sdhci", 0xa3000000, 0xa300007f, 0x10011000, some ()⟩]⟩

/-- The handler of the audio registers is empty; the stream buffer has none. -/
def audioIoHandler : Unit → Word → Nat → Bool → M Unit := fun _ _ _ _ => return

theorem play_audioCalls :
    play (step 0x10000000) audioCalls (initMap 0x10000000) = some audioSetup := rfl

theorem audioSetup_inArena : ∀ sp ∈ audioSetup.spaces, InArena 0x10000000 sp := by
  unfold InArena
  decide

/-- The last word of the stream buffer is inside the stream buffer. -/
theorem sbuf_last_word_stays :
    ∃ sp ∈ audioSetup.spaces, Backs sp sbufMap ∧
      ∀ m m', (∀ v, mmioRead audioIoHandler audioSetup.maps 0xa120fffc 4 m = .ok v m' →
        (Stays sp audioSetup.spaces m m' ↔
          (0xa120fffc - sbufMap.low).toNat + 4 ≤ sp.size.toNat)) ∧
      ∀ data, mmioWrite audioIoHandler audioSetup.maps 0xa120fffc 4 data m = .ok () m' →
        (Stays sp audioSetup.spaces m m' ↔
          (0xa120fffc - sbufMap.low).toNat + 4 ≤ sp.size.toNat) :=
  device_access_stays_iff 0x10000000 audioCalls audioSetup play_audioCalls audioSetup_inArena
    audioIoHandler 0xa120fffc 4 (.inr (.inr rfl)) _ rfl
    fun sp _ _ _ _ _ _ _ m => ⟨[], Within.refl sp m⟩

/-- A word written to the last two bytes of the stream buffer reaches the card's first register. -/
theorem sbuf_write_reaches_sdhci :
    play (step 0x10000000) audioCalls (initMap 0x10000000) = some audioSetup ∧
      (∀ sp ∈ audioSetup.spaces, InArena 0x10000000 sp) ∧
      ∃ m', mmioWrite audioIoHandler audioSetup.maps 0xa120fffe 4 0x00120000 startMachine =
          .ok () m' ∧
        m'.host 0x10011000 ≠ startMachine.host 0x10011000 ∧
        ¬Stays ⟨0x10001000, 0x10000⟩ audioSetup.spaces startMachine m' := by
  have hchanged : store startMachine.host 0x10010ffe 4 (0x00120000 : Word) 0x10011000 ≠
      startMachine.host 0x10011000 := by decide
  refine ⟨play_audioCalls, audioSetup_inArena, _, rfl, hchanged, ?_⟩
  rintro ⟨l, -, hothers⟩
  have hsdhci := hothers ⟨0x10011000, 0x80⟩ (by decide) (by decide) 0x10011000
    (by
      unfold Space.Holds
      decide)
  exact hchanged hsdhci.2

end Riscv32Cpu.Nemu.DeviceSpace
