/- module: Riscv32Cpu/Nemu/Mmio
   source: CODE/nemu/src/device/io/mmio.c, map.c, include/device/map.h, src/memory/paddr.c
   digest: The table of memory-mapped devices: registration, look-up and the accesses behind it. -/

import Mathlib.Data.List.Forall2
import Riscv32Cpu.Nemu.Memory

set_option autoImplicit false
set_option relaxedAutoImplicit false

namespace Riscv32Cpu.Nemu.Mmio

open Riscv32Cpu.Lib.Effect Riscv32Cpu.Isa.Rv32i
open Riscv32Cpu.Nemu.Memory hiding paddrRead paddrWrite

-- The functions that an `io_callback_t` may point to.
variable {κ : Type}

structure IOMap (κ : Type) where
  name : String
  low : Word
  high : Word
  space : BitVec 64
  callback : Option κ

/-- The arguments of one `add_mmio_map`. -/
structure Device (κ : Type) where
  name : String
  addr : Word
  space : BitVec 64
  len : Word
  callback : Option κ

def nrMap : Nat := 16

/-- Registration works on `maps`, of which the first `nr_map` entries are kept. -/
abbrev R (κ : Type) := EStateM String (List (IOMap κ))

def mapInside (map : IOMap κ) (addr : Word) : Bool := map.low ≤ addr && addr ≤ map.high

/-- `difftest_skip_ref` is empty, as `CONFIG_DIFFTEST` is not set. -/
def findMapidByAddr (maps : List (IOMap κ)) (addr : Word) : Option Nat :=
  maps.findIdx? (mapInside · addr)

def fetchMmioMap (maps : List (IOMap κ)) (addr : Word) : Option (IOMap κ) :=
  match findMapidByAddr maps addr with
  | none => none
  | some mapid => maps[mapid]?

def reportMmioOverlap (name₁ : String) (l₁ r₁ : Word) (name₂ : String) (l₂ r₂ : Word) :
    R κ Unit :=
  throw ("MMIO region " ++ name₁ ++ "@[" ++ fmtWord l₁ ++ ", " ++ fmtWord r₁ ++
    "] is overlapped with " ++ name₂ ++ "@[" ++ fmtWord l₂ ++ ", " ++ fmtWord r₂ ++ "]")

/-- The loop of `add_mmio_map` over the entries from `i` on. -/
def overlapLoop (name : String) (left right : Word) : List (IOMap κ) → R κ Unit
  | [] => return
  | map :: rest => do
    (if left ≤ map.high ∧ right ≥ map.low then
      reportMmioOverlap name left right map.name map.low map.high else return)
    overlapLoop name left right rest

def assertNrMap : String := "Assertion \x60nr_map < NR_MAP' failed."

/-- The entry that a call adds. -/
def Device.entry (d : Device κ) : IOMap κ := ⟨d.name, d.addr, d.addr + d.len - 1, d.space, d.callback⟩

def addMmioMap (d : Device κ) : R κ Unit := do
  let maps ← get
  ensure (maps.length < nrMap) assertNrMap
  let left := d.addr
  let right := d.addr + d.len - 1
  (if inPmem left || inPmem right then
    reportMmioOverlap d.name left right "pmem" pmemLeft pmemRight else return)
  overlapLoop d.name left right maps
  set (maps ++ [d.entry])

def addMmioMaps : List (Device κ) → R κ Unit
  | [] => return
  | d :: ds => do
    addMmioMap d
    addMmioMaps ds

section

variable (pmem : BitVec 64) (call : κ → Word → Nat → Bool → M Unit)

def assertLen : String := "Assertion \x60len >= 1 && len <= 8' failed."

/-- The map that is dereferenced afterwards. -/
def checkBound (map : Option (IOMap κ)) (addr : Word) : M (IOMap κ) := do
  match map with
  | none =>
    throw ("address (" ++ fmtWord addr ++ ") is out of bound at pc = " ++ fmtWord (← get).cpu.pc)
  | some map =>
    ensure (addr ≤ map.high ∧ addr ≥ map.low)
      ("address (" ++ fmtWord addr ++ ") is out of bound \x7b" ++ map.name ++ "\x7d [" ++
        fmtWord map.low ++ ", " ++ fmtWord map.high ++ "] at pc = " ++ fmtWord (← get).cpu.pc)
    return map

def invokeCallback (c : Option κ) (offset : Word) (len : Nat) (isWrite : Bool) : M Unit :=
  match c with
  | none => return
  | some c => call c offset len isWrite

def mapRead (addr : Word) (len : Nat) (map : Option (IOMap κ)) : M Word := do
  ensure (len ≥ 1 ∧ len ≤ 8) assertLen
  let map ← checkBound map addr
  let offset := addr - map.low
  invokeCallback call map.callback offset len false
  hostRead (map.space + offset.setWidth 64) len

def mapWrite (addr : Word) (len : Nat) (data : Word) (map : Option (IOMap κ)) : M Unit := do
  ensure (len ≥ 1 ∧ len ≤ 8) assertLen
  let map ← checkBound map addr
  let offset := addr - map.low
  hostWrite (map.space + offset.setWidth 64) len data
  invokeCallback call map.callback offset len true

variable (maps : List (IOMap κ))

def mmioRead (addr : Word) (len : Nat) : M Word := mapRead call addr len (fetchMmioMap maps addr)

def mmioWrite (addr : Word) (len : Nat) (data : Word) : M Unit :=
  mapWrite call addr len data (fetchMmioMap maps addr)

def paddrRead (addr : Word) (len : Nat) : M Word := do
  if inPmem addr then return ← pmemRead pmem addr len
  mmioRead call maps addr len

def paddrWrite (addr : Word) (len : Nat) (data : Word) : M Unit := do
  if inPmem addr then return ← pmemWrite pmem addr len data
  mmioWrite call maps addr len data

end

/-- The test of `add_mmio_map` between an entry and a later one. -/
def Clear (map later : IOMap κ) : Prop := ¬(later.low ≤ map.high ∧ later.high ≥ map.low)

/-- Neither end of the entry is in `pmem`. -/
def EndsOutside (map : IOMap κ) : Prop := inPmem map.low = false ∧ inPmem map.high = false

theorem overlapLoop_ok {name : String} {left right : Word} {l maps maps' : List (IOMap κ)}
    (h : overlapLoop name left right l maps = .ok () maps') :
    maps' = maps ∧ ∀ map ∈ l, ¬(left ≤ map.high ∧ right ≥ map.low) := by
  induction l with
  | nil =>
    cases h
    exact ⟨rfl, fun map hmap => absurd hmap List.not_mem_nil⟩
  | cons map rest ih =>
    obtain ⟨hclear, hrest⟩ := guard_bind_ok ⟨_, _, rfl⟩ h
    obtain ⟨hsame, hall⟩ := ih hrest
    refine ⟨hsame, fun map' hmem => ?_⟩
    rcases List.mem_cons.mp hmem with rfl | hmem
    · exact hclear
    · exact hall map' hmem

theorem addMmioMap_ok {d : Device κ} {maps maps' : List (IOMap κ)}
    (h : addMmioMap d maps = .ok () maps') :
    maps' = maps ++ [d.entry] ∧ EndsOutside d.entry ∧ ∀ map ∈ maps, Clear map d.entry := by
  obtain ⟨-, hpmem⟩ := ensure_bind_ok (c := maps.length < nrMap) h
  obtain ⟨hends, hloop⟩ := guard_bind_ok ⟨_, _, rfl⟩ hpmem
  obtain ⟨u, maps₁, hclear, hset⟩ := bind_eq_ok hloop
  cases hset
  obtain ⟨-, hclear⟩ := overlapLoop_ok hclear
  rw [Bool.or_eq_true, not_or, Bool.not_eq_true, Bool.not_eq_true] at hends
  exact ⟨rfl, hends, hclear⟩

theorem addMmioMaps_ok {ds : List (Device κ)} {maps maps' : List (IOMap κ)}
    (h : addMmioMaps ds maps = .ok () maps') (hclear : maps.Pairwise Clear)
    (hends : ∀ map ∈ maps, EndsOutside map) :
    maps' = maps ++ ds.map Device.entry ∧ maps'.Pairwise Clear ∧
      ∀ map ∈ maps', EndsOutside map := by
  induction ds generalizing maps with
  | nil =>
    cases h
    exact ⟨(List.append_nil _).symm, hclear, hends⟩
  | cons d ds ih =>
    obtain ⟨u, maps₁, hadd, hrest⟩ := bind_eq_ok h
    obtain ⟨rfl, hout, hnew⟩ := addMmioMap_ok hadd
    obtain ⟨rfl, hrest⟩ := ih hrest (List.pairwise_append.mpr ⟨hclear, List.pairwise_singleton _ _,
        fun map hmap later hlater => List.mem_singleton.mp hlater ▸ hnew map hmap⟩)
      fun map hmap => by
        rcases List.mem_append.mp hmap with hmap | hmap
        · exact hends map hmap
        · exact List.mem_singleton.mp hmap ▸ hout
    refine ⟨?_, hrest⟩
    rw [List.map_cons, List.append_assoc, List.singleton_append]

/-- `a` is one of the `len` addresses from `addr` on. -/
def Device.Covers (d : Device κ) (a : Word) : Prop :=
  d.addr.toNat ≤ a.toNat ∧ a.toNat < d.addr.toNat + d.len.toNat

/-- The range of a device does not wrap round and does not enclose `pmem`. -/
def Device.Fits (d : Device κ) : Prop :=
  d.addr.toNat + d.len.toNat ≤ 2 ^ 32 ∧
    ¬(d.addr.toNat < pmemLeft.toNat ∧ pmemRight.toNat + 1 < d.addr.toNat + d.len.toNat)

/-- Every address belongs to at most one of the devices and `pmem`, and an access to an address
of the i-th device is an access through the i-th entry. -/
structure Unambiguous (ds : List (Device κ)) (maps : List (IOMap κ)) : Prop where
  exact : List.Forall₂ (fun d map => d.addr.toNat + d.len.toNat ≤ 2 ^ 32 ∧
    ∀ a, mapInside map a = true ↔ d.Covers a) ds maps
  disjoint : maps.Pairwise fun map map' => ∀ a, ¬(mapInside map a = true ∧ mapInside map' a = true)
  outside : ∀ map ∈ maps, ∀ a, mapInside map a = true → ¬(pmemLeft ≤ a ∧ a ≤ pmemRight)
  reads : ∀ (i : Nat) (map : IOMap κ), maps[i]? = some map → ∀ a, mapInside map a = true →
    findMapidByAddr maps a = some i ∧ ∀ pmem call len,
      paddrRead pmem call maps a len = mapRead call a len (some map)
  writes : ∀ (i : Nat) (map : IOMap κ), maps[i]? = some map → ∀ a, mapInside map a = true →
    ∀ pmem call len data,
      paddrWrite pmem call maps a len data = mapWrite call a len data (some map)

theorem mapInside_iff (map : IOMap κ) (a : Word) :
    mapInside map a = true ↔ map.low.toNat ≤ a.toNat ∧ a.toNat ≤ map.high.toNat := by
  rw [mapInside, Bool.and_eq_true, decide_eq_true_iff, decide_eq_true_iff, BitVec.le_def,
    BitVec.le_def]

theorem toNat_high {d : Device κ} (hlen : d.len ≠ 0) (hfit : d.addr.toNat + d.len.toNat ≤ 2 ^ 32) :
    d.entry.high.toNat + 1 = d.addr.toNat + d.len.toNat := by
  have hpos : d.len.toNat ≠ 0 := fun h => hlen (BitVec.eq_of_toNat_eq h)
  show (d.addr + d.len - 1).toNat + 1 = _
  rw [BitVec.toNat_sub, BitVec.toNat_add]
  show (2 ^ 32 - 1 + (d.addr.toNat + d.len.toNat) % 2 ^ 32) % 2 ^ 32 + 1 = _
  omega

theorem inside_entry {d : Device κ} (hlen : d.len ≠ 0)
    (hfit : d.addr.toNat + d.len.toNat ≤ 2 ^ 32) (a : Word) :
    mapInside d.entry a = true ↔ d.Covers a := by
  have hhigh := toNat_high hlen hfit
  have hlow : d.entry.low.toNat = d.addr.toNat := rfl
  rw [mapInside_iff, Device.Covers]
  omega

theorem inPmem_iff_between (a : Word) :
    inPmem a = true ↔ pmemLeft.toNat ≤ a.toNat ∧ a.toNat ≤ pmemRight.toNat := by
  have hleft : pmemLeft.toNat = 0x80000000 := by decide
  have hright : pmemRight.toNat = 0x87ffffff := by decide
  have hlt := a.isLt
  have hoff : offset a = (2 ^ 32 - 0x80000000 + a.toNat) % 2 ^ 32 := BitVec.toNat_sub ..
  have hsize : configMsize.toNat = 0x8000000 := rfl
  rw [inPmem_iff, hleft, hright, hsize, hoff]
  omega

theorem Clear.disjoint {map later : IOMap κ} (h : Clear map later) (a : Word) :
    ¬(mapInside map a = true ∧ mapInside later a = true) := by
  rw [Clear, ge_iff_le, BitVec.le_def, BitVec.le_def] at h
  rw [mapInside_iff, mapInside_iff]
  omega

theorem outside_pmem {d : Device κ} (hlen : d.len ≠ 0) (hfit : d.Fits)
    (hends : EndsOutside d.entry) {a : Word} (ha : mapInside d.entry a = true) :
    inPmem a = false := by
  obtain ⟨hwrap, henc⟩ := hfit
  have hhigh := toNat_high hlen hwrap
  have hleft : pmemLeft.toNat = 0x80000000 := by decide
  have hright : pmemRight.toNat = 0x87ffffff := by decide
  have hlow : d.entry.low.toNat = d.addr.toNat := rfl
  have hl := (inPmem_iff_between d.entry.low).not.mp (by rw [hends.1]; decide)
  have hh := (inPmem_iff_between d.entry.high).not.mp (by rw [hends.2]; decide)
  rw [mapInside_iff] at ha
  rw [← Bool.not_eq_true, inPmem_iff_between]
  omega

/-- With disjoint entries the first match is the only one. -/
theorem findMapidByAddr_eq {maps : List (IOMap κ)} {a : Word}
    (hdisj : maps.Pairwise fun map map' => ¬(mapInside map a = true ∧ mapInside map' a = true))
    {i : Nat} {map : IOMap κ} (hi : maps[i]? = some map) (ha : mapInside map a = true) :
    findMapidByAddr maps a = some i := by
  induction maps generalizing i with
  | nil => cases hi
  | cons m rest ih =>
    obtain ⟨hhead, htail⟩ := List.pairwise_cons.mp hdisj
    rw [findMapidByAddr, List.findIdx?_cons]
    cases i with
    | zero =>
      cases hi
      rw [ha]
      rfl
    | succ i =>
      have hrest : rest[i]? = some map := hi
      have hskip : mapInside m a = false := by
        rw [← Bool.not_eq_true]
        exact fun hm => hhead map (List.mem_of_getElem? hrest) ⟨hm, ha⟩
      have hfound := ih htail hrest
      rw [findMapidByAddr] at hfound
      rw [hskip, hfound]
      rfl

theorem paddr_reaches {maps : List (IOMap κ)} {i : Nat} {map : IOMap κ} {a : Word}
    (hi : maps[i]? = some map) (hfound : findMapidByAddr maps a = some i) (hout : inPmem a = false)
    (pmem : BitVec 64) (call : κ → Word → Nat → Bool → M Unit) (len : Nat) :
    paddrRead pmem call maps a len = mapRead call a len (some map) ∧
      ∀ data, paddrWrite pmem call maps a len data = mapWrite call a len data (some map) := by
  have hfetch : fetchMmioMap maps a = some map := by
    rw [fetchMmioMap, hfound]
    exact hi
  have hno : ¬inPmem a = true := by rw [hout]; decide
  constructor
  · rw [paddrRead, if_neg hno, mmioRead, hfetch]
  · intro data
    rw [paddrWrite, if_neg hno, mmioWrite, hfetch]

/-- The address map stays unambiguous exactly when no registered range wraps round or encloses
`pmem`. -/
theorem addMmioMaps_unambiguous_iff (ds : List (Device κ)) (maps : List (IOMap κ))
    (hlen : ∀ d ∈ ds, d.len ≠ 0) (h : addMmioMaps ds [] = .ok () maps) :
    Unambiguous ds maps ↔ ∀ d ∈ ds, d.Fits := by
  obtain ⟨hmaps, hclear, hends⟩ := addMmioMaps_ok h .nil fun map hmap => absurd hmap List.not_mem_nil
  rw [List.nil_append] at hmaps
  subst hmaps
  constructor
  · intro hmap d hd
    have hexact := List.forall₂_same.mp (List.forall₂_map_right_iff.mp hmap.exact) d hd
    refine ⟨hexact.1, fun hencl => ?_⟩
    -- the first byte of `pmem` lies in an enclosing range
    have hin : mapInside d.entry pmemLeft = true := by
      rw [hexact.2, Device.Covers]
      have hle : pmemLeft.toNat ≤ pmemRight.toNat := by decide
      omega
    exact hmap.outside d.entry (List.mem_map_of_mem hd) pmemLeft hin ⟨BitVec.le_refl _, by decide⟩
  · intro hfits
    have hout : ∀ map ∈ ds.map Device.entry, ∀ a, mapInside map a = true → inPmem a = false := by
      intro map hmap a ha
      obtain ⟨d, hd, rfl⟩ := List.mem_map.mp hmap
      exact outside_pmem (hlen d hd) (hfits d hd) (hends _ hmap) ha
    have hfind : ∀ (i : Nat) (map : IOMap κ), (ds.map Device.entry)[i]? = some map →
        ∀ a, mapInside map a = true → findMapidByAddr (ds.map Device.entry) a = some i :=
      fun i map hi a ha => findMapidByAddr_eq (hclear.imp fun hc => hc.disjoint a) hi ha
    refine ⟨?_, hclear.imp fun hc => hc.disjoint, fun map hmap a ha hin => ?_,
      fun i map hi a ha => ⟨hfind i map hi a ha, fun pmem call len => ?_⟩,
      fun i map hi a ha pmem call len data => ?_⟩
    · rw [List.forall₂_map_right_iff, List.forall₂_same]
      exact fun d hd => ⟨(hfits d hd).1, inside_entry (hlen d hd) (hfits d hd).1⟩
    · have hno := hout map hmap a ha
      rw [← Bool.not_eq_true, inPmem_iff_between] at hno
      exact hno hin
    · exact (paddr_reaches hi (hfind i map hi a ha)
        (hout map (List.mem_of_getElem? hi) a ha) pmem call len).1
    · exact (paddr_reaches hi (hfind i map hi a ha)
        (hout map (List.mem_of_getElem? hi) a ha) pmem call len).2 data

/-- The serial port and the clock at their default addresses. -/
def defaultDevices : List (Device Unit) :=
  [⟨"serial", 0xa00003f8, 0x20000, 8, none⟩, ⟨"rtc", 0xa0000048, 0x21000, 8, some ()⟩]

theorem default_devices_unambiguous : Unambiguous defaultDevices (defaultDevices.map Device.entry) :=
  (addMmioMaps_unambiguous_iff defaultDevices _ (by decide) rfl).mpr (by
    unfold Device.Fits
    decide)

/-- A device on both sides of `pmem`. -/
def enclosingDevice : Device Unit := ⟨"vmem", 0x70000000, 0x20000, 0x20000000, none⟩

/-- A device whose range runs past the last address. -/
def wrappingDevice : Device Unit := ⟨"vmem", 0xfffffff0, 0x20000, 0x20, none⟩

/-- Both are registered, and neither leaves the address map unambiguous. -/
theorem enclosing_and_wrapping_accepted :
    (addMmioMaps [enclosingDevice] [] = .ok () [enclosingDevice.entry] ∧
      ¬Unambiguous [enclosingDevice] [enclosingDevice.entry]) ∧
    (addMmioMaps [wrappingDevice] [] = .ok () [wrappingDevice.entry] ∧
      ¬Unambiguous [wrappingDevice] [wrappingDevice.entry]) := by
  refine ⟨⟨rfl, fun hmap => ?_⟩, ⟨rfl, fun hmap => ?_⟩⟩
  · exact hmap.outside _ (List.mem_singleton_self _) pmemLeft (by decide) (by decide)
  · have hfits := (List.forall₂_cons.mp hmap.exact).1.1
    exact absurd hfits (by decide)

end Riscv32Cpu.Nemu.Mmio
