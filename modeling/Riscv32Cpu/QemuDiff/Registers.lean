/- module: Riscv32Cpu/QemuDiff/Registers
   source: CODE/nemu/tools/qemu-diff/src/gdb-host.c, src/diff-test.c, include/isa.h,
     CODE/nemu/include/difftest-def.h
   digest: The registers of the reference as the text of g and G packets, and back. -/

import Riscv32Cpu.Lib.Rows
import Riscv32Cpu.QemuDiff.Upload

set_option autoImplicit false
set_option relaxedAutoImplicit false

namespace Riscv32Cpu.QemuDiff.Registers

open Lib.Memory Lib.Rows Protocol Upload

/-- The targets of `isa.h`. -/
inductive Isa
  | mips32
  | riscv (rv64 rve : Bool)
  | x86
  | loongarch32r

/-- The size of the structure in `union isa_gdb_regs`. -/
def Isa.structSize : Isa → Nat
  | .mips32 => 4 * (32 + 6)
  | .riscv false _ => 4 * (32 + 1)
  | .riscv true _ => 8 * (32 + 32 + 1)
  | .x86 => 4 * (8 + 2 + 6)
  | .loongarch32r => 4 * (32 + 1)

/-- `sizeof(union isa_gdb_regs) / sizeof(uint32_t)`. -/
def Isa.nrWords (isa : Isa) : Nat := max isa.structSize (4 * 77) / 4

def Isa.difftestRegSize : Isa → Nat
  | .x86 => 4 * 9
  | .mips32 => 4 * 38
  | .riscv rv64 rve => (if rv64 then 8 else 4) * ((if rve then 16 else 32) + 1)
  | .loongarch32r => 4 * 33

theorem difftestRegSize_le (isa : Isa) : isa.difftestRegSize ≤ 4 * isa.nrWords := by
  cases isa with
  | riscv rv64 rve => cases rv64 <;> cases rve <;> decide
  | mips32 => decide
  | x86 => decide
  | loongarch32r => decide

/-- The bytes of an object. -/
abbrev Bytes := Nat → Byte

/-- `r->array[i] = w`, at the address of that word also where the declared array ends before it. -/
def writeWord (r : Bytes) (i : Nat) (w : BitVec 32) : Bytes := fun k =>
  if 4 * i ≤ k ∧ k < 4 * i + 4 then byteAt w (k - 4 * i) else r k

/-- `r->array[i]`. -/
def word (r : Bytes) (i : Nat) : BitVec 32 := ofBytes 32 fun j => r (4 * i + j)

def memcpy (dst src : Bytes) (n : Nat) : Bytes := fun k => if k < n then src k else dst k

/-- The loop of `gdb_getregs` at word `i`, `left` words before its end; `buf` is the reply up to its
terminator, and nothing is known about the memory behind that. -/
def getregsLoop : (left i p : Nat) → Text → Bytes → Option Bytes
  | 0, _, _, _, r => some r
  | left + 1, i, p, buf, r => do
    let c ← buf[p + 8]?
    let buf := buf.set (p + 8) 0
    let r := writeWord r i ((gdbDecodeHexStr (buf.drop p)).setWidth 32)
    let buf := buf.set (p + 8) c
    getregsLoop left (i + 1) (p + 8) buf r

section

variable {σ : Type} (receive : σ → Text → σ × Text) (fuel : Nat) (isa : Isa)

def gdbGetregs (r : Bytes) (conn : Conn σ) : Option (Bytes × Conn σ) := do
  let conn ← gdbSend receive (text ['g']) fuel conn
  let (reply, conn) ← gdbRecv receive fuel conn
  let r ← getregsLoop isa.nrWords 0 0 (reply ++ [0]) r
  return (r, conn)

/-- The packet that `gdb_setregs` prints into its buffer. -/
def packetG (r : Bytes) : Text :=
  ascii 'G' :: (List.range (4 * isa.nrWords)).flatMap fun i => hexPair (r i)

def gdbSetregs (r : Bytes) (conn : Conn σ) : Option (Bool × Conn σ) := do
  let conn ← gdbSend receive (cString (packetG isa r)) fuel conn
  let (reply, conn) ← gdbRecv receive fuel conn
  return (decide (cString reply = ok), conn)

/-- `difftest_regcpy`: the bytes at `dut` afterwards. `qemuR` is what the local variable holds before
it is set. -/
def difftestRegcpy (qemuR dut : Bytes) (toRef : Bool) (conn : Conn σ) :
    Option (Bytes × Conn σ) := do
  let (qemuR, conn) ← gdbGetregs receive fuel isa qemuR conn
  if toRef then
    let (_, conn) ← gdbSetregs receive fuel isa (memcpy qemuR dut isa.difftestRegSize) conn
    return (dut, conn)
  else return (memcpy dut qemuR isa.difftestRegSize, conn)

end

/-- The text of the registers of one target. -/
structure Isa.Payload (isa : Isa) (t : Text) : Prop where
  digits : ∀ c ∈ t, isxdigit c = true
  length : t.length = 8 * isa.nrWords

/-- The stub keeps the text of its registers: it takes that of a G packet and gives it back to a
g packet. -/
structure Keeps {σ : Type} (handle : σ → Text → σ × Text) (isa : Isa) (payload : σ → Text) :
    Prop where
  set : ∀ s t, isa.Payload t → payload (handle s (ascii 'G' :: t)).1 = t
  get : ∀ s, (handle s (text ['g'])).2 = payload s ∧
    payload (handle s (text ['g'])).1 = payload s

/-- Byte `k` of the registers. -/
def registerByte (t : Text) (k : Nat) : Byte :=
  (gdbDecodeHex (t.getD (2 * k) 0) (t.getD (2 * k + 1) 0)).setWidth 8

theorem hexNibble_lt : ∀ c : Byte, isxdigit c = true → hexNibble c < 16 := by decide

theorem gdbDecodeHex_lt {msb lsb : Byte} (hm : isxdigit msb = true) (hl : isxdigit lsb = true) :
    (gdbDecodeHex msb lsb).toNat < 256 := by
  have hhi : (hexNibble msb).toNat < 16 := hexNibble_lt msb hm
  have hlo : (hexNibble lsb).toNat < 16 := hexNibble_lt lsb hl
  rw [gdbDecodeHex, hm, hl]
  show (16 * (hexNibble msb).setWidth 16 + (hexNibble lsb).setWidth 16).toNat < 256
  rw [BitVec.toNat_add, BitVec.toNat_mul, BitVec.toNat_setWidth, BitVec.toNat_setWidth]
  show (16 * _ % 2 ^ 16 + _) % 2 ^ 16 < 256
  omega

theorem byteAt_weighted {d0 d1 d2 d3 : BitVec 16} (h0 : d0.toNat < 256) (h1 : d1.toNat < 256)
    (h2 : d2.toNat < 256) {x : BitVec 64}
    (hx : x.toNat = d0.toNat + 256 * d1.toNat + 65536 * d2.toNat + 16777216 * d3.toNat) :
    byteAt (x.setWidth 32) 0 = d0.setWidth 8 ∧ byteAt (x.setWidth 32) 1 = d1.setWidth 8 ∧
      byteAt (x.setWidth 32) 2 = d2.setWidth 8 ∧ byteAt (x.setWidth 32) 3 = d3.setWidth 8 := by
  refine ⟨?_, ?_, ?_, ?_⟩ <;> apply BitVec.eq_of_toNat_eq <;>
    rw [byteAt_toNat, BitVec.toNat_setWidth, BitVec.toNat_setWidth, hx] <;> omega

theorem decodeLoop_stop (rest : Text) (value weight : BitVec 64) :
    decodeLoop (0 :: rest) value weight = value := by
  cases rest with
  | nil => rfl
  | cons c rest => rfl

theorem decodeLoop_pair {msb lsb : Byte} (hm : isxdigit msb = true) (hl : isxdigit lsb = true)
    (rest : Text) (value weight : BitVec 64) : decodeLoop (msb :: lsb :: rest) value weight =
      decodeLoop rest (value + weight * (gdbDecodeHex msb lsb).setWidth 64)
        (weight * (16 * 16)) := by
  rw [decodeLoop, hm, hl]
  rfl

theorem decode_word {u : Text} (hu : ∀ c ∈ u, isxdigit c = true) (hlen : u.length = 8)
    (rest : Text) {j : Nat} (hj : j < 4) :
    byteAt ((gdbDecodeHexStr (u ++ 0 :: rest)).setWidth 32) j = registerByte u j := by
  match u, hlen with
  | [m0, l0, m1, l1, m2, l2, m3, l3], _ =>
    simp only [List.forall_mem_cons, List.not_mem_nil, false_imp_iff, implies_true, and_true] at hu
    obtain ⟨hm0, hl0, hm1, hl1, hm2, hl2, hm3, hl3⟩ := hu
    have h0 := gdbDecodeHex_lt hm0 hl0
    have h1 := gdbDecodeHex_lt hm1 hl1
    have h2 := gdbDecodeHex_lt hm2 hl2
    have h3 := gdbDecodeHex_lt hm3 hl3
    have hvalue : (gdbDecodeHexStr ([m0, l0, m1, l1, m2, l2, m3, l3] ++ 0 :: rest)).toNat =
        (gdbDecodeHex m0 l0).toNat + 256 * (gdbDecodeHex m1 l1).toNat +
          65536 * (gdbDecodeHex m2 l2).toNat + 16777216 * (gdbDecodeHex m3 l3).toNat := by
      have hw : (1 : BitVec 64) * (16 * 16) = 256 ∧ (256 : BitVec 64) * (16 * 16) = 65536 ∧
          (65536 : BitVec 64) * (16 * 16) = 16777216 := ⟨rfl, rfl, rfl⟩
      have hzero : (0 : BitVec 64).toNat = 0 := rfl
      have hone : (1 : BitVec 64).toNat = 1 := rfl
      have hone' : (256 : BitVec 64).toNat = 256 := rfl
      have htwo : (65536 : BitVec 64).toNat = 65536 := rfl
      have hthree : (16777216 : BitVec 64).toNat = 16777216 := rfl
      simp only [gdbDecodeHexStr, List.cons_append, List.nil_append, decodeLoop_pair hm0 hl0,
        decodeLoop_pair hm1 hl1, decodeLoop_pair hm2 hl2, decodeLoop_pair hm3 hl3,
        decodeLoop_stop, hw, BitVec.toNat_add, BitVec.toNat_mul, BitVec.toNat_setWidth, hzero,
        hone, hone', htwo, hthree]
      omega
    obtain ⟨hb0, hb1, hb2, hb3⟩ := byteAt_weighted h0 h1 h2 hvalue
    match j, hj with
    | 0, _ => exact hb0
    | 1, _ => exact hb1
    | 2, _ => exact hb2
    | 3, _ => exact hb3

theorem registerByte_take_drop (t : Text) (i : Nat) {j : Nat} (hj : j < 4) :
    registerByte ((t.drop (8 * i)).take 8) j = registerByte t (4 * i + j) := by
  have hget : ∀ k < 8, ((t.drop (8 * i)).take 8).getD k 0 = t.getD (8 * i + k) 0 := by
    intro k hk
    rw [List.getD_eq_getElem?_getD, List.getD_eq_getElem?_getD, List.getElem?_take, if_pos hk,
      List.getElem?_drop]
  have hoff : 2 * (4 * i + j) = 8 * i + 2 * j := by omega
  rw [registerByte, registerByte, hget _ (by omega), hget _ (by omega), hoff, Nat.add_assoc]

theorem clobbered_word {t : Text} {i : Nat} (hlen : 8 * i + 8 ≤ t.length) :
    ∃ rest, ((t ++ [0]).set (8 * i + 8) 0).drop (8 * i) = (t.drop (8 * i)).take 8 ++ 0 :: rest := by
  have hbuf : 8 * i + 8 < ((t ++ [0]).set (8 * i + 8) 0).length := by
    rw [List.length_set, List.length_append]
    show 8 * i + 8 < t.length + 1
    omega
  have hfirst : (((t ++ [0]).set (8 * i + 8) 0).drop (8 * i)).take 8 = (t.drop (8 * i)).take 8 := by
    rw [List.drop_set, if_neg (by omega), List.take_set_of_le (by omega),
      List.drop_append_of_le_length (by omega), List.take_append_of_le_length (by simp; omega)]
  refine ⟨((t ++ [0]).set (8 * i + 8) 0).drop (8 * i + 8 + 1), ?_⟩
  calc ((t ++ [0]).set (8 * i + 8) 0).drop (8 * i)
      = (((t ++ [0]).set (8 * i + 8) 0).drop (8 * i)).take 8 ++
          (((t ++ [0]).set (8 * i + 8) 0).drop (8 * i)).drop 8 :=
        (List.take_append_drop 8 _).symm
    _ = (t.drop (8 * i)).take 8 ++ 0 :: ((t ++ [0]).set (8 * i + 8) 0).drop (8 * i + 8 + 1) := by
        rw [hfirst, List.drop_drop, List.drop_eq_getElem_cons hbuf, List.getElem_set_self]

theorem getregsLoop_eq {isa : Isa} {t : Text} (ht : isa.Payload t) {left i : Nat}
    (hi : i + left = isa.nrWords) (r : Bytes) :
    ∃ r', getregsLoop left i (8 * i) (t ++ [0]) r = some r' ∧
      ∀ k, r' k = if 4 * i ≤ k ∧ k < 4 * isa.nrWords then registerByte t k else r k := by
  induction left generalizing i r with
  | zero =>
    refine ⟨r, rfl, fun k => ?_⟩
    rw [if_neg (by omega)]
  | succ left ih =>
    have hlen := ht.length
    have hread : 8 * i + 8 < (t ++ [0]).length := by
      rw [List.length_append]
      show 8 * i + 8 < t.length + 1
      omega
    have hword : ∀ c ∈ (t.drop (8 * i)).take 8, isxdigit c = true := fun c hc =>
      ht.digits c (List.mem_of_mem_drop (List.mem_of_mem_take hc))
    obtain ⟨rest, hrest⟩ := clobbered_word (t := t) (i := i) (by omega)
    obtain ⟨r', hr', hbytes⟩ := ih (i := i + 1) (by omega) (writeWord r i
      ((gdbDecodeHexStr ((t.drop (8 * i)).take 8 ++ 0 :: rest)).setWidth 32))
    refine ⟨r', ?_, fun k => ?_⟩
    · rw [getregsLoop, List.getElem?_eq_getElem hread]
      show getregsLoop left (i + 1) (8 * i + 8) (((t ++ [0]).set (8 * i + 8) 0).set (8 * i + 8) _)
        (writeWord r i ((gdbDecodeHexStr (((t ++ [0]).set (8 * i + 8) 0).drop (8 * i))).setWidth 32))
        = some r'
      rw [hrest, List.set_set, List.set_getElem_self]
      exact hr'
    · rw [hbytes k]
      by_cases hk : 4 * i ≤ k ∧ k < 4 * i + 4
      · obtain ⟨j, rfl⟩ : ∃ j, k = 4 * i + j := ⟨k - 4 * i, by omega⟩
        have hoff : 4 * i + j - 4 * i = j := by omega
        rw [if_neg (by omega), if_pos (by omega), writeWord, if_pos hk, hoff,
          decode_word hword (by simp; omega) rest (by omega), registerByte_take_drop t i (by omega)]
      · rw [writeWord, if_neg hk]
        split_ifs <;> first | rfl | omega

/-- The text that the registers have in a packet. -/
def payloadOf (isa : Isa) (r : Bytes) : Text := payload r (4 * isa.nrWords)

theorem length_hexPair (b : Byte) : (hexPair b).length = 2 := rfl

theorem payloadOf_payload (isa : Isa) (r : Bytes) : isa.Payload (payloadOf isa r) where
  digits := payload_digits r _
  length := by
    rw [payloadOf, payload, length_flatMap_range _ _ fun i => length_hexPair (r i)]
    omega

theorem registerByte_payloadOf (isa : Isa) (r : Bytes) {k : Nat} (hk : k < 4 * isa.nrWords) :
    registerByte (payloadOf isa r) k = r k := by
  have hget : ∀ j < 2, (payloadOf isa r).getD (2 * k + j) 0 = (hexPair (r k)).getD j 0 := by
    intro j hj
    rw [payloadOf, payload, List.getD_eq_getElem?_getD, Nat.mul_comm 2 k,
      getElem?_flatMap_range _ (fun i => length_hexPair (r i)) hk hj, List.getD_eq_getElem?_getD]
  have hfirst := hget 0 (by decide)
  rw [Nat.add_zero] at hfirst
  rw [registerByte, hfirst, hget 1 (by decide)]
  show (gdbDecodeHex (hexEncode (r k >>> 4)) (hexEncode (r k &&& 0xf))).setWidth 8 = r k
  rw [gdbDecodeHex_hexPair, BitVec.setWidth_setWidth_of_le _ (by decide), BitVec.setWidth_eq]

theorem packetG_text (isa : Isa) (r : Bytes) :
    ∀ c ∈ packetG isa r, special c = false ∧ c ≠ 0 := by
  have hdigit : ∀ c : Byte, isxdigit c = true → special c = false ∧ c ≠ 0 := by decide
  intro c hc
  rcases List.mem_cons.mp hc with rfl | hc
  · decide
  · exact hdigit c ((payloadOf_payload isa r).digits c hc)

section

variable {σ : Type} {receive handle : σ → Text → σ × Text} {isa : Isa} {payload : σ → Text}

theorem gdbGetregs_eq (h : Serves receive handle) (hkeeps : Keeps handle isa payload) {s : σ}
    (hs : isa.Payload (payload s)) (fuel : Nat) (r : Bytes) :
    ∃ r' s', gdbGetregs receive (fuel + 1) isa r ⟨s, []⟩ = some (r', ⟨s', []⟩) ∧
      payload s' = payload s ∧
      ∀ k, r' k = if k < 4 * isa.nrWords then registerByte (payload s) k else r k := by
  have hplain : ∀ c ∈ text ['g'], special c = false := by decide
  obtain ⟨conn, hsend, hrecv⟩ := gdbSend_gdbRecv h hplain s fuel
  obtain ⟨hreply, hkept⟩ := hkeeps.get s
  obtain ⟨r', hloop, hbytes⟩ := getregsLoop_eq hs (Nat.zero_add _) r
  refine ⟨r', (handle s (text ['g'])).1, ?_, hkept, fun k => ?_⟩
  · rw [gdbGetregs, hsend]
    show (gdbRecv receive (fuel + 1) conn >>= _) = _
    rw [hrecv, hreply]
    show (getregsLoop isa.nrWords 0 (8 * 0) (payload s ++ [0]) r >>= _) = _
    rw [hloop]
    rfl
  · rw [hbytes k, Nat.mul_zero]
    simp only [Nat.zero_le, true_and]

theorem gdbSetregs_eq (h : Serves receive handle) (hkeeps : Keeps handle isa payload) (s : σ)
    (fuel : Nat) (r : Bytes) :
    ∃ success s', gdbSetregs receive (fuel + 1) isa r ⟨s, []⟩ = some (success, ⟨s', []⟩) ∧
      payload s' = payloadOf isa r := by
  have htext := packetG_text isa r
  obtain ⟨conn, hsend, hrecv⟩ := gdbSend_gdbRecv h (fun c hc => (htext c hc).1) s fuel
  refine ⟨decide (cString (handle s (packetG isa r)).2 = ok), (handle s (packetG isa r)).1, ?_,
    hkeeps.set s _ (payloadOf_payload isa r)⟩
  rw [gdbSetregs, cString_of_text fun c hc => (htext c hc).2, hsend]
  show (gdbRecv receive (fuel + 1) conn >>= _) = _
  rw [hrecv]
  rfl

theorem set_get (h : Serves receive handle) (hkeeps : Keeps handle isa payload) (s : σ)
    (fuel : Nat) (r r₀ : Bytes) :
    ∃ success s₁ r' s₂,
      gdbSetregs receive (fuel + 1) isa r ⟨s, []⟩ = some (success, ⟨s₁, []⟩) ∧
      gdbGetregs receive (fuel + 1) isa r₀ ⟨s₁, []⟩ = some (r', ⟨s₂, []⟩) ∧
      payload s₂ = payloadOf isa r ∧
      ∀ k, r' k = if k < 4 * isa.nrWords then r k else r₀ k := by
  obtain ⟨success, s₁, hset, hs₁⟩ := gdbSetregs_eq h hkeeps s fuel r
  have hpayload : isa.Payload (payload s₁) := hs₁ ▸ payloadOf_payload isa r
  obtain ⟨r', s₂, hget, hs₂, hbytes⟩ := gdbGetregs_eq h hkeeps hpayload fuel r₀
  refine ⟨success, s₁, r', s₂, hset, hget, hs₂.trans hs₁, fun k => ?_⟩
  rw [hbytes k, hs₁]
  split
  · next hk => exact registerByte_payloadOf isa r hk
  · rfl

theorem regcpy_round_trip (h : Serves receive handle) (hkeeps : Keeps handle isa payload) {s : σ}
    (hs : isa.Payload (payload s)) (fuel : Nat) (dut dut' junk junk' : Bytes) :
    ∃ s₁ s₂ out,
      difftestRegcpy receive (fuel + 1) isa junk dut true ⟨s, []⟩ = some (dut, ⟨s₁, []⟩) ∧
      difftestRegcpy receive (fuel + 1) isa junk' dut' false ⟨s₁, []⟩ = some (out, ⟨s₂, []⟩) ∧
      (∀ k, out k = if k < isa.difftestRegSize then dut k else dut' k) ∧
      ∀ k, isa.difftestRegSize ≤ k → k < 4 * isa.nrWords →
        registerByte (payload s₂) k = registerByte (payload s) k := by
  have hle := difftestRegSize_le isa
  obtain ⟨r, s₀, hread, hs₀, hr⟩ := gdbGetregs_eq h hkeeps hs fuel junk
  obtain ⟨success, s₁, r', s₂, hset, hget, hs₂, hr'⟩ :=
    set_get h hkeeps s₀ fuel (memcpy r dut isa.difftestRegSize) junk'
  refine ⟨s₁, s₂, memcpy dut' r' isa.difftestRegSize, ?_, ?_, fun k => ?_, fun k hlo hhi => ?_⟩
  · rw [difftestRegcpy, hread]
    show (gdbSetregs receive (fuel + 1) isa (memcpy r dut isa.difftestRegSize) ⟨s₀, []⟩ >>= _) = _
    rw [hset]
    rfl
  · rw [difftestRegcpy, hget]
    rfl
  · rw [memcpy]
    split
    · next hk => rw [hr' k, if_pos (by omega), memcpy, if_pos hk]
    · rfl
  · rw [hs₂, registerByte_payloadOf isa _ hhi, memcpy, if_neg (by omega), hr k, if_pos hhi]

/-- What is sent in a G packet comes back in a g packet, and a copy to the reference and back keeps
the registers that are not copied. -/
theorem registers_round_trip (h : Serves receive handle) (hkeeps : Keeps handle isa payload)
    (s : σ) (fuel : Nat) :
    (∀ r r₀ : Bytes, ∃ success s₁ r' s₂,
      gdbSetregs receive (fuel + 1) isa r ⟨s, []⟩ = some (success, ⟨s₁, []⟩) ∧
      gdbGetregs receive (fuel + 1) isa r₀ ⟨s₁, []⟩ = some (r', ⟨s₂, []⟩) ∧
      ∀ i < isa.nrWords, word r' i = word r i) ∧
    (isa.Payload (payload s) → ∀ dut dut' junk junk' : Bytes, ∃ s₁ s₂ out,
      difftestRegcpy receive (fuel + 1) isa junk dut true ⟨s, []⟩ = some (dut, ⟨s₁, []⟩) ∧
      difftestRegcpy receive (fuel + 1) isa junk' dut' false ⟨s₁, []⟩ = some (out, ⟨s₂, []⟩) ∧
      (∀ k < isa.difftestRegSize, out k = dut k) ∧
      ∀ k, isa.difftestRegSize ≤ k → k < 4 * isa.nrWords →
        registerByte (payload s₂) k = registerByte (payload s) k) := by
  constructor
  · intro r r₀
    obtain ⟨success, s₁, r', s₂, hset, hget, -, hbytes⟩ := set_get h hkeeps s fuel r r₀
    refine ⟨success, s₁, r', s₂, hset, hget, fun i hi => ofBytes_congr fun j hj => ?_⟩
    rw [hbytes, if_pos (by omega)]
  · intro hs dut dut' junk junk'
    obtain ⟨s₁, s₂, out, hto, hfrom, hout, hrest⟩ :=
      regcpy_round_trip h hkeeps hs fuel dut dut' junk junk'
    exact ⟨s₁, s₂, out, hto, hfrom, fun k hk => by rw [hout k, if_pos hk], hrest⟩

end

/-- A stub whose state is the text of its registers. -/
def regStub (s command : Text) : Text × Text :=
  if command.head? = some (ascii 'G') then (command.tail, ok) else (s, s)

theorem regStub_keeps (isa : Isa) : Keeps regStub isa id where
  set _ _ _ := rfl
  get _ := ⟨rfl, rfl⟩

theorem regStub_round_trip :
    (∀ r r₀ : Bytes, ∃ success s₁ r' s₂,
      gdbSetregs (peer regStub) 1 .x86 r ⟨payloadOf .x86 fun _ => 0, []⟩ =
        some (success, ⟨s₁, []⟩) ∧
      gdbGetregs (peer regStub) 1 .x86 r₀ ⟨s₁, []⟩ = some (r', ⟨s₂, []⟩) ∧
      ∀ i < Isa.nrWords .x86, word r' i = word r i) ∧
    (∀ dut dut' junk junk' : Bytes, ∃ s₁ s₂ out,
      difftestRegcpy (peer regStub) 1 .x86 junk dut true ⟨payloadOf .x86 fun _ => 0, []⟩ =
        some (dut, ⟨s₁, []⟩) ∧
      difftestRegcpy (peer regStub) 1 .x86 junk' dut' false ⟨s₁, []⟩ = some (out, ⟨s₂, []⟩) ∧
      (∀ k < Isa.difftestRegSize .x86, out k = dut k) ∧
      ∀ k, Isa.difftestRegSize .x86 ≤ k → k < 4 * Isa.nrWords .x86 →
        registerByte s₂ k = registerByte (payloadOf .x86 fun _ => 0) k) := by
  obtain ⟨hset, hcopy⟩ := registers_round_trip (serves_peer regStub) (regStub_keeps .x86)
    (payloadOf .x86 fun _ => 0) 0
  exact ⟨hset, hcopy (payloadOf_payload .x86 _)⟩

end Riscv32Cpu.QemuDiff.Registers
