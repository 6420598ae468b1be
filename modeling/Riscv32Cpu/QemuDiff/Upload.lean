/- module: Riscv32Cpu/QemuDiff/Upload
   source: CODE/nemu/tools/qemu-diff/src/gdb-host.c, src/diff-test.c
   digest: Memory sent to the reference in M packets of at most 1500 bytes. -/

import Mathlib.Data.List.TakeWhile
import Mathlib.Data.Nat.Digits.Defs
import Riscv32Cpu.QemuDiff.Protocol

set_option autoImplicit false
set_option relaxedAutoImplicit false

namespace Riscv32Cpu.QemuDiff.Upload

open Lib.Memory Protocol

/-- `%x`. -/
def hexNumber (n : Nat) : Text :=
  if n = 0 then [ascii '0']
  else (Nat.digits 16 n).reverse.map fun d => hexEncode (BitVec.ofNat 8 d)

/-- A string up to its terminator. -/
def cString (buf : Text) : Text := buf.takeWhile (· ≠ 0)

def ok : Text := text ['O', 'K']

def mtu : Nat := 1500

/-- The packet that `gdb_memcpy_to_qemu_small` prints into its buffer. -/
def packetM (dest : BitVec 32) (src : Nat → Byte) (len : Nat) : Text :=
  text ['M', '0', 'x'] ++ hexNumber dest.toNat ++ ascii ',' :: hexNumber len ++
    ascii ':' :: (List.range len).flatMap fun i => hexPair (src i)

section

variable {σ : Type} (receive : σ → Text → σ × Text) (fuel : Nat)

def gdbMemcpyToQemuSmall (dest : BitVec 32) (src : Nat → Byte) (len : Nat) (conn : Conn σ) :
    Option (Bool × Conn σ) := do
  let conn ← gdbSend receive (cString (packetM dest src len)) fuel conn
  let (reply, conn) ← gdbRecv receive fuel conn
  return (decide (cString reply = ok), conn)

/-- The loop of `gdb_memcpy_to_qemu` and what follows it. -/
def memcpyLoop (dest : BitVec 32) (src : Nat → Byte) (len : Nat) (success : Bool)
    (conn : Conn σ) : Option (Bool × Conn σ) :=
  if mtu < len then do
    let (done, conn) ← gdbMemcpyToQemuSmall receive fuel dest src mtu conn
    memcpyLoop (dest + BitVec.ofNat 32 mtu) (fun i => src (mtu + i)) (len - mtu)
      (success && done) conn
  else do
    let (done, conn) ← gdbMemcpyToQemuSmall receive fuel dest src len conn
    return (success && done, conn)
termination_by len
decreasing_by
  have : 0 < mtu := by decide
  omega

def gdbMemcpyToQemu (dest : BitVec 32) (src : Nat → Byte) (len : Nat) (conn : Conn σ) :
    Option (Bool × Conn σ) := memcpyLoop receive fuel dest src len true conn

/-- `difftest_memcpy`; `none` where an assertion fails. -/
def difftestMemcpy (addr : BitVec 32) (buf : Nat → Byte) (n : Nat) (toRef : Bool)
    (conn : Conn σ) : Option (Conn σ) := do
  if toRef then
    let (success, conn) ← gdbMemcpyToQemu receive fuel addr buf n conn
    if success then return conn else none
  else none

end

/-- A hexadecimal number and what follows it. -/
def parseNumber (t : Text) : Nat × Text :=
  ((t.takeWhile isxdigit).foldl (fun v c => 16 * v + (hexNibble c).toNat) 0,
    t.dropWhile isxdigit)

def parseBytes : Text → Option (List Byte)
  | [] => some []
  | [_] => none
  | msb :: lsb :: t =>
    if isxdigit msb && isxdigit lsb then
      (parseBytes t).map ((gdbDecodeHex msb lsb).setWidth 8 :: ·)
    else none

/-- The address and the bytes of a packet `Maddr,length:XX...`; `0x` may stand before the
address. -/
def parseM (packet : Text) : Option (BitVec 32 × List Byte) :=
  if packet.head? = some (ascii 'M') then
    let t := packet.tail
    let t := if t.take 2 = text ['0', 'x'] then t.drop 2 else t
    let (addr, t) := parseNumber t
    if t.head? = some (ascii ',') then
      let (len, t) := parseNumber t.tail
      if t.head? = some (ascii ':') then
        match parseBytes t.tail with
        | some data => if data.length = len then some (BitVec.ofNat 32 addr, data) else none
        | none => none
      else none
    else none
  else none

/-- The memory after a packet. -/
def honour (m : Mem 32) (packet : Text) : Mem 32 :=
  match parseM packet with
  | some (addr, data) => overlay m addr data.length (data.getD · 0)
  | none => m

/-- A stub along a list of packets: its state at the end and its replies. -/
def serve {σ : Type} (handle : σ → Text → σ × Text) : List Text → σ → σ × List Text
  | [], s => (s, [])
  | p :: ps, s =>
    let (s, reply) := handle s p
    let (s, replies) := serve handle ps s
    (s, reply :: replies)

theorem cString_of_text {t : Text} (ht : ∀ c ∈ t, c ≠ 0) : cString t = t := by
  rw [cString, List.takeWhile_eq_self_iff]
  intro c hc
  rw [decide_eq_true_iff]
  exact ht c hc

theorem hexNumber_digits (n : Nat) : ∀ c ∈ hexNumber n, isxdigit c = true := by
  have hdigit : ∀ d < 16, isxdigit (hexEncode (BitVec.ofNat 8 d)) = true := by decide
  intro c hc
  rw [hexNumber] at hc
  split at hc
  · rw [List.mem_singleton.mp hc]
    decide
  · obtain ⟨d, hd, rfl⟩ := List.mem_map.mp hc
    exact hdigit d (Nat.digits_lt_base (by decide) (List.mem_reverse.mp hd))

theorem digits_value {l : List Nat} (h : ∀ d ∈ l, d < 16) :
    (l.reverse.map fun d => hexEncode (BitVec.ofNat 8 d)).foldl
      (fun v c => 16 * v + (hexNibble c).toNat) 0 = Nat.ofDigits 16 l := by
  have hdigit : ∀ d < 16, (hexNibble (hexEncode (BitVec.ofNat 8 d))).toNat = d := by decide
  induction l with
  | nil => rfl
  | cons d l ih =>
    rw [List.reverse_cons, List.map_append, List.foldl_append,
      ih fun d hd => h d (List.mem_cons_of_mem _ hd), Nat.ofDigits_cons, List.map_singleton,
      List.foldl_cons, List.foldl_nil, hdigit d (h d List.mem_cons_self), Nat.add_comm]

theorem hexNumber_value (n : Nat) :
    (hexNumber n).foldl (fun v c => 16 * v + (hexNibble c).toNat) 0 = n := by
  rw [hexNumber]
  split
  · next h =>
    rw [h]
    decide
  · rw [digits_value fun d hd => Nat.digits_lt_base (by decide) hd, Nat.ofDigits_digits]

theorem parseNumber_hexNumber (n : Nat) {c : Byte} (hc : isxdigit c = false) (t : Text) :
    parseNumber (hexNumber n ++ c :: t) = (n, c :: t) := by
  have htake : (hexNumber n ++ c :: t).takeWhile isxdigit = hexNumber n := by
    rw [List.takeWhile_append_of_pos (hexNumber_digits n),
      List.takeWhile_cons_of_neg (by rw [hc]; decide), List.append_nil]
  have hdrop : (hexNumber n ++ c :: t).dropWhile isxdigit = c :: t := by
    rw [List.dropWhile_append_of_pos (hexNumber_digits n),
      List.dropWhile_cons_of_neg (by rw [hc]; decide)]
  rw [parseNumber, htake, hdrop, hexNumber_value]

theorem parseBytes_hexPairs (data : List Byte) : parseBytes (data.flatMap hexPair) = some data := by
  induction data with
  | nil => rfl
  | cons b data ih =>
    have hb := isxdigit_hexPair b
    have hsplit : (b :: data).flatMap hexPair =
        hexEncode (b >>> 4) :: hexEncode (b &&& 0xf) :: data.flatMap hexPair := rfl
    rw [hsplit, parseBytes, hb _ List.mem_cons_self,
      hb _ (List.mem_cons_of_mem _ List.mem_cons_self), Bool.and_self, if_pos rfl, ih,
      gdbDecodeHex_hexPair, Option.map_some, BitVec.setWidth_setWidth_of_le _ (by decide),
      BitVec.setWidth_eq]

/-- The bytes that a packet carries, as digits. -/
def payload (src : Nat → Byte) (len : Nat) : Text :=
  (List.range len).flatMap fun i => hexPair (src i)

theorem payload_digits (src : Nat → Byte) (len : Nat) :
    ∀ c ∈ payload src len, isxdigit c = true := by
  intro c hc
  obtain ⟨i, -, hi⟩ := List.mem_flatMap.mp hc
  exact isxdigit_hexPair _ c hi

theorem packetM_eq (dest : BitVec 32) (src : Nat → Byte) (len : Nat) :
    packetM dest src len = ascii 'M' :: ascii '0' :: ascii 'x' ::
      (hexNumber dest.toNat ++ ascii ',' :: (hexNumber len ++ ascii ':' :: payload src len)) := by
  rw [packetM, List.append_assoc, List.append_assoc]
  rfl

theorem parseM_packetM (dest : BitVec 32) (src : Nat → Byte) (len : Nat) :
    parseM (packetM dest src len) = some (dest, (List.range len).map src) := by
  have hdata : parseBytes (payload src len) = some ((List.range len).map src) := by
    rw [payload, ← List.flatMap_map]
    exact parseBytes_hexPairs _
  have hprefix : ∀ t, (ascii '0' :: ascii 'x' :: t).take 2 = text ['0', 'x'] := fun _ => rfl
  have hcomma : isxdigit (ascii ',') = false := by decide
  have hcolon : isxdigit (ascii ':') = false := by decide
  rw [packetM_eq, parseM]
  simp only [List.head?_cons, if_true, List.tail_cons, hprefix, List.drop_succ_cons,
    List.drop_zero, parseNumber_hexNumber _ hcomma, parseNumber_hexNumber _ hcolon, hdata,
    List.length_map, List.length_range, BitVec.ofNat_toNat, BitVec.setWidth_eq]

theorem packetM_text (dest : BitVec 32) (src : Nat → Byte) (len : Nat) :
    ∀ c ∈ packetM dest src len, special c = false ∧ c ≠ 0 := by
  have hdigit : ∀ c : Byte, isxdigit c = true → special c = false ∧ c ≠ 0 := by decide
  have hmark : ∀ c ∈ text ['M', '0', 'x', ',', ':'], special c = false ∧ c ≠ 0 := by decide
  intro c hc
  rw [packetM_eq] at hc
  simp only [List.mem_cons, List.mem_append] at hc
  rcases hc with rfl | rfl | rfl | hc | rfl | hc | rfl | hc
  · exact hmark _ (by decide)
  · exact hmark _ (by decide)
  · exact hmark _ (by decide)
  · exact hdigit c (hexNumber_digits _ c hc)
  · exact hmark _ (by decide)
  · exact hdigit c (hexNumber_digits _ c hc)
  · exact hmark _ (by decide)
  · exact hdigit c (payload_digits src len c hc)

section

variable {σ : Type} {receive handle : σ → Text → σ × Text}

theorem gdbMemcpyToQemuSmall_eq (h : Serves receive handle) (fuel : Nat) (dest : BitVec 32)
    (src : Nat → Byte) (len : Nat) (s : σ) :
    gdbMemcpyToQemuSmall receive (fuel + 1) dest src len ⟨s, []⟩ =
      some (decide (cString (handle s (packetM dest src len)).2 = ok),
        ⟨(handle s (packetM dest src len)).1, []⟩) := by
  have htext : ∀ c ∈ packetM dest src len, special c = false :=
    fun c hc => (packetM_text dest src len c hc).1
  obtain ⟨conn, hsend, hrecv⟩ := gdbSend_gdbRecv h htext s fuel
  rw [gdbMemcpyToQemuSmall, cString_of_text fun c hc => (packetM_text dest src len c hc).2, hsend]
  show (gdbRecv receive (fuel + 1) conn >>= _) = _
  rw [hrecv]
  rfl

/-- The packets of an upload. -/
def packets (dest : BitVec 32) (src : Nat → Byte) (len : Nat) : List Text :=
  if mtu < len then
    packetM dest src mtu ::
      packets (dest + BitVec.ofNat 32 mtu) (fun i => src (mtu + i)) (len - mtu)
  else [packetM dest src len]
termination_by len
decreasing_by
  have : 0 < mtu := by decide
  omega

theorem memcpyLoop_eq (h : Serves receive handle) (fuel : Nat) (dest : BitVec 32)
    (src : Nat → Byte) (len : Nat) (success : Bool) (s : σ) :
    memcpyLoop receive (fuel + 1) dest src len success ⟨s, []⟩ =
      some (success && (serve handle (packets dest src len) s).2.all (cString · = ok),
        ⟨(serve handle (packets dest src len) s).1, []⟩) := by
  induction dest, src, len using packets.induct generalizing success s with
  | case1 dest src len hlt ih =>
    rw [memcpyLoop, packets, if_pos hlt, if_pos hlt, gdbMemcpyToQemuSmall_eq h]
    refine (ih _ _).trans ?_
    rw [Bool.and_assoc]
    rfl
  | case2 dest src len hle =>
    rw [memcpyLoop, packets, if_neg hle, if_neg hle, gdbMemcpyToQemuSmall_eq h]
    show some (_ && _, _) = some (success && (_ && true), _)
    rw [Bool.and_true]
    rfl

theorem honour_packetM (m : Mem 32) (dest : BitVec 32) (src : Nat → Byte) (len : Nat) :
    honour m (packetM dest src len) = overlay m dest len src := by
  rw [honour, parseM_packetM]
  dsimp only
  rw [List.length_map, List.length_range]
  refine overlay_congr m dest fun k hk => ?_
  rw [List.getD_eq_getElem?_getD, List.getElem?_map, List.getElem?_range hk]
  rfl

theorem honour_packets (m : Mem 32) (dest : BitVec 32) (src : Nat → Byte) (len : Nat)
    (hlen : dest.toNat + len ≤ 2 ^ 32) :
    (packets dest src len).foldl honour m = overlay m dest len src := by
  induction dest, src, len using packets.induct generalizing m with
  | case1 dest src len hlt ih =>
    have hmtu : mtu = 1500 := rfl
    have hdest : (dest + BitVec.ofNat 32 mtu).toNat = dest.toNat + mtu := by
      rw [BitVec.toNat_add, BitVec.toNat_ofNat]
      omega
    rw [packets, if_pos hlt, List.foldl_cons, honour_packetM, ih _ (by omega),
      overlay_append m dest src (by omega)]
    rw [Nat.add_sub_cancel' hlt.le]
  | case2 dest src len hle =>
    rw [packets, if_neg hle, List.foldl_cons, List.foldl_nil, honour_packetM]

theorem packets_carry (dest : BitVec 32) (src : Nat → Byte) (len : Nat) :
    ∀ p ∈ packets dest src len, ∃ addr data, parseM p = some (addr, data) ∧ data.length ≤ mtu := by
  induction dest, src, len using packets.induct with
  | case1 dest src len hlt ih =>
    intro p hp
    rw [packets, if_pos hlt] at hp
    rcases List.mem_cons.mp hp with rfl | hp
    · exact ⟨_, _, parseM_packetM dest src mtu, by rw [List.length_map, List.length_range]⟩
    · exact ih p hp
  | case2 dest src len hle =>
    intro p hp
    rw [packets, if_neg hle] at hp
    rw [List.mem_singleton.mp hp]
    exact ⟨_, _, parseM_packetM dest src len, by rw [List.length_map, List.length_range]; omega⟩

theorem difftestMemcpy_isSome (h : Serves receive handle) (fuel : Nat) (dest : BitVec 32)
    (src : Nat → Byte) (len : Nat) (s : σ) :
    (difftestMemcpy receive (fuel + 1) dest src len true ⟨s, []⟩).isSome ↔
      ∀ reply ∈ (serve handle (packets dest src len) s).2, cString reply = ok := by
  rw [difftestMemcpy, if_pos rfl, gdbMemcpyToQemu, memcpyLoop_eq h]
  show (if _ then some _ else none : Option (Conn σ)).isSome ↔ _
  rw [Option.isSome_ite]
  simp only [Bool.true_and, List.all_eq_true, decide_eq_true_eq]

/-- An upload sends packets that a stub which honours them lays over exactly the bytes of the
buffer's range, none of them carries more than 1500 bytes, and it succeeds when every reply was
`OK`. -/
theorem upload_covers_buffer (h : Serves receive handle) (s : σ) (dest : BitVec 32)
    (src : Nat → Byte) (len : Nat) (hlen : dest.toNat + len ≤ 2 ^ 32) (fuel : Nat) :
    ∃ sent : List Text, ∃ success : Bool,
      gdbMemcpyToQemu receive (fuel + 1) dest src len ⟨s, []⟩ =
        some (success, ⟨(serve handle sent s).1, []⟩) ∧
      (success = true ↔ ∀ reply ∈ (serve handle sent s).2, cString reply = ok) ∧
      (∀ p ∈ sent, ∃ addr data, parseM p = some (addr, data) ∧ data.length ≤ 1500) ∧
      ∀ m x, (sent.foldl honour m) x =
        if dest.toNat ≤ x.toNat ∧ x.toNat < dest.toNat + len then src (x.toNat - dest.toNat)
        else m x := by
  refine ⟨packets dest src len, _, memcpyLoop_eq h fuel dest src len true s, ?_,
    packets_carry dest src len, fun m x => ?_⟩
  · simp only [Bool.true_and, List.all_eq_true, decide_eq_true_eq]
  · have hx := x.isLt
    have hsub := BitVec.toNat_sub x dest
    rw [honour_packets m dest src len hlen, overlay]
    by_cases hin : dest.toNat ≤ x.toNat ∧ x.toNat < dest.toNat + len
    · have hoff : (x - dest).toNat = x.toNat - dest.toNat := by omega
      rw [if_pos hin, hoff, if_pos (by omega)]
    · rw [if_neg hin, if_neg (by omega)]

end

/-- Three kilobytes and one byte at `0x80000000`, to a stub that answers `OK` to everything. -/
theorem image_covers_buffer :
    ∃ sent : List Text, ∃ success : Bool,
      gdbMemcpyToQemu (peer fun (s : Unit) _ => (s, ok)) 1 0x80000000 (BitVec.ofNat 8) 3001
        ⟨(), []⟩ = some (success, ⟨(serve (fun (s : Unit) _ => (s, ok)) sent ()).1, []⟩) ∧
      (success = true ↔
        ∀ reply ∈ (serve (fun (s : Unit) _ => (s, ok)) sent ()).2, cString reply = ok) ∧
      (∀ p ∈ sent, ∃ addr data, parseM p = some (addr, data) ∧ data.length ≤ 1500) ∧
      ∀ m x, (sent.foldl honour m) x =
        if 0x80000000 ≤ x.toNat ∧ x.toNat < 0x80000000 + 3001 then
          BitVec.ofNat 8 (x.toNat - 0x80000000)
        else m x :=
  upload_covers_buffer (serves_peer _) () 0x80000000 (BitVec.ofNat 8) 3001 (by decide) 0

end Riscv32Cpu.QemuDiff.Upload
