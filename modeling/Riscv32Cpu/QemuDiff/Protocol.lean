/- module: Riscv32Cpu/QemuDiff/Protocol
   source: CODE/nemu/tools/qemu-diff/src/protocol.c
   digest: The client's end of the remote protocol: hexadecimal text, packets, acknowledgements. -/

import Riscv32Cpu.Lib.Memory

set_option autoImplicit false
set_option relaxedAutoImplicit false

namespace Riscv32Cpu.QemuDiff.Protocol

open Lib.Memory

abbrev Text := List Byte

def ascii (c : Char) : Byte := BitVec.ofNat 8 c.toNat

def text (s : List Char) : Text := s.map ascii

def isdigit (c : Byte) : Bool := ascii '0' ≤ c && c ≤ ascii '9'

def isxdigit (c : Byte) : Bool :=
  isdigit c || (ascii 'a' ≤ c && c ≤ ascii 'f') || (ascii 'A' ≤ c && c ≤ ascii 'F')

def tolower (c : Byte) : Byte :=
  if ascii 'A' ≤ c ∧ c ≤ ascii 'Z' then c + (ascii 'a' - ascii 'A') else c

def hexNibble (hex : Byte) : Byte :=
  if isdigit hex then hex - ascii '0' else tolower hex - ascii 'a' + 10

def hexEncode (digit : Byte) : Byte :=
  if digit > 9 then ascii 'a' + digit - 10 else ascii '0' + digit

def gdbDecodeHex (msb lsb : Byte) : BitVec 16 :=
  if !isxdigit msb || !isxdigit lsb then 0xffff
  else 16 * (hexNibble msb).setWidth 16 + (hexNibble lsb).setWidth 16

def decodeLoop : Text → BitVec 64 → BitVec 64 → BitVec 64
  | msb :: lsb :: bytes, value, weight =>
    if isxdigit msb && isxdigit lsb then
      decodeLoop bytes (value + weight * (gdbDecodeHex msb lsb).setWidth 64) (weight * (16 * 16))
    else value
  | _, value, _ => value

/-- `bytes` is the memory from the pointer on, up to the end of the buffer. -/
def gdbDecodeHexStr (bytes : Text) : BitVec 64 := decodeLoop bytes 0 1

def sumOf (command : Text) : Byte := command.foldl (· + ·) 0

/-- `%02X`. -/
def upperHex (b : Byte) : Text :=
  let digit := fun d : Byte => if d > 9 then ascii 'A' + d - 10 else ascii '0' + d
  [digit (b >>> 4), digit (b &&& 0xf)]

/-- What `send_packet` writes. -/
def frame (command : Text) : Text :=
  ascii '$' :: command ++ ascii '#' :: upperHex (sumOf command)

/-- What `fgetc` gives at the end of the stream, in a byte. -/
def eof : Byte := 0xff

structure Received where
  reply : Text
  sumOk : Bool
  rest : Text

/-- How often `*` repeats the last character of the reply; `none` where it stands for itself. -/
def runLength (reply input : Text) : Option Nat :=
  match input with
  | [] => none
  | c2 :: _ =>
    if reply = [] ∨ c2 < 29 ∨ c2 > 126 ∨ c2 = ascii '$' ∨ c2 = ascii '#' then none
    else some (c2.toNat - 29)

/-- The second loop of `recv_packet`; `none` at the end of the stream. The first argument counts
the characters that belong to a run length and are not looked at again. -/
def recvLoop : Nat → Text → Text → Byte → Bool → Option Received
  | _, [], _, _, _ => none
  | skip + 1, _ :: input, reply, sum, escape => recvLoop skip input reply sum escape
  | 0, c :: input, reply, sum, escape =>
    let sum := sum + c
    if c = ascii '$' then recvLoop 0 input [] 0 false
    else if c = ascii '#' then
      some ⟨reply, (sum - c).setWidth 16 = gdbDecodeHex (input.headD eof) (input.tail.headD eof),
        input.drop 2⟩
    else if c = ascii '\x7d' then recvLoop 0 input reply sum true
    else
      match if c = ascii '*' then runLength reply input else none with
      | some count =>
        recvLoop 1 input (reply ++ List.replicate count (reply.getLastD 0))
          (sum + input.headD eof) escape
      | none => recvLoop 0 input (reply ++ [if escape then c ^^^ 0x20 else c]) sum false

def recvPacket (input : Text) : Option Received :=
  recvLoop 0 (input.dropWhile (· ≠ ascii '$')).tail [] 0 false

section

variable {σ : Type}

/-- The state of the other end, and the bytes it has sent that were not read yet. -/
structure Conn (σ : Type) where
  peer : σ
  input : Text

/-- `receive` is the other end: what it answers to the bytes of one `fflush`. -/
def Conn.flush (receive : σ → Text → σ × Text) (out : Text) (conn : Conn σ) : Conn σ :=
  ⟨(receive conn.peer out).1, conn.input ++ (receive conn.peer out).2⟩

/-- With `conn->ack`. `none` when nothing is left to read or the fuel runs out. -/
def gdbSend (receive : σ → Text → σ × Text) (command : Text) : Nat → Conn σ → Option (Conn σ)
  | 0, _ => none
  | fuel + 1, conn =>
    let conn := conn.flush receive (frame command)
    match conn.input with
    | [] => none
    | c :: input =>
      if c = ascii '+' then some { conn with input := input }
      else gdbSend receive command fuel { conn with input := input }

def gdbRecv (receive : σ → Text → σ × Text) : Nat → Conn σ → Option (Text × Conn σ)
  | 0, _ => none
  | fuel + 1, conn =>
    match recvPacket conn.input with
    | none => none
    | some r =>
      let conn := Conn.flush receive [if r.sumOk then ascii '+' else ascii '-']
        { conn with input := r.rest }
      if r.sumOk then some (r.reply, conn) else gdbRecv receive fuel conn

/-- The two digits of a byte. -/
def hexPair (b : Byte) : Text := [hexEncode (b >>> 4), hexEncode (b &&& 0xf)]

def special (c : Byte) : Bool :=
  c = ascii '$' || c = ascii '#' || c = ascii '\x7d' || c = ascii '*'

def escapeChar (c : Byte) : Text := if special c then [ascii '\x7d', c ^^^ 0x20] else [c]

/-- A reply as it stands in its packet. -/
def escape (reply : Text) : Text := reply.flatMap escapeChar

def replyFrame (reply : Text) : Text :=
  ascii '$' :: escape reply ++ ascii '#' :: hexPair (sumOf (escape reply))

/-- The other end acknowledges a packet, lets the stub handle it and sends the reply; it needs no
answer to an acknowledgement. Packets with special characters in them are left open. -/
structure Serves (receive handle : σ → Text → σ × Text) : Prop where
  packet : ∀ s command, (∀ c ∈ command, special c = false) →
    receive s (frame command) =
      ((handle s command).1, ascii '+' :: replyFrame (handle s command).2)
  ack : ∀ s, receive s [ascii '+'] = (s, [])

/-- Another end that serves its stub. -/
def peer (handle : σ → Text → σ × Text) (s : σ) (out : Text) : σ × Text :=
  if out.head? = some (ascii '$') then
    let (s, reply) := handle s (out.tail.takeWhile (· ≠ ascii '#'))
    (s, ascii '+' :: replyFrame reply)
  else (s, [])

theorem body_frame {command : Text} (h : ∀ c ∈ command, special c = false) :
    (frame command).tail.takeWhile (· ≠ ascii '#') = command := by
  have hpass : ∀ c ∈ command, decide (c ≠ ascii '#') = true := by
    intro c hc
    have hplain := h c hc
    rw [decide_eq_true_iff]
    rintro rfl
    revert hplain
    decide
  rw [frame, List.cons_append, List.tail_cons, List.takeWhile_append_of_pos hpass,
    List.takeWhile_cons_of_neg (by simp), List.append_nil]

theorem serves_peer (handle : σ → Text → σ × Text) : Serves (peer handle) handle where
  packet s command hcommand := by
    have hhead : (frame command).head? = some (ascii '$') := rfl
    rw [peer, if_pos hhead, body_frame hcommand]
  ack _ := rfl

theorem sumOf_nil : sumOf [] = 0 := rfl

theorem foldl_add (t : Text) (b : Byte) : t.foldl (· + ·) b = b + sumOf t := by
  induction t generalizing b with
  | nil => exact (add_zero b).symm
  | cons c t ih =>
    rw [sumOf, List.foldl_cons, List.foldl_cons, ih, ih (0 + c), zero_add, add_assoc]

theorem sumOf_append (t u : Text) : sumOf (t ++ u) = sumOf t + sumOf u := by
  rw [sumOf, List.foldl_append, foldl_add]
  rfl

theorem hexEncode_nibble : ∀ d : Byte, d < 16 →
    isxdigit (hexEncode d) = true ∧ hexNibble (hexEncode d) = d := by decide

theorem nibbles_lt (b : Byte) : b >>> 4 < 16 ∧ b &&& 0xf < 16 := by
  have hlt := b.isLt
  constructor
  · rw [BitVec.lt_def, BitVec.toNat_ushiftRight, Nat.shiftRight_eq_div_pow]
    show b.toNat / 2 ^ 4 < 16
    omega
  · rw [BitVec.lt_def, BitVec.toNat_and]
    exact Nat.lt_of_le_of_lt Nat.and_le_right (by decide)

theorem isxdigit_hexPair (b : Byte) : ∀ c ∈ hexPair b, isxdigit c = true := by
  obtain ⟨hhi, hlo⟩ := nibbles_lt b
  intro c hc
  rcases List.mem_pair.mp hc with rfl | rfl
  · exact (hexEncode_nibble _ hhi).1
  · exact (hexEncode_nibble _ hlo).1

theorem gdbDecodeHex_hexPair (b : Byte) :
    gdbDecodeHex (hexEncode (b >>> 4)) (hexEncode (b &&& 0xf)) = b.setWidth 16 := by
  obtain ⟨hhi, hlo⟩ := nibbles_lt b
  have hjoin :
      (16 : BitVec 16) * (b >>> 4).setWidth 16 + (b &&& 0xf).setWidth 16 = b.setWidth 16 := by
    revert b
    decide +kernel
  rw [gdbDecodeHex, (hexEncode_nibble _ hhi).1, (hexEncode_nibble _ hlo).1,
    (hexEncode_nibble _ hhi).2, (hexEncode_nibble _ hlo).2, hjoin]
  rfl

theorem recvLoop_plain {c : Byte} (hc : special c = false) (input reply : Text) (sum : Byte)
    (esc : Bool) : recvLoop 0 (c :: input) reply sum esc =
      recvLoop 0 input (reply ++ [if esc then c ^^^ 0x20 else c]) (sum + c) false := by
  simp only [special, Bool.or_eq_false_iff, decide_eq_false_iff_not] at hc
  obtain ⟨⟨⟨hdollar, hhash⟩, hescape⟩, hstar⟩ := hc
  rw [recvLoop, if_neg hdollar, if_neg hhash, if_neg hescape, if_neg hstar]

theorem recvLoop_escapeChar (c : Byte) (input reply : Text) (sum : Byte) :
    recvLoop 0 (escapeChar c ++ input) reply sum false =
      recvLoop 0 input (reply ++ [c]) (sum + sumOf (escapeChar c)) false := by
  cases hc : special c with
  | false =>
    have hsum : sumOf [c] = c := zero_add c
    rw [escapeChar, hc, if_neg Bool.false_ne_true, List.singleton_append, recvLoop_plain hc,
      if_neg Bool.false_ne_true, hsum]
  | true =>
    have hplain : special (c ^^^ 0x20) = false := by
      revert c
      decide
    have hback : (c ^^^ 0x20) ^^^ 0x20 = c := by
      rw [BitVec.xor_assoc, BitVec.xor_self, BitVec.xor_zero]
    have hnot : ascii '\x7d' ≠ ascii '$' ∧ ascii '\x7d' ≠ ascii '#' := by decide
    have hsum : sumOf [ascii '\x7d', c ^^^ 0x20] = ascii '\x7d' + (c ^^^ 0x20) := by
      rw [← zero_add (ascii '\x7d')]
      rfl
    rw [escapeChar, hc, if_pos rfl, List.cons_append, List.singleton_append, recvLoop,
      if_neg hnot.1, if_neg hnot.2, if_pos rfl, recvLoop_plain hplain, if_pos rfl, hback, hsum,
      add_assoc]

theorem recvLoop_escape (t input reply : Text) (sum : Byte) :
    recvLoop 0 (escape t ++ input) reply sum false =
      recvLoop 0 input (reply ++ t) (sum + sumOf (escape t)) false := by
  induction t generalizing reply sum with
  | nil =>
    rw [escape, List.flatMap_nil, List.nil_append, List.append_nil, sumOf_nil, add_zero]
  | cons c t ih =>
    have hsplit : escape (c :: t) = escapeChar c ++ escape t := rfl
    rw [hsplit, List.append_assoc, recvLoop_escapeChar, ih, sumOf_append, add_assoc,
      List.append_assoc]
    rfl

theorem recvPacket_replyFrame (reply rest : Text) :
    recvPacket (replyFrame reply ++ rest) = some ⟨reply, true, rest⟩ := by
  have hstart : ((replyFrame reply ++ rest).dropWhile (· ≠ ascii '$')).tail =
      escape reply ++ ascii '#' :: (hexPair (sumOf (escape reply)) ++ rest) := by
    rw [replyFrame, List.append_assoc, List.cons_append, List.dropWhile_cons_of_neg (by simp)]
    simp
  have hnot : ascii '#' ≠ ascii '$' := by decide
  rw [recvPacket, hstart, recvLoop_escape, recvLoop, if_neg hnot, if_pos rfl, List.nil_append,
    zero_add, add_sub_cancel_right]
  simp only [hexPair, List.cons_append, List.nil_append, List.headD_cons, List.tail_cons,
    List.drop_succ_cons, List.drop_zero, gdbDecodeHex_hexPair, decide_true]

theorem gdbSend_gdbRecv {receive handle : σ → Text → σ × Text} (h : Serves receive handle)
    {command : Text} (hcommand : ∀ c ∈ command, special c = false) (s : σ) (fuel : Nat) :
    ∃ conn, gdbSend receive command (fuel + 1) ⟨s, []⟩ = some conn ∧
      gdbRecv receive (fuel + 1) conn =
        some ((handle s command).2, ⟨(handle s command).1, []⟩) := by
  refine ⟨⟨(handle s command).1, replyFrame (handle s command).2⟩, ?_, ?_⟩
  · rw [gdbSend, Conn.flush, h.packet s command hcommand, List.nil_append]
    exact if_pos rfl
  · have hrecv := recvPacket_replyFrame (handle s command).2 []
    rw [List.append_nil] at hrecv
    rw [gdbRecv, hrecv]
    simp only [if_true, Conn.flush, h.ack, List.append_nil]

end

end Riscv32Cpu.QemuDiff.Protocol
