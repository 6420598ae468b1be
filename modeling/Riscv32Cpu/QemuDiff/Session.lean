/- module: Riscv32Cpu/QemuDiff/Session
   source: CODE/nemu/tools/qemu-diff/src/protocol.c, src/gdb-host.c, src/diff-test.c
   digest: A whole session with the reference over a line that damages packets. -/

import Riscv32Cpu.Lib.Effect
import Riscv32Cpu.QemuDiff.Registers
import Riscv32Cpu.QemuDiff.Wire

set_option autoImplicit false
set_option relaxedAutoImplicit false

namespace Riscv32Cpu.QemuDiff.Session

open Lib.Effect Lib.Memory Protocol Wire Upload Registers

section

variable {σ : Type} (receive : σ → Text → σ × Text) (fuel : Nat) (isa : Isa)

def gdbSi (conn : Conn σ) : Option (Conn σ) := do
  let conn ← gdbSend receive (text ['v', 'C', 'o', 'n', 't', ';', 's', ':', '1']) fuel conn
  let (_, conn) ← gdbRecv receive fuel conn
  return conn

def difftestExec : Nat → Conn σ → Option (Conn σ)
  | 0, conn => some conn
  | n + 1, conn => do
    let conn ← gdbSi receive fuel conn
    difftestExec n conn

/-- What the emulator calls of the reference. -/
inductive Call
  | memcpy (addr : BitVec 32) (buf : Nat → Byte) (n : Nat)
  | regcpy (qemuR dut : Bytes) (toRef : Bool)
  | exec (n : Nat)

/-- The registers that the call leaves at `dut`, if it has such an argument. -/
def Call.run : Call → Conn σ → Option (List Bytes × Conn σ)
  | .memcpy addr buf n, conn => do
    let conn ← difftestMemcpy receive fuel addr buf n true conn
    return ([], conn)
  | .regcpy qemuR dut toRef, conn => do
    let (dut, conn) ← difftestRegcpy receive fuel isa qemuR dut toRef conn
    return ([dut], conn)
  | .exec n, conn => do
    let conn ← difftestExec receive fuel n conn
    return ([], conn)

def session : List Call → Conn σ → Option (List Bytes × Conn σ)
  | [], conn => some ([], conn)
  | call :: calls, conn => do
    let (outs, conn) ← call.run receive fuel isa conn
    let (outs', conn) ← session calls conn
    return (outs ++ outs', conn)

/-- One request and its reply. -/
def request (command : Text) (conn : Conn σ) : Option (Text × Conn σ) := do
  let conn ← gdbSend receive command fuel conn
  gdbRecv receive fuel conn

end

/-- A text behind which a packet is still found. -/
def Idle (junk : Text) : Prop := ascii '$' ∉ junk ∨ ascii '#' ∉ junk

/-- What arrives of a damaged packet: there is the end of one packet in it, with a wrong checksum. A
packet that was begun before it is broken off; what is left over after it is no part of another
one. -/
structure Damaged extends Packet where
  before : Text
  after : Text
  broken : ¬ toPacket.Intact
  unended : ascii '#' ∉ before
  idle : Idle after

def Damaged.arrival (d : Damaged) : Text := d.before ++ d.toPacket.bytes ++ d.after

/-- The stub, the reply it gave last, and what becomes of the packets to come, one after another
and in either direction: something damaged arrives, or what was sent. -/
structure Line (τ : Type) where
  stub : τ
  last : Text
  noise : List (Option Damaged)

namespace Line

variable {τ : Type}

/-- What the line does to the next packet. -/
def damage (l : Line τ) : Option Damaged := l.noise.head?.join

def passed (l : Line τ) : Line τ := { l with noise := l.noise.tail }

/-- What arrives of the last reply. -/
def reply (l : Line τ) : Text :=
  match l.damage with
  | some d => d.arrival
  | none => replyFrame l.last

def handled (handle : τ → Text → τ × Text) (l : Line τ) (command : Text) : Line τ :=
  { l with stub := (handle l.stub command).1, last := (handle l.stub command).2 }

end Line

section

variable {σ τ : Type}

/-- The other end, behind the line that `line` reads off its state: it asks for a damaged packet
once more, handles one that is not and sends its reply again when it is asked to.
Acknowledgements are not damaged. Packets with special characters in them are left open. -/
structure Relays (receive : σ → Text → σ × Text) (handle : τ → Text → τ × Text)
    (line : σ → Line τ) : Prop where
  packet : ∀ s command, (∀ c ∈ command, special c = false) → (line s).damage = none →
    line (receive s (frame command)).1 = ((line s).passed.handled handle command).passed ∧
      (receive s (frame command)).2 =
        ascii '+' :: ((line s).passed.handled handle command).reply
  damaged : ∀ s command, (∀ c ∈ command, special c = false) → (line s).damage.isSome →
    line (receive s (frame command)).1 = (line s).passed ∧
      (receive s (frame command)).2 = [ascii '-']
  again : ∀ s, line (receive s [ascii '-']).1 = (line s).passed ∧
    (receive s [ascii '-']).2 = (line s).reply
  ack : ∀ s, line (receive s [ascii '+']).1 = line s ∧ (receive s [ascii '+']).2 = []

variable {receive : σ → Text → σ × Text} {handle : τ → Text → τ × Text} {line : σ → Line τ}

theorem quiet_append {junk before : Text} (h : Idle junk) (hbefore : ascii '#' ∉ before) :
    Quiet (junk ++ before) := by
  rcases h with hstart | hstop
  · rw [Quiet, List.dropWhile_append, dropWhile_junk hstart, List.isEmpty_nil, if_pos rfl]
    exact fun hmem => hbefore ((List.dropWhile_suffix _).subset hmem)
  · intro hmem
    rcases List.mem_append.mp ((List.dropWhile_suffix _).subset hmem) with hmem | hmem
    · exact hstop hmem
    · exact hbefore hmem

theorem recvPacket_arrival {junk : Text} (h : Idle junk) (d : Damaged) :
    ∃ reply, recvPacket (junk ++ d.arrival) = some ⟨reply, false, d.after⟩ := by
  obtain ⟨reply, hrecv⟩ := recvPacket_bytes (quiet_append h d.unended) d.toPacket d.after
  refine ⟨reply, ?_⟩
  rw [decide_eq_false d.broken] at hrecv
  rw [← hrecv, Damaged.arrival]
  simp only [List.append_assoc]

theorem recvPacket_reply {junk : Text} (h : Idle junk) (reply : Text) :
    recvPacket (junk ++ replyFrame reply) = some ⟨reply, true, []⟩ := by
  have hquiet : Quiet junk := by
    have happend : Quiet (junk ++ []) := quiet_append h List.not_mem_nil
    rwa [List.append_nil] at happend
  have hempty : Quiet [] := List.not_mem_nil
  have hplain := recvPacket_replyFrame reply []
  rw [List.append_nil, replyFrame, List.cons_append] at hplain
  rw [replyFrame, List.cons_append, recvPacket_of_quiet hquiet, ← recvPacket_of_quiet hempty]
  exact hplain

theorem length_passed {l : Line τ} (h : l.damage.isSome) :
    l.passed.noise.length < l.noise.length := by
  obtain ⟨stub, last, noise⟩ := l
  cases noise with
  | nil => cases h
  | cons d noise => exact Nat.lt_succ_self _

theorem length_passed_le (l : Line τ) : l.passed.noise.length ≤ l.noise.length := by
  rw [Line.passed, List.length_tail]
  exact Nat.sub_le _ _

/-- The client sends a packet until it has got through: it is handled once, and the reply is on its
way. -/
theorem gdbSend_relays (h : Relays receive handle line) {command : Text}
    (hcommand : ∀ c ∈ command, special c = false) (fuel : Nat) (s : σ)
    (hfuel : (line s).noise.length < fuel) :
    ∃ (s' : σ) (l : Line τ), gdbSend receive command fuel ⟨s, []⟩ = some ⟨s', l.reply⟩ ∧
      line s' = l.passed ∧ l.stub = (handle (line s).stub command).1 ∧
      l.last = (handle (line s).stub command).2 ∧ l.noise.length < fuel := by
  induction fuel generalizing s with
  | zero => omega
  | succ fuel ih =>
    rw [gdbSend, Conn.flush, List.nil_append]
    cases hdamage : (line s).damage with
    | none =>
      obtain ⟨hline, hout⟩ := h.packet s command hcommand hdamage
      have hle := length_passed_le (line s)
      exact ⟨_, _, by rw [hout]; exact if_pos rfl, hline, rfl, rfl, by
        show (line s).passed.noise.length < fuel + 1
        omega⟩
    | some d =>
      have hsome : (line s).damage.isSome := by rw [hdamage]; rfl
      obtain ⟨hline, hout⟩ := h.damaged s command hcommand hsome
      have hlt := length_passed hsome
      obtain ⟨s', l, hsend, hl, hstub, hlast, hnoise⟩ :=
        ih (receive s (frame command)).1 (by rw [hline]; omega)
      rw [hline] at hstub hlast
      refine ⟨s', l, ?_, hl, hstub, hlast, Nat.lt_succ_of_lt hnoise⟩
      rw [hout]
      exact hsend

theorem gdbRecv_relays (h : Relays receive handle line) (fuel : Nat) {junk : Text}
    (hjunk : Idle junk) (s : σ) (l : Line τ) (hl : line s = l.passed)
    (hfuel : l.noise.length < fuel) :
    ∃ s', gdbRecv receive fuel ⟨s, junk ++ l.reply⟩ = some (l.last, ⟨s', []⟩) ∧
      (line s').stub = l.stub ∧ (line s').noise.length < fuel := by
  induction fuel generalizing junk s l with
  | zero => omega
  | succ fuel ih =>
    cases hdamage : l.damage with
    | none =>
      have hreply : l.reply = replyFrame l.last := by rw [Line.reply, hdamage]
      obtain ⟨hline, hout⟩ := h.ack s
      have hle := length_passed_le l
      refine ⟨(receive s [ascii '+']).1, ?_, ?_, ?_⟩
      · rw [gdbRecv, hreply, recvPacket_reply hjunk]
        simp only [if_true, Conn.flush, hout, List.append_nil]
      · rw [hline, hl]
        rfl
      · rw [hline, hl]
        omega
    | some d =>
      have hreply : l.reply = d.arrival := by rw [Line.reply, hdamage]
      have hlt := length_passed (l := l) (by rw [hdamage]; rfl)
      obtain ⟨reply, hbad⟩ := recvPacket_arrival hjunk d
      obtain ⟨hline, hout⟩ := h.again s
      rw [hl] at hline hout
      obtain ⟨s', hrecv, hstub, hnoise⟩ :=
        ih d.idle (receive s [ascii '-']).1 l.passed hline (by omega)
      refine ⟨s', ?_, hstub, Nat.lt_succ_of_lt hnoise⟩
      rw [gdbRecv, hreply, hbad]
      simp only [Bool.false_eq_true, if_false, Conn.flush, hout]
      exact hrecv

/-- The two ends are where they are after the same requests; `fuel` covers the noise to come. -/
structure Matches (line : σ → Line τ) (fuel : Nat) (conn : Conn σ) (clean : Conn τ) : Prop where
  stub : (line conn.peer).stub = clean.peer
  input : conn.input = []
  clean : clean.input = []
  noise : (line conn.peer).noise.length < fuel

/-- Two results with their connections. -/
structure Agree {α : Type} (line : σ → Line τ) (fuel : Nat) (r : α × Conn σ) (r' : α × Conn τ) :
    Prop where
  value : r.1 = r'.1
  conns : Matches line fuel r.2 r'.2

theorem agree_bind {α β γ : Type} {fuel : Nat} {o : Option (α × Conn σ)}
    {o' : Option (α × Conn τ)} (h : Option.Rel (Agree line fuel) o o')
    {q : β → γ → Prop} {f : α × Conn σ → Option β} {g : α × Conn τ → Option γ}
    (hf : ∀ a conn clean, Matches line fuel conn clean → Option.Rel q (f (a, conn)) (g (a, clean))) :
    Option.Rel q (o >>= f) (o' >>= g) := by
  refine rel_bind h ?_
  rintro ⟨a, conn⟩ ⟨_, clean⟩ ⟨rfl, hconns⟩
  exact hf a conn clean hconns

theorem agree_return {α : Type} {fuel : Nat} (a : α) {conn : Conn σ} {clean : Conn τ}
    (h : Matches line fuel conn clean) :
    Option.Rel (Agree line fuel) (some (a, conn)) (some (a, clean)) :=
  .some ⟨rfl, h⟩

variable {server : τ → Text → τ × Text} {fuel : Nat} {conn : Conn σ} {clean : Conn τ}
  (hrelays : Relays receive handle line) (hserves : Serves server handle)

include hrelays hserves

theorem request_agree {command : Text} (hcommand : ∀ c ∈ command, special c = false)
    (h : Matches line fuel conn clean) :
    Option.Rel (Agree line fuel) (request receive fuel command conn)
      (request server 1 command clean) := by
  obtain ⟨s, input⟩ := conn
  obtain ⟨s', input'⟩ := clean
  obtain ⟨rfl, rfl, rfl, hnoise⟩ := h
  obtain ⟨s₁, l, hsend, hl, hstub, hlast, hnoise₁⟩ :=
    gdbSend_relays hrelays hcommand fuel s hnoise
  have hempty : Idle [] := .inl List.not_mem_nil
  obtain ⟨s₂, hrecv, hstub₂, hnoise₂⟩ := gdbRecv_relays hrelays fuel hempty s₁ l hl hnoise₁
  rw [List.nil_append] at hrecv
  obtain ⟨conn, hsend', hrecv'⟩ := gdbSend_gdbRecv hserves hcommand (line s).stub 0
  simp only [request, hsend, hsend', Option.bind_eq_bind, Option.bind_some, hrecv, hrecv']
  exact .some ⟨hlast, hstub₂.trans hstub, rfl, rfl, hnoise₂⟩

theorem gdbMemcpyToQemuSmall_agree (dest : BitVec 32) (src : Nat → Byte) (len : Nat)
    (h : Matches line fuel conn clean) :
    Option.Rel (Agree line fuel) (gdbMemcpyToQemuSmall receive fuel dest src len conn)
      (gdbMemcpyToQemuSmall server 1 dest src len clean) := by
  have htext := packetM_text dest src len
  have hrequest : ∀ {σ : Type} (receive : σ → Text → σ × Text) (k : Nat) (c : Conn σ),
      gdbMemcpyToQemuSmall receive k dest src len c =
        request receive k (packetM dest src len) c >>= fun r =>
          some (decide (cString r.1 = ok), r.2) := by
    intro σ receive k c
    rw [gdbMemcpyToQemuSmall, cString_of_text fun c hc => (htext c hc).2, request]
    exact (Option.bind_assoc ..).symm
  rw [hrequest, hrequest]
  refine agree_bind (request_agree hrelays hserves (fun c hc => (htext c hc).1) h) ?_
  intro reply conn clean hmatch
  exact agree_return (decide (cString reply = ok)) hmatch

theorem memcpyLoop_agree (dest : BitVec 32) (src : Nat → Byte) (len : Nat) (success : Bool)
    (h : Matches line fuel conn clean) :
    Option.Rel (Agree line fuel) (memcpyLoop receive fuel dest src len success conn)
      (memcpyLoop server 1 dest src len success clean) := by
  induction dest, src, len using packets.induct generalizing success conn clean with
  | case1 dest src len hlt ih =>
    rw [memcpyLoop, memcpyLoop, if_pos hlt, if_pos hlt]
    refine agree_bind (gdbMemcpyToQemuSmall_agree hrelays hserves dest src mtu h) ?_
    intro done conn clean hmatch
    exact ih (success && done) hmatch
  | case2 dest src len hle =>
    rw [memcpyLoop, memcpyLoop, if_neg hle, if_neg hle]
    refine agree_bind (gdbMemcpyToQemuSmall_agree hrelays hserves dest src len h) ?_
    intro done conn clean hmatch
    exact agree_return (success && done) hmatch

theorem difftestMemcpy_agree (addr : BitVec 32) (buf : Nat → Byte) (n : Nat)
    (h : Matches line fuel conn clean) :
    Option.Rel (Matches line fuel) (difftestMemcpy receive fuel addr buf n true conn)
      (difftestMemcpy server 1 addr buf n true clean) := by
  rw [difftestMemcpy, difftestMemcpy, if_pos rfl, if_pos rfl]
  refine agree_bind (memcpyLoop_agree hrelays hserves addr buf n true h) ?_
  intro success conn clean hmatch
  cases success with
  | true => exact .some hmatch
  | false => exact .none

theorem gdbGetregs_agree (isa : Isa) (r : Bytes) (h : Matches line fuel conn clean) :
    Option.Rel (Agree line fuel) (gdbGetregs receive fuel isa r conn)
      (gdbGetregs server 1 isa r clean) := by
  have hplain : ∀ c ∈ text ['g'], special c = false := by decide
  have hrequest : ∀ {σ : Type} (receive : σ → Text → σ × Text) (k : Nat) (c : Conn σ),
      gdbGetregs receive k isa r c = request receive k (text ['g']) c >>= fun q =>
        getregsLoop isa.nrWords 0 0 (q.1 ++ [0]) r >>= fun r => some (r, q.2) := by
    intro σ receive k c
    exact (Option.bind_assoc ..).symm
  rw [hrequest, hrequest]
  refine agree_bind (request_agree hrelays hserves hplain h) ?_
  intro reply conn clean hmatch
  cases getregsLoop isa.nrWords 0 0 (reply ++ [0]) r with
  | none => exact .none
  | some r => exact agree_return r hmatch

theorem gdbSetregs_agree (isa : Isa) (r : Bytes) (h : Matches line fuel conn clean) :
    Option.Rel (Agree line fuel) (gdbSetregs receive fuel isa r conn)
      (gdbSetregs server 1 isa r clean) := by
  have htext := packetG_text isa r
  have hrequest : ∀ {σ : Type} (receive : σ → Text → σ × Text) (k : Nat) (c : Conn σ),
      gdbSetregs receive k isa r c = request receive k (packetG isa r) c >>= fun q =>
        some (decide (cString q.1 = ok), q.2) := by
    intro σ receive k c
    rw [gdbSetregs, cString_of_text fun c hc => (htext c hc).2, request]
    exact (Option.bind_assoc ..).symm
  rw [hrequest, hrequest]
  refine agree_bind (request_agree hrelays hserves (fun c hc => (htext c hc).1) h) ?_
  intro reply conn clean hmatch
  exact agree_return (decide (cString reply = ok)) hmatch

theorem difftestRegcpy_agree (isa : Isa) (qemuR dut : Bytes) (toRef : Bool)
    (h : Matches line fuel conn clean) :
    Option.Rel (Agree line fuel) (difftestRegcpy receive fuel isa qemuR dut toRef conn)
      (difftestRegcpy server 1 isa qemuR dut toRef clean) := by
  refine agree_bind (gdbGetregs_agree hrelays hserves isa qemuR h) ?_
  intro r conn clean hmatch
  cases toRef with
  | true =>
    refine agree_bind
      (gdbSetregs_agree hrelays hserves isa (memcpy r dut isa.difftestRegSize) hmatch) ?_
    intro success conn clean hmatch
    exact agree_return dut hmatch
  | false => exact agree_return (memcpy dut r isa.difftestRegSize) hmatch

theorem gdbSi_agree (h : Matches line fuel conn clean) :
    Option.Rel (Matches line fuel) (gdbSi receive fuel conn) (gdbSi server 1 clean) := by
  have hplain : ∀ c ∈ text ['v', 'C', 'o', 'n', 't', ';', 's', ':', '1'], special c = false := by
    decide
  have hrequest : ∀ {σ : Type} (receive : σ → Text → σ × Text) (k : Nat) (c : Conn σ),
      gdbSi receive k c =
        request receive k (text ['v', 'C', 'o', 'n', 't', ';', 's', ':', '1']) c >>= fun q =>
          some q.2 := by
    intro σ receive k c
    exact (Option.bind_assoc ..).symm
  rw [hrequest, hrequest]
  refine agree_bind (request_agree hrelays hserves hplain h) ?_
  intro reply conn clean hmatch
  exact .some hmatch

theorem difftestExec_agree (n : Nat) (h : Matches line fuel conn clean) :
    Option.Rel (Matches line fuel) (difftestExec receive fuel n conn)
      (difftestExec server 1 n clean) := by
  induction n generalizing conn clean with
  | zero => exact .some h
  | succ n ih => exact rel_bind (gdbSi_agree hrelays hserves h) fun _ _ hmatch => ih hmatch

theorem run_agree (isa : Isa) (call : Call) (h : Matches line fuel conn clean) :
    Option.Rel (Agree line fuel) (call.run receive fuel isa conn)
      (call.run server 1 isa clean) := by
  cases call with
  | memcpy addr buf n =>
    exact rel_bind (difftestMemcpy_agree hrelays hserves addr buf n h) fun _ _ => agree_return []
  | regcpy qemuR dut toRef =>
    refine agree_bind (difftestRegcpy_agree hrelays hserves isa qemuR dut toRef h) ?_
    intro dut conn clean hmatch
    exact agree_return [dut] hmatch
  | exec n => exact rel_bind (difftestExec_agree hrelays hserves n h) fun _ _ => agree_return []

theorem session_agree (isa : Isa) (calls : List Call) (h : Matches line fuel conn clean) :
    Option.Rel (Agree line fuel) (session receive fuel isa calls conn)
      (session server 1 isa calls clean) := by
  induction calls generalizing conn clean with
  | nil => exact agree_return [] h
  | cons call calls ih =>
    refine agree_bind (run_agree hrelays hserves isa call h) ?_
    intro outs conn clean hmatch
    refine agree_bind (ih hmatch) ?_
    intro outs' conn clean hmatch
    exact agree_return (outs ++ outs') hmatch

/-- Damaged packets are not seen: whatever the emulator asks of the reference, it gets the registers
that it would get over a line that damages nothing, and the reference has handled the same requests,
each of them once. -/
theorem noise_is_invisible (isa : Isa) (calls : List Call) (s : σ) (k : Nat) :
    (session receive ((line s).noise.length + k + 1) isa calls ⟨s, []⟩).map
        (fun r => (r.1, (line r.2.peer).stub)) =
      (session server 1 isa calls ⟨(line s).stub, []⟩).map fun r => (r.1, r.2.peer) := by
  have hstart : Matches line ((line s).noise.length + k + 1) ⟨s, []⟩ ⟨(line s).stub, []⟩ :=
    ⟨rfl, rfl, rfl, by show (line s).noise.length < (line s).noise.length + k + 1; omega⟩
  refine map_eq_of_rel (session_agree hrelays hserves isa calls hstart) ?_
  rintro ⟨outs, conn⟩ ⟨_, clean⟩ ⟨rfl, hconns⟩
  exact congrArg (Prod.mk outs) hconns.stub

end

section

variable {τ : Type} (handle : τ → Text → τ × Text)

def relay (l : Line τ) (out : Text) : Line τ × Text :=
  if out.head? = some (ascii '$') then
    if l.damage.isSome then (l.passed, [ascii '-'])
    else
      let l := l.passed.handled handle (out.tail.takeWhile (· ≠ ascii '#'))
      (l.passed, ascii '+' :: l.reply)
  else if out = [ascii '-'] then (l.passed, l.reply)
  else (l, [])

theorem relays_relay : Relays (relay handle) handle id where
  packet l command hcommand hdamage := by
    have hhead : (frame command).head? = some (ascii '$') := rfl
    have hnone : l.damage.isSome = false := congrArg Option.isSome hdamage
    rw [relay, if_pos hhead, body_frame hcommand, hnone, if_neg Bool.false_ne_true]
    exact ⟨rfl, rfl⟩
  damaged l command _ hdamage := by
    have hhead : (frame command).head? = some (ascii '$') := rfl
    have hsome : l.damage.isSome = true := hdamage
    rw [relay, if_pos hhead, hsome, if_pos rfl]
    exact ⟨rfl, rfl⟩
  again l := by
    rw [relay, if_neg (by decide), if_pos rfl]
    exact ⟨rfl, rfl⟩
  ack l := by
    rw [relay, if_neg (by decide), if_neg (by decide)]
    exact ⟨rfl, rfl⟩

end

/-- The stub's answer with its hash sign doubled, so that the last digit is left over. -/
def smudged : Damaged where
  body := ok
  msb := ascii '#'
  lsb := ascii '9'
  start := by decide
  stop := by decide
  before := []
  after := text ['a']
  broken := by decide
  unended := by decide
  idle := .inl (by decide)

/-- A stub that counts its requests and says that all is well. -/
def counter (n : Nat) (_ : Text) : Nat × Text := (n + 1, ok)

/-- Two steps, while the first packet and the second reply are damaged. -/
theorem two_steps_over_noise :
    (session (relay counter) 6 .x86 [.exec 2]
        ⟨⟨0, [], [some smudged, none, none, none, some smudged]⟩, []⟩).map
        (fun r => (r.1, r.2.peer.stub)) = some ([], 2) :=
  (noise_is_invisible (relays_relay counter) (serves_peer counter) .x86 [.exec 2]
    ⟨0, [], [some smudged, none, none, none, some smudged]⟩ 0).trans rfl

end Riscv32Cpu.QemuDiff.Session
