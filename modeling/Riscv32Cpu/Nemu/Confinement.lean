/- module: Riscv32Cpu/Nemu/Confinement
   source: CODE/nemu/src/memory/paddr.c, include/memory/paddr.h, src/monitor/monitor.c
   digest: When the host bytes that stand for guest memory stay inside the array `pmem`. -/

import Riscv32Cpu.Nemu.Cpu
import Riscv32Cpu.Nemu.Monitor

set_option autoImplicit false
set_option relaxedAutoImplicit false

namespace Riscv32Cpu.Nemu.Confinement

open Riscv32Cpu.Lib.Memory Riscv32Cpu.Lib.Effect Riscv32Cpu.Isa.Rv32i Riscv32Cpu.Nemu.Memory
open Riscv32Cpu.Nemu.Decode Riscv32Cpu.Nemu.Cpu Riscv32Cpu.Nemu.Monitor

def Access.Covers (a : Access) (b : BitVec 64) : Prop := (b - a.addr).toNat < a.len

/-- The host byte `b` belongs to the array `pmem`. -/
def InArray (pmem b : BitVec 64) : Prop := (b - pmem).toNat < configMsize.toNat

def Access.Inside (pmem : BitVec 64) (a : Access) : Prop := ∀ b, Access.Covers a b → InArray pmem b

/-- Every host byte used so far lies in the array. -/
def Confined (pmem : BitVec 64) (m : Machine) : Prop := ∀ a ∈ m.touched, Access.Inside pmem a

/-- The access starts in `pmem` and runs over its end. -/
def Overruns (addr : Word) (len : Nat) : Prop :=
  inPmem addr = true ∧ configMsize.toNat < offset addr + len

variable {pmem : BitVec 64} {csDisasm : Word → Word → Nat}

theorem inside_iff {addr : Word} (h : inPmem addr = true) {len : Nat} (hl : Width len) :
    Access.Inside pmem ⟨guestToHost pmem addr, len⟩ ↔ ¬Overruns addr len := by
  have hoff := (toNat_of_inPmem h).2
  have hlen : len ≤ 4 := by
    unfold Width at hl
    omega
  have hcover : ∀ b : BitVec 64, Access.Covers ⟨guestToHost pmem addr, len⟩ b ↔
      offset addr ≤ (b - pmem).toNat ∧ (b - pmem).toNat < offset addr + len := by
    intro b
    show (b - guestToHost pmem addr).toNat < len ↔ _
    rw [guestToHost_eq pmem h, toNat_sub_add b pmem (offset addr) (by omega)]
    split <;> omega
  constructor
  · rintro hin ⟨-, hover⟩
    have hend : (pmem + BitVec.ofNat 64 configMsize.toNat - pmem).toNat = configMsize.toNat :=
      toNat_add_sub pmem (by decide)
    have hout := hin (pmem + BitVec.ofNat 64 configMsize.toNat) ((hcover _).mpr (by
      rw [hend]
      exact ⟨Nat.le_of_lt hoff, hover⟩))
    rw [InArray, hend] at hout
    exact Nat.lt_irrefl _ hout
  · intro hover b hb
    have hb' := (hcover b).mp hb
    have hfit : ¬configMsize.toNat < offset addr + len := fun hlt => hover ⟨h, hlt⟩
    show (b - pmem).toNat < configMsize.toNat
    omega

section

variable {r : Machine → Machine → Prop} [Std.Refl r]

theorem moves_paddrRead {addr : Word} {len : Nat} {m : Machine}
    (h : inPmem addr = true → Width len → r m (m.touching (guestToHost pmem addr) len)) :
    Moves r (paddrRead pmem addr len) m := by
  unfold Moves
  cases hin : inPmem addr with
  | false =>
    obtain ⟨e, -, he⟩ := paddrRead_out (b := pmem) hin len m
    rw [he]
    exact Std.Refl.refl m
  | true =>
    rw [paddrRead_in hin]
    by_cases hl : Width len
    · rw [hostRead_eq hl]
      exact h hin hl
    · rw [hostRead_other hl]
      exact Std.Refl.refl m

theorem moves_paddrWrite {addr : Word} {len : Nat} {data : Word} {m : Machine}
    (h : inPmem addr = true → Width len → r m { m.touching (guestToHost pmem addr) len with
      host := store m.host (guestToHost pmem addr) len data }) :
    Moves r (paddrWrite pmem addr len data) m := by
  unfold Moves
  cases hin : inPmem addr with
  | false =>
    obtain ⟨e, -, he⟩ := paddrWrite_out (b := pmem) hin len data m
    rw [he]
    exact Std.Refl.refl m
  | true =>
    rw [paddrWrite_in hin]
    by_cases hl : Width len
    · rw [hostWrite_eq hl]
      exact h hin hl
    · rw [hostWrite_other hl]
      exact Std.Refl.refl m

theorem moves_setGpr (hset : ∀ m i v, r m (setReg m i v)) (idx : Nat) (v : Word) (m : Machine) :
    Moves r (setGpr idx v) m := by
  by_cases h : idx < 32
  · unfold Moves
    rw [setGpr_eq (r := ⟨idx, h⟩) rfl]
    exact hset m ⟨idx, h⟩ v
  · rw [setGpr, dif_neg h]
    exact moves_throw _ m

theorem moves_instPats [IsTrans Machine r] {s : DecodeInfo} (hset : ∀ m i v, r m (setReg m i v))
    (hread : ∀ addr m, Moves r (paddrRead pmem addr 1) m)
    (hwrite : ∀ addr data m, Moves r (paddrWrite pmem addr 1 data) m)
    (hend : ∀ m ret, r m { m with nemuState := ⟨.end, s.pc, ret⟩ })
    (hinv : ∀ m, Moves r (invalidInst pmem s.pc) m) (m : Machine) :
    Moves r (instPats pmem s) m := by
  unfold Moves
  by_cases hauipc : opcode s.inst = 0b0010111
  · rw [instPats_auipc pmem hauipc]
    exact moves_setGpr hset _ _ m
  by_cases hlbu : opcode s.inst = 0b0000011 ∧ funct3 s.inst = 0b100
  · rw [instPats_lbu pmem hlbu]
    exact moves_bind (hread _ m) fun v m' _ => moves_setGpr hset _ v m'
  by_cases hsb : opcode s.inst = 0b0100011 ∧ funct3 s.inst = 0b000
  · rw [instPats_sb pmem hsb]
    exact hwrite _ _ m
  by_cases hebreak : s.inst = 0x00100073
  · rw [instPats_ebreak pmem hebreak]
    exact hend m _
  · rw [instPats_inv pmem hauipc hlbu hsb hebreak]
    exact hinv m

end

/-- From `m` to `m'` only accesses in `p` were made, the host changed only where they reach,
and an aligned `pc` is still aligned. -/
structure Uses (p : Access → Prop) (m m' : Machine) : Prop where
  accesses : ∃ l : List Access, m'.touched = l ++ m.touched ∧ (∀ a ∈ l, p a) ∧
    ∀ b, (∀ a ∈ l, ¬Access.Covers a b) → m'.host b = m.host b
  aligned : m.cpu.pc.toNat % 4 = 0 → m'.cpu.pc.toNat % 4 = 0

variable {p : Access → Prop}

theorem Uses.quiet {m m' : Machine} (ht : m'.touched = m.touched) (hh : m'.host = m.host)
    (hpc : m.cpu.pc.toNat % 4 = 0 → m'.cpu.pc.toNat % 4 = 0) : Uses p m m' :=
  ⟨⟨[], ht, fun _ ha => absurd ha List.not_mem_nil, fun b _ => congrFun hh b⟩, hpc⟩

theorem Uses.single {m m' : Machine} {a : Access} (ha : p a) (ht : m'.touched = a :: m.touched)
    (hh : ∀ b, ¬Access.Covers a b → m'.host b = m.host b) (hpc : m'.cpu = m.cpu) : Uses p m m' := by
  refine ⟨⟨[a], ht, fun c hc => ?_, fun b hb => hh b (hb a (List.mem_singleton_self a))⟩,
    fun h => hpc ▸ h⟩
  rw [List.mem_singleton.mp hc]
  exact ha

instance : Std.Refl (Uses p) := ⟨fun _ => Uses.quiet rfl rfl id⟩

instance : IsTrans Machine (Uses p) where
  trans m m' m'' h h' := by
    obtain ⟨⟨l, ht, hp, hh⟩, hpc⟩ := h
    obtain ⟨⟨l', ht', hp', hh'⟩, hpc'⟩ := h'
    refine ⟨⟨l' ++ l, by rw [ht', ht, List.append_assoc], fun a ha => ?_, fun b hb => ?_⟩,
      fun h => hpc' (hpc h)⟩
    · rcases List.mem_append.mp ha with ha | ha
      · exact hp' a ha
      · exact hp a ha
    · rw [hh' b fun a ha => hb a (List.mem_append_left l ha),
        hh b fun a ha => hb a (List.mem_append_right l' ha)]

theorem uses_paddrRead {addr : Word} {len : Nat}
    (h : inPmem addr = true → Width len → p ⟨guestToHost pmem addr, len⟩) (m : Machine) :
    Moves (Uses p) (paddrRead pmem addr len) m :=
  moves_paddrRead fun hin hl => Uses.single (h hin hl) rfl (fun _ _ => rfl) rfl

theorem uses_paddrWrite {addr : Word} {len : Nat}
    (h : inPmem addr = true → Width len → p ⟨guestToHost pmem addr, len⟩) (data : Word)
    (m : Machine) : Moves (Uses p) (paddrWrite pmem addr len data) m :=
  moves_paddrWrite fun hin hl =>
    Uses.single (h hin hl) rfl (fun _ hb => store_out m.host data hb) rfl

theorem uses_setReg (m : Machine) (i : Reg) (v : Word) : Uses p m (setReg m i v) :=
  Uses.quiet rfl rfl id

/-- The accesses of the interpreter: aligned fetches and single bytes. -/
structure Interpreter (pmem : BitVec 64) (p : Access → Prop) : Prop where
  fetch : ∀ pc : Word, inPmem pc = true → pc.toNat % 4 = 0 → p ⟨guestToHost pmem pc, 4⟩
  byte : ∀ a : Word, inPmem a = true → p ⟨guestToHost pmem a, 1⟩

theorem moves_instFetch (hp : Interpreter pmem p) {pc : Word} (hpc : pc.toNat % 4 = 0)
    (m : Machine) : Moves (Uses p) (instFetch pmem pc 4) m :=
  moves_bind (uses_paddrRead (fun hin _ => hp.fetch pc hin hpc) m) fun _ _ _ => moves_pure _ _

theorem aligned_next {pc : Word} (hpc : pc.toNat % 4 = 0) : (pc + 4).toNat % 4 = 0 := by
  rw [BitVec.toNat_add]
  show (pc.toNat + 4) % 2 ^ 32 % 4 = 0
  omega

theorem moves_invalidInst (hp : Interpreter pmem p) {pc : Word} (hpc : pc.toNat % 4 = 0)
    (m : Machine) : Moves (Uses p) (invalidInst pmem pc) m := by
  refine moves_bind (moves_instFetch hp hpc m) fun w m' hw => ?_
  obtain ⟨i, t, -, hret⟩ := bind_eq_ok hw
  cases hret
  refine moves_bind (moves_instFetch hp (aligned_next hpc) _) fun _ m'' _ => ?_
  exact Uses.quiet rfl rfl id

theorem moves_decodeExec (hp : Interpreter pmem p) {s : DecodeInfo} (hpc : s.pc.toNat % 4 = 0)
    (m : Machine) : Moves (Uses p) (decodeExec pmem s) m :=
  moves_bind (moves_instPats uses_setReg
      (fun _ m => uses_paddrRead (fun hin _ => hp.byte _ hin) m)
      (fun _ data m => uses_paddrWrite (fun hin _ => hp.byte _ hin) data m)
      (fun _ _ => Uses.quiet rfl rfl id) (moves_invalidInst hp hpc) m) fun _ m' _ =>
    moves_bind (moves_setGpr uses_setReg 0 0 m') fun _ _ _ => moves_pure _ _

theorem moves_isaExecOnce (hp : Interpreter pmem p) {s : DecodeInfo} (hpc : s.pc.toNat % 4 = 0)
    (hs : s.snpc = s.pc) (m : Machine) : Moves (Uses p) (isaExecOnce pmem s) m := by
  have hsnpc : s.snpc.toNat % 4 = 0 := hs ▸ hpc
  exact moves_bind (moves_instFetch hp hsnpc m) fun w m' _ =>
    moves_decodeExec hp (s := ⟨s.pc, w.2, s.dnpc, w.1⟩) hpc m'

theorem isaExecOnce_dnpc {s s' : DecodeInfo} {m m' : Machine}
    (h : isaExecOnce pmem s m = .ok s' m') : s'.dnpc = s.snpc + 4 := by
  obtain ⟨w, t, hw, hdec⟩ := bind_eq_ok h
  obtain ⟨i, u, -, hret⟩ := bind_eq_ok hw
  cases hret
  obtain ⟨_, v, -, hrest⟩ := bind_eq_ok hdec
  obtain ⟨_, x, -, hlast⟩ := bind_eq_ok hrest
  cases hlast
  rfl

theorem moves_disassemble {R : Machine → Machine → Prop} [Std.Refl R]
    (csDisasm : Word → Word → Nat) (pc inst : Word) (m : Machine) :
    Moves R (disassemble csDisasm pc inst) m :=
  moves_ite (fun _ => moves_pure _ m) fun _ => moves_throw _ m

theorem moves_execOnce (hp : Interpreter pmem p) (s : DecodeInfo) {pc : Word}
    (hpc : pc.toNat % 4 = 0) (m : Machine) : Moves (Uses p) (execOnce pmem csDisasm s pc) m := by
  refine moves_bind (moves_isaExecOnce hp (s := { s with pc := pc, snpc := pc }) hpc rfl m)
    fun s' m' hs => ?_
  have hnext : s'.dnpc.toNat % 4 = 0 := by
    rw [isaExecOnce_dnpc hs]
    exact aligned_next hpc
  refine moves_bind (Uses.quiet rfl rfl fun _ => hnext) fun _ m'' _ => ?_
  exact moves_bind (moves_disassemble csDisasm _ _ m'') fun _ _ _ => moves_pure _ _

theorem moves_executeLoop (hp : Interpreter pmem p) (n : Nat) (s : DecodeInfo) {m : Machine}
    (hpc : m.cpu.pc.toNat % 4 = 0) : Moves (Uses p) (executeLoop pmem csDisasm n s) m := by
  induction n generalizing s m with
  | zero => exact moves_pure _ m
  | succ n ih =>
    have hround : Moves (Uses p) (execOnce pmem csDisasm s m.cpu.pc) m := moves_execOnce hp s hpc m
    unfold Moves at hround ⊢
    cases hexec : execOnce pmem csDisasm s m.cpu.pc m with
    | error e m' =>
      have hget : (get : M Machine) m = .ok m m := rfl
      rw [executeLoop, bind_of_ok hget, bind_of_error hexec]
      rw [hexec] at hround
      exact hround
    | ok s' m' =>
      rw [hexec] at hround
      have hcount : Uses p m { m' with gNrGuestInst := m'.gNrGuestInst + 1 } :=
        IsTrans.trans _ _ _ hround (Uses.quiet rfl rfl id)
      rw [executeLoop_succ hexec]
      by_cases hrun : m'.nemuState.state = .running
      · rw [if_pos hrun]
        exact IsTrans.trans _ _ _ hcount (ih s' (hcount.aligned hpc))
      · rw [if_neg hrun]
        exact hcount

theorem moves_cpuExec (hp : Interpreter pmem p) (n : Nat) {m : Machine}
    (hpc : m.cpu.pc.toNat % 4 = 0) : Moves (Uses p) (cpuExec pmem csDisasm n) m := by
  unfold cpuExec
  refine moves_bind (moves_get m) fun m' t hm => ?_
  cases hm
  have hrest : Moves (Uses p) (do
      modify fun m : Machine => { m with nemuState := { m.nemuState with state := .running } }
      execute pmem csDisasm n
      if (← get).nemuState.state = .running then
        modify fun m : Machine => { m with nemuState := { m.nemuState with state := .stop } }) m := by
    refine moves_bind (Uses.quiet rfl rfl id) fun _ m₁ h₁ => ?_
    cases h₁
    refine moves_bind (moves_executeLoop hp n _ hpc) fun _ m₂ _ => ?_
    refine moves_bind (moves_get m₂) fun m₃ t hm => ?_
    cases hm
    exact moves_ite (fun _ => Uses.quiet rfl rfl id) fun _ => moves_pure _ _
  cases m.nemuState.state with
  | running => exact hrest
  | stop => exact hrest
  | «end» => exact moves_pure _ m
  | abort => exact moves_pure _ m
  | quit => exact moves_pure _ m

/-- The image of the command line, when there is one, fits between the reset vector and the end of
`pmem`. -/
def ImageFits (fopen : String → Option ImgFile) (imgFile : Option String) : Prop :=
  ∀ path fp, imgFile = some path → fopen path = some fp →
    offset resetVector + fp.size ≤ configMsize.toNat

theorem covers_image (size : Nat) (b : BitVec 64) :
    Access.Covers ⟨guestToHost pmem resetVector, size⟩ b ↔ (b - pmem).toNat < size := by
  show (b - guestToHost pmem resetVector).toNat < size ↔ _
  have hbase : guestToHost pmem resetVector = pmem := by
    rw [guestToHost_eq pmem (by decide)]
    exact BitVec.add_zero pmem
  rw [hbase]

theorem inside_image_iff (fp : ImgFile) :
    Access.Inside pmem ⟨guestToHost pmem resetVector, fp.size⟩ ↔
      offset resetVector + fp.size ≤ configMsize.toNat := by
  have hzero : offset resetVector = 0 := by decide
  rw [hzero, Nat.zero_add]
  constructor
  · intro hin
    by_contra hbig
    have hend : (pmem + BitVec.ofNat 64 configMsize.toNat - pmem).toNat = configMsize.toNat :=
      toNat_add_sub pmem (by decide)
    have hout := hin (pmem + BitVec.ofNat 64 configMsize.toNat)
      ((covers_image _ _).mpr (by rw [hend]; omega))
    rw [InArray, hend] at hout
    exact Nat.lt_irrefl _ hout
  · intro hfit b hb
    exact Nat.lt_of_lt_of_le ((covers_image _ _).mp hb) hfit

theorem fread_eq {fp : ImgFile} (hsize : fp.size ≠ 0) (ptr : BitVec 64) (m : Machine) :
    fread ptr fp.size fp m =
      .ok 1 { m.touching ptr fp.size with host := overlay m.host ptr fp.size fp.byte } := by
  rw [fread, if_neg hsize]
  rfl

theorem loadImg_eq {fopen : String → Option ImgFile} {path : String} {fp : ImgFile}
    (h : fopen path = some fp) (hsize : fp.size ≠ 0) (m : Machine) :
    loadImg pmem fopen (some path) m = .ok fp.size
      { m.touching (guestToHost pmem resetVector) fp.size with
        host := overlay m.host (guestToHost pmem resetVector) fp.size fp.byte } := by
  dsimp only [loadImg]
  rw [h]
  dsimp only
  rw [bind_of_ok (fread_eq hsize _ m)]
  rfl

theorem loadImg_empty {fopen : String → Option ImgFile} {path : String} {fp : ImgFile}
    (h : fopen path = some fp) (hsize : fp.size = 0) (m : Machine) :
    loadImg pmem fopen (some path) m = .error assertRet m := by
  have hread : fread (guestToHost pmem resetVector) fp.size fp m = .ok 0 m := by
    rw [fread, if_pos hsize]
    rfl
  dsimp only [loadImg]
  rw [h]
  dsimp only
  rw [bind_of_ok hread]
  rfl

theorem moves_loadImg {fopen : String → Option ImgFile} {imgFile : Option String}
    (hp : ∀ path fp, imgFile = some path → fopen path = some fp →
      p ⟨guestToHost pmem resetVector, fp.size⟩) (m : Machine) :
    Moves (Uses p) (loadImg pmem fopen imgFile) m := by
  cases imgFile with
  | none =>
    dsimp only [loadImg]
    exact moves_pure _ m
  | some path =>
    cases hopen : fopen path with
    | none =>
      dsimp only [loadImg]
      rw [hopen]
      exact moves_throw _ m
    | some fp =>
      unfold Moves
      by_cases hsize : fp.size = 0
      · rw [loadImg_empty hopen hsize]
        exact Std.Refl.refl m
      · rw [loadImg_eq hopen hsize]
        dsimp only [finalState]
        exact Uses.single (hp path fp rfl hopen) rfl
          (fun b hb => overlay_out m.host fp.byte hb) rfl

/-- What happens after start-up: the user lets the guest run, or some guest access is made. -/
inductive Act
  | exec (n : Nat)
  | read (addr : Word) (len : Nat)
  | write (addr : Word) (len : Nat) (data : Word)

def Act.run (pmem : BitVec 64) (csDisasm : Word → Word → Nat) : Act → M Unit
  | .exec n => cpuExec pmem csDisasm n
  | .read addr len => do
    let _ ← paddrRead pmem addr len
  | .write addr len data => paddrWrite pmem addr len data

/-- The access of an act does not run over the end of `pmem`. -/
def Act.Fits : Act → Prop
  | .exec _ => True
  | .read addr len => Width len → ¬Overruns addr len
  | .write addr len _ => Width len → ¬Overruns addr len

def runActs (pmem : BitVec 64) (csDisasm : Word → Word → Nat) : List Act → M Unit
  | [] => return
  | act :: acts => do
    act.run pmem csDisasm
    runActs pmem csDisasm acts

/-- `init_isa` and `load_img`, as `init_monitor` calls them. -/
def initMonitor (pmem : BitVec 64) (fopen : String → Option ImgFile) (imgFile : Option String) :
    M Unit := do
  initIsa pmem
  let _ ← loadImg pmem fopen imgFile

def nemu (pmem : BitVec 64) (csDisasm : Word → Word → Nat) (fopen : String → Option ImgFile)
    (imgFile : Option String) (acts : List Act) : M Unit := do
  initMonitor pmem fopen imgFile
  runActs pmem csDisasm acts

/-- Every act that is reached fits. -/
def ActsFit (pmem : BitVec 64) (csDisasm : Word → Word → Nat) : List Act → Machine → Prop
  | [], _ => True
  | act :: acts, m =>
    act.Fits ∧ ∀ m', act.run pmem csDisasm m = .ok () m' → ActsFit pmem csDisasm acts m'

theorem interpreter_inside (pmem : BitVec 64) : Interpreter pmem (Access.Inside pmem) := by
  constructor
  · intro pc hin h4
    refine (inside_iff hin (.inr (.inr rfl))).mpr fun hover => ?_
    -- an aligned offset below a multiple of four leaves room for a word
    have hpc := toNat_of_inPmem hin
    have hlast : 0x8000000 < offset pc + 4 := hover.2
    omega
  · intro a hin
    refine (inside_iff hin (.inl rfl)).mpr fun hover => ?_
    have ha := (toNat_of_inPmem hin).2
    have hlast : 0x8000000 < offset a + 1 := hover.2
    omega

theorem moves_act (hp : Interpreter pmem p) {act : Act} {m : Machine}
    (hpc : m.cpu.pc.toNat % 4 = 0)
    (hact : ∀ addr len, inPmem addr = true → Width len →
      (act = .read addr len ∨ ∃ data, act = .write addr len data) →
        p ⟨guestToHost pmem addr, len⟩) : Moves (Uses p) (act.run pmem csDisasm) m := by
  cases act with
  | exec n => exact moves_cpuExec hp n hpc
  | read addr len =>
    exact moves_bind (uses_paddrRead (fun hin hl => hact addr len hin hl (.inl rfl)) m)
      fun _ _ _ => moves_pure _ _
  | write addr len data =>
    exact uses_paddrWrite (fun hin hl => hact addr len hin hl (.inr ⟨data, rfl⟩)) data m

theorem moves_act_inside {act : Act} {m : Machine} (hpc : m.cpu.pc.toNat % 4 = 0)
    (hfit : act.Fits) : Moves (Uses (Access.Inside pmem)) (act.run pmem csDisasm) m := by
  refine moves_act (interpreter_inside pmem) hpc fun addr len hin hl hact => ?_
  rcases hact with rfl | ⟨data, rfl⟩
  · exact (inside_iff hin hl).mpr (hfit hl)
  · exact (inside_iff hin hl).mpr (hfit hl)

theorem moves_act_any {act : Act} {m : Machine} (hpc : m.cpu.pc.toNat % 4 = 0) :
    Moves (Uses fun _ => True) (act.run pmem csDisasm) m :=
  moves_act ⟨fun _ _ _ => trivial, fun _ _ => trivial⟩ hpc fun _ _ _ _ _ => trivial

theorem moves_runActs_inside (acts : List Act) {m : Machine} (hpc : m.cpu.pc.toNat % 4 = 0)
    (hfit : ActsFit pmem csDisasm acts m) :
    Moves (Uses (Access.Inside pmem)) (runActs pmem csDisasm acts) m := by
  induction acts generalizing m with
  | nil => exact moves_pure _ m
  | cons act acts ih =>
    have hact : Moves (Uses (Access.Inside pmem)) (act.run pmem csDisasm) m :=
      moves_act_inside hpc hfit.1
    refine moves_bind hact fun u m' hm => ih ?_ (hfit.2 m' hm)
    unfold Moves at hact
    rw [hm] at hact
    exact hact.aligned hpc

theorem moves_runActs_any (acts : List Act) {m : Machine} (hpc : m.cpu.pc.toNat % 4 = 0) :
    Moves (Uses fun _ => True) (runActs pmem csDisasm acts) m := by
  induction acts generalizing m with
  | nil => exact moves_pure _ m
  | cons act acts ih =>
    have hact : Moves (Uses fun _ => True) (act.run pmem csDisasm) m := moves_act_any hpc
    refine moves_bind hact fun u m' hm => ih ?_
    unfold Moves at hact
    rw [hm] at hact
    exact hact.aligned hpc

theorem Confined.of_uses {m m' : Machine} (h : Uses p m m') (hc : Confined pmem m') :
    Confined pmem m := by
  obtain ⟨l, ht, -, -⟩ := h.accesses
  intro a ha
  refine hc a ?_
  rw [ht]
  exact List.mem_append_right l ha

theorem Confined.uses {m m' : Machine} (hc : Confined pmem m)
    (h : Uses (Access.Inside pmem) m m') : Confined pmem m' := by
  obtain ⟨l, ht, hl, -⟩ := h.accesses
  intro a ha
  rw [ht] at ha
  rcases List.mem_append.mp ha with ha | ha
  · exact hl a ha
  · exact hc a ha

theorem fits_of_confined {act : Act} {m : Machine}
    (hc : Confined pmem (finalState (act.run pmem csDisasm m))) : act.Fits := by
  cases act with
  | exec n => trivial
  | read addr len =>
    intro hl hover
    have hread : Act.run pmem csDisasm (.read addr len) m =
        .ok () (m.touching (guestToHost pmem addr) len) := by
      rw [Act.run, bind_of_ok ((paddrRead_in hover.1 len m).trans (hostRead_eq hl _ m))]
      rfl
    rw [hread] at hc
    exact (inside_iff hover.1 hl).mp (hc _ List.mem_cons_self) hover
  | write addr len data =>
    intro hl hover
    have hwrite := (paddrWrite_in hover.1 len data m).trans
      (hostWrite_eq hl (guestToHost pmem addr) data m)
    rw [Act.run, hwrite] at hc
    exact (inside_iff hover.1 hl).mp (hc _ List.mem_cons_self) hover

theorem actsFit_of_confined (acts : List Act) {m : Machine} (hpc : m.cpu.pc.toNat % 4 = 0)
    (hc : Confined pmem (finalState (runActs pmem csDisasm acts m))) :
    ActsFit pmem csDisasm acts m := by
  induction acts generalizing m with
  | nil => trivial
  | cons act acts ih =>
    have hact : Moves (Uses fun _ => True) (act.run pmem csDisasm) m := moves_act_any hpc
    unfold Moves at hact
    cases hm : act.run pmem csDisasm m with
    | error e m' =>
      rw [runActs, bind_of_error hm] at hc
      have hend : Confined pmem (finalState (act.run pmem csDisasm m)) := by
        rw [hm]
        exact hc
      refine ⟨fits_of_confined hend, fun t ht => ?_⟩
      cases hm.symm.trans ht
    | ok u m' =>
      rw [hm] at hact
      rw [runActs, bind_of_ok hm] at hc
      have hpc' := hact.aligned hpc
      have hend : Confined pmem (finalState (act.run pmem csDisasm m)) := by
        rw [hm]
        exact hc.of_uses (moves_runActs_any acts hpc')
      refine ⟨fits_of_confined hend, fun t ht => ?_⟩
      cases hm.symm.trans ht
      exact ih hpc' hc

/-- The machine `init_isa` leaves. -/
def isaMachine (pmem : BitVec 64) (m : Machine) : Machine :=
  { m.touching (guestToHost pmem resetVector) (4 * img.length) with
    cpu := ⟨Function.update m.cpu.gpr 0 0, resetVector⟩
    host := overlay m.host (guestToHost pmem resetVector) (4 * img.length) imgByte }

theorem initIsa_eq (m : Machine) : initIsa pmem m = .ok () (isaMachine pmem m) := rfl

theorem isaMachine_aligned (m : Machine) : (isaMachine pmem m).cpu.pc.toNat % 4 = 0 := by
  show resetVector.toNat % 4 = 0
  decide

theorem isaMachine_uses (hp : p ⟨guestToHost pmem resetVector, 4 * img.length⟩) (m : Machine) :
    Uses p m (isaMachine pmem m) := by
  refine ⟨⟨[_], rfl, fun a ha => ?_, fun b hb => ?_⟩,
    fun _ => isaMachine_aligned m⟩
  · rw [List.mem_singleton.mp ha]
    exact hp
  · have hout := hb ⟨guestToHost pmem resetVector, 4 * img.length⟩ (List.mem_singleton_self _)
    exact overlay_out m.host imgByte hout

theorem moves_initMonitor {fopen : String → Option ImgFile} {imgFile : Option String}
    (hp : p ⟨guestToHost pmem resetVector, 4 * img.length⟩)
    (himg : ∀ path fp, imgFile = some path → fopen path = some fp →
      p ⟨guestToHost pmem resetVector, fp.size⟩) (m : Machine) :
    Moves (Uses p) (initMonitor pmem fopen imgFile) m := by
  have hisa : Moves (Uses p) (initIsa pmem) m := isaMachine_uses hp m
  exact moves_bind hisa fun _ m' _ => moves_bind (moves_loadImg himg m') fun _ _ _ => moves_pure _ _

theorem initMonitor_aligned {fopen : String → Option ImgFile} {imgFile : Option String}
    {m m' : Machine} (h : initMonitor pmem fopen imgFile m = .ok () m') :
    m'.cpu.pc.toNat % 4 = 0 := by
  obtain ⟨u, t, hisa, hrest⟩ := bind_eq_ok h
  cases (initIsa_eq m).symm.trans hisa
  have hload : Moves (Uses fun _ => True) (loadImg pmem fopen imgFile) (isaMachine pmem m) :=
    moves_loadImg (fun _ _ _ _ => trivial) _
  obtain ⟨size, t', ht', hend⟩ := bind_eq_ok hrest
  cases hend
  unfold Moves at hload
  rw [ht'] at hload
  exact hload.aligned (isaMachine_aligned m)

theorem inside_img : Access.Inside pmem ⟨guestToHost pmem resetVector, 4 * img.length⟩ := by
  intro b hb
  refine Nat.lt_of_lt_of_le ((covers_image _ b).mp hb) ?_
  decide

theorem moves_nemu {fopen : String → Option ImgFile} {imgFile : Option String} {acts : List Act}
    {m : Machine} (himg : ImageFits fopen imgFile)
    (hacts : ∀ m', initMonitor pmem fopen imgFile m = .ok () m' → ActsFit pmem csDisasm acts m') :
    Moves (Uses (Access.Inside pmem)) (nemu pmem csDisasm fopen imgFile acts) m := by
  have hboot : Moves (Uses (Access.Inside pmem)) (initMonitor pmem fopen imgFile) m :=
    moves_initMonitor inside_img
      (fun path fp hpath hopen => (inside_image_iff fp).mpr (himg path fp hpath hopen)) m
  exact moves_bind hboot fun _ m' hm =>
    moves_runActs_inside acts (initMonitor_aligned hm) (hacts m' hm)

theorem ActsFit.append {l k : List Act} {m : Machine} (h : ActsFit pmem csDisasm (l ++ k) m) :
    ActsFit pmem csDisasm l m ∧
      ∀ m', runActs pmem csDisasm l m = .ok () m' → ActsFit pmem csDisasm k m' := by
  induction l generalizing m with
  | nil =>
    refine ⟨trivial, fun m' hm => ?_⟩
    cases hm
    exact h
  | cons act l ih =>
    refine ⟨⟨h.1, fun m' hm => (ih (h.2 m' hm)).1⟩, fun m' hm => ?_⟩
    obtain ⟨u, t, hact, hrest⟩ := bind_eq_ok hm
    exact (ih (h.2 t hact)).2 m' hrest

/-- All bytes of the access are between `PMEM_LEFT` and `PMEM_RIGHT`. -/
def WhollyIn (addr : Word) (len : Nat) : Prop :=
  pmemLeft.toNat ≤ addr.toNat ∧ addr.toNat + len ≤ pmemRight.toNat + 1

/-- The access is wholly in `pmem` or ends in `out_of_bound`. -/
def Act.Disposed (pmem : BitVec 64) (m : Machine) : Act → Prop
  | .exec _ => True
  | .read addr len => Width len → WhollyIn addr len ∨
    ∃ e, outOfBound addr m = .error e m ∧ paddrRead pmem addr len m = .error e m
  | .write addr len data => Width len → WhollyIn addr len ∨
    ∃ e, outOfBound addr m = .error e m ∧ paddrWrite pmem addr len data m = .error e m

theorem whollyIn_of_fits {addr : Word} {len : Nat} (hin : inPmem addr = true)
    (h : ¬Overruns addr len) : WhollyIn addr len := by
  have haddr := toNat_of_inPmem hin
  have hfit : ¬0x8000000 < offset addr + len := fun hlt => h ⟨hin, hlt⟩
  have hleft : pmemLeft.toNat = 0x80000000 := by decide
  have hright : pmemRight.toNat = 0x87ffffff := by decide
  rw [WhollyIn, hleft, hright]
  omega

theorem Act.Fits.disposed {act : Act} (h : act.Fits) (m : Machine) : act.Disposed pmem m := by
  cases act with
  | exec n => trivial
  | read addr len =>
    intro hl
    cases hin : inPmem addr with
    | false => exact .inr (paddrRead_out hin len m)
    | true => exact .inl (whollyIn_of_fits hin (h hl))
  | write addr len data =>
    intro hl
    cases hin : inPmem addr with
    | false => exact .inr (paddrWrite_out hin len data m)
    | true => exact .inl (whollyIn_of_fits hin (h hl))

/-- Confinement of a process: in every state it reaches the bytes used so far are in the array
and no others have changed; every access is wholly in `pmem` or refused; an image too large is
refused. -/
structure Safe (pmem : BitVec 64) (csDisasm : Word → Word → Nat) (fopen : String → Option ImgFile)
    (imgFile : Option String) (acts : List Act) (m : Machine) : Prop where
  bytes : ∀ past, past <+: acts →
    Confined pmem (finalState (nemu pmem csDisasm fopen imgFile past m))
  others : ∀ past, past <+: acts → ∀ b, ¬InArray pmem b →
    (finalState (nemu pmem csDisasm fopen imgFile past m)).host b = m.host b
  accesses : ∀ past act rest m', acts = past ++ act :: rest →
    nemu pmem csDisasm fopen imgFile past m = .ok () m' → act.Disposed pmem m'
  image : ∀ path fp, imgFile = some path → fopen path = some fp →
    configMsize.toNat < offset resetVector + fp.size →
      ∀ m', ∃ e m'', loadImg pmem fopen imgFile m' = .error e m''

theorem imageFits_of_confined {fopen : String → Option ImgFile} {imgFile : Option String}
    {acts : List Act} {m : Machine}
    (hc : Confined pmem (finalState (nemu pmem csDisasm fopen imgFile acts m))) :
    ImageFits fopen imgFile := by
  rintro path fp rfl hopen
  by_cases hsize : fp.size = 0
  · rw [hsize]
    decide
  · have hboot : initMonitor pmem fopen (some path) m = .ok ()
        { (isaMachine pmem m).touching (guestToHost pmem resetVector) fp.size with
          host := overlay (isaMachine pmem m).host (guestToHost pmem resetVector) fp.size
            fp.byte } := by
      rw [initMonitor, bind_of_ok (initIsa_eq m), bind_of_ok (loadImg_eq hopen hsize _)]
      rfl
    rw [nemu, bind_of_ok hboot] at hc
    have hloaded := hc.of_uses (moves_runActs_any acts (initMonitor_aligned hboot))
    exact (inside_image_iff fp).mp (hloaded _ List.mem_cons_self)

/-- Exactly the runs whose image fits and whose accesses do not run over the end are confined. -/
theorem nemu_safe_iff (pmem : BitVec 64) (csDisasm : Word → Word → Nat)
    (fopen : String → Option ImgFile) (imgFile : Option String) (acts : List Act) (m : Machine)
    (hstart : m.touched = []) :
    Safe pmem csDisasm fopen imgFile acts m ↔ ImageFits fopen imgFile ∧
      ∀ m', initMonitor pmem fopen imgFile m = .ok () m' → ActsFit pmem csDisasm acts m' := by
  constructor
  · intro hsafe
    have hc := hsafe.bytes acts List.prefix_rfl
    refine ⟨imageFits_of_confined hc, fun m' hm => ?_⟩
    rw [nemu, bind_of_ok hm] at hc
    exact actsFit_of_confined acts (initMonitor_aligned hm) hc
  · rintro ⟨himg, hacts⟩
    have hpast : ∀ past, past <+: acts →
        Uses (Access.Inside pmem) m (finalState (nemu pmem csDisasm fopen imgFile past m)) := by
      rintro past ⟨rest, rfl⟩
      exact moves_nemu himg fun m' hm => (hacts m' hm).append.1
    have hnone : Confined pmem m := by
      intro a ha
      rw [hstart] at ha
      cases ha
    refine ⟨fun past h => hnone.uses (hpast past h), fun past h b hb => ?_,
      fun past act rest m' hsplit hm => ?_, fun path fp hpath hopen hbig => ?_⟩
    · obtain ⟨l, -, hl, hhost⟩ := (hpast past h).accesses
      exact hhost b fun a ha hcov => hb (hl a ha b hcov)
    · obtain ⟨u, t, hboot, hrun⟩ := bind_eq_ok hm
      subst hsplit
      exact (((hacts t hboot).append.2 m' hrun).1).disposed m'
    · exact absurd (himg path fp hpath hopen) (Nat.not_le_of_lt hbig)

/-- A machine at start-up. -/
def startMachine : Machine := ⟨⟨fun _ => 0, 0⟩, fun _ => 0, ⟨.stop, 0, 0⟩, 0, []⟩

/-- Running the built-in image and then reading its data word is safe. -/
theorem builtin_run_safe :
    Safe 0x10000 oneInst (fun _ => none) none [.exec 4, .read 0x80000010 4] startMachine := by
  refine (nemu_safe_iff _ _ _ _ _ _ rfl).mpr ⟨fun path fp h => ?_, fun m _ => ?_⟩
  · cases h
  · refine ⟨trivial, fun m' _ => ⟨fun _ hover => ?_, fun _ _ => trivial⟩⟩
    exact absurd hover.2 (by decide)

/-- One byte more than `pmem` holds. -/
def largeImage : ImgFile := ⟨0x8000001, by decide, fun _ => 0⟩

/-- A large image is loaded past the end of `pmem`, and a word read at the last byte is not
refused. -/
theorem pmem_end_escapes :
    ¬Safe 0x10000 oneInst (fun _ => some largeImage) (some "large.bin") [] startMachine ∧
      ¬Safe 0x10000 oneInst (fun _ => none) none [.read 0x87ffffff 4] startMachine := by
  constructor
  · intro hsafe
    have hfit := imageFits_of_confined (hsafe.bytes [] List.prefix_rfl) "large.bin" largeImage rfl rfl
    exact absurd hfit (by decide)
  · intro hsafe
    have hboot : initMonitor 0x10000 (fun _ => none) none startMachine =
        .ok () (isaMachine 0x10000 startMachine) := rfl
    have hc := hsafe.bytes _ List.prefix_rfl
    rw [nemu, bind_of_ok hboot] at hc
    have hfit := (actsFit_of_confined _ (isaMachine_aligned _) hc).1 (.inr (.inr rfl))
    exact hfit ⟨by decide, by decide⟩

end Riscv32Cpu.Nemu.Confinement
