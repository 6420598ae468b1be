/- module: Riscv32Cpu/Nemu/Keyboard
   source: CODE/nemu/src/device/keyboard.c, src/device/io/map.c
   digest: The key queue behind the i8042 data port is a bounded first-in first-out list. -/

import Riscv32Cpu.Lib.Ring
import Riscv32Cpu.Lib.Trace
import Riscv32Cpu.Nemu.Memory
import Riscv32Cpu.Sdl.Keymap

set_option autoImplicit false
set_option relaxedAutoImplicit false

namespace Riscv32Cpu.Nemu.Keyboard

open Riscv32Cpu.Lib.Effect Riscv32Cpu.Lib.Ring Riscv32Cpu.Lib.Trace Riscv32Cpu.Isa.Rv32i
open Riscv32Cpu.Nemu.Memory (RunState)
open Riscv32Cpu.Sdl (nrKeys keymap sdlScancodeOf)

def keydownMask : Word := 0x8000
def keyQueueLen : Nat := 1024

def nemuKeyNone : Word := 0

/-- The globals of `keyboard.c`, and the state that `send_key` looks at. -/
structure Device where
  nemuState : RunState
  queue : Buffer Word
  i8042DataPortBase : Word

abbrev K := EStateM String Device

def overflow : String := "key queue overflow!"

def keyEnqueue (amScancode : Word) : K Unit := do
  modify fun k => { k with queue := k.queue.put keyQueueLen amScancode }
  let k ← get
  ensure (k.queue.rear ≠ k.queue.front) overflow

def keyDequeue : K Word := do
  let k ← get
  match k.queue.take keyQueueLen with
  | none => return nemuKeyNone
  | some (key, queue) =>
    set { k with queue := queue }
    return key

def i8042DataIoHandler (offset : Word) (_len : Nat) (isWrite : Bool) : K Unit := do
  ensure (isWrite = false) "Assertion \x60!is_write' failed."
  ensure (offset = 0) "Assertion \x60offset == 0' failed."
  let key ← keyDequeue
  modify fun k => { k with i8042DataPortBase := key }

/-- `map_read` of the whole port: the handler, then `host_read` of the four bytes. -/
def readPort : K Word := do
  i8042DataIoHandler 0 4 false
  return (← get).i8042DataPortBase

section

variable (sdlScancode : Fin nrKeys → BitVec 8)

/-- The guard of `send_key`. -/
def Accepts (k : Device) (scancode : BitVec 8) : Prop :=
  k.nemuState = .running ∧ keymap sdlScancode scancode ≠ nemuKeyNone

instance (k : Device) (scancode : BitVec 8) : Decidable (Accepts sdlScancode k scancode) :=
  inferInstanceAs (Decidable (_ ∧ _))

def amScancode (scancode : BitVec 8) (isKeydown : Bool) : Word :=
  keymap sdlScancode scancode ||| if isKeydown then keydownMask else 0

def sendKey (scancode : BitVec 8) (isKeydown : Bool) : K Unit := do
  let k ← get
  if Accepts sdlScancode k scancode then keyEnqueue (amScancode sdlScancode scancode isKeydown)

/-- `state` is an assignment to `nemu_state.state`. -/
inductive Event
  | state (state : RunState)
  | sendKey (scancode : BitVec 8) (isKeydown : Bool)
  | readPort

/-- The keyboard, the codes of the accepted calls of `send_key`, and the words that the guest has
read, in order. -/
structure History where
  keyboard : Device
  accepted : List Word
  words : List Word

/-- `init_i8042` has run, and `nemu_state` has its initializer. -/
def start : History := ⟨⟨.stop, ⟨fun _ => 0, 0, 0⟩, nemuKeyNone⟩, [], []⟩

/-- `none` when an assertion fails. -/
def step : Event → History → Option History
  | .state state, h => some { h with keyboard := { h.keyboard with nemuState := state } }
  | .sendKey scancode isKeydown, h =>
    match sendKey sdlScancode scancode isKeydown h.keyboard with
    | .error _ _ => none
    | .ok _ k => some { h with
        keyboard := k
        accepted := h.accepted ++
          if Accepts sdlScancode h.keyboard scancode then
            [amScancode sdlScancode scancode isKeydown] else [] }
  | .readPort, h =>
    match readPort h.keyboard with
    | .error _ _ => none
    | .ok word k => some { h with keyboard := k, words := h.words ++ [word] }

end

variable {sdlScancode : Fin nrKeys → BitVec 8}

theorem amScancode_ne_none {scancode : BitVec 8}
    (h : keymap sdlScancode scancode ≠ nemuKeyNone) (isKeydown : Bool) :
    amScancode sdlScancode scancode isKeydown ≠ nemuKeyNone :=
  fun hnone => h (BitVec.or_eq_zero_iff.mp hnone).1

/-- The entry is written before the test, so the entry that does not fit is in the array too. -/
theorem keyEnqueue_eq {k : Device} {pending : List Word}
    (hq : Queues keyQueueLen k.queue pending) (code : Word) :
    keyEnqueue code k =
      if pending.length + 1 = keyQueueLen then
        .error overflow { k with queue := k.queue.put keyQueueLen code }
      else .ok () { k with queue := k.queue.put keyQueueLen code } := by
  have hfull := hq.put_full_iff code
  have hcall : keyEnqueue code k =
      (ensure ((k.queue.put keyQueueLen code).rear ≠ (k.queue.put keyQueueLen code).front) overflow :
        K Unit) { k with queue := k.queue.put keyQueueLen code } := rfl
  rw [hcall, ensure]
  by_cases hlen : pending.length + 1 = keyQueueLen
  · rw [if_pos hlen, if_neg (not_not_intro (hfull.mpr hlen))]
    rfl
  · rw [if_neg hlen, if_pos fun h => hlen (hfull.mp h)]
    rfl

theorem sendKey_eq {k : Device} {pending : List Word}
    (hq : Queues keyQueueLen k.queue pending) (scancode : BitVec 8) (isKeydown : Bool) :
    sendKey sdlScancode scancode isKeydown k =
      if Accepts sdlScancode k scancode then
        let next := { k with
          queue := k.queue.put keyQueueLen (amScancode sdlScancode scancode isKeydown) }
        if pending.length + 1 = keyQueueLen then .error overflow next else .ok () next
      else .ok () k := by
  show (if Accepts sdlScancode k scancode then keyEnqueue _ else pure () : K Unit) k = _
  by_cases hacc : Accepts sdlScancode k scancode
  · rw [if_pos hacc, if_pos hacc, keyEnqueue_eq hq]
  · rw [if_neg hacc, if_neg hacc]
    rfl

theorem sendKey_overflow_iff {k : Device} {pending : List Word}
    (hq : Queues keyQueueLen k.queue pending) (scancode : BitVec 8) (isKeydown : Bool) :
    (∃ k', sendKey sdlScancode scancode isKeydown k = .error overflow k') ↔
      Accepts sdlScancode k scancode ∧ pending.length + 1 = keyQueueLen := by
  rw [sendKey_eq hq]
  by_cases hacc : Accepts sdlScancode k scancode
  · rw [if_pos hacc]
    dsimp only
    by_cases hfull : pending.length + 1 = keyQueueLen
    · rw [if_pos hfull]
      exact iff_of_true ⟨_, rfl⟩ ⟨hacc, hfull⟩
    · rw [if_neg hfull]
      exact iff_of_false (fun ⟨_, hok⟩ => nomatch hok) fun h => hfull h.2
  · rw [if_neg hacc]
    exact iff_of_false (fun ⟨_, hok⟩ => nomatch hok) fun h => hacc h.1

theorem sendKey_error {k k' : Device} {pending : List Word} {e : String}
    (hq : Queues keyQueueLen k.queue pending) {scancode : BitVec 8} {isKeydown : Bool}
    (h : sendKey sdlScancode scancode isKeydown k = .error e k') : e = overflow := by
  rw [sendKey_eq hq] at h
  dsimp only at h
  split at h
  · split at h
    · cases h
      rfl
    · cases h
  · cases h

theorem sendKey_entry {k : Device} {pending : List Word} (hq : Queues keyQueueLen k.queue pending)
    (scancode : BitVec 8) (isKeydown : Bool) {i : Nat} (hi : i < pending.length) :
    (finalState (sendKey sdlScancode scancode isKeydown k)).queue.buf
      ((k.queue.front + i) % keyQueueLen) = pending[i] := by
  have hkeep := hq.put_entry (amScancode sdlScancode scancode isKeydown) hi
  rw [sendKey_eq hq]
  dsimp only
  split
  · split
    · exact hkeep
    · exact hkeep
  · exact hq.entry i hi

theorem keyDequeue_eq {k : Device} {pending : List Word}
    (hq : Queues keyQueueLen k.queue pending) :
    ∃ queue, Queues keyQueueLen queue pending.tail ∧
      keyDequeue k = .ok (pending.headD nemuKeyNone) { k with queue := queue } := by
  have hcall : keyDequeue k = (match k.queue.take keyQueueLen with
    | none => (return nemuKeyNone : K Word)
    | some (key, queue) => do
      set { k with queue := queue }
      return key) k := rfl
  rw [hcall]
  cases pending with
  | nil =>
    rw [hq.take_nil]
    exact ⟨k.queue, hq, rfl⟩
  | cons code pending =>
    obtain ⟨queue, htake, hqueue⟩ := hq.take_cons
    rw [htake]
    exact ⟨queue, hqueue, rfl⟩

theorem readPort_eq {k : Device} {pending : List Word}
    (hq : Queues keyQueueLen k.queue pending) :
    ∃ queue, Queues keyQueueLen queue pending.tail ∧
      readPort k = .ok (pending.headD nemuKeyNone) ⟨k.nemuState, queue, pending.headD nemuKeyNone⟩ := by
  obtain ⟨queue, hqueue, hcall⟩ := keyDequeue_eq hq
  have hhandler : i8042DataIoHandler 0 4 false k =
      .ok () ⟨k.nemuState, queue, pending.headD nemuKeyNone⟩ := by
    have hchecked : i8042DataIoHandler 0 4 false k =
        (keyDequeue >>= fun key => modify fun k => { k with i8042DataPortBase := key }) k := rfl
    rw [hchecked, bind_of_ok hcall]
    rfl
  refine ⟨queue, hqueue, ?_⟩
  rw [readPort, bind_of_ok hhandler]
  rfl

/-- What waits in the queue is what was accepted and not read yet. -/
structure Waiting (h : History) (pending : List Word) : Prop where
  split : h.accepted = h.words.filter (· ≠ nemuKeyNone) ++ pending
  queue : Queues keyQueueLen h.keyboard.queue pending
  coded : ∀ code ∈ pending, code ≠ nemuKeyNone

theorem waiting_start : Waiting start [] :=
  ⟨rfl, queues_nil (by decide) rfl, fun _ h => absurd h List.not_mem_nil⟩

theorem Waiting.headD_eq_none_iff {h : History} {pending : List Word} (hw : Waiting h pending) :
    pending.headD nemuKeyNone = nemuKeyNone ↔ pending = [] := by
  cases pending with
  | nil => exact iff_of_true rfl rfl
  | cons code pending =>
    exact iff_of_false (hw.coded code List.mem_cons_self) (List.cons_ne_nil code pending)

theorem Waiting.sendKey {h h' : History} {pending : List Word} (hw : Waiting h pending)
    {scancode : BitVec 8} {isKeydown : Bool}
    (hstep : step sdlScancode (.sendKey scancode isKeydown) h = some h') :
    ∃ pending', Waiting h' pending' := by
  rw [step, sendKey_eq hw.queue] at hstep
  by_cases hacc : Accepts sdlScancode h.keyboard scancode
  · rw [if_pos hacc] at hstep
    by_cases hfull : pending.length + 1 = keyQueueLen
    · rw [if_pos hfull] at hstep
      cases hstep
    · rw [if_neg hfull, if_pos hacc] at hstep
      cases hstep
      have hlt := hw.queue.length_lt
      refine ⟨pending ++ [amScancode sdlScancode scancode isKeydown], ?_,
        hw.queue.put (by omega) _, fun code hcode => ?_⟩
      · show h.accepted ++ _ = _
        rw [hw.split, List.append_assoc]
      · rcases List.mem_append.mp hcode with hcode | hcode
        · exact hw.coded code hcode
        · rw [List.mem_singleton.mp hcode]
          exact amScancode_ne_none hacc.2 isKeydown
  · rw [if_neg hacc, if_neg hacc] at hstep
    cases hstep
    refine ⟨pending, ?_, hw.queue, hw.coded⟩
    show h.accepted ++ [] = _
    rw [List.append_nil, hw.split]

theorem Waiting.readPort {h h' : History} {pending : List Word} (hw : Waiting h pending)
    (hstep : step sdlScancode .readPort h = some h') : Waiting h' pending.tail := by
  obtain ⟨queue, hqueue, hread⟩ := readPort_eq hw.queue
  rw [step, hread] at hstep
  cases hstep
  refine ⟨?_, hqueue, fun code hcode => hw.coded code (List.mem_of_mem_tail hcode)⟩
  show h.accepted = (h.words ++ [pending.headD nemuKeyNone]).filter (· ≠ nemuKeyNone) ++ _
  rw [hw.split, List.filter_append, List.append_assoc]
  congr 1
  cases pending with
  | nil => rfl
  | cons code pending =>
    have hkept : decide (code ≠ nemuKeyNone) = true :=
      decide_eq_true (hw.coded code List.mem_cons_self)
    show code :: pending = List.filter _ [code] ++ pending
    rw [List.filter_cons_of_pos (p := fun w : Word => decide (w ≠ nemuKeyNone)) hkept]
    rfl

theorem step_waiting (e : Event) (h h' : History) (hw : ∃ pending, Waiting h pending)
    (hstep : step sdlScancode e h = some h') : ∃ pending, Waiting h' pending := by
  obtain ⟨pending, hw⟩ := hw
  cases e with
  | state state =>
    cases hstep
    exact ⟨pending, hw.split, hw.queue, hw.coded⟩
  | sendKey scancode isKeydown => exact hw.sendKey hstep
  | readPort => exact ⟨_, hw.readPort hstep⟩

/-- `pending` is what the queue holds after `h`, and how the next calls treat it. -/
structure BoundedFifo (sdlScancode : Fin nrKeys → BitVec 8) (h : History)
    (pending : List Word) : Prop where
  /-- The non-zero words read so far are the accepted codes, in order, up to the pending ones. -/
  inOrder : h.accepted = h.words.filter (· ≠ nemuKeyNone) ++ pending
  reads : ∃ k, readPort h.keyboard = .ok (pending.headD nemuKeyNone) k
  zero : pending.headD nemuKeyNone = nemuKeyNone ↔ pending = []
  asserts : ∀ scancode isKeydown,
    (∃ k, sendKey sdlScancode scancode isKeydown h.keyboard = .error overflow k) ↔
      Accepts sdlScancode h.keyboard scancode ∧ pending.length + 1 = 1024
  fails : ∀ scancode isKeydown e k,
    sendKey sdlScancode scancode isKeydown h.keyboard = .error e k → e = overflow
  /-- No call of `send_key` overwrites a pending event. -/
  keeps : ∀ scancode isKeydown i (hi : i < pending.length),
    (finalState (sendKey sdlScancode scancode isKeydown h.keyboard)).queue.buf
      ((h.keyboard.queue.front + i) % 1024) = pending[i]

/-- After every run that no assertion ended, the queue is a bounded first-in first-out list. -/
theorem keyboard_bounded_fifo (sdlScancode : Fin nrKeys → BitVec 8) (events : List Event)
    (h : History) (hrun : play (step sdlScancode) events start = some h) :
    ∃ pending, BoundedFifo sdlScancode h pending := by
  obtain ⟨pending, hw⟩ := play_invariant_all (p := fun h => ∃ pending, Waiting h pending)
    step_waiting hrun ⟨[], waiting_start⟩
  obtain ⟨queue, -, hread⟩ := readPort_eq hw.queue
  exact ⟨pending, hw.split, ⟨_, hread⟩, hw.headD_eq_none_iff, sendKey_overflow_iff hw.queue,
    fun _ _ _ _ => sendKey_error hw.queue, fun scancode isKeydown i hi =>
      sendKey_entry hw.queue scancode isKeydown hi⟩

/-- The key A is pressed while the guest runs and released while it does not; the guest reads twice. -/
def pressA : List Event :=
  [.state .running, .sendKey 4 true, .state .stop, .sendKey 4 false, .readPort, .readPort]

def afterPressA : History :=
  ⟨⟨.stop, ⟨Function.update (fun _ => 0) 0 0x802b, 1, 1⟩, 0⟩, [0x802b], [0x802b, 0]⟩

theorem play_pressA : play (step sdlScancodeOf) pressA start = some afterPressA := rfl

theorem pressA_bounded_fifo : ∃ pending, BoundedFifo sdlScancodeOf afterPressA pending :=
  keyboard_bounded_fifo sdlScancodeOf pressA afterPressA play_pressA

end Riscv32Cpu.Nemu.Keyboard
