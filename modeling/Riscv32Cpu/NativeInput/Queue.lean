/- module: Riscv32Cpu/NativeInput/Queue
   source: CODE/abstract-machine/am/src/native/ioe/input.c, am/include/amdev.h
   digest: The native keyboard: an event thread that appends, a program that polls. -/

import Riscv32Cpu.Lib.Ring
import Riscv32Cpu.Lib.Trace
import Riscv32Cpu.Sdl.Keymap

set_option autoImplicit false
set_option relaxedAutoImplicit false

namespace Riscv32Cpu.NativeInput

open Lib.Ring Lib.Trace Sdl

def keydownMask : Word := 0x8000
def keyQueueLen : Nat := 1024

def amKeyNone : Word := 0

/-- `AM_INPUT_KEYBRD_T`. -/
structure Keybrd where
  keydown : Bool
  keycode : Word
  deriving DecidableEq

section

-- The constants `SDL_SCANCODE_##k`, and the `int` that lies at an index past the array `keymap`.
variable (sdlScancode : Fin nrKeys → BitVec 8) (past : Word → Word)

/-- `keymap[scancode]`, which nothing keeps inside the array. -/
def keymapAt (scancode : Word) : Word :=
  if scancode.toNat < 256 then keymap sdlScancode (scancode.setWidth 8) else past scancode

/-- The queue, and what an observer has seen: the mapped key events, and the answers of
`__am_input_keybrd`, in order. -/
structure Input where
  queue : Buffer Word
  mapped : List Keybrd
  answers : List Keybrd

def start : Input := ⟨⟨fun _ => 0, 0, 0⟩, [], []⟩

/-- A section between `SDL_LockMutex` and `SDL_UnlockMutex` is one event. -/
inductive Event
  | key (scancode : Word) (keydown : Bool)
  | keybrd
  deriving DecidableEq

/-- The `SDL_KEYDOWN` and `SDL_KEYUP` arms of `event_thread`, without the interrupt. The event is a
mapped one if its scancode has an entry. -/
def append (scancode : Word) (keydown : Bool) (s : Input) : Input :=
  if keymapAt sdlScancode past scancode ≠ 0 then
    let amCode := keymapAt sdlScancode past scancode ||| if keydown then keydownMask else 0
    { s with
      queue := s.queue.put keyQueueLen amCode
      mapped := if scancode.toNat < 256 then
          s.mapped ++ [⟨keydown, keymapAt sdlScancode past scancode⟩]
        else s.mapped }
  else s

/-- The answer that `__am_input_keybrd` takes apart `k` to. -/
def answer (k : Word) : Keybrd := ⟨k &&& keydownMask ≠ 0, k &&& ~~~keydownMask⟩

def amInputKeybrd (s : Input) : Input :=
  match s.queue.take keyQueueLen with
  | none => { s with answers := s.answers ++ [answer amKeyNone] }
  | some (k, queue) => { s with queue := queue, answers := s.answers ++ [answer k] }

def step : Event → Input → Option Input
  | .key scancode keydown, s => some (append sdlScancode past scancode keydown s)
  | .keybrd, s => some (amInputKeybrd s)

end

/-- The key events among the answers. -/
def Input.returned (s : Input) : List Keybrd := s.answers.filter (·.keycode ≠ amKeyNone)

/-- The scancode has an entry, and fewer than 1023 mapped events wait when one more is appended. -/
def Room (sdlScancode : Fin nrKeys → BitVec 8) : Event → Input → Prop
  | .key scancode _, s => scancode.toNat < 256 ∧
    (keymap sdlScancode (scancode.setWidth 8) ≠ 0 → s.mapped.length < s.returned.length + 1023)
  | .keybrd, _ => True

instance (sdlScancode : Fin nrKeys → BitVec 8) :
    (e : Event) → (s : Input) → Decidable (Room sdlScancode e s)
  | .key scancode _, s => inferInstanceAs (Decidable (scancode.toNat < 256 ∧
    (keymap sdlScancode (scancode.setWidth 8) ≠ 0 → s.mapped.length < s.returned.length + 1023)))
  | .keybrd, _ => inferInstanceAs (Decidable True)

variable {sdlScancode : Fin nrKeys → BitVec 8} {past : Word → Word}

/-- The word that stands for a key event in the queue. -/
def Keybrd.code (e : Keybrd) : Word := e.keycode ||| if e.keydown then keydownMask else 0

/-- An event that the queue can hold. -/
def Keybrd.Valid (e : Keybrd) : Prop := e.keycode ≠ 0 ∧ e.keycode.toNat ≤ nrKeys

theorem answer_code {e : Keybrd} (h : e.Valid) : answer e.code = e := by
  obtain ⟨keydown, keycode⟩ := e
  have hle : keycode.toNat ≤ 82 := h.2
  have hmask : ∀ i < 32, keydownMask.getLsbD i = decide (i = 15) := by decide
  have hbit : keycode.getLsbD 15 = false := by
    exact Nat.testBit_lt_two_pow (by omega)
  have hclear : keycode &&& keydownMask = 0 := by
    apply BitVec.eq_of_getLsbD_eq
    intro i hi
    rw [BitVec.getLsbD_and, hmask i hi]
    by_cases h15 : i = 15
    · rw [h15, hbit]
      rfl
    · simp [h15]
  have hkeep : keycode &&& ~~~keydownMask = keycode := by
    apply BitVec.eq_of_getLsbD_eq
    intro i hi
    rw [BitVec.getLsbD_and, BitVec.getLsbD_not, hmask i hi]
    by_cases h15 : i = 15
    · rw [h15, hbit]
      rfl
    · simp [h15, hi]
  cases keydown with
  | false =>
    show answer (keycode ||| 0#32) = _
    rw [BitVec.or_zero, answer, hclear, hkeep]
    rfl
  | true =>
    have hself : keydownMask &&& ~~~keydownMask = 0#32 := by decide
    show answer (keycode ||| keydownMask) = _
    rw [answer, BitVec.and_or_distrib_right, BitVec.and_or_distrib_right, hclear, hkeep, hself,
      BitVec.or_zero]
    rfl

/-- The mapped events that were not returned yet are in the queue, in order. -/
structure Waiting (s : Input) (pending : List Keybrd) : Prop where
  split : s.mapped = s.returned ++ pending
  queue : Queues keyQueueLen s.queue (pending.map Keybrd.code)
  valid : ∀ e ∈ pending, e.Valid

theorem waiting_start : Waiting start [] :=
  ⟨rfl, queues_nil (by decide) rfl, fun _ he => absurd he List.not_mem_nil⟩

theorem append_eq {scancode : Word} (h : scancode.toNat < 256) (keydown : Bool) (s : Input) :
    append sdlScancode past scancode keydown s =
      if keymap sdlScancode (scancode.setWidth 8) ≠ 0 then
        { s with
          queue := s.queue.put keyQueueLen
            (Keybrd.code ⟨keydown, keymap sdlScancode (scancode.setWidth 8)⟩)
          mapped := s.mapped ++ [⟨keydown, keymap sdlScancode (scancode.setWidth 8)⟩] }
      else s := by
  rw [append, keymapAt, if_pos h, if_pos h]
  rfl

theorem Waiting.append {s : Input} {pending : List Keybrd} (h : Waiting s pending)
    {scancode : Word} {keydown : Bool} (hroom : Room sdlScancode (.key scancode keydown) s) :
    ∃ pending', Waiting (append sdlScancode past scancode keydown s) pending' := by
  obtain ⟨hentry, hroom⟩ := hroom
  rw [append_eq hentry]
  by_cases hkey : keymap sdlScancode (scancode.setWidth 8) ≠ 0
  · have hlen : (pending.map Keybrd.code).length + 1 < keyQueueLen := by
      have hroom := hroom hkey
      rw [h.split, List.length_append] at hroom
      rw [List.length_map]
      show pending.length + 1 < 1024
      omega
    have hput := h.queue.put hlen
      (Keybrd.code ⟨keydown, keymap sdlScancode (scancode.setWidth 8)⟩)
    rw [if_pos hkey]
    refine ⟨pending ++ [⟨keydown, keymap sdlScancode (scancode.setWidth 8)⟩], ?_, ?_,
      fun e he => ?_⟩
    · show s.mapped ++ _ = s.returned ++ _
      rw [h.split, List.append_assoc]
    · rw [List.map_append]
      exact hput
    · rcases List.mem_append.mp he with he | he
      · exact h.valid e he
      · rw [List.mem_singleton.mp he]
        exact ⟨hkey, keymap_le sdlScancode _⟩
  · rw [if_neg hkey]
    exact ⟨pending, h⟩

theorem Waiting.amInputKeybrd {s : Input} {pending : List Keybrd} (h : Waiting s pending) :
    ∃ e, (amInputKeybrd s).answers = s.answers ++ [e] ∧ (e.keycode = amKeyNone ↔ pending = []) ∧
      Waiting (amInputKeybrd s) pending.tail := by
  cases pending with
  | nil =>
    have hnone := h.queue.take_nil
    refine ⟨answer amKeyNone, ?_, iff_of_true rfl rfl, ?_⟩
    · rw [NativeInput.amInputKeybrd, hnone]
    · rw [NativeInput.amInputKeybrd, hnone]
      have hsame : Input.returned { s with answers := s.answers ++ [answer amKeyNone] } =
          s.returned := by
        rw [Input.returned, List.filter_append]
        exact List.append_nil _
      refine ⟨?_, h.queue, h.valid⟩
      rw [hsame]
      exact h.split
  | cons e pending =>
    obtain ⟨queue, htake, hqueue⟩ := h.queue.take_cons
    have hvalid := h.valid e List.mem_cons_self
    refine ⟨e, ?_, iff_of_false hvalid.1 (List.cons_ne_nil e pending), ?_⟩
    · rw [NativeInput.amInputKeybrd, htake]
      dsimp only
      rw [answer_code hvalid]
    · rw [NativeInput.amInputKeybrd, htake]
      have hnext : Input.returned { s with queue := queue, answers := s.answers ++ [answer e.code] } =
          s.returned ++ [e] := by
        have hkept : decide (e.keycode ≠ amKeyNone) = true := decide_eq_true hvalid.1
        rw [Input.returned, List.filter_append, answer_code hvalid,
          List.filter_cons_of_pos (p := fun a : Keybrd => decide (a.keycode ≠ amKeyNone)) hkept]
        rfl
      refine ⟨?_, hqueue, fun e' he' => h.valid e' (List.mem_cons_of_mem e he')⟩
      rw [hnext, List.append_assoc]
      exact h.split

theorem step_waiting (event : Event) (s t : Input) (hs : ∃ pending, Waiting s pending)
    (hroom : Room sdlScancode event s) (h : step sdlScancode past event s = some t) :
    ∃ pending, Waiting t pending := by
  obtain ⟨pending, hwait⟩ := hs
  cases event with
  | key scancode keydown =>
    cases h
    exact hwait.append hroom
  | keybrd =>
    cases h
    obtain ⟨e, -, -, hwait'⟩ := hwait.amInputKeybrd
    exact ⟨_, hwait'⟩

/-- In a run in which every scancode has an entry and the queue always has room, the events are
returned in order, and the answer is `AM_KEY_NONE` exactly when all of them have been. -/
theorem events_in_order (sdlScancode : Fin nrKeys → BitVec 8) (past : Word → Word)
    (events : List Event) (s : Input) (hrun : play (step sdlScancode past) events start = some s)
    (hroom : Along (step sdlScancode past) (Room sdlScancode) events start) :
    s.returned <+: s.mapped ∧ ∃ e, (amInputKeybrd s).answers = s.answers ++ [e] ∧
      (e.keycode = amKeyNone ↔ s.returned = s.mapped) := by
  obtain ⟨pending, hwait⟩ := play_invariant (p := fun s => ∃ pending, Waiting s pending)
    step_waiting hrun hroom ⟨[], waiting_start⟩
  obtain ⟨e, hanswer, hnone, -⟩ := hwait.amInputKeybrd
  refine ⟨⟨pending, hwait.split.symm⟩, e, hanswer, hnone.trans ?_⟩
  rw [hwait.split, List.self_eq_append_right]

/-- The key A pressed and released, and one poll. -/
def pressA : List Event := [.key 4 true, .key 4 false, .keybrd]

def afterPressA : Input :=
  ⟨⟨Function.update (Function.update (fun _ => 0) 0 0x802b) 1 0x2b, 1, 2⟩,
    [⟨true, 43⟩, ⟨false, 43⟩], [⟨true, 43⟩]⟩

theorem play_pressA :
    play (step sdlScancodeOf fun _ => 0) pressA start = some afterPressA := rfl

theorem pressA_in_order :
    afterPressA.returned <+: afterPressA.mapped ∧
      ∃ e, (amInputKeybrd afterPressA).answers = afterPressA.answers ++ [e] ∧
        (e.keycode = amKeyNone ↔ afterPressA.returned = afterPressA.mapped) :=
  events_in_order sdlScancodeOf (fun _ => 0) pressA afterPressA play_pressA (by decide)

theorem play_repeat (past : Word → Word) {scancode : Word} (hentry : scancode.toNat < 256)
    (hkey : keymap sdlScancode (scancode.setWidth 8) ≠ 0) (keydown : Bool) (n : Nat) {s : Input}
    (hs : s.queue.rear < keyQueueLen) :
    ∃ t, play (step sdlScancode past) (List.replicate n (.key scancode keydown)) s = some t ∧
      t.queue.front = s.queue.front ∧ t.queue.rear = (s.queue.rear + n) % keyQueueLen ∧
      t.mapped.length = s.mapped.length + n ∧ t.answers = s.answers := by
  induction n generalizing s with
  | zero => exact ⟨s, rfl, rfl, (Nat.mod_eq_of_lt hs).symm, rfl, rfl⟩
  | succ n ih =>
    have hnext : append sdlScancode past scancode keydown s = _ :=
      (append_eq hentry keydown s).trans (if_pos hkey)
    have hrear : (append sdlScancode past scancode keydown s).queue.rear =
        (s.queue.rear + 1) % keyQueueLen := by
      rw [hnext]
      rfl
    have hlt : (s.queue.rear + 1) % keyQueueLen < keyQueueLen := Nat.mod_lt _ (by decide)
    obtain ⟨t, hplay, ht, htr, hlen, hanswers⟩ := ih (hrear ▸ hlt)
    rw [hnext] at ht hlen hanswers
    refine ⟨t, hplay, ht, ?_, ?_, hanswers⟩
    · rw [htr, hrear, Nat.mod_add_mod, Nat.add_assoc, Nat.add_comm 1]
    · rw [hlen, List.length_append, List.length_singleton, Nat.add_assoc, Nat.add_comm 1]

/-- After 1024 events that nobody polled for, the next poll says that there are none; and with a 1
behind the table, a key of scancode 258, which has no entry, is returned. -/
theorem backlog_lost :
    (∃ s, play (step sdlScancodeOf fun _ => 0) (List.replicate 1024 (.key 4 true)) start = some s ∧
      s.mapped.length = 1024 ∧ s.returned = [] ∧
      (amInputKeybrd s).answers = [answer amKeyNone]) ∧
    ∃ s, play (step sdlScancodeOf fun _ => 1) [.key 258 true, .keybrd] start = some s ∧
      s.mapped = [] ∧ s.returned = [⟨true, 1⟩] := by
  have hkey : keymap sdlScancodeOf ((4 : Word).setWidth 8) ≠ 0 := by decide
  have hstart : start.queue.rear < keyQueueLen := by decide
  have hentry : (4 : Word).toNat < 256 := by decide
  obtain ⟨s, hplay, hfront, hrear, hlen, hanswers⟩ :=
    play_repeat (fun _ => 0) hentry hkey true 1024 hstart
  have hround : s.queue.front = s.queue.rear := by
    rw [hfront, hrear]
    rfl
  have hnone : s.queue.take keyQueueLen = none := if_neg (not_not_intro hround)
  refine ⟨⟨s, hplay, hlen, ?_, ?_⟩, _, rfl, rfl, rfl⟩
  · rw [Input.returned, hanswers]
    rfl
  · rw [amInputKeybrd, hnone, hanswers]
    rfl

end Riscv32Cpu.NativeInput
