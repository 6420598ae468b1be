/- module: Riscv32Cpu/NativeAudio/Model
   source: abstract-machine/am/src/native/ioe/audio.c
   digest: The program's thread and the sound library's callback over one non-blocking pipe. -/

import Mathlib.Data.List.Basic

set_option autoImplicit false
set_option relaxedAutoImplicit false

namespace Riscv32Cpu.NativeAudio

abbrev Byte := BitVec 8

/-- Where the program's thread stands in `audio_write(buf, len)`, with `len` the length of `buf`.
Its `count += n` is a load and a store, as `count` is a plain `volatile` variable. -/
inductive Writer
  | idle
  | write (buf : List Byte) (nwrite : Nat)
  | load (buf : List Byte) (nwrite n : Nat)
  | store (buf : List Byte) (nwrite n : Nat) (loaded : Int)
  deriving DecidableEq

/-- Where the callback stands in `audio_play(userdata, stream, len)`; `stream` is what the memory
from `stream` on holds. The two tests of `count` and the update of it are separate accesses. -/
inductive Callback
  | idle
  | compare (stream : List Byte) (len : Nat)
  | assign (stream : List Byte) (len : Nat)
  | read (stream : List Byte) (len : Nat) (nread b : Int)
  | load (stream : List Byte) (len : Nat) (nread : Int)
  | store (stream : List Byte) (len : Nat) (nread : Int) (loaded : Int)
  deriving DecidableEq

/-- The pipe and `count`, the two threads, and what an observer has seen: the concatenation of the
buffers passed to `__am_audio_play`, the number of bytes the pipe took, the bytes before the
silence in the streams of the finished callbacks, and whether a write went past `stream + len`. -/
structure Audio where
  pipe : List Byte
  count : Int
  writer : Writer
  callback : Callback
  played : List Byte
  accepted : Nat
  delivered : List Byte
  past : Bool
  deriving DecidableEq

inductive Event
  /-- `__am_audio_play` is called. -/
  | play (buf : List Byte)
  /-- `write` takes `k` bytes, or fails with `EAGAIN` for `k = 0`. -/
  | write (k : Nat)
  | writerLoad
  | writerStore
  /-- The sound library asks for `len` bytes at `stream`. -/
  | callback (stream : List Byte) (len : Nat)
  | compare
  | assign
  /-- `read` gives `k` bytes, or fails with `EAGAIN` for `k = 0`. -/
  | read (k : Nat)
  | callbackLoad
  | callbackStore
  deriving DecidableEq

/-- `while (nwrite < len)`. -/
def writeLoop (buf : List Byte) (nwrite : Nat) : Writer :=
  if nwrite < buf.length then .write buf nwrite else .idle

/-- `while (b < nread)`. -/
def readLoop (stream : List Byte) (len : Nat) (nread b : Int) : Callback :=
  if b < nread then .read stream len nread b else .load stream len nread

/-- One atomic step of `audio_write`, or a call of it. -/
def audioWrite (e : Event) (s : Audio) : Option Audio :=
  match e, s.writer with
  | .play buf, .idle =>
    some { s with writer := writeLoop buf 0, played := s.played ++ buf }
  | .write k, .write buf nwrite =>
    if k ≤ buf.length then
      some { s with
        pipe := s.pipe ++ buf.take k
        writer := .load buf nwrite k
        accepted := s.accepted + k }
    else none
  | .writerLoad, .load buf nwrite n => some { s with writer := .store buf nwrite n s.count }
  | .writerStore, .store buf nwrite n loaded =>
    some { s with count := loaded + n, writer := writeLoop buf (nwrite + n) }
  | _, _ => none

/-- One atomic step of `audio_play`, or a call of it. The silence it appends from `nread` on is
not part of what is delivered. -/
def audioPlay (e : Event) (s : Audio) : Option Audio :=
  match e, s.callback with
  | .callback stream len, .idle => some { s with callback := .compare stream len }
  | .compare, .compare stream len =>
    some { s with
      callback := if s.count < len then .assign stream len else readLoop stream len len 0 }
  | .assign, .assign stream len => some { s with callback := readLoop stream len s.count 0 }
  | .read k, .read stream len nread b =>
    if (k : Int) ≤ nread ∧ k ≤ s.pipe.length then
      some { s with
        pipe := s.pipe.drop k
        callback := readLoop (s.pipe.take k ++ stream.drop k) len nread (b + k)
        past := s.past || decide (len < k) }
    else none
  | .callbackLoad, .load stream len nread =>
    some { s with callback := .store stream len nread s.count }
  | .callbackStore, .store stream _ nread loaded =>
    some { s with
      count := loaded - nread
      callback := .idle
      delivered := s.delivered ++ stream.take nread.toNat }
  | _, _ => none

def step (e : Event) (s : Audio) : Option Audio :=
  match e with
  | .play _ | .write _ | .writerLoad | .writerStore => audioWrite e s
  | .callback _ _ | .compare | .assign | .read _ | .callbackLoad | .callbackStore => audioPlay e s

/-- After `__am_audio_init`: an empty pipe. -/
def audioInit : Audio :=
  { pipe := [], count := 0, writer := .idle, callback := .idle, played := [], accepted := 0,
    delivered := [], past := false }

/-- `__am_audio_ctrl`, which clears the counter before it registers the callback. -/
def audioCtrl (s : Audio) : Audio := { s with count := 0 }

/-- What `__am_audio_status` reports. -/
def audioStatus (s : Audio) : Int := s.count

end Riscv32Cpu.NativeAudio
