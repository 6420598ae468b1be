/- module: Riscv32Cpu/NativeAudio/Fifo
   source: abstract-machine/am/src/native/ioe/audio.c
   digest: The pipe and its counter as a byte queue, along the runs that keep to whole transfers. -/

import Mathlib.Data.List.Basic
import Mathlib.Tactic.SplitIfs
import Riscv32Cpu.Lib.Trace
import Riscv32Cpu.NativeAudio.Model

set_option autoImplicit false
set_option relaxedAutoImplicit false

namespace Riscv32Cpu.NativeAudio

open Lib.Trace (play Along play_invariant)

/-- No transfer is waiting for its update of the counter. -/
def Settled (s : Audio) : Prop :=
  (match s.writer with
    | .idle | .write _ _ => True
    | .load _ _ _ | .store _ _ _ _ => False) ∧
  match s.callback with
    | .idle | .compare _ _ | .assign _ _ => True
    | .read _ _ _ _ | .load _ _ _ | .store _ _ _ _ => False

/-- A lossless byte queue: what was heard is a prefix of what was played, the counter is what the
queue holds, and every stream was written inside its bounds. -/
structure Lossless (s : Audio) : Prop where
  heard : s.delivered <+: s.played
  counted : Settled s → audioStatus s = s.accepted - s.delivered.length
  inside : s.past = false

/-- The step takes none of the branches that go wrong: a transfer moves everything asked for or
nothing, the counter does not change under an update of it, and it is still at most `len` when it
is read for the second time. -/
def Whole (e : Event) (s : Audio) : Prop :=
  match e, s.writer, s.callback with
  | .write k, .write buf _, _ => k = 0 ∨ k = buf.length
  | .writerStore, .store _ _ _ loaded, _ => s.count = loaded
  | .assign, _, .assign _ len => s.count ≤ len
  | .read k, _, .read _ _ nread _ => k = 0 ∨ (k : Int) = nread
  | .callbackStore, _, .store _ _ _ loaded => s.count = loaded
  | _, _, _ => True

instance (e : Event) (s : Audio) : Decidable (Whole e s) := by
  unfold Whole
  split <;> infer_instance

/-- What the writer has been given and the pipe not taken. -/
def Writer.unsent : Writer → List Byte
  | .idle => []
  | .write buf _ => buf
  | .load buf _ n | .store buf _ n _ => buf.drop n

/-- What the pipe took and the counter does not know yet. -/
def Writer.owed : Writer → Nat
  | .idle | .write _ _ => 0
  | .load _ _ n | .store _ _ n _ => n

def Writer.Fresh : Writer → Prop
  | .idle => True
  | .write _ nwrite => nwrite = 0
  | .load buf nwrite n | .store buf nwrite n _ => nwrite = 0 ∧ (n = 0 ∨ n = buf.length)

/-- What the callback has taken out of the pipe. -/
def Callback.held : Callback → List Byte
  | .idle | .compare _ _ | .assign _ _ | .read _ _ _ _ => []
  | .load stream _ nread | .store stream _ nread _ => stream.take nread.toNat

def Callback.Fresh (count : Int) : Callback → Prop
  | .idle | .compare _ _ | .assign _ _ => True
  | .read _ len nread b => b = 0 ∧ 0 < nread ∧ nread ≤ len ∧ nread ≤ count
  | .load stream _ nread | .store stream _ nread _ =>
    0 ≤ nread ∧ nread ≤ count ∧ ((stream.take nread.toNat).length : Int) = nread

/-- The played bytes are those delivered, those in the stream being filled, those in the pipe and
those still to be written, in this order, and every byte of the first three was counted once. -/
structure Inv (s : Audio) : Prop where
  bytes : s.delivered ++ s.callback.held ++ s.pipe ++ s.writer.unsent = s.played
  taken : s.accepted = s.delivered.length + s.callback.held.length + s.pipe.length
  counter : s.count + s.writer.owed = s.pipe.length + s.callback.held.length
  nonneg : 0 ≤ s.count
  writer : s.writer.Fresh
  callback : s.callback.Fresh s.count
  inside : s.past = false

theorem Inv.lossless {s : Audio} (h : Inv s) : Lossless s where
  heard := ⟨s.callback.held ++ s.pipe ++ s.writer.unsent, by simpa using h.bytes⟩
  counted := by
    intro hs
    have howed : s.writer.owed = 0 := by
      have hw := hs.1
      cases hc : s.writer <;> rw [hc] at hw <;> first | rfl | exact hw.elim
    have hheld : s.callback.held = [] := by
      have hw := hs.2
      cases hc : s.callback <;> rw [hc] at hw <;> first | rfl | exact hw.elim
    have hcount := h.counter
    have htaken := h.taken
    rw [howed, hheld] at hcount
    rw [hheld] at htaken
    simp only [List.length_nil] at hcount htaken
    show s.count = s.accepted - s.delivered.length
    omega
  inside := h.inside

theorem inv_audioCtrl_init : Inv (audioCtrl audioInit) where
  bytes := rfl
  taken := rfl
  counter := rfl
  nonneg := Int.le_refl 0
  writer := trivial
  callback := trivial
  inside := rfl

@[simp] theorem unsent_writeLoop (buf : List Byte) : (writeLoop buf 0).unsent = buf := by
  cases buf <;> rfl

@[simp] theorem owed_writeLoop (buf : List Byte) (nwrite : Nat) :
    (writeLoop buf nwrite).owed = 0 := by
  rw [writeLoop]
  split_ifs <;> rfl

theorem writeLoop_done (buf : List Byte) : writeLoop buf buf.length = .idle :=
  if_neg (Nat.lt_irrefl _)

theorem fresh_writeLoop (buf : List Byte) : (writeLoop buf 0).Fresh := by
  rw [writeLoop]
  split_ifs
  · rfl
  · trivial

theorem held_readLoop {stream : List Byte} {len : Nat} {nread : Int} (h : 0 ≤ nread) :
    (readLoop stream len nread 0).held = [] := by
  rw [readLoop]
  split_ifs with hpos
  · rfl
  · have hzero : nread = 0 := by omega
    rw [hzero]
    rfl

theorem fresh_readLoop {stream : List Byte} {len : Nat} {nread count : Int} (h : 0 ≤ nread)
    (hlen : nread ≤ len) (hcount : nread ≤ count) :
    (readLoop stream len nread 0).Fresh count := by
  rw [readLoop]
  split_ifs with hpos
  · exact ⟨rfl, hpos, hlen, hcount⟩
  · have hzero : nread = 0 := by omega
    rw [hzero]
    exact ⟨Int.le_refl 0, by omega, rfl⟩

theorem readLoop_done {stream : List Byte} {len : Nat} {nread : Int} :
    readLoop stream len nread nread = .load stream len nread := if_neg (Int.lt_irrefl _)

theorem Callback.Fresh.mono {c : Callback} {count count' : Int} (h : c.Fresh count)
    (hle : count ≤ count') : c.Fresh count' := by
  cases c with
  | idle | compare | assign => trivial
  | read stream len nread b => exact ⟨h.1, h.2.1, h.2.2.1, Int.le_trans h.2.2.2 hle⟩
  | load stream len nread => exact ⟨h.1, Int.le_trans h.2.1 hle, h.2.2⟩
  | store stream len nread loaded => exact ⟨h.1, Int.le_trans h.2.1 hle, h.2.2⟩

theorem Inv.play {s : Audio} (h : Inv s) (hw : s.writer = .idle) (buf : List Byte) :
    Inv { s with writer := writeLoop buf 0, played := s.played ++ buf } where
  bytes := by
    have hbytes := h.bytes
    rw [hw] at hbytes
    simp only [Writer.unsent, List.append_nil] at hbytes
    rw [unsent_writeLoop, ← hbytes]
  taken := h.taken
  counter := by
    have hcounter := h.counter
    rw [hw] at hcounter
    rw [owed_writeLoop]
    exact hcounter
  nonneg := h.nonneg
  writer := fresh_writeLoop buf
  callback := h.callback
  inside := h.inside

theorem length_take_whole {buf : List Byte} {k : Nat} (hk : k = 0 ∨ k = buf.length) :
    (buf.take k).length = k := by
  rw [List.length_take]
  omega

theorem Inv.write {s : Audio} (h : Inv s) {buf : List Byte} {nwrite k : Nat}
    (hw : s.writer = .write buf nwrite) (hk : k = 0 ∨ k = buf.length) :
    Inv { s with
      pipe := s.pipe ++ buf.take k, writer := .load buf nwrite k, accepted := s.accepted + k } where
  bytes := by
    have hbytes := h.bytes
    rw [hw] at hbytes
    simpa [Writer.unsent] using hbytes
  taken := by
    have htaken := h.taken
    simp only [List.length_append, length_take_whole hk]
    omega
  counter := by
    have hcounter := h.counter
    rw [hw] at hcounter
    simp only [Writer.owed] at hcounter ⊢
    simp only [List.length_append, length_take_whole hk]
    omega
  nonneg := h.nonneg
  writer := by
    have hfresh := h.writer
    rw [hw] at hfresh
    exact ⟨hfresh, hk⟩
  callback := h.callback
  inside := h.inside

theorem Inv.writerLoad {s : Audio} (h : Inv s) {buf : List Byte} {nwrite n : Nat}
    (hw : s.writer = .load buf nwrite n) :
    Inv { s with writer := .store buf nwrite n s.count } where
  bytes := by
    have hbytes := h.bytes
    rw [hw] at hbytes
    exact hbytes
  taken := h.taken
  counter := by
    have hcounter := h.counter
    rw [hw] at hcounter
    exact hcounter
  nonneg := h.nonneg
  writer := by
    have hfresh := h.writer
    rw [hw] at hfresh
    exact hfresh
  callback := h.callback
  inside := h.inside

theorem Inv.writerStore {s : Audio} (h : Inv s) {buf : List Byte} {nwrite n : Nat}
    (hw : s.writer = .store buf nwrite n s.count) :
    Inv { s with count := s.count + n, writer := writeLoop buf (nwrite + n) } := by
  have hbytes := h.bytes
  have hcounter := h.counter
  obtain ⟨hzero, hn⟩ : nwrite = 0 ∧ (n = 0 ∨ n = buf.length) := by
    have hfresh := h.writer
    rw [hw] at hfresh
    exact hfresh
  rw [hw] at hbytes hcounter
  -- either nothing went out and the loop starts again, or all of it did and the loop ends
  have hrest : (writeLoop buf (nwrite + n)).unsent = buf.drop n ∧
      (writeLoop buf (nwrite + n)).Fresh := by
    rw [hzero, Nat.zero_add]
    rcases hn with rfl | rfl
    · exact ⟨unsent_writeLoop buf, fresh_writeLoop buf⟩
    · rw [writeLoop_done, List.drop_length]
      exact ⟨rfl, trivial⟩
  exact {
    bytes := by
      rw [hrest.1]
      exact hbytes
    taken := h.taken
    counter := by
      simp only [Writer.owed] at hcounter
      simp only [owed_writeLoop]
      omega
    nonneg := by
      have hnonneg := h.nonneg
      show 0 ≤ s.count + n
      omega
    writer := hrest.2
    callback := h.callback.mono (by
      show s.count ≤ s.count + n
      omega)
    inside := h.inside }

theorem Inv.withCallback {s : Audio} (h : Inv s) {c : Callback} (hheld : s.callback.held = c.held)
    (hfresh : c.Fresh s.count) : Inv { s with callback := c } where
  bytes := hheld ▸ h.bytes
  taken := hheld ▸ h.taken
  counter := hheld ▸ h.counter
  nonneg := h.nonneg
  writer := h.writer
  callback := hfresh
  inside := h.inside

theorem Inv.read {s : Audio} (h : Inv s) {stream : List Byte} {len k : Nat} {nread b : Int}
    (hc : s.callback = .read stream len nread b) (hpipe : k ≤ s.pipe.length)
    (hk : k = 0 ∨ (k : Int) = nread) :
    Inv { s with
      pipe := s.pipe.drop k
      callback := readLoop (s.pipe.take k ++ stream.drop k) len nread (b + k)
      past := s.past || decide (len < k) } := by
  have hbytes := h.bytes
  have htaken := h.taken
  have hcounter := h.counter
  obtain ⟨hb, hpos, hlen, hcount⟩ : b = 0 ∧ 0 < nread ∧ nread ≤ len ∧ nread ≤ s.count := by
    have hfresh := h.callback
    rw [hc] at hfresh
    exact hfresh
  have hfit : decide (len < k) = false := decide_eq_false (by omega)
  rw [hc] at hbytes htaken hcounter
  simp only [Callback.held, List.append_nil, List.length_nil] at hbytes htaken hcounter
  rcases hk with rfl | hk
  · have hsame : readLoop (s.pipe.take 0 ++ stream.drop 0) len nread (b + (0 : Nat)) =
        s.callback := by
      rw [hc, hb, readLoop]
      exact if_pos hpos
    rw [hsame, hfit, Bool.or_false]
    exact h
  · subst hk
    have hall : (s.pipe.take k ++ stream.drop k).take (k : Int).toNat = s.pipe.take k := by
      rw [Int.toNat_natCast]
      exact List.take_left' (by rw [List.length_take]; omega)
    have hloop : readLoop (s.pipe.take k ++ stream.drop k) len k (b + k) =
        .load (s.pipe.take k ++ stream.drop k) len k := by
      rw [hb, Int.zero_add]
      exact readLoop_done
    rw [hloop]
    exact {
      bytes := by
        simp only [Callback.held, hall]
        rw [List.append_assoc s.delivered, List.take_append_drop]
        exact hbytes
      taken := by
        simp only [Callback.held, hall, List.length_take, List.length_drop]
        omega
      counter := by
        simp only [Callback.held, hall, List.length_take, List.length_drop]
        omega
      nonneg := h.nonneg
      writer := h.writer
      callback := by
        refine ⟨by omega, hcount, ?_⟩
        rw [hall, List.length_take]
        omega
      inside := by
        rw [hfit, Bool.or_false]
        exact h.inside }

theorem Inv.callbackStore {s : Audio} (h : Inv s) {stream : List Byte} {len : Nat} {nread : Int}
    (hc : s.callback = .store stream len nread s.count) :
    Inv { s with
      count := s.count - nread
      callback := .idle
      delivered := s.delivered ++ stream.take nread.toNat } := by
  have hbytes := h.bytes
  have htaken := h.taken
  have hcounter := h.counter
  obtain ⟨hpos, hcount, hlen⟩ :
      0 ≤ nread ∧ nread ≤ s.count ∧ ((stream.take nread.toNat).length : Int) = nread := by
    have hfresh := h.callback
    rw [hc] at hfresh
    exact hfresh
  rw [hc] at hbytes htaken hcounter
  simp only [Callback.held] at hbytes htaken hcounter
  exact {
    bytes := by
      simp only [Callback.held, List.append_nil]
      exact hbytes
    taken := by
      simp only [Callback.held, List.length_append, List.length_nil]
      omega
    counter := by
      simp only [Callback.held, List.length_nil]
      omega
    nonneg := by
      show 0 ≤ s.count - nread
      omega
    writer := h.writer
    callback := trivial
    inside := h.inside }

theorem Inv.audioWrite {e : Event} {s t : Audio} (h : Inv s) (hok : Whole e s)
    (ht : audioWrite e s = some t) : Inv t := by
  unfold NativeAudio.audioWrite at ht
  split at ht
  · next buf hw =>
    cases ht
    exact h.play hw buf
  · next k buf nwrite hw =>
    split_ifs at ht
    cases ht
    unfold Whole at hok
    rw [hw] at hok
    exact h.write hw hok
  · next buf nwrite n hw =>
    cases ht
    exact h.writerLoad hw
  · next buf nwrite n loaded hw =>
    cases ht
    unfold Whole at hok
    rw [hw] at hok
    have hsame : s.count = loaded := hok
    subst hsame
    exact h.writerStore hw
  · cases ht

theorem Inv.audioPlay {e : Event} {s t : Audio} (h : Inv s) (hok : Whole e s)
    (ht : audioPlay e s = some t) : Inv t := by
  unfold NativeAudio.audioPlay at ht
  split at ht
  · next stream len hc =>
    cases ht
    exact h.withCallback (by rw [hc]; rfl) trivial
  · next stream len hc =>
    cases ht
    refine h.withCallback ?_ ?_
    · rw [hc]
      split_ifs
      · rfl
      · exact (held_readLoop (Int.natCast_nonneg len)).symm
    · split_ifs with hlt
      · trivial
      · exact fresh_readLoop (Int.natCast_nonneg len) (Int.le_refl _) (by omega)
  · next stream len hc =>
    cases ht
    unfold Whole at hok
    rw [hc] at hok
    refine h.withCallback ?_ (fresh_readLoop h.nonneg hok (Int.le_refl _))
    rw [hc, held_readLoop h.nonneg]
    rfl
  · next k stream len nread b hc =>
    split_ifs at ht with hfit
    cases ht
    unfold Whole at hok
    rw [hc] at hok
    exact h.read hc hfit.2 hok
  · next stream len nread hc =>
    cases ht
    have hfresh := h.callback
    rw [hc] at hfresh
    exact h.withCallback (by rw [hc]; rfl) hfresh
  · next stream len nread loaded hc =>
    cases ht
    unfold Whole at hok
    rw [hc] at hok
    have hsame : s.count = loaded := hok
    subst hsame
    exact h.callbackStore hc
  · cases ht

theorem Inv.step {e : Event} {s t : Audio} (h : Inv s) (hok : Whole e s)
    (ht : step e s = some t) : Inv t := by
  unfold NativeAudio.step at ht
  split at ht
  all_goals first | exact h.audioWrite hok ht | exact h.audioPlay hok ht

/-- In every run after `__am_audio_ctrl` whose steps take no wrong branch, every state reached is
that of a lossless byte queue. -/
theorem audio_lossless (es : List Event) (s : Audio)
    (hrun : play step es (audioCtrl audioInit) = some s)
    (hok : Along step Whole es (audioCtrl audioInit)) : Lossless s :=
  (play_invariant (fun _ _ _ h hok ht => Inv.step h hok ht) hrun hok
    inv_audioCtrl_init).lossless

/-- Two buffers and two callbacks, with a failed `write`, a failed `read` and a callback that gets
more than is there, the threads taking turns in the middle of their calls. -/
def interleavedRun : List Event :=
  [.play [7, 8, 9], .write 0, .writerLoad, .writerStore, .write 3, .callback [0, 0] 2,
    .writerLoad, .writerStore, .compare, .play [5], .read 0, .read 2, .write 0, .callbackLoad,
    .callbackStore, .writerLoad, .callback [0, 0, 0, 0] 4, .writerStore, .compare, .assign,
    .write 1, .read 1, .callbackLoad, .callbackStore, .writerLoad, .writerStore]

theorem interleavedRun_lossless : ∃ s, play step interleavedRun (audioCtrl audioInit) = some s ∧
    s.delivered = [7, 8, 9] ∧ Lossless s :=
  ⟨_, rfl, rfl, audio_lossless interleavedRun _ rfl (by decide +kernel)⟩

/-- The pipe takes one byte of two; the retry offers both of them again. -/
def partialWriteRun : List Event :=
  [.play [1, 2], .write 1, .writerLoad, .writerStore, .write 2, .writerLoad, .writerStore,
    .callback [0, 0, 0] 3, .compare, .read 3, .callbackLoad, .callbackStore]

/-- The callback stores its update of the counter between the load and the store of the other
thread's, and this one puts the delivered byte back on the count. -/
def lostUpdateRun : List Event :=
  [.play [1], .write 1, .writerLoad, .writerStore, .play [2], .write 1, .callback [0] 1, .compare,
    .read 1, .writerLoad, .callbackLoad, .callbackStore, .writerStore]

theorem audio_loses :
    (∃ s, play step partialWriteRun (audioCtrl audioInit) = some s ∧
      s.played = [1, 2] ∧ s.delivered = [1, 1, 2] ∧ ¬Lossless s) ∧
    ∃ s, play step lostUpdateRun (audioCtrl audioInit) = some s ∧
      s.played = [1, 2] ∧ s.delivered = [1] ∧ audioStatus s = 2 ∧ ¬Lossless s := by
  refine ⟨⟨_, rfl, rfl, rfl, fun h => ?_⟩, ⟨_, rfl, rfl, rfl, rfl, fun h => ?_⟩⟩
  · exact absurd h.heard (by decide)
  · exact absurd (h.counted ⟨trivial, trivial⟩) (by decide)

end Riscv32Cpu.NativeAudio
