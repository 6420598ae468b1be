/- module: Riscv32Cpu/X86Qemu/Fbdraw
   source: CODE/abstract-machine/am/src/x86/qemu/ioe.c
   digest: The frame buffer, and rectangles of pixels drawn to it. -/

import Riscv32Cpu.Lib.Memory
import Riscv32Cpu.Lib.Writes

set_option autoImplicit false
set_option relaxedAutoImplicit false

namespace Riscv32Cpu.X86Qemu.Gpu

open Lib.Memory Lib.Writes

/-- The `int` that a computation on `int`s gives; it wraps around. -/
def int (n : Int) : Int := n.bmod (2 ^ 32)

theorem int_eq {n : Int} (hlow : -2 ^ 31 ≤ n) (hhigh : n < 2 ^ 31) : int n = n :=
  Int.bmod_eq_of_le (by omega) (by omega)

theorem int_high {n : Int} (hlow : 2 ^ 31 ≤ n) (hhigh : n < 2 ^ 32 + 2 ^ 31) :
    int n = n - 2 ^ 32 := by
  have hwrap : int n = int (n - 2 ^ 32) := (Int.sub_bmod_right n (2 ^ 32)).symm
  rw [hwrap, int_eq (by omega) (by omega)]

theorem int_add_int (m n : Int) : int (m + int n) = int (m + n) := Int.add_bmod_bmod

structure Pixel where
  b : Byte
  g : Byte
  r : Byte
  deriving DecidableEq

def R (p : BitVec 32) : Byte := (p >>> 16).setWidth 8
def G (p : BitVec 32) : Byte := (p >>> 8).setWidth 8
def B (p : BitVec 32) : Byte := p.setWidth 8

def color (p : BitVec 32) : Pixel := { r := R p, g := G p, b := B p }

/-- The width and the height of `display`. -/
structure Display where
  w : BitVec 16
  h : BitVec 16

/-- The memory around `fb`, pixel by pixel: pixel `k` is the three bytes from `fb + 3 * k` on. -/
abbrev Frame := Int → Pixel

/-- `AM_GPU_FBDRAW_T`. -/
structure FbDraw where
  x : Int
  y : Int
  pixels : Int → BitVec 32
  w : Int
  h : Int

/-- The inner loop, with `pixels` at the words of this row. -/
def drawRow (len : Int) (px : Int) (pixels : Int → BitVec 32) (fb : Frame) : Frame :=
  (List.range len.toNat).foldl
    (fun fb (i : Nat) => Function.update fb (px + i) (color (pixels i))) fb

def gpuFbdraw (display : Display) (draw : FbDraw) (fb : Frame) : Frame :=
  let W : Int := display.w.toNat
  let H : Int := display.h.toNat
  let len := if int (draw.x + draw.w) ≥ W then int (W - draw.x) else draw.w
  (List.range draw.h.toNat).foldl (fun fb (j : Nat) =>
    if int (draw.y + j) < H then
      drawRow len (int (draw.x + int (int (j + draw.y) * W)))
        (fun i => draw.pixels (j * draw.w + i)) fb
    else fb) fb

/-- Column `i` and row `j` of the request are on the screen. -/
def Visible (display : Display) (draw : FbDraw) (i j : Nat) : Prop :=
  i < draw.w ∧ j < draw.h ∧ draw.x + i < display.w.toNat ∧ draw.y + j < display.h.toNat

/-- The pixel of the screen that column `i` and row `j` belong on. -/
def place (display : Display) (draw : FbDraw) (i j : Nat) : Int :=
  draw.x + i + (draw.y + j) * display.w.toNat

/-- The visible pixels are drawn, and no byte of another pixel is touched. -/
structure DrawnExactly (display : Display) (draw : FbDraw) (fb fb' : Frame) : Prop where
  drawn : ∀ i j, Visible display draw i j →
    fb' (place display draw i j) = color (draw.pixels (j * draw.w + i))
  frame : ∀ k, (∀ i j, Visible display draw i j → k ≠ place display draw i j) → fb' k = fb k

/-- The rectangle is not negative anywhere, and its far edges are `int`s. -/
structure FbDraw.InRange (draw : FbDraw) : Prop where
  x_nonneg : 0 ≤ draw.x
  y_nonneg : 0 ≤ draw.y
  w_nonneg : 0 ≤ draw.w
  h_nonneg : 0 ≤ draw.h
  right : draw.x + draw.w < 2 ^ 31
  bottom : draw.y + draw.h < 2 ^ 31

/-- Every row that is visible begins below pixel 2^31. -/
def RowsFit (display : Display) (draw : FbDraw) : Prop :=
  ∀ i j, Visible display draw i j → place display draw 0 j < 2 ^ 31

/-- The row length that the request is clipped to. -/
def rowLen (display : Display) (draw : FbDraw) : Int :=
  if int (draw.x + draw.w) ≥ display.w.toNat then int (display.w.toNat - draw.x) else draw.w

/-- Everything that is written, in order. -/
def writes (display : Display) (draw : FbDraw) : List (Int × Pixel) :=
  (List.range draw.h.toNat).flatMap fun (j : Nat) =>
    if int (draw.y + j) < display.h.toNat then
      (List.range (rowLen display draw).toNat).map fun (i : Nat) =>
        (int (draw.x + int (int (j + draw.y) * display.w.toNat)) + i,
          color (draw.pixels (j * draw.w + i)))
    else []

theorem gpuFbdraw_eq (display : Display) (draw : FbDraw) (fb : Frame) :
    gpuFbdraw display draw fb = puts (writes display draw) fb := by
  rw [writes, puts, List.foldl_flatMap]
  refine congrArg (fun f => List.foldl f fb _) (funext fun fb => funext fun j => ?_)
  split
  · rw [List.foldl_map]
    rfl
  · rfl

theorem lt_rowLen {display : Display} {draw : FbDraw} (hdraw : draw.InRange) (i : Nat) :
    i < (rowLen display draw).toNat ↔ i < draw.w ∧ draw.x + i < display.w.toNat := by
  have hx := hdraw.x_nonneg
  have hw := hdraw.w_nonneg
  have hright := hdraw.right
  have hW := display.w.isLt
  rw [rowLen, int_eq (by omega) hright, int_eq (by omega) (by omega)]
  split <;> omega

theorem place_eq (display : Display) (draw : FbDraw) (i j : Nat) :
    place display draw i j = place display draw 0 j + i := by
  unfold place
  omega

theorem place_bounds {display : Display} {draw : FbDraw} (hdraw : draw.InRange) {i j : Nat}
    (h : Visible display draw i j) :
    0 ≤ place display draw 0 j ∧ place display draw i j < 2 ^ 32 := by
  obtain ⟨-, -, hcol, hrow⟩ := h
  have hx := hdraw.x_nonneg
  have hy := hdraw.y_nonneg
  have hW := display.w.isLt
  have hH := display.h.isLt
  have hlow : 0 ≤ (draw.y + j) * (display.w.toNat : Int) := Int.mul_nonneg (by omega) (by omega)
  have hhigh : (draw.y + j) * (display.w.toNat : Int) ≤ 65534 * display.w.toNat :=
    Int.mul_le_mul_of_nonneg_right (by omega) (by omega)
  unfold place
  omega

theorem place_inj {display : Display} {draw : FbDraw} (hdraw : draw.InRange) {i j i' j' : Nat}
    (h : Visible display draw i j) (h' : Visible display draw i' j')
    (heq : place display draw i j = place display draw i' j') : i = i' ∧ j = j' := by
  obtain ⟨-, -, hcol, -⟩ := h
  obtain ⟨-, -, hcol', -⟩ := h'
  have hx := hdraw.x_nonneg
  have hmod := congrArg (· % (display.w.toNat : Int)) heq
  simp only [place, Int.add_mul_emod_self_right] at hmod
  rw [Int.emod_eq_of_lt (by omega) hcol, Int.emod_eq_of_lt (by omega) hcol'] at hmod
  have hi : i = i' := by omega
  subst hi
  have hrows : (draw.y + j) * (display.w.toNat : Int) = (draw.y + j') * display.w.toNat :=
    Int.add_left_cancel heq
  have hj := Int.eq_of_mul_eq_mul_right (by omega) hrows
  exact ⟨rfl, by omega⟩

theorem int_row {display : Display} {draw : FbDraw} {j : Nat} (hy : 0 ≤ draw.y)
    (hrow : draw.y + j < display.h.toNat) :
    int (draw.x + int (int (j + draw.y) * display.w.toNat)) = int (place display draw 0 j) := by
  have hH := display.h.isLt
  have hsum : int (j + draw.y) = draw.y + j := by
    rw [int_eq (by omega) (by omega)]
    omega
  rw [hsum, int_add_int, place, Int.natCast_zero, Int.add_zero]

theorem mem_writes {display : Display} {draw : FbDraw} (hdraw : draw.InRange) (w : Int × Pixel) :
    w ∈ writes display draw ↔ ∃ i j, Visible display draw i j ∧
      w = (int (place display draw 0 j) + i, color (draw.pixels (j * draw.w + i))) := by
  have hy := hdraw.y_nonneg
  have hbottom := hdraw.bottom
  rw [writes, List.mem_flatMap]
  constructor
  · rintro ⟨j, hj, hw⟩
    rw [List.mem_range] at hj
    rw [int_eq (by omega) (by omega)] at hw
    split at hw
    · next hrow =>
      obtain ⟨i, hi, rfl⟩ := List.mem_map.mp hw
      obtain ⟨hiw, hcol⟩ := (lt_rowLen hdraw i).mp (List.mem_range.mp hi)
      exact ⟨i, j, ⟨hiw, by omega, hcol, hrow⟩, by rw [int_row hy hrow]⟩
    · cases hw
  · rintro ⟨i, j, ⟨hi, hj, hcol, hrow⟩, rfl⟩
    refine ⟨j, List.mem_range.mpr (by omega), ?_⟩
    rw [int_eq (by omega) (by omega), if_pos hrow]
    refine List.mem_map.mpr ⟨i, List.mem_range.mpr ((lt_rowLen hdraw i).mpr ⟨hi, hcol⟩), ?_⟩
    rw [int_row hy hrow]

theorem drawn_of_rowsFit {display : Display} {draw : FbDraw} (hdraw : draw.InRange)
    (hfit : RowsFit display draw) (fb : Frame) :
    DrawnExactly display draw fb (gpuFbdraw display draw fb) := by
  have hkey : ∀ w ∈ writes display draw, ∃ i j, Visible display draw i j ∧
      w = (place display draw i j, color (draw.pixels (j * draw.w + i))) := by
    intro w hw
    obtain ⟨i, j, hvis, rfl⟩ := (mem_writes hdraw w).mp hw
    obtain ⟨hlow, -⟩ := place_bounds hdraw hvis
    refine ⟨i, j, hvis, ?_⟩
    rw [int_eq (by omega) (hfit i j hvis), place_eq display draw i j]
  rw [gpuFbdraw_eq]
  constructor
  · intro i j hvis
    obtain ⟨hlow, -⟩ := place_bounds hdraw hvis
    refine puts_of_mem ((mem_writes hdraw _).mpr ⟨i, j, hvis, ?_⟩) (fun w hw hk => ?_) fb
    · rw [int_eq (by omega) (hfit i j hvis), place_eq display draw i j]
    · obtain ⟨i', j', hvis', rfl⟩ := hkey w hw
      obtain ⟨rfl, rfl⟩ := place_inj hdraw hvis' hvis hk
      rfl
  · intro k hk
    refine puts_frame (fun w hw => ?_) fb
    obtain ⟨i, j, hvis, rfl⟩ := hkey w hw
    exact (hk i j hvis).symm

theorem rowsFit_of_drawn {display : Display} {draw : FbDraw} (hdraw : draw.InRange)
    (h : ∀ fb, DrawnExactly display draw fb (gpuFbdraw display draw fb)) :
    RowsFit display draw := by
  intro i j hvis
  by_contra hhigh
  obtain ⟨-, hlt⟩ := place_bounds hdraw hvis
  have hplace := place_eq display draw i j
  have hwritten : ∃ w ∈ writes display draw, w.1 = place display draw i j - 2 ^ 32 := by
    refine ⟨_, (mem_writes hdraw _).mpr ⟨i, j, hvis, rfl⟩, ?_⟩
    dsimp only
    rw [int_high (by omega) (by omega)]
    omega
  have hkept : ∀ fb, gpuFbdraw display draw fb (place display draw i j - 2 ^ 32) =
      fb (place display draw i j - 2 ^ 32) := by
    intro fb
    refine (h fb).frame _ fun i' j' hvis' heq => ?_
    obtain ⟨hlow', -⟩ := place_bounds hdraw hvis'
    have hplace' := place_eq display draw i' j'
    omega
  have hblack := hkept fun _ => ⟨0, 0, 0⟩
  have hwhite := hkept fun _ => ⟨255, 255, 255⟩
  rw [gpuFbdraw_eq] at hblack hwhite
  rw [puts_overwrite hwritten _ fun _ => ⟨255, 255, 255⟩, hwhite] at hblack
  exact absurd hblack (by decide)

/-- A request is drawn exactly, whatever the frame buffer holds, if and only if its visible rows
begin below pixel 2^31. -/
theorem fbdraw_exact_iff (display : Display) {draw : FbDraw} (hdraw : draw.InRange) :
    (∀ fb, DrawnExactly display draw fb (gpuFbdraw display draw fb)) ↔ RowsFit display draw :=
  ⟨rowsFit_of_drawn hdraw, fun hfit fb => drawn_of_rowsFit hdraw hfit fb⟩

/-- On a display of at most 2^31 pixels all rows fit. -/
theorem rowsFit_of_small {display : Display} {draw : FbDraw} (hdraw : draw.InRange)
    (hsmall : display.w.toNat * display.h.toNat ≤ 2 ^ 31) : RowsFit display draw := by
  rintro i j ⟨-, -, hcol, hrow⟩
  have hx := hdraw.x_nonneg
  have hy := hdraw.y_nonneg
  have hle : (draw.y + j) * (display.w.toNat : Int) ≤ (display.h.toNat - 1) * display.w.toNat :=
    Int.mul_le_mul_of_nonneg_right (by omega) (by omega)
  have harea : ((display.h.toNat : Int) - 1) * display.w.toNat + display.w.toNat ≤ 2 ^ 31 := by
    rw [Int.sub_mul, Int.one_mul, Int.sub_add_cancel, Int.mul_comm]
    exact_mod_cast hsmall
  unfold place
  omega

/-- A rectangle that reaches over the lower right corner of a display. -/
def corner : FbDraw := ⟨630, 470, fun k => BitVec.ofInt 32 k, 20, 20⟩

theorem corner_inRange : corner.InRange := by
  constructor <;> decide

/-- A black frame buffer. -/
def blackFrame : Frame := fun _ => ⟨0, 0, 0⟩

theorem corner_drawn :
    DrawnExactly ⟨640, 480⟩ corner blackFrame (gpuFbdraw ⟨640, 480⟩ corner blackFrame) :=
  (fbdraw_exact_iff ⟨640, 480⟩ corner_inRange).mpr
    (rowsFit_of_small corner_inRange (by decide)) blackFrame

/-- One pixel far down on the largest display. -/
def farDown : FbDraw := ⟨0, 40000, fun _ => 0, 1, 1⟩

/-- It is written 1673567296 pixels before the frame buffer. -/
theorem farDown_before_frame :
    farDown.InRange ∧
      writes ⟨65535, 65535⟩ farDown = [(-1673567296, ⟨0, 0, 0⟩)] ∧
      ¬∀ fb, DrawnExactly ⟨65535, 65535⟩ farDown fb (gpuFbdraw ⟨65535, 65535⟩ farDown fb) := by
  have hdraw : farDown.InRange := by
    constructor <;> decide
  refine ⟨hdraw, by decide, fun h => ?_⟩
  have hrow := rowsFit_of_drawn hdraw h 0 0 (by unfold Visible; decide)
  exact absurd hrow (by unfold place; decide)

end Riscv32Cpu.X86Qemu.Gpu
