/- module: Riscv32Cpu/X86Qemu/Render
   source: CODE/abstract-machine/am/src/x86/qemu/ioe.c
   digest: Rendering shows the picture of a tree of canvases, as far as its products are ints. -/

import Riscv32Cpu.Lib.Loops
import Riscv32Cpu.X86Qemu.Canvas

set_option autoImplicit false
set_option relaxedAutoImplicit false

namespace Riscv32Cpu.X86Qemu.Gpu

open Lib.Loops Lib.Memory Lib.Writes

/-- The members that are `uint16_t`. -/
structure GpuCanvas.Short (cv : GpuCanvas) : Prop where
  w : cv.w < 2 ^ 16
  h : cv.h < 2 ^ 16
  w1 : cv.w1 < 2 ^ 16
  h1 : cv.h1 < 2 ^ 16
  textureW : cv.textureW < 2 ^ 16
  textureH : cv.textureH < 2 ^ 16

theorem canvasAt_short {vmem : Vmem} {p : Nat} {cv : GpuCanvas} (h : canvasAt vmem p = .ok cv) :
    cv.Short := by
  unfold canvasAt at h
  split at h
  · cases h
    constructor <;> exact BitVec.isLt _
  · cases h

theorem scale_lt {i n w : Nat} (hi : i < n) (hw : 0 < w) : i * w / n < w := by
  rw [Nat.div_lt_iff_lt_mul (by omega), Nat.mul_comm w]
  exact Nat.mul_lt_mul_of_pos_right hi hw

theorem scale_int {i n w : Nat} (hi : i < n) (hfit : (n - 1) * w < 2 ^ 31) :
    (int (i * w)).tdiv n = (i * w / n : Nat) := by
  have hle : i * w ≤ (n - 1) * w := Nat.mul_le_mul_right w (by omega)
  have hint : int ((i : Int) * w) = (i * w : Nat) := int_eq (by omega) (by omega)
  rw [hint, Int.ofNat_tdiv]

theorem row_int {W x y : Nat} (hfit : W * y + x < 2 ^ 31) :
    int (int (W * y) + x) = (W * y + x : Nat) := by
  have hrow : int ((W : Int) * y) = (W * y : Nat) := int_eq (by omega) (by omega)
  rw [hrow]
  exact int_eq (by omega) (by omega)

theorem row_int_high {W x y : Nat} (hlow : 2 ^ 31 ≤ W * y + x) (hhigh : W * y + x < 2 ^ 32) :
    int (int (W * y) + x) < 0 := by
  have hsum : int (int ((W : Int) * y) + x) = int ((W * y + x : Nat) : Int) := by
    rw [Int.natCast_add, Int.natCast_mul]
    exact Int.bmod_add_bmod
  rw [hsum, int_high (by omega) (by omega)]
  omega

theorem row_lt {w h x y : Nat} (hx : x < w) (hy : y < h) : w * y + x < w * h := by
  calc w * y + x < w * y + w := by omega
    _ = w * (y + 1) := rfl
    _ ≤ w * h := Nat.mul_le_mul_left w hy

theorem row_inj {W x y x' y' : Nat} (hx : x < W) (hx' : x' < W)
    (h : W * y + x = W * y' + x') : x = x' ∧ y = y' := by
  have hmod := congrArg (· % W) h
  simp only [Nat.mul_add_mod, Nat.mod_eq_of_lt hx, Nat.mod_eq_of_lt hx'] at hmod
  subst hmod
  exact ⟨rfl, Nat.eq_of_mul_eq_mul_left (by omega) (Nat.add_right_cancel h)⟩

/-- What the loops write, in order. -/
def drawWrites (cv : GpuCanvas) (W w h : Nat) (src : Picture) : List (Nat × Pixel) :=
  (List.range cv.w1).flatMap fun i => (List.range cv.h1).flatMap fun j =>
    [(W * (cv.y1 + j) + (cv.x1 + i), src (i * w / cv.w1) (j * h / cv.h1))]

/-- The array after some writes. -/
def Buffer.write (px : Buffer) (ws : List (Nat × Pixel)) : Buffer :=
  { px with pixel := puts ws px.pixel }

theorem write_flatMap (ws : Nat → List (Nat × Pixel)) (l : List Nat) (px : Buffer) :
    l.foldl (fun px a => px.write (ws a)) px = px.write (l.flatMap ws) := by
  induction l generalizing px with
  | nil => rfl
  | cons a l ih =>
    rw [List.foldl_cons, ih, List.flatMap_cons]
    simp only [Buffer.write, puts_append]

theorem foldlM_write {l : List Nat} {f : Buffer → Nat → Except Stop Buffer} {count : Nat}
    {ws : Nat → List (Nat × Pixel)}
    (hstep : ∀ a ∈ l, ∀ px : Buffer, px.count = count → f px a = .ok (px.write (ws a)))
    {px : Buffer} (hpx : px.count = count) : l.foldlM f px = .ok (px.write (l.flatMap ws)) := by
  rw [foldlM_eq_ok (P := fun px => px.count = count) (g := fun px a => px.write (ws a))
    (fun a ha px hpx => ⟨hstep a ha px hpx, hpx⟩) hpx, write_flatMap]

theorem drawLocal_eq {cv : GpuCanvas} {W H w h : Nat} {pxLocal : Int → Except Stop Pixel}
    {src : Picture} (hin : cv.Inside W H) (hscale : cv.Scales W w h)
    (hfit : 3 * (w * h) ≤ vmemSize)
    (hsrc : ∀ x < w, ∀ y < h, pxLocal (w * y + x : Nat) = .ok (src x y))
    {px : Buffer} (hpx : px.count = W * H) :
    drawLocal cv W w h pxLocal px = .ok (px.write (drawWrites cv W w h src)) := by
  refine foldlM_write (fun i hi px hpx => foldlM_write (fun j hj px hpx => ?_) hpx) hpx
  rw [List.mem_range] at hi hj
  obtain ⟨hw, hh, hwfit, hhfit, hplace⟩ := hscale (by omega) (by omega)
  have hx := scale_lt hi hw
  have hy := scale_lt hj hh
  have hsmall := row_lt hx hy
  have hsize : vmemSize = 524288 := rfl
  have hrow : W * (cv.y1 + j) ≤ W * (cv.y1 + cv.h1 - 1) := Nat.mul_le_mul_left W (by omega)
  have hdst : W * (cv.y1 + j) + (cv.x1 + i) < W * H :=
    row_lt (by have := hin.1; omega) (by have := hin.2; omega)
  dsimp only
  rw [scale_int hi hwfit, scale_int hj hhfit, row_int (by omega), hsrc _ hx _ hy,
    row_int (by omega)]
  dsimp only [bind, Except.bind]
  rw [Buffer.set, if_pos (by omega)]
  rfl

theorem mem_drawWrites {cv : GpuCanvas} {W w h : Nat} {src : Picture} (v : Nat × Pixel) :
    v ∈ drawWrites cv W w h src ↔ ∃ i j, i < cv.w1 ∧ j < cv.h1 ∧
      v = (W * (cv.y1 + j) + (cv.x1 + i), src (i * w / cv.w1) (j * h / cv.h1)) := by
  simp only [drawWrites, List.mem_flatMap, List.mem_range, List.mem_singleton]
  constructor
  · rintro ⟨i, hi, j, hj, hv⟩
    exact ⟨i, j, hi, hj, hv⟩
  · rintro ⟨i, j, hi, hj, hv⟩
    exact ⟨i, hi, j, hj, hv⟩

theorem drawLocal_shows {cv : GpuCanvas} {W H w h : Nat} {pxLocal : Int → Except Stop Pixel}
    {src pic : Picture} (hin : cv.Inside W H) (hscale : cv.Scales W w h)
    (hfit : 3 * (w * h) ≤ vmemSize)
    (hsrc : ∀ x < w, ∀ y < h, pxLocal (w * y + x : Nat) = .ok (src x y))
    {px : Buffer} (hpx : px.Shows W H pic) :
    ∃ px', drawLocal cv W w h pxLocal px = .ok px' ∧ px'.Shows W H (cv.scaled w h src pic) := by
  refine ⟨_, drawLocal_eq hin hscale hfit hsrc hpx.count, hpx.count, fun x hx y hy => ?_⟩
  have hkey : ∀ i < cv.w1, ∀ j, W * (cv.y1 + j) + (cv.x1 + i) = W * y + x →
      cv.x1 + i = x ∧ cv.y1 + j = y := by
    intro i hi j h
    exact row_inj (by have := hin.1; omega) hx h
  show puts (drawWrites cv W w h src) px.pixel (W * y + x) = _
  rw [GpuCanvas.scaled]
  split
  · next hrect =>
    refine puts_of_mem ((mem_drawWrites _).mpr ⟨x - cv.x1, y - cv.y1, by omega, by omega, ?_⟩)
      (fun v hv hk => ?_) _
    · have hcol : cv.x1 + (x - cv.x1) = x := by omega
      have hrow : cv.y1 + (y - cv.y1) = y := by omega
      rw [hcol, hrow]
    · obtain ⟨i, j, hi, hj, rfl⟩ := (mem_drawWrites v).mp hv
      obtain ⟨hcol, hrow⟩ := hkey i hi j hk
      have hi' : x - cv.x1 = i := by omega
      have hj' : y - cv.y1 = j := by omega
      rw [hi', hj']
  · next hrect =>
    rw [puts_frame, hpx.pixel x hx y hy]
    intro v hv hk
    obtain ⟨i, j, hi, hj, rfl⟩ := (mem_drawWrites v).mp hv
    obtain ⟨hcol, hrow⟩ := hkey i hi j hk
    exact hrect (by omega)

theorem scale_int_high {i n w : Nat} (hn : n < 2 ^ 16) (hw : w < 2 ^ 16) (hi : i < n)
    (hhigh : 2 ^ 31 ≤ i * w) :
    -2 ^ 16 ≤ (int (i * w)).tdiv n ∧ (int (i * w)).tdiv n < 0 := by
  have hle : i * w ≤ 65534 * 65535 := Nat.mul_le_mul (by omega) (by omega)
  have hbig : 32769 ≤ i := by
    by_contra hsmall
    have : i * w ≤ 32768 * 65535 := Nat.mul_le_mul (by omega) (by omega)
    omega
  obtain ⟨d, hd⟩ : ∃ d : Nat, d = 2 ^ 32 - i * w := ⟨_, rfl⟩
  have hint : int ((i : Int) * w) = -(d : Int) := by
    have hcast : (i : Int) * w = (i * w : Nat) := (Int.natCast_mul ..).symm
    rw [hcast, int_high (by omega) (by omega)]
    omega
  have hlow : 1 ≤ d / n := (Nat.le_div_iff_mul_le (by omega)).mpr (by omega)
  have hhigh : d / n ≤ 2 ^ 16 := Nat.div_le_of_le_mul (by omega)
  rw [hint, Int.neg_tdiv, ← Int.ofNat_tdiv]
  omega

theorem set_ok {px px' : Buffer} {k : Int} {p : Pixel} (h : px.set k p = .ok px') :
    (0 ≤ k ∧ k < px.count) ∧ px'.count = px.count := by
  unfold Buffer.set at h
  split at h
  · next hk =>
    cases h
    exact ⟨hk, rfl⟩
  · cases h

theorem get_set_ok {p : Except Stop Pixel} {u v : Buffer} {k : Int}
    (h : (p >>= fun p => u.set k p) = .ok v) :
    (∃ q, p = .ok q) ∧ (0 ≤ k ∧ k < u.count) ∧ v.count = u.count := by
  obtain ⟨q, hq, hset⟩ := bind_ok h
  exact ⟨⟨q, hq⟩, set_ok hset⟩

/-- The position in the source that the loops read for column `i` and row `j`. -/
def sourceIndex (cv : GpuCanvas) (w h i j : Nat) : Int :=
  int (int (w * (int (j * h)).tdiv cv.h1) + (int (i * w)).tdiv cv.w1)

/-- The position in the parent that they write. -/
def placeIndex (cv : GpuCanvas) (W i j : Nat) : Int :=
  int (int (W * (cv.y1 + j : Nat)) + (cv.x1 + i : Nat))

theorem drawLocal_steps {cv : GpuCanvas} {W w h : Nat} {pxLocal : Int → Except Stop Pixel}
    {px px' : Buffer} (hrun : drawLocal cv W w h pxLocal px = .ok px') :
    px'.count = px.count ∧ ∀ i < cv.w1, ∀ j < cv.h1,
      (∃ p, pxLocal (sourceIndex cv w h i j) = .ok p) ∧
        0 ≤ placeIndex cv W i j ∧ placeIndex cv W i j < px.count := by
  have hinner : ∀ i, ∀ j ∈ List.range cv.h1, ∀ u v : Buffer, u.count = px.count →
      (pxLocal (sourceIndex cv w h i j) >>= fun p => u.set (placeIndex cv W i j) p) = .ok v →
      v.count = px.count := fun i j _ u v hu hstep => (get_set_ok hstep).2.2.trans hu
  have houter := fun i (_ : i ∈ List.range cv.w1) (u v : Buffer) (hu : u.count = px.count) hrow =>
    foldlM_invariant (hinner i) (s := u) (t := v) hrow hu
  refine ⟨foldlM_invariant houter hrun rfl, fun i hi j hj => ?_⟩
  obtain ⟨u, v, hu, hrow⟩ := foldlM_step_ok houter hrun rfl (List.mem_range.mpr hi)
  obtain ⟨u', v', hu', hpixel⟩ := foldlM_step_ok (hinner i) hrow hu (List.mem_range.mpr hj)
  obtain ⟨hp, hk, -⟩ := get_set_ok hpixel
  exact ⟨hp, hk.1, hu' ▸ hk.2⟩

theorem column_fits {cv : GpuCanvas} {w h : Nat} (hshort : cv.Short) (hw : w < 2 ^ 16)
    (hw1 : cv.w1 ≠ 0) (hread : 0 ≤ sourceIndex cv w h (cv.w1 - 1) 0) :
    (cv.w1 - 1) * w < 2 ^ 31 := by
  by_contra hhigh
  obtain ⟨hlow, hneg⟩ := scale_int_high (i := cv.w1 - 1) hshort.w1 hw (by omega) (by omega)
  generalize hcol : (int ((cv.w1 - 1 : Nat) * w)).tdiv cv.w1 = col at hlow hneg
  have hindex : sourceIndex cv w h (cv.w1 - 1) 0 = col := by
    rw [sourceIndex, hcol, Int.natCast_zero, Int.zero_mul,
      int_eq (n := 0) (by decide) (by decide), Int.zero_tdiv, Int.mul_zero,
      int_eq (n := 0) (by decide) (by decide), Int.zero_add]
    exact int_eq (by omega) (by omega)
  rw [hindex] at hread
  exact absurd hneg (not_lt.mpr hread)

theorem row_fits {cv : GpuCanvas} {w h : Nat} (hshort : cv.Short) (hh : h < 2 ^ 16)
    (hh1 : cv.h1 ≠ 0) (hw : 0 < w) (hfit : 3 * (w * h) ≤ vmemSize)
    (hread : 0 ≤ sourceIndex cv w h 0 (cv.h1 - 1)) : (cv.h1 - 1) * h < 2 ^ 31 := by
  by_contra hhigh
  have hsize : vmemSize = 524288 := rfl
  obtain ⟨hlow, hneg⟩ := scale_int_high (i := cv.h1 - 1) hshort.h1 hh (by omega) (by omega)
  generalize hrow : (int ((cv.h1 - 1 : Nat) * h)).tdiv cv.h1 = row at hlow hneg
  -- The source is so high that it is only a few pixels wide.
  have hhigh' : 32769 ≤ h := by
    by_contra hsmall
    have : (cv.h1 - 1) * h ≤ 65534 * 32768 :=
      Nat.mul_le_mul (by have := hshort.h1; omega) (by omega)
    omega
  have hnarrow : w * 32769 ≤ w * h := Nat.mul_le_mul_left w hhigh'
  have hprod : -2 ^ 31 ≤ (w : Int) * row ∧ (w : Int) * row < 0 := by
    have hlow' : (w : Int) * -2 ^ 16 ≤ w * row := Int.mul_le_mul_of_nonneg_left hlow (by omega)
    have hneg' : (w : Int) * row < 0 := Int.mul_neg_of_pos_of_neg (by omega) hneg
    omega
  have hindex : sourceIndex cv w h 0 (cv.h1 - 1) = w * row := by
    rw [sourceIndex, hrow, Int.natCast_zero, Int.zero_mul,
      int_eq (n := 0) (by decide) (by decide), Int.zero_tdiv, Int.add_zero,
      int_eq hprod.1 (by omega), int_eq hprod.1 (by omega)]
  rw [hindex] at hread
  exact absurd hread (not_le.mpr hprod.2)

theorem place_fits {cv : GpuCanvas} {W H : Nat} (hW : W < 2 ^ 16) (hH : H < 2 ^ 16)
    (hin : cv.Inside W H) (hw1 : cv.w1 ≠ 0) (hh1 : cv.h1 ≠ 0)
    (hplace : 0 ≤ placeIndex cv W (cv.w1 - 1) (cv.h1 - 1)) :
    W * (cv.y1 + cv.h1 - 1) + (cv.x1 + cv.w1 - 1) < 2 ^ 31 := by
  by_contra hhigh
  obtain ⟨hright, hbottom⟩ := hin
  have hcol : cv.x1 + (cv.w1 - 1) = cv.x1 + cv.w1 - 1 := by omega
  have hrow : cv.y1 + (cv.h1 - 1) = cv.y1 + cv.h1 - 1 := by omega
  have harea : W * H ≤ 65535 * 65535 := Nat.mul_le_mul (by omega) (by omega)
  have hlt : W * (cv.y1 + cv.h1 - 1) + (cv.x1 + cv.w1 - 1) < W * H :=
    row_lt (by omega) (by omega)
  rw [placeIndex, hcol, hrow] at hplace
  exact absurd (row_int_high (Nat.not_lt.mp hhigh) (by omega)) (not_lt.mpr hplace)

theorem scales_of_drawLocal {cv : GpuCanvas} {W H w h : Nat} {pxLocal : Int → Except Stop Pixel}
    (hshort : cv.Short) (hw : w < 2 ^ 16) (hh : h < 2 ^ 16) (hW : W < 2 ^ 16) (hH : H < 2 ^ 16)
    (hin : cv.Inside W H) (hfit : 3 * (w * h) ≤ vmemSize)
    (hsrc : ∀ k p, pxLocal k = .ok p → 0 ≤ k ∧ k < (w * h : Nat)) {px px' : Buffer}
    (hrun : drawLocal cv W w h pxLocal px = .ok px') : cv.Scales W w h := by
  intro hw1 hh1
  obtain ⟨-, hsteps⟩ := drawLocal_steps hrun
  have hread : ∀ i < cv.w1, ∀ j < cv.h1,
      0 ≤ sourceIndex cv w h i j ∧ sourceIndex cv w h i j < (w * h : Nat) := by
    intro i hi j hj
    obtain ⟨⟨p, hp⟩, -⟩ := hsteps i hi j hj
    exact hsrc _ p hp
  have hpos : 0 < w * h := by
    obtain ⟨hlow, hhigh⟩ := hread 0 (by omega) 0 (by omega)
    exact Int.natCast_pos.mp (hlow.trans_lt hhigh)
  have hw0 : 0 < w := Nat.pos_of_mul_pos_right hpos
  have hh0 : 0 < h := Nat.pos_of_mul_pos_left hpos
  have hcolumn := (hread (cv.w1 - 1) (by omega) 0 (by omega)).1
  have hrow := (hread 0 (by omega) (cv.h1 - 1) (by omega)).1
  have hplace := (hsteps (cv.w1 - 1) (by omega) (cv.h1 - 1) (by omega)).2.1
  exact ⟨hw0, hh0, column_fits hshort hw hw1 hcolumn, row_fits hshort hh hh1 hw0 hfit hrow,
    place_fits hW hH hin hw1 hh1 hplace⟩

theorem texel_ok {vmem : Vmem} {cv : GpuCanvas}
    (hfit : cv.texturePixels + 3 * (cv.textureW * cv.textureH) ≤ vmemSize) {x y : Nat}
    (hx : x < cv.textureW) (hy : y < cv.textureH) :
    cv.texel vmem (cv.textureW * y + x : Nat) =
      .ok (pixelAt vmem (cv.texturePixels + 3 * (cv.textureW * y + x))) := by
  have hlt := row_lt hx hy
  have hlast : cv.texturePixels + 3 * (cv.textureW * y + x) + 3 ≤ vmemSize := by omega
  rw [GpuCanvas.texel, if_pos ⟨by omega, by exact_mod_cast hlt, by exact_mod_cast hlast⟩]
  rfl

theorem texel_bounds {vmem : Vmem} {cv : GpuCanvas} {k : Int} {p : Pixel}
    (h : cv.texel vmem k = .ok p) : 0 ≤ k ∧ k < (cv.textureW * cv.textureH : Nat) := by
  unfold GpuCanvas.texel at h
  split at h
  · next hk => exact ⟨hk.1, by exact_mod_cast hk.2.1⟩
  · cases h

theorem get_bounds {px : Buffer} {k : Int} {p : Pixel} (h : px.get k = .ok p) :
    0 ≤ k ∧ k < px.count := by
  unfold Buffer.get at h
  split at h
  · next hk => exact hk
  · cases h

theorem get_shows {px : Buffer} {w h : Nat} {pic : Picture} (hpx : px.Shows w h pic) {x y : Nat}
    (hx : x < w) (hy : y < h) : px.get (w * y + x : Nat) = .ok (pic x y) := by
  have hlt := row_lt hx hy
  rw [Buffer.get, hpx.count, if_pos (by omega), Int.toNat_natCast, hpx.pixel x hx y hy]

theorem vbufAlloc_fits {w h : Nat} {head : Int} (hhead : 0 ≤ head)
    (hfit : head + (3 * (w * h) : Nat) ≤ vmemSize) :
    vbufAlloc (int (3 * int (w * h))) head =
      .ok (⟨w * h, fun _ => black⟩, head + (3 * (w * h) : Nat)) := by
  have hsize : vmemSize = 524288 := rfl
  have hprod : int ((w : Int) * h) = (w * h : Nat) := by
    rw [← Int.natCast_mul]
    exact int_eq (by omega) (by omega)
  have hbytes : int (3 * ((w * h : Nat) : Int)) = (3 * (w * h) : Nat) := by
    rw [int_eq (by omega) (by omega)]
    omega
  have hcount : ((3 * (w * h) : Nat) : Int).toNat / 3 = w * h := by omega
  rw [hprod, hbytes, vbufAlloc, if_neg (by omega), hcount]

theorem black_shows (w h : Nat) : (⟨w * h, fun _ => black⟩ : Buffer).Shows w h fun _ _ => black :=
  ⟨rfl, fun _ _ _ _ => rfl⟩

theorem Canvas.Laid.struct {vmem : Vmem} {p : Nat} {c : Canvas} (h : c.Laid vmem p) :
    canvasAt vmem p = .ok c.struct := by
  cases c with
  | texture cv => exact h.1
  | subtree cv children => exact h.1

mutual

/-- How deep calls nest. -/
def Canvas.cost : Canvas → Nat
  | .texture _ => 1
  | .subtree _ children => children.cost + 1

def Canvases.cost : Canvases → Nat
  | .nil => 1
  | .cons first rest => max first.cost rest.cost + 1

end

mutual

theorem Canvas.render_shows {vmem : Vmem} (c : Canvas) {p W H fuel : Nat} {px : Buffer}
    {pic : Picture} {head : Int} (hlaid : c.Laid vmem p) (hin : c.Inside W H)
    (hscale : c.Scales W) (hfuel : c.cost ≤ fuel) (hhead : 0 ≤ head)
    (hfit : head + c.bytes ≤ vmemSize) (hpx : px.Shows W H pic) :
    ∃ px', render vmem fuel p W px head = .ok (px', head + c.bytes) ∧
      px'.Shows W H (c.paint vmem pic) := by
  cases c with
  | texture cv =>
    obtain ⟨fuel, rfl⟩ : ∃ k, fuel = k + 1 := ⟨fuel - 1, by rw [Canvas.cost] at hfuel; omega⟩
    obtain ⟨hcv, htype⟩ := hlaid
    obtain ⟨hrect, htexture⟩ := hin
    obtain ⟨px', hdraw, hpx'⟩ := drawLocal_shows hrect hscale (by omega)
      (fun x hx y hy => texel_ok htexture hx hy) hpx
    refine ⟨px', ?_, hpx'⟩
    rw [render, hcv]
    dsimp only [bind, Except.bind]
    rw [if_pos htype, hdraw, Canvas.bytes, Int.natCast_zero, Int.add_zero]
    rfl
  | subtree cv children =>
    obtain ⟨fuel, rfl⟩ : ∃ k, fuel = k + 1 := ⟨fuel - 1, by rw [Canvas.cost] at hfuel; omega⟩
    obtain ⟨hcv, htype, hchildren⟩ := hlaid
    obtain ⟨hrect, hinner⟩ := hin
    obtain ⟨hcvscale, hscales⟩ := hscale
    rw [Canvas.cost] at hfuel
    rw [Canvas.bytes] at hfit ⊢
    obtain ⟨pxLocal, hrun, hlocal⟩ := children.render_shows hchildren hinner hscales
      (by omega : children.cost ≤ fuel) (by omega : 0 ≤ head + (3 * (cv.w * cv.h) : Nat))
      (by omega) (black_shows cv.w cv.h)
    obtain ⟨px', hdraw, hpx'⟩ := drawLocal_shows hrect hcvscale (by omega)
      (fun x hx y hy => get_shows hlocal hx hy) hpx
    refine ⟨px', ?_, hpx'⟩
    rw [render, hcv]
    dsimp only [bind, Except.bind]
    rw [if_neg (by omega), if_pos htype, vbufAlloc_fits hhead (by omega)]
    dsimp only
    rw [hrun]
    dsimp only
    rw [hdraw, Int.natCast_add, Int.add_assoc]
    rfl

theorem Canvases.render_shows {vmem : Vmem} (cs : Canvases) {p W H fuel : Nat} {px : Buffer}
    {pic : Picture} {head : Int} (hlaid : cs.Laid vmem p) (hin : cs.Inside W H)
    (hscale : cs.Scales W) (hfuel : cs.cost ≤ fuel) (hhead : 0 ≤ head)
    (hfit : head + cs.bytes ≤ vmemSize) (hpx : px.Shows W H pic) :
    ∃ px', renderChildren vmem fuel p W px head = .ok (px', head + cs.bytes) ∧
      px'.Shows W H (cs.paint vmem pic) := by
  cases cs with
  | nil =>
    obtain ⟨fuel, rfl⟩ : ∃ k, fuel = k + 1 := ⟨fuel - 1, by rw [Canvases.cost] at hfuel; omega⟩
    have hnull : p = gpuNull := hlaid
    refine ⟨px, ?_, hpx⟩
    rw [renderChildren, if_pos hnull, Canvases.bytes, Int.natCast_zero, Int.add_zero]
  | cons first rest =>
    obtain ⟨fuel, rfl⟩ : ∃ k, fuel = k + 1 := ⟨fuel - 1, by rw [Canvases.cost] at hfuel; omega⟩
    obtain ⟨hp, hfirst, hrest⟩ := hlaid
    obtain ⟨hinFirst, hinRest⟩ := hin
    obtain ⟨hscaleFirst, hscaleRest⟩ := hscale
    rw [Canvases.cost] at hfuel
    rw [Canvases.bytes] at hfit ⊢
    obtain ⟨px', hrun, hpx'⟩ := first.render_shows hfirst hinFirst hscaleFirst
      (by omega : first.cost ≤ fuel) hhead (by omega) hpx
    obtain ⟨px'', hrun', hpx''⟩ := rest.render_shows hrest hinRest hscaleRest
      (by omega : rest.cost ≤ fuel) (by omega : 0 ≤ head + first.bytes) (by omega) hpx'
    refine ⟨px'', ?_, hpx''⟩
    rw [renderChildren, if_neg hp, hrun]
    dsimp only [bind, Except.bind]
    rw [hfirst.struct]
    dsimp only
    rw [hrun', Int.natCast_add, Int.add_assoc]

end

mutual

theorem Canvas.scales_of_render {vmem : Vmem} (c : Canvas) {p W H fuel : Nat} {px px' : Buffer}
    {head head' : Int} (hlaid : c.Laid vmem p) (hin : c.Inside W H) (hW : W < 2 ^ 16)
    (hH : H < 2 ^ 16) (hhead : 0 ≤ head) (hfit : head + c.bytes ≤ vmemSize)
    (hpx : px.count = W * H) (hrun : render vmem fuel p W px head = .ok (px', head')) :
    c.Scales W ∧ px'.count = W * H ∧ head' = head + c.bytes := by
  cases fuel with
  | zero => cases hrun
  | succ fuel =>
    rw [render, hlaid.struct] at hrun
    dsimp only [bind, Except.bind] at hrun
    cases c with
    | texture cv =>
      obtain ⟨hcv, htype⟩ := hlaid
      obtain ⟨hrect, htexture⟩ := hin
      have hshort := canvasAt_short hcv
      rw [Canvas.struct, if_pos htype] at hrun
      obtain ⟨px'', hdraw, hend⟩ := bind_ok hrun
      cases hend
      refine ⟨scales_of_drawLocal hshort hshort.textureW hshort.textureH hW hH hrect (by omega)
        (fun k p => texel_bounds) hdraw, (drawLocal_steps hdraw).1.trans hpx, ?_⟩
      rw [Canvas.bytes, Int.natCast_zero, Int.add_zero]
    | subtree cv children =>
      obtain ⟨hcv, htype, hchildren⟩ := hlaid
      obtain ⟨hrect, hinner⟩ := hin
      have hshort := canvasAt_short hcv
      rw [Canvas.bytes] at hfit ⊢
      rw [Canvas.struct, if_neg (by omega), if_pos htype, vbufAlloc_fits hhead (by omega)] at hrun
      obtain ⟨⟨pxLocal, head''⟩, hinnerRun, hrest⟩ := bind_ok hrun
      obtain ⟨px'', hdraw, hend⟩ := bind_ok hrest
      cases hend
      obtain ⟨hscales, hcount, rfl⟩ := children.scales_of_render hchildren hinner hshort.w hshort.h
        (by omega) (by omega) rfl hinnerRun
      refine ⟨⟨scales_of_drawLocal hshort hshort.w hshort.h hW hH hrect (by omega)
        (fun k p hp => hcount ▸ get_bounds hp) hdraw, hscales⟩,
        (drawLocal_steps hdraw).1.trans hpx, ?_⟩
      rw [Int.natCast_add, Int.add_assoc]

theorem Canvases.scales_of_render {vmem : Vmem} (cs : Canvases) {p W H fuel : Nat}
    {px px' : Buffer} {head head' : Int} (hlaid : cs.Laid vmem p) (hin : cs.Inside W H)
    (hW : W < 2 ^ 16) (hH : H < 2 ^ 16) (hhead : 0 ≤ head) (hfit : head + cs.bytes ≤ vmemSize)
    (hpx : px.count = W * H) (hrun : renderChildren vmem fuel p W px head = .ok (px', head')) :
    cs.Scales W ∧ px'.count = W * H ∧ head' = head + cs.bytes := by
  cases fuel with
  | zero => cases hrun
  | succ fuel =>
    rw [renderChildren] at hrun
    cases cs with
    | nil =>
      have hnull : p = gpuNull := hlaid
      rw [if_pos hnull] at hrun
      cases hrun
      refine ⟨trivial, hpx, ?_⟩
      rw [Canvases.bytes, Int.natCast_zero, Int.add_zero]
    | cons first rest =>
      obtain ⟨hp, hfirst, hrest⟩ := hlaid
      obtain ⟨hinFirst, hinRest⟩ := hin
      rw [Canvases.bytes] at hfit ⊢
      rw [if_neg hp] at hrun
      obtain ⟨⟨pxFirst, headFirst⟩, hrunFirst, hnext⟩ := bind_ok hrun
      dsimp only at hnext
      rw [hfirst.struct] at hnext
      obtain ⟨hscaleFirst, hcount, rfl⟩ := first.scales_of_render hfirst hinFirst hW hH hhead
        (by omega) hpx hrunFirst
      obtain ⟨hscaleRest, hcount', rfl⟩ := rest.scales_of_render hrest hinRest hW hH
        (by omega) (by omega) hcount hnext
      refine ⟨⟨hscaleFirst, hscaleRest⟩, hcount', ?_⟩
      rw [Int.natCast_add, Int.add_assoc]

end

theorem Renders.scales {vmem : Vmem} {root : Nat} {tree : Canvas} {display : Display}
    (h : Renders vmem root tree display) (hlaid : tree.Laid vmem root)
    (hin : tree.Inside display.w.toNat display.h.toNat) (hfit : tree.bytes ≤ vmemSize) :
    tree.Scales display.w.toNat := by
  obtain ⟨fuel, fb', hrun, -⟩ := h _ _ (black_shows display.w.toNat display.h.toNat)
  obtain ⟨⟨px', head'⟩, hrender, -⟩ := bind_ok hrun
  exact (tree.scales_of_render hlaid hin display.w.isLt display.h.isLt le_rfl (by omega) rfl
    hrender).1

/-- A tree inside the display, whose textures and subtree arrays fit, is rendered if and only if
its sizes scale. -/
theorem gpuRender_shows_iff {vmem : Vmem} {root : Nat} {tree : Canvas} {display : Display}
    (hlaid : tree.Laid vmem root) (hin : tree.Inside display.w.toNat display.h.toNat)
    (hfit : tree.bytes ≤ vmemSize) :
    Renders vmem root tree display ↔ tree.Scales display.w.toNat := by
  refine ⟨fun h => h.scales hlaid hin hfit, fun hscale fb pic hfb => ?_⟩
  obtain ⟨fb', hrun, hfb'⟩ := tree.render_shows hlaid hin hscale le_rfl le_rfl (by omega) hfb
  refine ⟨tree.cost, fb', ?_, hfb'⟩
  rw [gpuRender, hrun]
  rfl

/-- A subtree of 2 by 2 pixels, scaled to 4 by 4, over a texture of one pixel. -/
def smallVmem : Vmem := fun a =>
  ([2, 0, 2, 0, 2, 0, 0, 0, 0, 0, 4, 0, 4, 0, 255, 255, 255, 255, 26, 0, 0, 0, 0, 0, 0, 0,
    1, 0, 0, 0, 0, 0, 1, 0, 0, 0, 1, 0, 2, 0, 255, 255, 255, 255, 1, 0, 1, 0, 52, 0, 0, 0,
    7, 8, 9] : List Byte).getD a 0

def smallTree : Canvas :=
  .subtree ⟨2, 2, 2, 0, 0, 4, 4, gpuNull, 26, 26, 0, 0⟩
    (.cons (.texture ⟨1, 0, 0, 1, 0, 1, 2, gpuNull, 0x10001, 1, 1, 52⟩) .nil)

theorem smallTree_rendered : Renders smallVmem 0 smallTree ⟨640, 480⟩ := by
  refine (gpuRender_shows_iff ?_ ?_ ?_).mpr ?_
  · exact ⟨rfl, rfl, by decide, ⟨rfl, rfl⟩, rfl⟩
  · exact ⟨⟨by decide, by decide⟩, ⟨⟨by decide, by decide⟩, by decide⟩, trivial⟩
  · decide
  · exact ⟨fun _ _ => by decide, fun _ _ => by decide, trivial⟩

/-- A subtree of 1 by 60000 pixels, over a texture of the same size. -/
def tallVmem : Vmem := fun a =>
  ([2, 0, 1, 0, 96, 234, 0, 0, 0, 0, 1, 0, 1, 0, 255, 255, 255, 255, 26, 0, 0, 0, 0, 0, 0, 0,
    1, 0, 0, 0, 0, 0, 0, 0, 0, 0, 1, 0, 96, 234, 255, 255, 255, 255, 1, 0, 96, 234, 52, 0, 0,
    0] : List Byte).getD a 0

def tallTree : Canvas :=
  .subtree ⟨2, 1, 60000, 0, 0, 1, 1, gpuNull, 26, 26, 0, 0⟩
    (.cons (.texture ⟨1, 0, 0, 0, 0, 1, 60000, gpuNull, 3932160001, 1, 60000, 52⟩) .nil)

/-- All of it fits, but from row 35792 on the product with the height is no `int`. -/
theorem tallTree_not_rendered :
    tallTree.Laid tallVmem 0 ∧ tallTree.Inside 640 480 ∧ tallTree.bytes ≤ vmemSize ∧
      ¬Renders tallVmem 0 tallTree ⟨640, 480⟩ := by
  have hlaid : tallTree.Laid tallVmem 0 := ⟨rfl, rfl, by decide, ⟨rfl, rfl⟩, rfl⟩
  have hin : tallTree.Inside 640 480 :=
    ⟨⟨by decide, by decide⟩, ⟨⟨by decide, by decide⟩, by decide⟩, trivial⟩
  have hfit : tallTree.bytes ≤ vmemSize := by decide
  refine ⟨hlaid, hin, hfit, fun h => ?_⟩
  obtain ⟨-, hchild, -⟩ := h.scales hlaid hin hfit
  obtain ⟨-, -, -, hproduct, -⟩ := hchild (by decide) (by decide)
  exact absurd hproduct (by decide)

end Riscv32Cpu.X86Qemu.Gpu
