/- module: Riscv32Cpu/X86Qemu/Canvas
   source: CODE/abstract-machine/am/src/x86/qemu/ioe.c, am/include/amdev.h
   digest: Canvases in video memory, and how they are rendered to the frame buffer. -/

import Riscv32Cpu.X86Qemu.Fbdraw

set_option autoImplicit false
set_option relaxedAutoImplicit false

namespace Riscv32Cpu.X86Qemu.Gpu

open Lib.Memory

def vmemSize : Nat := 512 <<< 10

def gpuNull : Nat := 0xffffffff

abbrev Vmem := Nat → Byte

inductive Stop
  | panic (msg : String)
  | outside
  | unfinished

/-- `struct gpu_canvas`. The texture lies in the same bytes as `child`. -/
structure GpuCanvas where
  type : Nat
  w : Nat
  h : Nat
  x1 : Nat
  y1 : Nat
  w1 : Nat
  h1 : Nat
  sibling : Nat
  child : Nat
  textureW : Nat
  textureH : Nat
  texturePixels : Nat
  deriving DecidableEq

def read16 (vmem : Vmem) (p : Nat) : Nat := (ofBytes 16 fun k => vmem (p + k)).toNat
def read32 (vmem : Vmem) (p : Nat) : Nat := (ofBytes 32 fun k => vmem (p + k)).toNat

/-- `*to_host(p)`. -/
def canvasAt (vmem : Vmem) (p : Nat) : Except Stop GpuCanvas :=
  if p + 26 ≤ vmemSize then
    .ok
      { type := read16 vmem p
        w := read16 vmem (p + 2)
        h := read16 vmem (p + 4)
        x1 := read16 vmem (p + 6)
        y1 := read16 vmem (p + 8)
        w1 := read16 vmem (p + 10)
        h1 := read16 vmem (p + 12)
        sibling := read32 vmem (p + 14)
        child := read32 vmem (p + 18)
        textureW := read16 vmem (p + 18)
        textureH := read16 vmem (p + 20)
        texturePixels := read32 vmem (p + 22) }
  else .error .outside

/-- An array of pixels. Pixels beyond `count` are not part of it. -/
structure Buffer where
  count : Nat
  pixel : Nat → Pixel

def Buffer.get (px : Buffer) (k : Int) : Except Stop Pixel :=
  if 0 ≤ k ∧ k < px.count then .ok (px.pixel k.toNat) else .error .outside

def Buffer.set (px : Buffer) (k : Int) (p : Pixel) : Except Stop Buffer :=
  if 0 ≤ k ∧ k < px.count then .ok { px with pixel := Function.update px.pixel k.toNat p }
  else .error .outside

/-- The pixel whose bytes begin at `a`. -/
def pixelAt (vmem : Vmem) (a : Nat) : Pixel := ⟨vmem a, vmem (a + 1), vmem (a + 2)⟩

/-- Pixel `k` of the texture. -/
def GpuCanvas.texel (vmem : Vmem) (cv : GpuCanvas) (k : Int) : Except Stop Pixel :=
  if 0 ≤ k ∧ k < cv.textureW * cv.textureH ∧ cv.texturePixels + 3 * k + 3 ≤ vmemSize then
    .ok (pixelAt vmem (cv.texturePixels + 3 * k.toNat))
  else .error .outside

def black : Pixel := ⟨0, 0, 0⟩

/-- The array of zeros, and how much of `vbuf` is in use then. -/
def vbufAlloc (size : Int) (head : Int) : Except Stop (Buffer × Int) :=
  if head + size > vmemSize then .error (.panic "no memory")
  else .ok (⟨size.toNat / 3, fun _ => black⟩, head + size)

/-- The loops at the end of `render`. -/
def drawLocal (cv : GpuCanvas) (W w h : Nat) (pxLocal : Int → Except Stop Pixel) (px : Buffer) :
    Except Stop Buffer :=
  (List.range cv.w1).foldlM (fun px i =>
    (List.range cv.h1).foldlM (fun px j => do
      let x := cv.x1 + i
      let y := cv.y1 + j
      let k := int (int (w * (int (j * h)).tdiv cv.h1) + (int (i * w)).tdiv cv.w1)
      px.set (int (int (W * y) + x)) (← pxLocal k)) px) px

mutual

/-- `W` is the width of the parent. With the parent's pixels it gives how much of `vbuf` is in
use. -/
def render (vmem : Vmem) : Nat → Nat → Nat → Buffer → Int → Except Stop (Buffer × Int)
  | 0, _, _, _, _ => .error .unfinished
  | fuel + 1, p, W, px, head => do
    let cv ← canvasAt vmem p
    if cv.type = 1 then
      let px ← drawLocal cv W cv.textureW cv.textureH (cv.texel vmem) px
      return (px, head)
    else if cv.type = 2 then
      let (pxLocal, head) ← vbufAlloc (int (3 * int (cv.w * cv.h))) head
      let (pxLocal, head) ← renderChildren vmem fuel cv.child cv.w pxLocal head
      let px ← drawLocal cv W cv.w cv.h pxLocal.get px
      return (px, head)
    else throw (.panic "invalid node")

/-- The loop over the children. -/
def renderChildren (vmem : Vmem) : Nat → Nat → Nat → Buffer → Int → Except Stop (Buffer × Int)
  | 0, _, _, _, _ => .error .unfinished
  | fuel + 1, ch, W, px, head =>
    if ch = gpuNull then .ok (px, head)
    else do
      let (px, head) ← render vmem fuel ch W px head
      let cv ← canvasAt vmem ch
      renderChildren vmem fuel cv.sibling W px head

end

/-- The frame buffer is the array of the pixels on the screen. -/
def gpuRender (vmem : Vmem) (fuel : Nat) (root : Nat) (display : Display) (fb : Buffer) :
    Except Stop Buffer := do
  let (fb, _) ← render vmem fuel root display.w.toNat fb 0
  return fb

mutual

inductive Canvas
  | texture (cv : GpuCanvas)
  | subtree (cv : GpuCanvas) (children : Canvases)

inductive Canvases
  | nil
  | cons (first : Canvas) (rest : Canvases)

end

def Canvas.struct : Canvas → GpuCanvas
  | .texture cv | .subtree cv _ => cv

mutual

/-- The tree lies at `p`. -/
def Canvas.Laid (vmem : Vmem) (p : Nat) : Canvas → Prop
  | .texture cv => canvasAt vmem p = .ok cv ∧ cv.type = 1
  | .subtree cv children =>
    canvasAt vmem p = .ok cv ∧ cv.type = 2 ∧ children.Laid vmem cv.child

/-- The canvases are those that `p` and its siblings point to. -/
def Canvases.Laid (vmem : Vmem) (p : Nat) : Canvases → Prop
  | .nil => p = gpuNull
  | .cons first rest =>
    p ≠ gpuNull ∧ first.Laid vmem p ∧ rest.Laid vmem first.struct.sibling

end

/-- The rectangle lies in a parent of `W` by `H` pixels. -/
def GpuCanvas.Inside (cv : GpuCanvas) (W H : Nat) : Prop := cv.x1 + cv.w1 ≤ W ∧ cv.y1 + cv.h1 ≤ H

mutual

/-- Every rectangle lies inside its parent, and every texture inside `vmem`. -/
def Canvas.Inside (W H : Nat) : Canvas → Prop
  | .texture cv =>
    cv.Inside W H ∧ cv.texturePixels + 3 * (cv.textureW * cv.textureH) ≤ vmemSize
  | .subtree cv children => cv.Inside W H ∧ children.Inside cv.w cv.h

def Canvases.Inside (W H : Nat) : Canvases → Prop
  | .nil => True
  | .cons first rest => first.Inside W H ∧ rest.Inside W H

end

mutual

/-- The bytes of all subtree buffers. -/
def Canvas.bytes : Canvas → Nat
  | .texture _ => 0
  | .subtree cv children => 3 * (cv.w * cv.h) + children.bytes

def Canvases.bytes : Canvases → Nat
  | .nil => 0
  | .cons first rest => first.bytes + rest.bytes

end

/-- The pixel in column `x` and row `y`. -/
abbrev Picture := Nat → Nat → Pixel

/-- A picture of `w` by `h` pixels, scaled into the rectangle of `cv` over another picture. -/
def GpuCanvas.scaled (cv : GpuCanvas) (w h : Nat) (src pic : Picture) : Picture := fun x y =>
  if (cv.x1 ≤ x ∧ x < cv.x1 + cv.w1) ∧ cv.y1 ≤ y ∧ y < cv.y1 + cv.h1 then
    src ((x - cv.x1) * w / cv.w1) ((y - cv.y1) * h / cv.h1)
  else pic x y

mutual

/-- A picture with the canvas painted on it. -/
def Canvas.paint (vmem : Vmem) : Canvas → Picture → Picture
  | .texture cv, pic =>
    cv.scaled cv.textureW cv.textureH
      (fun x y => pixelAt vmem (cv.texturePixels + 3 * (cv.textureW * y + x))) pic
  | .subtree cv children, pic =>
    cv.scaled cv.w cv.h (children.paint vmem fun _ _ => black) pic

/-- The canvases painted one after the other. -/
def Canvases.paint (vmem : Vmem) : Canvases → Picture → Picture
  | .nil, pic => pic
  | .cons first rest, pic => rest.paint vmem (first.paint vmem pic)

end

/-- The rectangle is empty; or there is a source for it, the products that scale it are `int`s,
and so are the positions in a parent of width `W`. -/
def GpuCanvas.Scales (cv : GpuCanvas) (W w h : Nat) : Prop :=
  cv.w1 ≠ 0 → cv.h1 ≠ 0 → 0 < w ∧ 0 < h ∧ (cv.w1 - 1) * w < 2 ^ 31 ∧ (cv.h1 - 1) * h < 2 ^ 31 ∧
    W * (cv.y1 + cv.h1 - 1) + (cv.x1 + cv.w1 - 1) < 2 ^ 31

mutual

def Canvas.Scales (W : Nat) : Canvas → Prop
  | .texture cv => cv.Scales W cv.textureW cv.textureH
  | .subtree cv children => cv.Scales W cv.w cv.h ∧ children.Scales cv.w

def Canvases.Scales (W : Nat) : Canvases → Prop
  | .nil => True
  | .cons first rest => first.Scales W ∧ rest.Scales W

end

/-- The array holds the part of a picture that is `W` by `H` pixels. -/
structure Buffer.Shows (px : Buffer) (W H : Nat) (pic : Picture) : Prop where
  count : px.count = W * H
  pixel : ∀ x < W, ∀ y < H, px.pixel (W * y + x) = pic x y

/-- Rendering ends, with nothing read or written outside its array, and the screen shows the tree
painted on what it showed before. -/
def Renders (vmem : Vmem) (root : Nat) (tree : Canvas) (display : Display) : Prop :=
  ∀ fb pic, Buffer.Shows fb display.w.toNat display.h.toNat pic →
    ∃ fuel fb', gpuRender vmem fuel root display fb = .ok fb' ∧
      fb'.Shows display.w.toNat display.h.toNat (tree.paint vmem pic)

end Riscv32Cpu.X86Qemu.Gpu
