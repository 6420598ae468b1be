/- module: Riscv32Cpu/Sdl/Keymap
   source: CODE/abstract-machine/am/src/native/ioe/input.c, am/include/amdev.h,
     CODE/nemu/src/device/keyboard.c
   digest: The table from SDL's scancodes to key codes, which `AM_KEYS` and `NEMU_KEYS` share. -/

import Mathlib.Data.List.FinRange
import Mathlib.Logic.Function.Basic

set_option autoImplicit false
set_option relaxedAutoImplicit false

namespace Riscv32Cpu.Sdl

abbrev Word := BitVec 32

/-- The number of keys that `AM_KEYS` and `NEMU_KEYS` list, in the same order; the `k`-th of them has
the code `k + 1`. -/
def nrKeys : Nat := 82

-- `SDL_SCANCODE_##k` for the keys in their order.
variable (sdlScancode : Fin nrKeys → BitVec 8)

/-- `keymap[SDL_SCANCODE_##k] = KEY_##k` for each key in turn, from a table of zeros. -/
def keymap : BitVec 8 → Word :=
  (List.finRange nrKeys).foldl
    (fun map k => Function.update map (sdlScancode k) (BitVec.ofNat 32 (k.val + 1))) fun _ => 0

theorem keymap_le (scancode : BitVec 8) : (keymap sdlScancode scancode).toNat ≤ nrKeys := by
  have hfold : ∀ (l : List (Fin nrKeys)) (map : BitVec 8 → Word),
      (map scancode).toNat ≤ nrKeys → (l.foldl (fun map k =>
        Function.update map (sdlScancode k) (BitVec.ofNat 32 (k.val + 1))) map scancode).toNat ≤
          nrKeys := by
    intro l
    induction l with
    | nil => exact fun _ h => h
    | cons k l ih =>
      intro map h
      refine ih _ ?_
      dsimp only
      rw [Function.update_apply]
      split
      · have hk : k.val < 82 := k.isLt
        rw [BitVec.toNat_ofNat]
        show (k.val + 1) % 2 ^ 32 ≤ 82
        omega
      · exact h
  exact hfold _ _ (Nat.zero_le _)

/-- SDL's scancodes for the keys. -/
def sdlScancodes : List (BitVec 8) :=
  [41, 58, 59, 60, 61, 62, 63, 64, 65, 66, 67, 68, 69, 53, 30, 31, 32, 33, 34, 35, 36, 37, 38, 39, 45,
    46, 42, 43, 20, 26, 8, 21, 23, 28, 24, 12, 18, 19, 47, 48, 49, 57, 4, 22, 7, 9, 10, 11, 13, 14,
    15, 51, 52, 40, 225, 29, 27, 6, 25, 5, 17, 16, 54, 55, 56, 229, 224, 101, 226, 44, 230, 228, 82,
    81, 80, 79, 73, 76, 74, 77, 75, 78]

def sdlScancodeOf (k : Fin nrKeys) : BitVec 8 := sdlScancodes.getD k.val 0

end Riscv32Cpu.Sdl
