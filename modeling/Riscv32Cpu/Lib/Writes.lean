/- module: Riscv32Cpu/Lib/Writes
   digest: A list of writes to a store, the later ones over the earlier. -/

import Mathlib.Logic.Function.Basic

set_option autoImplicit false
set_option relaxedAutoImplicit false

namespace Riscv32Cpu.Lib.Writes

universe u v
variable {ι : Type u} {α : Type v} [DecidableEq ι]

/-- The store after some writes. -/
def puts (ws : List (ι × α)) (m : ι → α) : ι → α :=
  ws.foldl (fun m w => Function.update m w.1 w.2) m

theorem puts_cons (w : ι × α) (ws : List (ι × α)) (m : ι → α) :
    puts (w :: ws) m = puts ws (Function.update m w.1 w.2) := rfl

theorem puts_append (ws vs : List (ι × α)) (m : ι → α) :
    puts (ws ++ vs) m = puts vs (puts ws m) := List.foldl_append ..

theorem puts_frame {ws : List (ι × α)} {k : ι} (h : ∀ w ∈ ws, w.1 ≠ k) (m : ι → α) :
    puts ws m k = m k := by
  induction ws generalizing m with
  | nil => rfl
  | cons w ws ih =>
    rw [puts_cons, ih fun v hv => h v (List.mem_cons_of_mem _ hv)]
    exact Function.update_of_ne (h w (List.mem_cons_self ..)).symm _ _

theorem puts_of_mem {ws : List (ι × α)} {k : ι} {v : α} (h : (k, v) ∈ ws)
    (hall : ∀ w ∈ ws, w.1 = k → w.2 = v) (m : ι → α) : puts ws m k = v := by
  induction ws generalizing m with
  | nil => cases h
  | cons w ws ih =>
    have hrest : ∀ u ∈ ws, u.1 = k → u.2 = v := fun u hu => hall u (List.mem_cons_of_mem _ hu)
    rw [puts_cons]
    by_cases hmem : (k, v) ∈ ws
    · exact ih hmem hrest _
    · have hw : (k, v) = w := (List.mem_cons.mp h).resolve_right hmem
      have hnone : ∀ u ∈ ws, u.1 ≠ k := by
        rintro ⟨i, x⟩ hu rfl
        obtain rfl := hrest _ hu rfl
        exact hmem hu
      rw [puts_frame hnone, ← hw, Function.update_self]

theorem puts_overwrite {ws : List (ι × α)} {k : ι} (h : ∃ w ∈ ws, w.1 = k) (m m' : ι → α) :
    puts ws m k = puts ws m' k := by
  induction ws generalizing m m' with
  | nil =>
    obtain ⟨w, hw, -⟩ := h
    cases hw
  | cons w ws ih =>
    rw [puts_cons, puts_cons]
    by_cases hrest : ∃ w ∈ ws, w.1 = k
    · exact ih hrest _ _
    · obtain ⟨u, hu, hk⟩ := h
      have hnone : ∀ u ∈ ws, u.1 ≠ k := fun u hu hk => hrest ⟨u, hu, hk⟩
      obtain rfl : u = w := (List.mem_cons.mp hu).resolve_right fun hu => hrest ⟨u, hu, hk⟩
      rw [puts_frame hnone, puts_frame hnone, hk, Function.update_self, Function.update_self]

end Riscv32Cpu.Lib.Writes
