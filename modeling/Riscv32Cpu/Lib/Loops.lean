/- module: Riscv32Cpu/Lib/Loops
   digest: Loops over a list that may stop: what their steps keep, and what they come to. -/

import Mathlib.Order.Defs.Unbundled

set_option autoImplicit false
set_option relaxedAutoImplicit false

namespace Riscv32Cpu.Lib.Loops

theorem bind_ok {ε α β : Type} {x : Except ε α} {f : α → Except ε β} {b : β}
    (h : (x >>= f) = .ok b) : ∃ a, x = .ok a ∧ f a = .ok b := by
  cases x with
  | error e => cases h
  | ok a => exact ⟨a, rfl, h⟩

theorem bind_ok_mono {ε α β : Type} {x x' : Except ε α} {f f' : α → Except ε β} {b : β}
    (hx : ∀ a, x = .ok a → x' = .ok a) (hf : ∀ a, f a = .ok b → f' a = .ok b)
    (h : (x >>= f) = .ok b) : (x' >>= f') = .ok b := by
  obtain ⟨a, ha, hb⟩ := bind_ok h
  rw [hx a ha]
  exact hf a hb

variable {ε σ α : Type} {f : σ → α → Except ε σ} {l : List α}

theorem foldlM_cons_ok {a : α} {s t : σ} (h : (a :: l).foldlM f s = .ok t) :
    ∃ u, f s a = .ok u ∧ l.foldlM f u = .ok t := by
  rw [List.foldlM_cons] at h
  exact bind_ok h

theorem foldlM_invariant {P : σ → Prop} (hstep : ∀ a ∈ l, ∀ s t, P s → f s a = .ok t → P t)
    {s t : σ} (h : l.foldlM f s = .ok t) (hs : P s) : P t := by
  induction l generalizing s with
  | nil =>
    cases h
    exact hs
  | cons a l ih =>
    obtain ⟨u, hu, hrest⟩ := foldlM_cons_ok h
    exact ih (fun b hb => hstep b (List.mem_cons_of_mem _ hb)) hrest
      (hstep a (List.mem_cons_self ..) s u hs hu)

theorem foldlM_step_ok {P : σ → Prop} (hstep : ∀ a ∈ l, ∀ s t, P s → f s a = .ok t → P t)
    {s t : σ} (h : l.foldlM f s = .ok t) (hs : P s) {a : α} (ha : a ∈ l) :
    ∃ u v, P u ∧ f u a = .ok v := by
  induction l generalizing s with
  | nil => cases ha
  | cons b l ih =>
    obtain ⟨u, hu, hrest⟩ := foldlM_cons_ok h
    rcases List.mem_cons.mp ha with rfl | ha
    · exact ⟨s, u, hs, hu⟩
    · exact ih (fun c hc => hstep c (List.mem_cons_of_mem _ hc)) hrest
        (hstep b (List.mem_cons_self ..) s u hs hu) ha

theorem foldlM_eq_ok {P : σ → Prop} {g : σ → α → σ}
    (hstep : ∀ a ∈ l, ∀ s, P s → f s a = .ok (g s a) ∧ P (g s a)) {s : σ} (hs : P s) :
    l.foldlM f s = .ok (l.foldl g s) := by
  induction l generalizing s with
  | nil => rfl
  | cons a l ih =>
    obtain ⟨hfirst, hkept⟩ := hstep a (List.mem_cons_self ..) s hs
    rw [List.foldlM_cons, hfirst]
    exact ih (fun b hb => hstep b (List.mem_cons_of_mem _ hb)) hkept

end Riscv32Cpu.Lib.Loops
