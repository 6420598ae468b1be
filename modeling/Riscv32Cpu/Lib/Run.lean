/- module: Riscv32Cpu/Lib/Run
   digest: Runs of a deterministic step function: composition, invariants and simulation. -/

import Mathlib.Data.Option.Basic

set_option autoImplicit false
set_option relaxedAutoImplicit false

namespace Riscv32Cpu.Lib.Run

universe u v
variable {σ : Type u} {τ : Type v}

/-- `n` steps of a machine that may stop (`none`) at any of them. -/
def runN (step : σ → Option σ) : Nat → σ → Option σ
  | 0, s => some s
  | n + 1, s => (step s).bind (runN step n)

variable {step : σ → Option σ}

@[simp] theorem runN_zero (s : σ) : runN step 0 s = some s := rfl

theorem runN_succ (n : Nat) (s : σ) : runN step (n + 1) s = (step s).bind (runN step n) := rfl

theorem runN_succ_of_step {s s' : σ} (h : step s = some s') (n : Nat) :
    runN step (n + 1) s = runN step n s' := by
  rw [runN_succ, h, Option.bind_some]

theorem runN_add (m n : Nat) (s : σ) :
    runN step (m + n) s = (runN step m s).bind (runN step n) := by
  induction m generalizing s with
  | zero => simp
  | succ m ih =>
    rw [Nat.add_right_comm, runN_succ, runN_succ, Option.bind_assoc]
    exact congrArg _ (funext ih)

/-- Forward simulation of runs: every step of the specification that meets `ok` is matched by
one step of the implementation. -/
theorem runN_simulation {istep : τ → Option τ} {r : σ → τ → Prop} {ok : σ → Prop}
    (hsim : ∀ s s' t, r s t → ok s → step s = some s' → ∃ t', istep t = some t' ∧ r s' t')
    {n : Nat} {s s' : σ} {t : τ} (h : runN step n s = some s')
    (hok : ∀ k < n, ∀ u, runN step k s = some u → ok u) (hr : r s t) :
    ∃ t', runN istep n t = some t' ∧ r s' t' := by
  induction n generalizing s t with
  | zero => exact ⟨t, rfl, Option.some.inj h ▸ hr⟩
  | succ n ih =>
    obtain ⟨u, hu, hn⟩ := Option.bind_eq_some_iff.mp h
    obtain ⟨t₁, ht₁, hr₁⟩ := hsim s u t hr (hok 0 (Nat.succ_pos n) s rfl) hu
    have hok₁ : ∀ k < n, ∀ x, runN step k u = some x → ok x := fun k hk x hx =>
      hok (k + 1) (Nat.succ_lt_succ hk) x (by rw [runN_succ_of_step hu]; exact hx)
    obtain ⟨t', ht', hr'⟩ := ih hn hok₁ hr₁
    exact ⟨t', by rw [runN_succ_of_step ht₁]; exact ht', hr'⟩

theorem runN_simulation_steps {istep : τ → Option τ} {r : σ → τ → Prop} {ok : σ → Prop}
    (hsim : ∀ s s' t, r s t → ok s → step s = some s' →
      ∃ m t', runN istep m t = some t' ∧ r s' t')
    {n : Nat} {s s' : σ} {t : τ} (h : runN step n s = some s')
    (hok : ∀ k < n, ∀ u, runN step k s = some u → ok u) (hr : r s t) :
    ∃ m t', runN istep m t = some t' ∧ r s' t' := by
  induction n generalizing s t with
  | zero => exact ⟨0, t, rfl, Option.some.inj h ▸ hr⟩
  | succ n ih =>
    obtain ⟨u, hu, hn⟩ := Option.bind_eq_some_iff.mp h
    obtain ⟨m, t₁, ht₁, hr₁⟩ := hsim s u t hr (hok 0 (Nat.succ_pos n) s rfl) hu
    have hok₁ : ∀ k < n, ∀ x, runN step k u = some x → ok x := fun k hk x hx =>
      hok (k + 1) (Nat.succ_lt_succ hk) x (by rw [runN_succ_of_step hu]; exact hx)
    obtain ⟨l, t', ht', hr'⟩ := ih hn hok₁ hr₁
    exact ⟨m + l, t', by rw [runN_add, ht₁, Option.bind_some]; exact ht', hr'⟩

theorem runN_invariant {p : σ → Prop} (hstep : ∀ s t, p s → step s = some t → p t) {n : Nat}
    {s t : σ} (h : runN step n s = some t) (hs : p s) : p t := by
  induction n generalizing s with
  | zero => exact Option.some.inj h ▸ hs
  | succ n ih =>
    obtain ⟨u, hu, hn⟩ := Option.bind_eq_some_iff.mp h
    exact ih hn (hstep s u hs hu)

def Reaches (step : σ → Option σ) (s t : σ) : Prop := ∃ n, runN step n s = some t

namespace Reaches

theorem refl (s : σ) : Reaches step s s := ⟨0, rfl⟩

theorem head {s t u : σ} (h : step s = some t) (k : Reaches step t u) : Reaches step s u := by
  obtain ⟨n, hn⟩ := k
  exact ⟨n + 1, by rw [runN_succ_of_step h, hn]⟩

theorem trans {s t u : σ} (h : Reaches step s t) (k : Reaches step t u) : Reaches step s u := by
  obtain ⟨m, hm⟩ := h
  obtain ⟨n, hn⟩ := k
  exact ⟨m + n, by rw [runN_add, hm, Option.bind_some, hn]⟩

end Reaches

end Riscv32Cpu.Lib.Run
