/- module: Riscv32Cpu/Lib/Effect
   digest: Computations on a state that may abort: how values and relations pass through them. -/

import Mathlib.Order.Defs.Unbundled

set_option autoImplicit false
set_option relaxedAutoImplicit false

namespace Riscv32Cpu.Lib.Effect

variable {ε σ α β : Type}

/-- The state left behind, by a normal end and by an abort alike. -/
def finalState : EStateM.Result ε σ α → σ
  | .ok _ s => s
  | .error _ s => s

/-- Whether a computation ends normally. -/
def returned : EStateM.Result ε σ α → Bool
  | .ok _ _ => true
  | .error _ _ => false

theorem exists_of_returned {r : EStateM.Result ε σ α} (h : returned r = true) :
    ∃ a s, r = .ok a s := by
  cases r with
  | ok a s => exact ⟨a, s, rfl⟩
  | error e s => cases h

theorem bind_of_ok {x : EStateM ε σ α} {f : α → EStateM ε σ β} {s s' : σ} {a : α}
    (h : x s = .ok a s') : (x >>= f) s = f a s' := by
  show EStateM.bind x f s = f a s'
  rw [EStateM.bind, h]

theorem bind_of_error {x : EStateM ε σ α} {f : α → EStateM ε σ β} {s s' : σ} {e : ε}
    (h : x s = .error e s') : (x >>= f) s = .error e s' := by
  show EStateM.bind x f s = .error e s'
  rw [EStateM.bind, h]

theorem bind_head {x y : EStateM ε σ α} {f : α → EStateM ε σ β} {s t : σ} (h : x s = y t) :
    (x >>= f) s = (y >>= f) t := by
  show EStateM.bind x f s = EStateM.bind y f t
  rw [EStateM.bind, EStateM.bind, h]

theorem bind_eq_ok {x : EStateM ε σ α} {f : α → EStateM ε σ β} {s s' : σ} {b : β}
    (h : (x >>= f) s = .ok b s') : ∃ a t, x s = .ok a t ∧ f a t = .ok b s' := by
  cases hx : x s with
  | ok a t => exact ⟨a, t, rfl, (bind_of_ok hx).symm.trans h⟩
  | error e t => cases (bind_of_error hx).symm.trans h

/-- Abort with `e` unless `c` holds. -/
def ensure (c : Prop) [Decidable c] (e : ε) : EStateM ε σ Unit := if c then pure () else throw e

theorem guard_bind_ok {c : Prop} [Decidable c] {x : EStateM ε σ Unit} {f : Unit → EStateM ε σ β}
    {s s' : σ} {b : β} (hx : ∃ e t, x s = .error e t)
    (h : ((if c then x else pure ()) >>= f) s = .ok b s') : ¬c ∧ f () s = .ok b s' := by
  obtain ⟨e, t, hx⟩ := hx
  by_cases hc : c
  · rw [if_pos hc, bind_of_error hx] at h
    cases h
  · rw [if_neg hc] at h
    exact ⟨hc, h⟩

theorem ensure_ok {c : Prop} [Decidable c] {e : ε} {s s' : σ} (h : ensure c e s = .ok () s') :
    c ∧ s' = s := by
  by_cases hc : c
  · rw [ensure, if_pos hc] at h
    cases h
    exact ⟨hc, rfl⟩
  · rw [ensure, if_neg hc] at h
    cases h

theorem ensure_bind_ok {c : Prop} [Decidable c] {e : ε} {f : Unit → EStateM ε σ β} {s s' : σ}
    {b : β} (h : (ensure c e >>= f) s = .ok b s') : c ∧ f () s = .ok b s' := by
  by_cases hc : c
  · rw [ensure, if_pos hc] at h
    exact ⟨hc, h⟩
  · rw [ensure, if_neg hc] at h
    cases h

/-- However `x` ends when started in `s`, the state it leaves is related to `s` by `r`. -/
def Moves (r : σ → σ → Prop) (x : EStateM ε σ α) (s : σ) : Prop := r s (finalState (x s))

variable {r : σ → σ → Prop}

theorem moves_pure [Std.Refl r] (a : α) (s : σ) : Moves r (pure a : EStateM ε σ α) s :=
  Std.Refl.refl s

theorem moves_throw [Std.Refl r] (e : ε) (s : σ) :
    Moves r (throw e : EStateM ε σ α) s := Std.Refl.refl s

theorem moves_get [Std.Refl r] (s : σ) : Moves r (get : EStateM ε σ σ) s := Std.Refl.refl s

/-- A sequence moves along `r` when its head does and its tail does from wherever the head
ends normally. -/
theorem moves_bind [IsTrans σ r] {x : EStateM ε σ α} {f : α → EStateM ε σ β} {s : σ}
    (hx : Moves r x s) (hf : ∀ a s', x s = .ok a s' → Moves r (f a) s') :
    Moves r (x >>= f) s := by
  unfold Moves at hx ⊢
  cases h : x s with
  | ok a s' =>
    rw [h] at hx
    rw [bind_of_ok h]
    exact IsTrans.trans _ _ _ hx (hf a s' h)
  | error e s' =>
    rw [h] at hx
    rw [bind_of_error h]
    exact hx

theorem moves_ite {c : Prop} [Decidable c] {x y : EStateM ε σ α} {s : σ}
    (hx : c → Moves r x s) (hy : ¬c → Moves r y s) : Moves r (if c then x else y) s := by
  split
  · next h => exact hx h
  · next h => exact hy h

theorem rel_bind {γ δ : Type} {r : α → β → Prop} {q : γ → δ → Prop} {o : Option α}
    {o' : Option β} (h : Option.Rel r o o') {f : α → Option γ} {g : β → Option δ}
    (hf : ∀ a b, r a b → Option.Rel q (f a) (g b)) : Option.Rel q (o >>= f) (o' >>= g) := by
  cases h with
  | some h => exact hf _ _ h
  | none => exact .none

theorem map_eq_of_rel {γ : Type} {r : α → β → Prop} {o : Option α} {o' : Option β}
    (h : Option.Rel r o o') {f : α → γ} {g : β → γ} (hf : ∀ a b, r a b → f a = g b) :
    o.map f = o'.map g := by
  cases h with
  | some h => exact congrArg some (hf _ _ h)
  | none => rfl

end Riscv32Cpu.Lib.Effect
