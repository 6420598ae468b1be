/- module: Riscv32Cpu/Lib/Trace
   digest: Runs of a machine along a list of events, and conditions met at every event. -/

import Mathlib.Data.Option.Basic

set_option autoImplicit false
set_option relaxedAutoImplicit false

namespace Riscv32Cpu.Lib.Trace

universe u v
variable {ε : Type u} {σ : Type v}

/-- The state after a list of events; `none` when one of them is not possible where it stands. -/
def play (step : ε → σ → Option σ) : List ε → σ → Option σ
  | [], s => some s
  | e :: es, s => (step e s).bind (play step es)

/-- Every event of the list meets the condition `ok` at the state it happens in. -/
def Along (step : ε → σ → Option σ) (ok : ε → σ → Prop) : List ε → σ → Prop
  | [], _ => True
  | e :: es, s => ok e s ∧
      match step e s with
      | none => True
      | some t => Along step ok es t

variable {step : ε → σ → Option σ} {ok : ε → σ → Prop}

instance Along.decidable [∀ e s, Decidable (ok e s)] :
    (es : List ε) → (s : σ) → Decidable (Along step ok es s)
  | [], _ => isTrue trivial
  | e :: es, s =>
    have : Decidable (match step e s with
        | none => True
        | some t => Along step ok es t) :=
      match step e s with
      | none => isTrue trivial
      | some t => Along.decidable es t
    instDecidableAnd

theorem Along.tail {e : ε} {es : List ε} {s t : σ} (h : Along step ok (e :: es) s)
    (ht : step e s = some t) : Along step ok es t := by
  have hrest := h.2
  rw [ht] at hrest
  exact hrest

/-- A property kept by every event that meets the condition holds at the end of every run whose
events all meet it. -/
theorem play_invariant {p : σ → Prop}
    (hstep : ∀ e s t, p s → ok e s → step e s = some t → p t) {es : List ε} {s t : σ}
    (h : play step es s = some t) (hok : Along step ok es s) (hs : p s) : p t := by
  induction es generalizing s with
  | nil => exact Option.some.inj h ▸ hs
  | cons e es ih =>
    obtain ⟨u, hu, hrun⟩ := Option.bind_eq_some_iff.mp h
    exact ih hrun (hok.tail hu) (hstep e s u hs hok.1 hu)

theorem along_cons_iff {e : ε} {es : List ε} {s t : σ} (ht : step e s = some t) :
    Along step ok (e :: es) s ↔ ok e s ∧ Along step ok es t := by
  rw [Along, ht]

theorem along_of_invariant {p : σ → Prop} {es : List ε}
    (hok : ∀ e ∈ es, ∀ s, p s → ok e s)
    (hstep : ∀ e ∈ es, ∀ s t, p s → step e s = some t → p t) {s : σ} (hs : p s) :
    Along step ok es s := by
  induction es generalizing s with
  | nil => trivial
  | cons e es ih =>
    have he : e ∈ e :: es := List.mem_cons_self ..
    have hrest : ∀ f ∈ es, f ∈ e :: es := fun _ => List.mem_cons_of_mem _
    refine ⟨hok e he s hs, ?_⟩
    cases ht : step e s with
    | none => trivial
    | some t =>
      exact ih (fun f hf => hok f (hrest f hf)) (fun f hf => hstep f (hrest f hf))
        (hstep e he s t hs ht)

theorem along_of_forall (h : ∀ e s, ok e s) (es : List ε) (s : σ) : Along step ok es s :=
  along_of_invariant (p := fun _ => True) (fun e _ s _ => h e s)
    (fun _ _ _ _ _ _ => trivial) trivial

theorem play_invariant_all {p : σ → Prop} (hstep : ∀ e s t, p s → step e s = some t → p t)
    {es : List ε} {s t : σ} (h : play step es s = some t) (hs : p s) : p t := by
  have halong : Along step (fun _ _ => True) es s := along_of_forall (fun _ _ => trivial) es s
  exact play_invariant (fun e s t hp _ ht => hstep e s t hp ht) h halong hs

theorem play_append (es fs : List ε) (s : σ) :
    play step (es ++ fs) s = (play step es s).bind (play step fs) := by
  induction es generalizing s with
  | nil => rfl
  | cons e es ih =>
    rw [List.cons_append, play, play, Option.bind_assoc]
    exact congrArg _ (funext ih)

theorem play_singleton (e : ε) (s : σ) : play step [e] s = step e s :=
  Option.bind_fun_some _

end Riscv32Cpu.Lib.Trace
