/- module: Riscv32Cpu/Lib/Chains
   digest: Singly linked lists in a store, and the loop that walks one. -/

import Mathlib.Logic.Function.Basic
import Mathlib.Data.List.Basic
import Riscv32Cpu.Lib.Effect

set_option autoImplicit false
set_option relaxedAutoImplicit false

namespace Riscv32Cpu.Lib.Chains

variable {ν : Type}

/-- From `p` the links lead through the nodes `l` to `null`. -/
def Chain (next : ν → ν) (null : ν) : ν → List ν → Prop
  | p, [] => p = null
  | p, q :: l => p = q ∧ p ≠ null ∧ Chain next null (next p) l

variable {next next' : ν → ν} {null p : ν} {l l' : List ν}

theorem chain_unique (h : Chain next null p l) (h' : Chain next null p l') : l = l' := by
  induction l generalizing p l' with
  | nil =>
    cases l' with
    | nil => rfl
    | cons q l' => exact absurd h h'.2.1
  | cons q l ih =>
    cases l' with
    | nil => exact absurd h' h.2.1
    | cons q' l' =>
      obtain ⟨rfl, -, h⟩ := h
      obtain ⟨rfl, -, h'⟩ := h'
      rw [ih h h']

theorem chain_congr (hnext : ∀ q ∈ l, next' q = next q) (h : Chain next null p l) :
    Chain next' null p l := by
  induction l generalizing p with
  | nil => exact h
  | cons q l ih =>
    obtain ⟨rfl, hne, h⟩ := h
    refine ⟨rfl, hne, ?_⟩
    rw [hnext p List.mem_cons_self]
    exact ih (fun q hq => hnext q (List.mem_cons_of_mem p hq)) h

theorem not_mem_null (h : Chain next null p l) : null ∉ l := by
  induction l generalizing p with
  | nil => exact List.not_mem_nil
  | cons q l ih =>
    obtain ⟨rfl, hne, h⟩ := h
    exact List.not_mem_cons_of_ne_of_not_mem hne.symm (ih h)

theorem chain_split {q : ν} {l₁ l₂ : List ν} (h : Chain next null p (l₁ ++ q :: l₂))
    (hnext : ∀ r ∈ l₁, next' r = next r) (h' : Chain next' null p l') :
    ∃ m, l' = l₁ ++ m ∧ Chain next' null q m := by
  induction l₁ generalizing p l' with
  | nil =>
    obtain ⟨rfl, -, -⟩ := h
    exact ⟨l', rfl, h'⟩
  | cons r l₁ ih =>
    obtain ⟨rfl, hne, h⟩ := h
    cases l' with
    | nil => exact absurd h' hne
    | cons r' l' =>
      obtain ⟨rfl, -, h'⟩ := h'
      rw [hnext p List.mem_cons_self] at h'
      obtain ⟨m, rfl, hm⟩ := ih h (fun r hr => hnext r (List.mem_cons_of_mem p hr)) h'
      exact ⟨m, rfl, hm⟩

theorem no_chain_of_relink [DecidableEq ν] {head : ν} (h : Chain next null head l) (hp : p ∈ l) :
    ¬∃ l', Chain (Function.update next p head) null p l' := by
  rintro ⟨l', hl'⟩
  cases l' with
  | nil => exact not_mem_null h (hl' ▸ hp)
  | cons q l' =>
    have hcycle := hl'
    obtain ⟨rfl, -, htail⟩ := hl'
    rw [Function.update_self] at htail
    -- from the head the walk comes back to `p`
    obtain ⟨l₁, l₂, rfl, hnot⟩ := List.eq_append_cons_of_mem hp
    have hagree : ∀ r ∈ l₁, Function.update next p head r = next r := by
      intro r hr
      refine Function.update_of_ne ?_ _ _
      rintro rfl
      exact hnot hr
    obtain ⟨m, rfl, hm⟩ := chain_split h hagree htail
    have hlength := congrArg List.length (chain_unique hm hcycle)
    rw [List.length_cons, List.length_append] at hlength
    omega

variable {ε σ : Type}

/-- `for (p = head; p != NULL; p = p->next)`, with a bound on the rounds. -/
def forEach [DecidableEq ν] (next : σ → ν → ν) (null : ν) (stuck : ε) (body : ν → EStateM ε σ Unit) :
    Nat → ν → EStateM ε σ Unit
  | 0, _ => throw stuck
  | n + 1, p =>
    if p = null then return
    else do
      body p
      forEach next null stuck body n (next (← get) p)

section loop
variable [DecidableEq ν] {link : σ → ν → ν} {stuck : ε} {body : ν → EStateM ε σ Unit} {s : σ}

theorem forEach_null (n : Nat) : forEach link null stuck body (n + 1) null s = .ok () s :=
  congrFun (if_pos rfl) s

theorem forEach_node {s₁ : σ} (hp : p ≠ null) (hbody : body p s = .ok () s₁) (n : Nat) :
    forEach link null stuck body (n + 1) p s = forEach link null stuck body n (link s₁ p) s₁ := by
  have hstep : forEach link null stuck body (n + 1) p s = (body p >>= fun _ => do
      forEach link null stuck body n (link (← get) p)) s := congrFun (if_neg hp) s
  rw [hstep, Effect.bind_of_ok hbody]
  rfl

/-- The walk along a chain ends once the bound exceeds its length, and what each round preserves,
with the nodes still to come, holds at the end. -/
theorem forEach_chain {I : List ν → σ → Prop}
    (hbody : ∀ q r t, I (q :: r) t → ∃ t', body q t = .ok () t' ∧ I r t' ∧ link t' = link t)
    (h : Chain (link s) null p l) (hI : I l s) (n : Nat) :
    (∃ s', forEach link null stuck body n p s = .ok () s' ∧ I [] s' ∧ l.length < n) ∨
      ((∃ s', forEach link null stuck body n p s = .error stuck s') ∧ n ≤ l.length) := by
  induction n generalizing p l s with
  | zero => exact .inr ⟨⟨s, rfl⟩, Nat.zero_le _⟩
  | succ n ih =>
    cases l with
    | nil =>
      obtain rfl : p = null := h
      exact .inl ⟨s, forEach_null n, hI, Nat.succ_pos n⟩
    | cons q l =>
      obtain ⟨rfl, hne, htail⟩ := h
      obtain ⟨s₁, hs₁, hI₁, hlink⟩ := hbody p l s hI
      rw [forEach_node hne hs₁]
      rw [← hlink] at htail
      rcases ih htail hI₁ with ⟨s', hs', hI', hlt⟩ | ⟨hstuck, hle⟩
      · exact .inl ⟨s', hs', hI', Nat.succ_lt_succ hlt⟩
      · exact .inr ⟨hstuck, Nat.succ_le_succ hle⟩

/-- A walk that always finds another node never ends. -/
theorem forEach_stuck {I : ν → σ → Prop}
    (hbody : ∀ q t, I q t → q ≠ null ∧ ∃ t', body q t = .ok () t' ∧ I (link t' q) t')
    (hI : I p s) (n : Nat) : ∃ s', forEach link null stuck body n p s = .error stuck s' := by
  induction n generalizing p s with
  | zero => exact ⟨s, rfl⟩
  | succ n ih =>
    obtain ⟨hne, s₁, hs₁, hI₁⟩ := hbody p s hI
    rw [forEach_node hne hs₁]
    exact ih hI₁

end loop

end Riscv32Cpu.Lib.Chains
