/- module: Riscv32Cpu/Lib/Ring
   digest: Ring buffers that tell empty from full by their two indices alone, and rings that keep
     only the last entries. -/

import Mathlib.Logic.Function.Basic

set_option autoImplicit false
set_option relaxedAutoImplicit false

namespace Riscv32Cpu.Lib.Ring

universe u
variable {α : Type u}

/-- A buffer of some `n` places, with the index to take from and the index to put at. -/
structure Buffer (α : Type u) where
  buf : Nat → α
  front : Nat
  rear : Nat

def Buffer.put (n : Nat) (q : Buffer α) (x : α) : Buffer α :=
  { q with buf := Function.update q.buf q.rear x, rear := (q.rear + 1) % n }

/-- The oldest entry; equal indices mean that there is none. -/
def Buffer.take (n : Nat) (q : Buffer α) : Option (α × Buffer α) :=
  if q.front ≠ q.rear then some (q.buf q.front, { q with front := (q.front + 1) % n }) else none

/-- The ring holds the entries `l`, the oldest first. -/
structure Queues (n : Nat) (q : Buffer α) (l : List α) : Prop where
  front_lt : q.front < n
  length_lt : l.length < n
  rear : q.rear = (q.front + l.length) % n
  entry : ∀ k (h : k < l.length), q.buf ((q.front + k) % n) = l[k]

variable {n : Nat} {q : Buffer α} {l : List α}

theorem wrap {f k : Nat} (hf : f < n) (hk : k ≤ n) :
    (f + k) % n = if f + k < n then f + k else f + k - n := by
  split
  · next h => exact Nat.mod_eq_of_lt h
  · next h => rw [Nat.mod_eq_sub_mod (Nat.le_of_not_lt h), Nat.mod_eq_of_lt (by omega)]

theorem queues_nil (hf : q.front < n) (h : q.front = q.rear) : Queues n q [] := by
  refine ⟨hf, Nat.zero_lt_of_lt hf, ?_, fun k hk => absurd hk (Nat.not_lt_zero k)⟩
  rw [List.length_nil, Nat.add_zero, Nat.mod_eq_of_lt hf, h]

theorem Queues.front_eq_rear_iff (h : Queues n q l) : q.front = q.rear ↔ l = [] := by
  have hf := h.front_lt
  have hl := h.length_lt
  have hr := h.rear
  rw [wrap hf (Nat.le_of_lt hl)] at hr
  rw [← List.length_eq_zero_iff]
  split at hr <;> omega

/-- Putting one more entry makes the indices equal exactly when the `n`-th place is used. -/
theorem Queues.put_full_iff (h : Queues n q l) (x : α) :
    (q.put n x).rear = (q.put n x).front ↔ l.length + 1 = n := by
  have hf := h.front_lt
  have hl := h.length_lt
  have hnext : (q.rear + 1) % n = (q.front + (l.length + 1)) % n := by
    rw [h.rear, Nat.mod_add_mod, Nat.add_assoc]
  show (q.rear + 1) % n = q.front ↔ _
  rw [hnext, wrap hf (by omega)]
  split <;> omega

theorem Queues.put_entry (h : Queues n q l) (x : α) {k : Nat} (hk : k < l.length) :
    (q.put n x).buf ((q.front + k) % n) = l[k] := by
  have hf := h.front_lt
  have hl := h.length_lt
  have hne : (q.front + k) % n ≠ q.rear := by
    rw [h.rear, wrap hf (by omega), wrap hf (by omega)]
    split <;> split <;> omega
  show Function.update q.buf q.rear x ((q.front + k) % n) = l[k]
  rw [Function.update_of_ne hne, h.entry k hk]

theorem Queues.put (h : Queues n q l) (hroom : l.length + 1 < n) (x : α) :
    Queues n (q.put n x) (l ++ [x]) := by
  refine ⟨h.front_lt, by rw [List.length_append, List.length_singleton]; exact hroom, ?_,
    fun k hk => ?_⟩
  · show (q.rear + 1) % n = (q.front + (l ++ [x]).length) % n
    rw [h.rear, Nat.mod_add_mod, List.length_append, List.length_singleton, Nat.add_assoc]
  · rw [List.length_append, List.length_singleton] at hk
    rcases Nat.lt_or_ge k l.length with hold | hnew
    · rw [List.getElem_append_left hold]
      exact h.put_entry x hold
    · obtain rfl : k = l.length := by omega
      show Function.update q.buf q.rear x ((q.front + l.length) % n) = _
      rw [← h.rear, Function.update_self, List.getElem_concat_length rfl]

theorem Queues.take_nil (h : Queues n q []) : q.take n = none :=
  if_neg (not_not_intro (h.front_eq_rear_iff.mpr rfl))

theorem Queues.take_cons {x : α} (h : Queues n q (x :: l)) :
    ∃ q', q.take n = some (x, q') ∧ Queues n q' l := by
  have hf := h.front_lt
  have hl := h.length_lt
  have hne : q.front ≠ q.rear := fun heq => List.cons_ne_nil x l (h.front_eq_rear_iff.mp heq)
  have hfirst : q.buf q.front = x := by
    have h₀ := h.entry 0 (Nat.zero_lt_succ _)
    rwa [Nat.add_zero, Nat.mod_eq_of_lt hf] at h₀
  rw [List.length_cons] at hl
  refine ⟨{ q with front := (q.front + 1) % n }, ?_, Nat.mod_lt _ (Nat.zero_lt_of_lt hf), by omega,
    ?_, fun k hk => ?_⟩
  · rw [Buffer.take, if_pos hne, hfirst]
  · show q.rear = ((q.front + 1) % n + l.length) % n
    rw [h.rear, List.length_cons, Nat.mod_add_mod, Nat.add_assoc, Nat.add_comm 1]
  · show q.buf (((q.front + 1) % n + k) % n) = l[k]
    have hentry := h.entry (k + 1) (Nat.succ_lt_succ hk)
    rw [List.getElem_cons_succ] at hentry
    rw [Nat.mod_add_mod, Nat.add_assoc, Nat.add_comm 1, hentry]

/-- A ring of `n` places, last written at `index`, ends with the entries `l`, the latest first. -/
structure Recent (n : Nat) (buf : Int → α) (index : Int) (l : List α) : Prop where
  index_nonneg : 0 ≤ index
  index_lt : index < n
  entry : ∀ k (h : k < l.length), buf ((index - k) % n) = l[k]

variable {buf : Int → α} {index : Int}

theorem back {k : Int} (hnonneg : 0 ≤ index) (hlt : index < n) (hk : 0 ≤ k) (hkn : k ≤ n) :
    (index - k) % n = if index - k < 0 then index - k + n else index - k := by
  split
  · rw [← Int.add_emod_right, Int.emod_eq_of_lt (by omega) (by omega)]
  · exact Int.emod_eq_of_lt (by omega) (by omega)

theorem next (hnonneg : 0 ≤ index) (hlt : index < n) :
    (index + 1) % n = if index + 1 = n then 0 else index + 1 := by
  split
  · next h => rw [h, Int.emod_self]
  · exact Int.emod_eq_of_lt (by omega) (by omega)

theorem Recent.head {x : α} (h : Recent n buf index (x :: l)) : buf index = x := by
  have hentry := h.entry 0 (Nat.succ_pos _)
  rw [Int.ofNat_zero, Int.sub_zero, Int.emod_eq_of_lt h.index_nonneg h.index_lt] at hentry
  exact hentry

theorem Recent.push (h : Recent n buf index l) (hroom : l.length < n) (x : α) :
    Recent n (Function.update buf ((index + 1) % n) x) ((index + 1) % n) (x :: l) := by
  have hpos : (0 : Int) < n := by
    have := h.index_nonneg
    have := h.index_lt
    omega
  have hlt := Int.emod_lt_of_pos (index + 1) hpos
  have hnonneg := Int.emod_nonneg (index + 1) (Int.ne_of_gt hpos)
  refine ⟨hnonneg, hlt, fun k hk => ?_⟩
  cases k with
  | zero =>
    rw [Int.ofNat_zero, Int.sub_zero, Int.emod_eq_of_lt hnonneg hlt, Function.update_self]
    rfl
  | succ k =>
    have hkl : k < l.length := Nat.succ_lt_succ_iff.mp hk
    have hshift : ((index + 1) % n - (k + 1 : Nat)) % n = (index - k) % n := by
      rw [Int.emod_sub_emod]
      congr 1
      omega
    have hne : (index - k) % n ≠ (index + 1) % n := by
      intro heq
      have hround := Int.emod_eq_emod_iff_emod_sub_eq_zero.mp heq.symm
      have hdist : index + 1 - (index - k) = k + 1 := by omega
      rw [hdist, Int.emod_eq_of_lt (by omega) (by omega)] at hround
      omega
    rw [hshift, Function.update_of_ne hne]
    exact h.entry k hkl

theorem Recent.dropLast (h : Recent n buf index l) : Recent n buf index l.dropLast := by
  refine ⟨h.index_nonneg, h.index_lt, fun k hk => ?_⟩
  rw [List.length_dropLast] at hk
  rw [List.getElem_dropLast]
  exact h.entry k (by omega)

end Riscv32Cpu.Lib.Ring
