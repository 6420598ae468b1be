/- module: Riscv32Cpu/Lib/Regexec
   digest: The leftmost, longest match of a regular expression, and a compiler for simple ones. -/

import Mathlib.Computability.RegularExpressions

set_option autoImplicit false
set_option relaxedAutoImplicit false

namespace Riscv32Cpu.Lib.Regexec

variable {α : Type}

section

variable [DecidableEq α]

/-- The longest prefix of at most `n` symbols that matches, by its length. -/
def longestUpTo (r : RegularExpression α) (s : List α) : Nat → Option Nat
  | 0 => if r.rmatch [] then some 0 else none
  | n + 1 => if r.rmatch (s.take (n + 1)) then some (n + 1) else longestUpTo r s n

def longest (r : RegularExpression α) (s : List α) : Option Nat := longestUpTo r s s.length

/-- Start and end of the leftmost match; of those with one start, the longest. -/
def regexec (r : RegularExpression α) (s : List α) : Option (Nat × Nat) :=
  match longest r s, s with
  | some n, _ => some (0, n)
  | none, [] => none
  | none, _ :: t => (regexec r t).map fun m => (m.1 + 1, m.2 + 1)

/-- The extended regular expressions without operators other than a `+` behind a character. -/
def regcomp : List Char → Option (RegularExpression Char)
  | [] => some 1
  | '\\' :: c :: s => (regcomp s).map (.char c * ·)
  | c :: '+' :: s =>
    if c ∈ "\\+*?.[]()\x7b\x7d|^$".toList then none
    else (regcomp s).map (.char c * (RegularExpression.char c).star * ·)
  | c :: s =>
    if c ∈ "\\+*?.[]()\x7b\x7d|^$".toList then none else (regcomp s).map (.char c * ·)

theorem longestUpTo_eq_some_iff (r : RegularExpression α) (s : List α) (n k : Nat) :
    longestUpTo r s n = some k ↔
      k ≤ n ∧ s.take k ∈ r.matches' ∧ ∀ m, k < m → m ≤ n → s.take m ∉ r.matches' := by
  induction n with
  | zero =>
    rw [longestUpTo]
    split
    · next h =>
      have hnil : [] ∈ r.matches' := (r.rmatch_iff_matches' []).mp h
      constructor
      · intro hk
        obtain rfl : 0 = k := Option.some.inj hk
        exact ⟨le_rfl, hnil, fun m hm hle => absurd hle (by omega)⟩
      · rintro ⟨hk, -, -⟩
        rw [Nat.le_zero.mp hk]
    · next h =>
      have hnil : [] ∉ r.matches' := fun hm => h ((r.rmatch_iff_matches' []).mpr hm)
      constructor
      · intro hk
        cases hk
      · rintro ⟨hk, hmem, -⟩
        rw [Nat.le_zero.mp hk] at hmem
        exact absurd hmem hnil
  | succ n ih =>
    rw [longestUpTo]
    split
    · next h =>
      have hmem : s.take (n + 1) ∈ r.matches' := (r.rmatch_iff_matches' _).mp h
      constructor
      · intro hk
        obtain rfl : n + 1 = k := Option.some.inj hk
        exact ⟨le_rfl, hmem, fun m hm hle => absurd hle (by omega)⟩
      · rintro ⟨hk, -, hlong⟩
        have hle : ¬k < n + 1 := fun hlt => hlong (n + 1) hlt le_rfl hmem
        rw [show k = n + 1 by omega]
    · next h =>
      have hnot : s.take (n + 1) ∉ r.matches' := fun hm => h ((r.rmatch_iff_matches' _).mpr hm)
      rw [ih]
      constructor
      · rintro ⟨hk, hmem, hlong⟩
        refine ⟨by omega, hmem, fun m hm hle => ?_⟩
        rcases Nat.lt_or_ge n m with hlt | hge
        · rw [show m = n + 1 by omega]
          exact hnot
        · exact hlong m hm hge
      · rintro ⟨hk, hmem, hlong⟩
        have hne : k ≠ n + 1 := fun heq => hnot (heq ▸ hmem)
        exact ⟨by omega, hmem, fun m hm hle => hlong m hm (by omega)⟩

theorem longest_eq_some_iff (r : RegularExpression α) (s : List α) (k : Nat) :
    longest r s = some k ↔ k ≤ s.length ∧ s.take k ∈ r.matches' ∧
      ∀ m, k < m → m ≤ s.length → s.take m ∉ r.matches' := longestUpTo_eq_some_iff r s _ k

theorem longestUpTo_eq_none_iff (r : RegularExpression α) (s : List α) (n : Nat) :
    longestUpTo r s n = none ↔ ∀ m ≤ n, s.take m ∉ r.matches' := by
  induction n with
  | zero =>
    rw [longestUpTo, ite_eq_right_iff, r.rmatch_iff_matches']
    constructor
    · intro h m hm hmem
      rw [Nat.le_zero.mp hm] at hmem
      exact nomatch h hmem
    · intro h hmem
      exact absurd hmem (h 0 le_rfl)
  | succ n ih =>
    rw [longestUpTo]
    split
    · next h =>
      constructor
      · intro hn
        cases hn
      · intro hall
        exact absurd ((r.rmatch_iff_matches' _).mp h) (hall (n + 1) le_rfl)
    · next h =>
      rw [ih]
      constructor
      · intro hall m hm hmem
        rcases Nat.lt_or_ge n m with hlt | hge
        · rw [show m = n + 1 by omega] at hmem
          exact h ((r.rmatch_iff_matches' _).mpr hmem)
        · exact hall m hge hmem
      · intro hall m hm
        exact hall m (by omega)

theorem longest_eq_none_iff (r : RegularExpression α) (s : List α) :
    longest r s = none ↔ ∀ m ≤ s.length, s.take m ∉ r.matches' := longestUpTo_eq_none_iff r s _

/-- A match is at the start exactly when some prefix matches. -/
theorem regexec_start (r : RegularExpression α) (s : List α) (n : Nat) :
    regexec r s = some (0, n) ↔ longest r s = some n := by
  rw [regexec.eq_def]
  cases hs : longest r s with
  | some k =>
    constructor
    · intro h
      rw [(Prod.mk.inj (Option.some.inj h)).2]
    · intro h
      rw [Option.some.inj h]
  | none =>
    refine ⟨fun h => ?_, fun h => nomatch h⟩
    cases s with
    | nil => cases h
    | cons c t =>
      obtain ⟨m, -, hm⟩ := Option.map_eq_some_iff.mp h
      exact absurd (Prod.mk.inj hm).1 (Nat.succ_ne_zero _)

end

/-- The expression that matches one word. -/
def word : List α → RegularExpression α
  | [] => 1
  | a :: w => .char a * word w

theorem mem_word (w v : List α) : v ∈ (word w).matches' ↔ v = w := by
  induction w generalizing v with
  | nil =>
    rw [word, RegularExpression.matches'_epsilon]
    exact Language.mem_one v
  | cons a w ih =>
    rw [word, RegularExpression.matches'_mul, RegularExpression.matches'_char, Language.mem_mul]
    constructor
    · rintro ⟨x, hx, y, hy, rfl⟩
      have hx : x = [a] := hx
      rw [hx, (ih y).mp hy]
      rfl
    · rintro rfl
      exact ⟨[a], rfl, w, (ih w).mpr rfl, rfl⟩

theorem longest_word [DecidableEq α] (w s : List α) : longest (word w) s =
    if w <+: s then some w.length else none := by
  have hiff : ∀ k, longest (word w) s = some k ↔ w <+: s ∧ k = w.length := by
    intro k
    rw [longest_eq_some_iff, mem_word, List.prefix_iff_eq_take]
    constructor
    · rintro ⟨hk, htake, -⟩
      have hlen : k = w.length := by
        have := congrArg List.length htake
        rw [List.length_take] at this
        omega
      exact ⟨hlen ▸ htake.symm, hlen⟩
    · rintro ⟨htake, rfl⟩
      have hle : w.length ≤ s.length := by
        have := congrArg List.length htake
        rw [List.length_take] at this
        omega
      refine ⟨hle, htake.symm, fun m hm hle' hmem => ?_⟩
      have := congrArg List.length ((mem_word _ _).mp hmem)
      rw [List.length_take] at this
      omega
  apply Option.ext
  intro k
  rw [hiff k]
  split
  · next h =>
    constructor
    · rintro ⟨-, rfl⟩
      rfl
    · intro hk
      exact ⟨h, (Option.some.inj hk).symm⟩
  · next h => exact ⟨fun hk => absurd hk.1 h, fun hk => nomatch hk⟩

/-- The expression that matches one or more `a`. -/
def run (a : α) : RegularExpression α := .char a * (RegularExpression.char a).star

theorem mem_run (a : α) (v : List α) : v ∈ (run a).matches' ↔ ∃ n, v = List.replicate (n + 1) a := by
  rw [run, RegularExpression.matches'_mul, RegularExpression.matches'_star,
    RegularExpression.matches'_char, Language.mem_mul]
  constructor
  · rintro ⟨x, hx, y, hy, rfl⟩
    have hx : x = [a] := hx
    obtain ⟨l, rfl, hl⟩ := Language.mem_kstar.mp hy
    have hall : ∀ b ∈ l.flatten, b = a := by
      intro b hb
      obtain ⟨w, hw, hbw⟩ := List.mem_flatten.mp hb
      have hw : w = [a] := hl w hw
      rw [hw] at hbw
      exact List.mem_singleton.mp hbw
    refine ⟨l.flatten.length, ?_⟩
    rw [hx, List.replicate_succ, List.eq_replicate_of_mem hall, List.length_replicate]
    rfl
  · rintro ⟨n, rfl⟩
    refine ⟨[a], rfl, List.replicate n a, ?_, rfl⟩
    refine Language.mem_kstar.mpr ⟨List.replicate n [a], ?_, fun y hy => ?_⟩
    · induction n with
      | zero => rfl
      | succ n ih =>
        rw [List.replicate_succ, List.replicate_succ, List.flatten_cons, ← ih]
        rfl
    · exact List.eq_of_mem_replicate hy

theorem longest_run_isSome [DecidableEq α] (a : α) (s : List α) :
    (longest (run a) s).isSome ↔ s.head? = some a := by
  rw [Option.isSome_iff_ne_none, ne_eq, longest_eq_none_iff]
  constructor
  · intro h
    obtain ⟨m, -, hmem⟩ : ∃ m ≤ s.length, s.take m ∈ (run a).matches' := by
      by_contra hno
      exact h fun m hm hmem => hno ⟨m, hm, hmem⟩
    obtain ⟨n, hn⟩ := (mem_run a _).mp hmem
    cases s with
    | nil =>
      rw [List.take_nil] at hn
      cases hn
    | cons c t =>
      cases m with
      | zero => cases hn
      | succ m =>
        rw [List.take_succ_cons, List.replicate_succ] at hn
        rw [(List.cons.inj hn).1]
        rfl
  · intro h hall
    cases s with
    | nil => cases h
    | cons c t =>
      obtain rfl : c = a := Option.some.inj h
      exact hall 1 (Nat.succ_le_succ (Nat.zero_le _)) ((mem_run c _).mpr ⟨0, rfl⟩)

end Riscv32Cpu.Lib.Regexec
