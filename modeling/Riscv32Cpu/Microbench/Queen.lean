/- module: Riscv32Cpu/Microbench/Queen
   source: CODE/am-kernels/benchmarks/microbench/src/queen/queen.c
   digest: The n-queens count: three shifted masks, and the boards that they stand for. -/

import Mathlib.Algebra.BigOperators.Ring.Finset
import Mathlib.Data.Fintype.Pi
import Mathlib.Data.Fintype.Powerset
import Mathlib.Data.Fintype.Prod
import Riscv32Cpu.Lib.Backtrack
import Riscv32Cpu.Lib.Bits

set_option autoImplicit false
set_option relaxedAutoImplicit false

namespace Riscv32Cpu.Microbench.Queen

open Lib.Bits Lib.Backtrack

/-- An `unsigned int`. -/
abbrev Word := BitVec 32

/-- What `bench_queen_prepare` computes from `setting->size`. -/
def FULL (size : Nat) : Word := (1#32 <<< size) - 1

/-- The loop over the ones of `pos`. -/
def posLoop (dfs : Word → Option Word) : Nat → Word → Word → Option Word
  | 0, _, _ => none
  | fuel + 1, pos, ans =>
    if pos ≠ 0 then do
      let p := pos &&& (~~~pos + 1)
      let found ← dfs p
      posLoop dfs fuel (pos - p) (ans + found)
    else some ans

/-- `none` where the fuel is spent. -/
def dfs (full : Word) : Nat → Word → Word → Word → Option Word
  | 0, _, _, _ => none
  | fuel + 1, row, ld, rd =>
    if row = full then some 1
    else
      posLoop (fun p => dfs full fuel (row ||| p) ((ld ||| p) <<< 1) ((rd ||| p) >>> 1)) fuel
        (full &&& ~~~(row ||| ld ||| rd)) 0

/-- A row and a column. -/
abbrev Cell (n : Nat) := Fin n × Fin n

variable {n : Nat}

/-- Queens on these cells attack each other: the row, the column or a diagonal is the same. -/
def Attacks (p q : Cell n) : Prop :=
  p.1 = q.1 ∨ p.2 = q.2 ∨ p.1.val + p.2.val = q.1.val + q.2.val ∨
    p.1.val + q.2.val = q.1.val + p.2.val

/-- As many queens as the board has rows, of which no two attack each other. -/
def Placement (S : Finset (Cell n)) : Prop :=
  S.card = n ∧ ∀ p ∈ S, ∀ q ∈ S, p ≠ q → ¬Attacks p q

instance : DecidableRel (Attacks (n := n)) := fun _ _ => inferInstanceAs (Decidable (_ ∨ _))

instance : DecidablePred (Placement (n := n)) := fun _ => inferInstanceAs (Decidable (_ ∧ _))

def placements (n : Nat) : Finset (Finset (Cell n)) := Finset.univ.filter Placement

/-- Queens in these columns, so many rows apart, do not attack each other. -/
def Free (c d apart : Nat) : Prop := c ≠ d ∧ c ≠ d + apart ∧ d ≠ c + apart

/-- A queen in this column of the next row is free; the columns of the rows before it are given,
the nearest row first. -/
def Safe (cols : List Nat) (c : Nat) : Prop :=
  ∀ i, (h : i < cols.length) → Free c cols[i] (i + 1)

instance (c d apart : Nat) : Decidable (Free c d apart) := inferInstanceAs (Decidable (_ ∧ _))

instance (cols : List Nat) : DecidablePred (Safe cols) := fun c =>
  Nat.decidableBallLT cols.length fun i h => Free c cols[i] (i + 1)

/-- The columns for the next row. -/
def choices (n : Nat) (cols : List Nat) : Finset Nat :=
  (Finset.range n).filter (Safe cols)

theorem mem_choices {cols : List Nat} {c : Nat} : c ∈ choices n cols ↔ c < n ∧ Safe cols c := by
  rw [choices, Finset.mem_filter, Finset.mem_range]

theorem grown_iff {l : List Nat} :
    Grown (choices n) l ↔ (∀ c ∈ l, c < n) ∧
      ∀ i j, i < j → (hj : j < l.length) → (hi : i < l.length) → Free l[i] l[j] (j - i) := by
  induction l with
  | nil =>
    refine iff_of_true .nil ⟨fun c hc => ?_, fun i j _ hj => ?_⟩
    · cases hc
    · cases hj
  | cons c l ih =>
    rw [grown_cons_iff, mem_choices, ih, List.forall_mem_cons]
    constructor
    · rintro ⟨⟨hc, hsafe⟩, hl, hfree⟩
      refine ⟨⟨hc, hl⟩, fun i j hij hj hi => ?_⟩
      obtain ⟨j, rfl⟩ : ∃ m, j = m + 1 := ⟨j - 1, by omega⟩
      cases i with
      | zero => exact hsafe j (Nat.succ_lt_succ_iff.mp hj)
      | succ i =>
        have hrest := hfree i j (Nat.succ_lt_succ_iff.mp hij) (Nat.succ_lt_succ_iff.mp hj)
          (Nat.succ_lt_succ_iff.mp hi)
        simpa using hrest
    · rintro ⟨⟨hc, hl⟩, hfree⟩
      refine ⟨⟨hc, fun j hj => ?_⟩, hl, fun i j hij hj hi => ?_⟩
      · exact hfree 0 (j + 1) (Nat.succ_pos j) (Nat.succ_lt_succ hj) (Nat.succ_pos _)
      · have hrest := hfree (i + 1) (j + 1) (Nat.succ_lt_succ hij) (Nat.succ_lt_succ hj)
          (Nat.succ_lt_succ hi)
        simpa using hrest

/-- One queen a row, in these columns. -/
def queens (σ : Fin n → Fin n) : Finset (Cell n) :=
  Finset.univ.map ⟨fun r => (r, σ r), fun _ _ h => (Prod.mk.inj h).1⟩

theorem mem_queens {σ : Fin n → Fin n} {p : Cell n} : p ∈ queens σ ↔ σ p.1 = p.2 := by
  simp only [queens, Finset.mem_map, Finset.mem_univ, true_and]
  constructor
  · rintro ⟨r, rfl⟩
    rfl
  · intro h
    exact ⟨p.1, Prod.ext rfl h⟩

theorem card_queens (σ : Fin n → Fin n) : (queens σ).card = n := by
  rw [queens, Finset.card_map, Finset.card_univ, Fintype.card_fin]

theorem queens_injective : Function.Injective (queens (n := n)) := by
  intro σ τ h
  funext r
  have hmem : (r, σ r) ∈ queens τ := h ▸ mem_queens.mpr rfl
  exact (mem_queens.mp hmem).symm

theorem Placement.exists_queens {S : Finset (Cell n)} (h : Placement S) :
    ∃ σ : Fin n → Fin n, queens σ = S := by
  obtain ⟨hcard, hfree⟩ := h
  have hrows : Set.InjOn Prod.fst (S : Set (Cell n)) := by
    intro p hp q hq hrow
    by_contra hne
    exact hfree p hp q hq hne (.inl hrow)
  have hall : S.image Prod.fst = Finset.univ := by
    rw [← Finset.card_eq_iff_eq_univ, Finset.card_image_of_injOn hrows, hcard, Fintype.card_fin]
  have hrow : ∀ r : Fin n, ∃ c, (r, c) ∈ S := by
    intro r
    obtain ⟨p, hp, rfl⟩ := Finset.mem_image.mp (hall ▸ Finset.mem_univ r)
    exact ⟨p.2, hp⟩
  choose σ hσ using hrow
  refine ⟨σ, Finset.eq_of_subset_of_card_le (fun p hp => ?_) ?_⟩
  · have hcell : (p.1, p.2) = p := rfl
    rw [← hcell, ← mem_queens.mp hp]
    exact hσ p.1
  · rw [hcard, card_queens]

theorem placement_queens_iff {σ : Fin n → Fin n} :
    Placement (queens σ) ↔ Grown (choices n) (List.ofFn fun r => (σ r).val) := by
  rw [grown_iff, Placement, card_queens]
  simp only [List.length_ofFn, List.getElem_ofFn, true_and]
  constructor
  · intro hfree
    refine ⟨?_, fun i j hij hj hi => ?_⟩
    · intro c hc
      obtain ⟨r, rfl⟩ := (List.mem_ofFn' _ _).mp hc
      exact (σ r).isLt
    · have hne : ((⟨i, hi⟩, σ ⟨i, hi⟩) : Cell n) ≠ (⟨j, hj⟩, σ ⟨j, hj⟩) := by
        intro h
        exact hij.ne (Fin.mk.inj (Prod.mk.inj h).1)
      have hno := hfree _ (mem_queens.mpr rfl) _ (mem_queens.mpr rfl) hne
      rw [Attacks, Fin.ext_iff, Fin.ext_iff] at hno
      simp only at hno
      unfold Free
      omega
  · rintro ⟨-, hfree⟩ ⟨r, c⟩ hp ⟨s, d⟩ hq hne hattack
    have hc : σ r = c := mem_queens.mp hp
    have hd : σ s = d := mem_queens.mp hq
    subst hc hd
    have hrs : r.val ≠ s.val := by
      intro h
      exact hne (by rw [Fin.ext h])
    rw [Attacks, Fin.ext_iff, Fin.ext_iff] at hattack
    simp only at hattack
    -- The rows may stand either way round.
    rcases Nat.lt_or_gt_of_ne hrs with hlt | hgt
    · have hno : Free (σ r) (σ s) (s - r) := hfree r s hlt s.isLt r.isLt
      unfold Free at hno
      omega
    · have hno : Free (σ s) (σ r) (r - s) := hfree s r hgt r.isLt s.isLt
      unfold Free at hno
      omega

theorem card_leaves : (leaves (choices n) n []).card = (placements n).card := by
  classical
  have hlists : ((Finset.univ : Finset (Fin n → Fin n)).filter fun σ => Placement (queens σ)).card =
      (leaves (choices n) n []).card := by
    refine Finset.card_bij (fun σ _ => List.ofFn fun r => (σ r).val) ?_ ?_ ?_
    case refine_1 =>
      intro σ hσ
      rw [mem_leaves_nil, List.length_ofFn]
      exact ⟨placement_queens_iff.mp (Finset.mem_filter.mp hσ).2, rfl⟩
    case refine_2 =>
      intro σ _ τ _ h
      funext r
      exact Fin.ext (congrFun (List.ofFn_injective h) r)
    case refine_3 =>
      intro l hl
      obtain ⟨hgrown, rfl⟩ := mem_leaves_nil.mp hl
      have hlt := (grown_iff.mp hgrown).1
      refine ⟨fun r => ⟨l[r], hlt _ (List.getElem_mem r.isLt)⟩, ?_, List.ofFn_getElem⟩
      rw [Finset.mem_filter, placement_queens_iff]
      exact ⟨Finset.mem_univ _, by simpa using hgrown⟩
  rw [← hlists]
  refine Finset.card_bij (fun σ _ => queens σ) ?_ (fun σ _ τ _ h => queens_injective h) ?_
  · intro σ hσ
    exact Finset.mem_filter.mpr ⟨Finset.mem_univ _, (Finset.mem_filter.mp hσ).2⟩
  · intro S hS
    obtain ⟨σ, rfl⟩ := (Finset.mem_filter.mp hS).2.exists_queens
    exact ⟨σ, Finset.mem_filter.mpr ⟨Finset.mem_univ _, (Finset.mem_filter.mp hS).2⟩, rfl⟩

/-- What the masks hold for the next row. Above the board the left one holds more. -/
structure Encodes (n : Nat) (cols : List Nat) (row ld rd : Word) : Prop where
  row : ∀ c, c ∈ bits row ↔ c ∈ cols
  left : ∀ c < n, c ∈ bits ld ↔ ∃ i, ∃ h : i < cols.length, cols[i] + (i + 1) = c
  right : ∀ c, c ∈ bits rd ↔ ∃ i, ∃ h : i < cols.length, cols[i] = c + (i + 1)

theorem encodes_nil (n : Nat) : Encodes n [] 0 0 0 := by
  constructor <;> intro c <;> simp [mem_bits]

variable {cols : List Nat} {row ld rd : Word} {c : Nat}

theorem exists_cons_iff {p : Nat → Nat → Prop} :
    (∃ i, ∃ h : i < (c :: cols).length, p (c :: cols)[i] i) ↔
      p c 0 ∨ ∃ i, ∃ h : i < cols.length, p cols[i] (i + 1) := by
  constructor
  · rintro ⟨i, hi, hp⟩
    cases i with
    | zero => exact .inl hp
    | succ i => exact .inr ⟨i, Nat.succ_lt_succ_iff.mp hi, hp⟩
  · rintro (hp | ⟨i, hi, hp⟩)
    · exact ⟨0, Nat.succ_pos _, hp⟩
    · exact ⟨i + 1, Nat.succ_lt_succ hi, hp⟩

theorem Encodes.cons (h : Encodes n cols row ld rd) (hn : n ≤ 32) (hc : c < n) :
    Encodes n (c :: cols) (row ||| BitVec.twoPow 32 c) ((ld ||| BitVec.twoPow 32 c) <<< 1)
      ((rd ||| BitVec.twoPow 32 c) >>> 1) := by
  have hbit := bits_twoPow (w := 32) (i := c) (by omega)
  constructor
  case row =>
    intro d
    rw [bits_or, hbit, Finset.mem_union, Finset.mem_singleton, h.row, List.mem_cons, or_comm]
  case left =>
    intro d hd
    rw [mem_bits_shiftLeft_one (by omega), bits_or, hbit,
      exists_cons_iff (p := fun x i => x + (i + 1) = d)]
    constructor
    · rintro ⟨e, he, rfl⟩
      rcases Finset.mem_union.mp he with hold | hnew
      · obtain ⟨i, hi, rfl⟩ := (h.left e (by omega)).mp hold
        exact .inr ⟨i, hi, rfl⟩
      · rw [Finset.mem_singleton.mp hnew]
        exact .inl rfl
    · rintro (rfl | ⟨i, hi, rfl⟩)
      · exact ⟨c, Finset.mem_union_right _ (Finset.mem_singleton_self c), rfl⟩
      · exact ⟨_, Finset.mem_union_left _ ((h.left _ (by omega)).mpr ⟨i, hi, rfl⟩), rfl⟩
  case right =>
    intro d
    rw [mem_bits_ushiftRight_one, bits_or, hbit, Finset.mem_union, Finset.mem_singleton, h.right,
      exists_cons_iff (p := fun x i => x = d + (i + 1)), or_comm]
    refine or_congr eq_comm (exists_congr fun i => exists_congr fun hi => ?_)
    omega

theorem FULL_eq (hn : n < 32) : FULL n = BitVec.ofNat 32 (2 ^ n - 1) := by
  have hpow : 2 ^ n < 2 ^ 32 := Nat.pow_lt_pow_right (by decide) hn
  have hone := Nat.one_le_two_pow (n := n)
  have hshift : 1#32 <<< n = BitVec.ofNat 32 (2 ^ n) := by
    apply BitVec.eq_of_toNat_eq
    rw [BitVec.toNat_shiftLeft, BitVec.toNat_ofNat, Nat.shiftLeft_eq]
    exact congrArg (· % 2 ^ 32) (Nat.one_mul _)
  apply BitVec.eq_of_toNat_eq
  rw [FULL, hshift, BitVec.toNat_sub_of_le, BitVec.toNat_ofNat, BitVec.toNat_ofNat,
    Nat.mod_eq_of_lt hpow, Nat.mod_eq_of_lt (by omega)]
  · rfl
  · rw [BitVec.le_def, BitVec.toNat_ofNat, Nat.mod_eq_of_lt hpow]
    exact hone

theorem toNat_FULL (hn : n < 32) : (FULL n).toNat = 2 ^ n - 1 := by
  have hpow : 2 ^ n < 2 ^ 32 := Nat.pow_lt_pow_right (by decide) hn
  rw [FULL_eq hn, BitVec.toNat_ofNat, Nat.mod_eq_of_lt (by omega)]

theorem bits_FULL (hn : n < 32) : bits (FULL n) = Finset.range n := by
  ext i
  rw [mem_bits, FULL_eq hn, BitVec.getLsbD_ofNat, Nat.testBit_two_pow_sub_one, Bool.and_eq_true,
    decide_eq_true_eq, decide_eq_true_eq, Finset.mem_range]
  omega

theorem Encodes.row_eq_iff (h : Encodes n cols row ld rd) (hn : n < 32)
    (hgrown : Grown (choices n) cols) : row = FULL n ↔ cols.length = n := by
  obtain ⟨hlt, hfree⟩ := grown_iff.mp hgrown
  have hnodup : cols.Nodup := by
    rw [List.nodup_iff_getElem?_ne_getElem?]
    intro i j hij hj
    rw [List.getElem?_eq_getElem hj, List.getElem?_eq_getElem (hij.trans hj)]
    intro heq
    exact (hfree i j hij hj (hij.trans hj)).1 (Option.some.inj heq)
  have hset : bits row = cols.toFinset := by
    ext c
    rw [h.row, List.mem_toFinset]
  have hsub : cols.toFinset ⊆ Finset.range n := by
    intro c hc
    exact Finset.mem_range.mpr (hlt c (List.mem_toFinset.mp hc))
  have hcard : cols.toFinset.card = cols.length := List.toFinset_card_of_nodup hnodup
  rw [← bits_inj, hset, bits_FULL hn]
  constructor
  · intro heq
    rw [← hcard, heq, Finset.card_range]
  · intro hlen
    refine Finset.eq_of_subset_of_card_le hsub ?_
    rw [Finset.card_range, hcard, hlen]

theorem Encodes.bits_pos (h : Encodes n cols row ld rd) (hn : n < 32) :
    bits (FULL n &&& ~~~(row ||| ld ||| rd)) = choices n cols := by
  ext c
  have hand : c ∈ bits (FULL n &&& ~~~(row ||| ld ||| rd)) ↔
      c ∈ bits (FULL n) ∧ c ∉ bits row ∧ c ∉ bits ld ∧ c ∉ bits rd := by
    simp only [mem_bits, BitVec.getLsbD_and, BitVec.getLsbD_not, BitVec.getLsbD_or,
      Bool.and_eq_true, Bool.not_eq_true', Bool.or_eq_false_iff, Bool.not_eq_true,
      decide_eq_true_eq]
    constructor
    · rintro ⟨hf, -, ⟨hr, hl⟩, hd⟩
      exact ⟨hf, hr, hl, hd⟩
    · rintro ⟨hf, hr, hl, hd⟩
      exact ⟨hf, BitVec.lt_of_getLsbD hf, ⟨hr, hl⟩, hd⟩
  rw [hand, bits_FULL hn, Finset.mem_range, mem_choices]
  refine and_congr_right fun hc => ?_
  rw [h.row, h.left c hc, h.right]
  constructor
  · rintro ⟨hrow, hleft, hright⟩ i hi
    refine ⟨?_, fun heq => hleft ⟨i, hi, heq.symm⟩, fun heq => hright ⟨i, hi, heq⟩⟩
    rintro rfl
    exact hrow (List.getElem_mem hi)
  · intro hsafe
    refine ⟨fun hmem => ?_, ?_, ?_⟩
    · obtain ⟨i, hi, heq⟩ := List.getElem_of_mem hmem
      exact (hsafe i hi).1 heq.symm
    · rintro ⟨i, hi, heq⟩
      exact (hsafe i hi).2.1 heq.symm
    · rintro ⟨i, hi, heq⟩
      exact (hsafe i hi).2.2 heq

theorem posLoop_eq {f : Word → Option Word} (val : Nat → Word) {pos : Word}
    (hval : ∀ c ∈ bits pos, f (BitVec.twoPow 32 c) = some (val c)) {fuel : Nat}
    (hfuel : (bits pos).card < fuel) (ans : Word) :
    posLoop f fuel pos ans = some (ans + ∑ c ∈ bits pos, val c) := by
  induction fuel generalizing pos ans with
  | zero => cases hfuel
  | succ fuel ih =>
    rw [posLoop]
    by_cases hpos : pos = 0
    · have hnone : bits pos = ∅ := by
        rw [← Finset.not_nonempty_iff_eq_empty, bits_nonempty]
        exact not_not_intro hpos
      rw [if_neg (not_not_intro hpos), hnone, Finset.sum_empty, add_zero]
    · obtain ⟨c, hc, hlow⟩ := and_neg_of_ne_zero hpos
      have hrest := bits_sub_twoPow hc
      have hcard : (bits (pos - BitVec.twoPow 32 c)).card < fuel := by
        rw [hrest, Finset.card_erase_of_mem hc]
        have := Finset.card_pos.mpr ⟨c, hc⟩
        omega
      have hvals : ∀ d ∈ bits (pos - BitVec.twoPow 32 c),
          f (BitVec.twoPow 32 d) = some (val d) := by
        intro d hd
        exact hval d (Finset.mem_of_mem_erase (hrest ▸ hd))
      rw [if_pos hpos, hlow]
      show (f (BitVec.twoPow 32 c)).bind _ = _
      rw [hval c hc, Option.bind_some, ih hvals hcard, hrest, ← Finset.add_sum_erase _ val hc,
        add_assoc]

/-- From every board that the search stands at, it counts the full boards ahead. -/
theorem dfs_eq (hn : n < 32) {k : Nat} (hk : cols.length + k = n)
    (hgrown : Grown (choices n) cols) (henc : Encodes n cols row ld rd) {fuel : Nat}
    (hfuel : n + k + 2 ≤ fuel) :
    dfs (FULL n) fuel row ld rd = some ((leaves (choices n) k cols).card : Word) := by
  induction k generalizing cols row ld rd fuel with
  | zero =>
    obtain ⟨fuel, rfl⟩ : ∃ m, fuel = m + 1 := ⟨fuel - 1, by omega⟩
    have hfull := (henc.row_eq_iff hn hgrown).mpr hk
    rw [dfs, if_pos hfull, leaves, Finset.card_singleton, Nat.cast_one]
  | succ k ih =>
    obtain ⟨fuel, rfl⟩ : ∃ m, fuel = m + 1 := ⟨fuel - 1, by omega⟩
    have hnot : row ≠ FULL n := by
      intro heq
      have := (henc.row_eq_iff hn hgrown).mp heq
      omega
    have hpos := henc.bits_pos hn
    have hcard : (bits (FULL n &&& ~~~(row ||| ld ||| rd))).card ≤ n := by
      have hsub : choices n cols ⊆ Finset.range n := Finset.filter_subset _ _
      rw [hpos]
      exact (Finset.card_le_card hsub).trans (Finset.card_range n).le
    rw [dfs, if_neg hnot, posLoop_eq (fun c => ((leaves (choices n) k (c :: cols)).card : Word))
      ?_ (by omega), hpos, card_leaves_succ, Nat.cast_sum, zero_add]
    intro c hc
    have hchoice := hpos ▸ hc
    refine ih ?_ (.cons hchoice hgrown) (henc.cons (by omega) (mem_choices.mp hchoice).1) (by omega)
    rw [List.length_cons]
    omega

/-- The search ends, and counts the placements of as many queens as the board has rows. -/
theorem dfs_counts (hn : n ≤ 30) : (FULL n).toNat = 2 ^ n - 1 ∧ ∃ bound, ∀ fuel ≥ bound,
    dfs (FULL n) fuel 0 0 0 = some (BitVec.ofNat 32 (placements n).card) := by
  refine ⟨toNat_FULL (by omega), n + n + 2, fun fuel hfuel => ?_⟩
  rw [dfs_eq (by omega) (Nat.zero_add n) .nil (encodes_nil n) hfuel, card_leaves]
  rfl

/-- The largest board of the benchmark's settings. -/
theorem dfs_counts_fifteen : (FULL 15).toNat = 2 ^ 15 - 1 ∧ ∃ bound, ∀ fuel ≥ bound,
    dfs (FULL 15) fuel 0 0 0 = some (BitVec.ofNat 32 (placements 15).card) :=
  dfs_counts (by decide)

example : dfs (FULL 6) 14 0 0 0 = some 4 := by decide

end Riscv32Cpu.Microbench.Queen
