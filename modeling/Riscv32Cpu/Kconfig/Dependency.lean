/- module: Riscv32Cpu/Kconfig/Dependency
   source: CODE/nemu/tools/kconfig/expr.c, expr.h
   digest: Dependencies of options: what two of them have in common, and what is left of each. -/

import Mathlib.Logic.Basic
import Mathlib.Tactic.SplitIfs

set_option autoImplicit false
set_option relaxedAutoImplicit false

namespace Riscv32Cpu.Kconfig.Dependency

inductive Tristate
  | no
  | mod
  | yes
  deriving DecidableEq

/-- The value of the enumeration constant. -/
def Tristate.rank : Tristate → Nat
  | .no => 0
  | .mod => 1
  | .yes => 2

/-- A pointer to a symbol: one of the three constants, or another. -/
inductive Symbol (σ : Type)
  | yes
  | mod
  | no
  | other (sym : σ)
  deriving DecidableEq

/-- `E_OR` and `E_AND`. -/
inductive Junction
  | or
  | and
  deriving DecidableEq

inductive Relation
  | equal
  | unequal
  | lth
  | leq
  | gth
  | geq
  deriving DecidableEq

/-- The expressions of dependencies; `E_LIST` and `E_RANGE` belong to choices and ranges. -/
inductive Expr (σ : Type)
  | symbol (sym : Symbol σ)
  | comp (type : Relation) (left right : Symbol σ)
  | not (e : Expr σ)
  | two (type : Junction) (left right : Expr σ)
  deriving DecidableEq

inductive ExprType
  | symbol
  | comp (type : Relation)
  | not
  | two (type : Junction)
  deriving DecidableEq

variable {σ : Type}

def Expr.type : Expr σ → ExprType
  | .symbol _ => .symbol
  | .comp type _ _ => .comp type
  | .not _ => .not
  | .two type _ _ => .two type

def exprOr (dep1 dep2 : Tristate) : Tristate := if dep1.rank > dep2.rank then dep1 else dep2

def exprAnd (dep1 dep2 : Tristate) : Tristate := if dep1.rank < dep2.rank then dep1 else dep2

def exprNot : Tristate → Tristate
  | .no => .yes
  | .mod => .mod
  | .yes => .no

/-- The values of the symbols, and the outcome `res` of a comparison of two of them as texts or as
numbers. -/
structure Config (σ : Type) where
  tri : σ → Tristate
  res : Symbol σ → Symbol σ → Int

def Config.value (c : Config σ) : Symbol σ → Tristate
  | .yes => .yes
  | .mod => .mod
  | .no => .no
  | .other sym => c.tri sym

def Relation.holds : Relation → Int → Bool
  | .equal, res => res = 0
  | .unequal, res => res ≠ 0
  | .lth, res => res < 0
  | .leq, res => res ≤ 0
  | .gth, res => res > 0
  | .geq, res => res ≥ 0

def Junction.join : Junction → Tristate → Tristate → Tristate
  | .or => exprOr
  | .and => exprAnd

def calcValue (c : Config σ) : Expr σ → Tristate
  | .symbol sym => c.value sym
  | .two type left right => type.join (calcValue c left) (calcValue c right)
  | .not e => exprNot (calcValue c e)
  | .comp type left right => if type.holds (c.res left right) then .yes else .no

/-- An expression that is `NULL` is `y`. -/
def exprCalcValue (c : Config σ) : Option (Expr σ) → Tristate
  | none => .yes
  | some e => calcValue c e

theorem join_comm (type : Junction) (a b : Tristate) : type.join a b = type.join b a := by
  cases type <;> cases a <;> cases b <;> rfl

theorem join_assoc (type : Junction) (a b c : Tristate) :
    type.join (type.join a b) c = type.join a (type.join b c) := by
  cases type <;> cases a <;> cases b <;> cases c <;> rfl

theorem join_join_join (type : Junction) (a b k k' : Tristate) :
    type.join (type.join a k) (type.join b k') = type.join (type.join a b) (type.join k' k) := by
  calc type.join (type.join a k) (type.join b k')
      = type.join a (type.join (type.join b k') k) := by rw [join_assoc, join_comm type k]
    _ = type.join (type.join a b) (type.join k' k) := by simp only [join_assoc]

theorem join_rank (type : Junction) {a b : Tristate} (k : Tristate) (h : a.rank ≤ b.rank) :
    (type.join a k).rank ≤ (type.join b k).rank := by
  revert h
  cases type <;> cases a <;> cases b <;> cases k <;> decide

section

variable [DecidableEq σ]

/-- What a common leaf is replaced by; the other operand decides beside it. -/
def Junction.unit : Junction → Symbol σ
  | .or => .no
  | .and => .yes

/-- The operand that decides. -/
def Junction.zero : Junction → Symbol σ
  | .or => .yes
  | .and => .no

def eliminateTwo (type : Junction) (left right : Expr σ) : Expr σ :=
  if left = .symbol type.zero then .symbol type.zero
  else if left = .symbol type.unit then right
  else if right = .symbol type.zero then .symbol type.zero
  else if right = .symbol type.unit then left
  else .two type left right

def exprEliminateYn : Expr σ → Expr σ
  | .two type left right => eliminateTwo type (exprEliminateYn left) (exprEliminateYn right)
  | e => e

/-- Two leaves. They are left alone if both are `y` or both are `n`. -/
def eliminateLeaf (eq : Expr σ → Expr σ → Bool) (type : Junction) (e1 e2 : Expr σ) :
    Expr σ × Expr σ :=
  if e1 = e2 ∧ (e1 = .symbol .yes ∨ e1 = .symbol .no) then (e1, e2)
  else if eq e1 e2 then (.symbol type.unit, .symbol type.unit)
  else (e1, e2)

end

section

variable (leaf : Junction → Expr σ → Expr σ → Expr σ × Expr σ) (type : Junction)

/-- `__expr_eliminate_eq` from where the first expression is a leaf, which it stays. -/
def eliminateRight : Expr σ → Expr σ → Expr σ × Expr σ
  | e1, .two t left right =>
    if t = type then
      let p := eliminateRight e1 left
      let q := eliminateRight p.1 right
      (q.1, .two t p.2 q.2)
    else leaf type e1 (.two t left right)
  | e1, e2 => leaf type e1 e2

/-- `__expr_eliminate_eq`. -/
def eliminateEq : Expr σ → Expr σ → Expr σ × Expr σ
  | .two t left right, e2 =>
    if t = type then
      let p := eliminateEq left e2
      let q := eliminateEq right p.2
      (.two t p.1 q.1, q.2)
    else eliminateRight leaf type (.two t left right) e2
  | e1, e2 => eliminateRight leaf type e1 e2

/-- One of the two `switch` statements of `expr_eliminate_eq`, on the type of `e`. -/
def eliminateLevel (e : Expr σ) (p : Expr σ × Expr σ) : Expr σ × Expr σ :=
  match e.type with
  | .two type => eliminateEq leaf type p.1 p.2
  | _ => p

/-- Both of them, the second only for two expressions that are not of one type by then. -/
def eliminateLevels (e1 e2 : Expr σ) : Expr σ × Expr σ :=
  let p := eliminateLevel leaf e1 (e1, e2)
  if p.1.type ≠ p.2.type then eliminateLevel leaf p.2 p else p

end

section

variable [DecidableEq σ]

def sameSymbol : Expr σ → Expr σ → Bool
  | .symbol sym, .symbol sym' => sym = sym'
  | _, _ => false

/-- `expr_eq` of two expressions that are not `NULL`; `fuel` bounds how deep the levels of the first
one are nested. -/
def eqNode : Nat → Expr σ → Expr σ → Bool
  | 0, _, _ => false
  | _ + 1, .symbol sym, .symbol sym' => sym = sym'
  | _ + 1, .comp type left right, .comp type' left' right' =>
    type = type' && left = left' && right = right'
  | fuel + 1, .not e, .not e' => eqNode fuel e e'
  | fuel + 1, .two type left right, .two type' left' right' =>
    if type = type' then
      let p := eliminateLevels (eliminateLeaf (eqNode fuel)) (.two type left right)
        (.two type' left' right')
      sameSymbol (exprEliminateYn p.1) (exprEliminateYn p.2)
    else false
  | _, _, _ => false

def Expr.size : Expr σ → Nat
  | .symbol _ => 1
  | .comp _ _ _ => 1
  | .not e => e.size + 1
  | .two _ left right => left.size + right.size + 1

def exprIsYes (e : Option (Expr σ)) : Bool := e = none || e = some (.symbol .yes)

def exprEq : Option (Expr σ) → Option (Expr σ) → Bool
  | some e1, some e2 => eqNode e1.size e1 e2
  | e1, e2 => exprIsYes e1 && exprIsYes e2

def exprEliminateEq : Option (Expr σ) → Option (Expr σ) → Option (Expr σ) × Option (Expr σ)
  | some e1, some e2 =>
    let p := eliminateLevels (eliminateLeaf (eqNode e1.size)) e1 e2
    (some (exprEliminateYn p.1), some (exprEliminateYn p.2))
  | e1, e2 => (e1, e2)

end

example : exprEliminateEq (some (.two .and (.symbol (.other 0)) (.symbol (.other 1))))
    (some (.two .and (.two .and (.symbol (.other 1)) (.symbol (.other 0))) (.symbol (.other 2)))) =
    (some (.symbol .yes), some (.symbol (.other 2))) := by
  decide

section

variable (leaf : Junction → Expr σ → Expr σ → Expr σ × Expr σ) (type : Junction)

theorem eliminateRight_two (e1 left right : Expr σ) :
    eliminateRight leaf type e1 (.two type left right) =
      ((eliminateRight leaf type (eliminateRight leaf type e1 left).1 right).1,
        .two type (eliminateRight leaf type e1 left).2
          (eliminateRight leaf type (eliminateRight leaf type e1 left).1 right).2) := by
  rw [eliminateRight, if_pos rfl]

theorem eliminateEq_two (left right e2 : Expr σ) :
    eliminateEq leaf type (.two type left right) e2 =
      (.two type (eliminateEq leaf type left e2).1
        (eliminateEq leaf type right (eliminateEq leaf type left e2).2).1,
        (eliminateEq leaf type right (eliminateEq leaf type left e2).2).2) := by
  rw [eliminateEq, if_pos rfl]

theorem eliminateEq_second (e1 left right : Expr σ) :
    ∃ left' right', (eliminateEq leaf type e1 (.two type left right)).2 =
      .two type left' right' := by
  have hright (e left right : Expr σ) : ∃ left' right',
      (eliminateRight leaf type e (.two type left right)).2 = .two type left' right' := by
    rw [eliminateRight_two]
    exact ⟨_, _, rfl⟩
  induction e1 generalizing left right with
  | symbol => exact hright _ left right
  | comp => exact hright _ left right
  | not => exact hright _ left right
  | two t l r ihl ihr =>
    by_cases ht : t = type
    · obtain ⟨left', right', h⟩ := ihl left right
      rw [ht, eliminateEq_two, h]
      exact ihr left' right'
    · rw [eliminateEq, if_neg ht]
      exact hright _ left right

/-- Of two expressions of one type only one level is walked. -/
theorem eliminateLevels_two (left right left' right' : Expr σ) :
    eliminateLevels leaf (.two type left right) (.two type left' right') =
      eliminateEq leaf type (.two type left right) (.two type left' right') := by
  obtain ⟨l, r, h⟩ := eliminateEq_second leaf type (.two type left right) left' right'
  have hsame : (eliminateEq leaf type (.two type left right) (.two type left' right')).1.type =
      (eliminateEq leaf type (.two type left right) (.two type left' right')).2.type := by
    rw [h, eliminateEq_two, Expr.type, Expr.type]
  rw [eliminateLevels, eliminateLevel, Expr.type]
  exact if_neg (not_not_intro hsame)

end

section

theorem one_le_size (e : Expr σ) : 1 ≤ e.size := by
  cases e with
  | symbol => exact Nat.le_refl 1
  | comp => exact Nat.le_refl 1
  | not => exact Nat.le_add_left 1 _
  | two => exact Nat.le_add_left 1 _

theorem eliminateLeaf_size [DecidableEq σ] (eq : Expr σ → Expr σ → Bool) (type : Junction)
    (e1 e2 : Expr σ) : (eliminateLeaf eq type e1 e2).1.size ≤ e1.size := by
  rw [eliminateLeaf]
  split_ifs
  · exact Nat.le_refl _
  · exact one_le_size e1
  · exact Nat.le_refl _

section

variable {leaf leaf' : Junction → Expr σ → Expr σ → Expr σ × Expr σ} {n : Nat}
  (hsize : ∀ type e1 e2, (leaf type e1 e2).1.size ≤ e1.size)
  (hleaf : ∀ type e1 e2, e1.size ≤ n → leaf type e1 e2 = leaf' type e1 e2)

include hsize hleaf

theorem eliminateRight_congr (type : Junction) {e1 : Expr σ} (e2 : Expr σ) (h : e1.size ≤ n) :
    eliminateRight leaf type e1 e2 = eliminateRight leaf' type e1 e2 ∧
      (eliminateRight leaf type e1 e2).1.size ≤ e1.size := by
  induction e2 generalizing e1 with
  | symbol => exact ⟨hleaf type e1 _ h, hsize type e1 _⟩
  | comp => exact ⟨hleaf type e1 _ h, hsize type e1 _⟩
  | not => exact ⟨hleaf type e1 _ h, hsize type e1 _⟩
  | two t left right ihleft ihright =>
    by_cases ht : t = type
    · obtain ⟨hl, hlsize⟩ := ihleft h
      obtain ⟨hr, hrsize⟩ := ihright (Nat.le_trans hlsize h)
      rw [ht, eliminateRight_two, eliminateRight_two, ← hl, ← hr]
      exact ⟨rfl, Nat.le_trans hrsize hlsize⟩
    · rw [eliminateRight, eliminateRight, if_neg ht, if_neg ht]
      exact ⟨hleaf type e1 _ h, hsize type e1 _⟩

theorem eliminateEq_congr (type : Junction) {e1 : Expr σ} (e2 : Expr σ) (h : e1.size ≤ n) :
    eliminateEq leaf type e1 e2 = eliminateEq leaf' type e1 e2 ∧
      (eliminateEq leaf type e1 e2).1.size ≤ e1.size := by
  induction e1 generalizing e2 with
  | symbol => exact eliminateRight_congr hsize hleaf type e2 h
  | comp => exact eliminateRight_congr hsize hleaf type e2 h
  | not => exact eliminateRight_congr hsize hleaf type e2 h
  | two t left right ihleft ihright =>
    have hparts : left.size ≤ n ∧ right.size ≤ n := by
      rw [Expr.size] at h
      omega
    by_cases ht : t = type
    · obtain ⟨hl, hlsize⟩ := ihleft e2 hparts.1
      obtain ⟨hr, hrsize⟩ := ihright (eliminateEq leaf type left e2).2 hparts.2
      rw [ht, eliminateEq_two, eliminateEq_two, ← hl, ← hr]
      exact ⟨rfl, Nat.succ_le_succ (Nat.add_le_add hlsize hrsize)⟩
    · rw [eliminateEq, eliminateEq, if_neg ht, if_neg ht]
      exact eliminateRight_congr hsize hleaf type e2 h

theorem eliminateLevel_congr (e : Expr σ) {p : Expr σ × Expr σ} (h : p.1.size ≤ n) :
    eliminateLevel leaf e p = eliminateLevel leaf' e p ∧
      (eliminateLevel leaf e p).1.size ≤ p.1.size := by
  rw [eliminateLevel, eliminateLevel]
  split
  · exact eliminateEq_congr hsize hleaf _ p.2 h
  · exact ⟨rfl, Nat.le_refl _⟩

end

variable [DecidableEq σ]

theorem eliminateLeaf_congr {eq eq' : Expr σ → Expr σ → Bool} {n : Nat}
    (heq : ∀ e1 e2, e1.size ≤ n → eq e1 e2 = eq' e1 e2) (type : Junction) (e1 e2 : Expr σ)
    (h : e1.size ≤ n) : eliminateLeaf eq type e1 e2 = eliminateLeaf eq' type e1 e2 := by
  rw [eliminateLeaf, eliminateLeaf, heq e1 e2 h]

theorem eliminateLevels_congr {eq eq' : Expr σ → Expr σ → Bool} {e1 : Expr σ}
    (heq : ∀ a b, a.size ≤ e1.size → eq a b = eq' a b) (e2 : Expr σ) :
    eliminateLevels (eliminateLeaf eq) e1 e2 = eliminateLevels (eliminateLeaf eq') e1 e2 := by
  have hleaf := eliminateLeaf_congr heq
  obtain ⟨hfirst, hsize⟩ := eliminateLevel_congr (p := (e1, e2)) (eliminateLeaf_size eq) hleaf e1
    (Nat.le_refl e1.size)
  rw [eliminateLevels, eliminateLevels, ← hfirst,
    ← (eliminateLevel_congr (eliminateLeaf_size eq) hleaf _ hsize).1]

theorem eliminateLevels_two_congr {eq eq' : Expr σ → Expr σ → Bool} (type : Junction)
    {left right : Expr σ} (left' right' : Expr σ)
    (heq : ∀ a b, a.size ≤ left.size + right.size → eq a b = eq' a b) :
    eliminateLevels (eliminateLeaf eq) (.two type left right) (.two type left' right') =
      eliminateLevels (eliminateLeaf eq') (.two type left right) (.two type left' right') := by
  have hleaf := eliminateLeaf_congr heq
  have hl : left.size ≤ left.size + right.size := Nat.le_add_right _ _
  have hr : right.size ≤ left.size + right.size := Nat.le_add_left _ _
  rw [eliminateLevels_two, eliminateLevels_two, eliminateEq_two, eliminateEq_two,
    ← (eliminateEq_congr (eliminateLeaf_size eq) hleaf type _ hl).1,
    ← (eliminateEq_congr (eliminateLeaf_size eq) hleaf type _ hr).1]

theorem eqNode_fuel {n m : Nat} {e1 : Expr σ} (e2 : Expr σ) (hn : e1.size ≤ n) (hm : e1.size ≤ m) :
    eqNode n e1 e2 = eqNode m e1 e2 := by
  have hpos := one_le_size e1
  induction n generalizing m e1 e2 with
  | zero => omega
  | succ n ih =>
    obtain - | m := m
    · omega
    cases e1 with
    | symbol => cases e2 <;> rfl
    | comp => cases e2 <;> rfl
    | not e =>
      cases e2 with
      | not e' =>
        exact ih e' (Nat.le_of_succ_le_succ hn) (Nat.le_of_succ_le_succ hm) (one_le_size e)
      | _ => rfl
    | two type left right =>
      cases e2 with
      | two type' left' right' =>
        rw [eqNode, eqNode]
        split
        · next htype =>
          have hn : left.size + right.size ≤ n := Nat.le_of_succ_le_succ hn
          have hm : left.size + right.size ≤ m := Nat.le_of_succ_le_succ hm
          rw [htype, eliminateLevels_two_congr type' left' right' fun a b hab =>
            ih b (Nat.le_trans hab hn) (Nat.le_trans hab hm) (one_le_size a)]
        · rfl
      | _ => rfl

theorem sameSymbol_iff (e1 e2 : Expr σ) :
    sameSymbol e1 e2 = true ↔ ∃ sym, e1 = .symbol sym ∧ e2 = .symbol sym := by
  cases e1 with
  | symbol sym => cases e2 <;> simp [sameSymbol, eq_comm]
  | _ => simp [sameSymbol]

theorem exprEliminateEq_fuel {n : Nat} {e1 : Expr σ} (e2 : Expr σ) (h : e1.size ≤ n) :
    exprEliminateEq (some e1) (some e2) =
      (some (exprEliminateYn (eliminateLevels (eliminateLeaf (eqNode n)) e1 e2).1),
        some (exprEliminateYn (eliminateLevels (eliminateLeaf (eqNode n)) e1 e2).2)) := by
  have hfuel (a b : Expr σ) (hab : a.size ≤ e1.size) : eqNode e1.size a b = eqNode n a b :=
    eqNode_fuel b hab (Nat.le_trans hab h)
  rw [exprEliminateEq, eliminateLevels_congr hfuel e2]

theorem exprEq_two (type : Junction) (left right left' right' : Expr σ) :
    exprEq (some (.two type left right)) (some (.two type left' right')) = true ↔
      ∃ sym, exprEliminateEq (some (.two type left right)) (some (.two type left' right')) =
        (some (.symbol sym), some (.symbol sym)) := by
  have hfuel (a b : Expr σ) (hab : a.size ≤ left.size + right.size) :
      eqNode (left.size + right.size) a b = eqNode (left.size + right.size + 1) a b :=
    eqNode_fuel b hab (Nat.le_succ_of_le hab)
  rw [exprEq, exprEliminateEq, Expr.size, eqNode, if_pos rfl, sameSymbol_iff,
    eliminateLevels_two_congr type left' right' hfuel]
  simp only [Prod.mk.injEq, Option.some.injEq]

end

section

variable (c : Config σ)

theorem join_unit (type : Junction) (a : Tristate) : type.join a (c.value type.unit) = a := by
  cases type <;> cases a <;> rfl

theorem join_zero (type : Junction) (a : Tristate) :
    type.join a (c.value type.zero) = c.value type.zero := by
  cases type <;> cases a <;> rfl

theorem calcValue_eliminateTwo [DecidableEq σ] (type : Junction) (left right : Expr σ) :
    calcValue c (eliminateTwo type left right) =
      type.join (calcValue c left) (calcValue c right) := by
  rw [eliminateTwo]
  split_ifs with h h h h
  · rw [h, calcValue, join_comm, join_zero]
  · rw [h, calcValue, join_comm, join_unit]
  · rw [h, calcValue, join_zero]
  · rw [h, calcValue, join_unit]
  · rw [calcValue]

theorem calcValue_exprEliminateYn [DecidableEq σ] (e : Expr σ) :
    calcValue c (exprEliminateYn e) = calcValue c e := by
  induction e with
  | symbol => rfl
  | comp => rfl
  | not => rfl
  | two type left right ihleft ihright =>
    rw [exprEliminateYn, calcValue_eliminateTwo, ihleft, ihright, calcValue]

theorem rank_le_yes (a : Tristate) : a.rank ≤ Tristate.yes.rank := by
  cases a <;> decide

theorem exprIsYes_value [DecidableEq σ] {e : Option (Expr σ)} (h : exprIsYes e = true) :
    exprCalcValue c e = .yes := by
  rw [exprIsYes, Bool.or_eq_true, decide_eq_true_iff, decide_eq_true_iff] at h
  obtain rfl | rfl := h
  · rfl
  · rfl

/-- From both expressions of `e` the same value `k` was taken out to leave `p`. -/
def Removes (type : Junction) (e p : Expr σ × Expr σ) : Prop :=
  ∃ k, calcValue c e.1 = type.join (calcValue c p.1) k ∧
    calcValue c e.2 = type.join (calcValue c p.2) k

theorem Removes.refl (type : Junction) (e : Expr σ × Expr σ) : Removes c type e e :=
  ⟨c.value type.unit, (join_unit c type _).symm, (join_unit c type _).symm⟩

theorem removes_leaf [DecidableEq σ] {eq : Expr σ → Expr σ → Bool}
    (heq : ∀ e1 e2, eq e1 e2 = true → calcValue c e1 = calcValue c e2) (type : Junction)
    (e1 e2 : Expr σ) : Removes c type (e1, e2) (eliminateLeaf eq type e1 e2) := by
  rw [eliminateLeaf]
  split_ifs with hsame h
  · exact Removes.refl c type _
  · refine ⟨calcValue c e1, ?_, ?_⟩
    · rw [calcValue, join_comm, join_unit]
    · rw [calcValue, join_comm, join_unit, heq e1 e2 h]
  · exact Removes.refl c type _

variable {c}

theorem Removes.right {type : Junction} {e1 left right : Expr σ} {p q : Expr σ × Expr σ}
    (hp : Removes c type (e1, left) p) (hq : Removes c type (p.1, right) q) :
    Removes c type (e1, .two type left right) (q.1, .two type p.2 q.2) := by
  obtain ⟨k, h1, h2⟩ := hp
  obtain ⟨k', h1', h2'⟩ := hq
  refine ⟨type.join k' k, ?_, ?_⟩
  · rw [h1, h1', join_assoc]
  · rw [calcValue, calcValue, h2, h2', join_join_join]

theorem Removes.left {type : Junction} {e2 left right : Expr σ} {p q : Expr σ × Expr σ}
    (hp : Removes c type (left, e2) p) (hq : Removes c type (right, p.2) q) :
    Removes c type (.two type left right, e2) (.two type p.1 q.1, q.2) := by
  obtain ⟨k, h1, h2⟩ := hp
  obtain ⟨k', h1', h2'⟩ := hq
  refine ⟨type.join k' k, ?_, ?_⟩
  · rw [calcValue, calcValue, h1, h1', join_join_join]
  · rw [h2, h2', join_assoc]

section

variable {leaf : Junction → Expr σ → Expr σ → Expr σ × Expr σ}
  (hleaf : ∀ type e1 e2, Removes c type (e1, e2) (leaf type e1 e2))

include hleaf

theorem eliminateRight_removes (type : Junction) (e1 e2 : Expr σ) :
    Removes c type (e1, e2) (eliminateRight leaf type e1 e2) := by
  induction e2 generalizing e1 with
  | symbol => exact hleaf type e1 _
  | comp => exact hleaf type e1 _
  | not => exact hleaf type e1 _
  | two t left right ihleft ihright =>
    by_cases ht : t = type
    · rw [ht, eliminateRight_two]
      exact (ihleft e1).right (ihright _)
    · rw [eliminateRight, if_neg ht]
      exact hleaf type e1 _

theorem eliminateEq_removes (type : Junction) (e1 e2 : Expr σ) :
    Removes c type (e1, e2) (eliminateEq leaf type e1 e2) := by
  induction e1 generalizing e2 with
  | symbol => exact eliminateRight_removes hleaf type _ e2
  | comp => exact eliminateRight_removes hleaf type _ e2
  | not => exact eliminateRight_removes hleaf type _ e2
  | two t left right ihleft ihright =>
    by_cases ht : t = type
    · rw [ht, eliminateEq_two]
      exact (ihleft e2).left (ihright _)
    · rw [eliminateEq, if_neg ht]
      exact eliminateRight_removes hleaf type _ e2

end

/-- The values before are one monotone function of the values after. -/
def Reduces (v1 v2 w1 w2 : Tristate) : Prop :=
  ∃ g : Tristate → Tristate, (∀ a b, a.rank ≤ b.rank → (g a).rank ≤ (g b).rank) ∧
    v1 = g w1 ∧ v2 = g w2

theorem Reduces.refl (v1 v2 : Tristate) : Reduces v1 v2 v1 v2 :=
  ⟨id, fun _ _ h => h, rfl, rfl⟩

theorem Reduces.trans {v1 v2 w1 w2 u1 u2 : Tristate} (h : Reduces v1 v2 w1 w2)
    (h' : Reduces w1 w2 u1 u2) : Reduces v1 v2 u1 u2 := by
  obtain ⟨g, hg, rfl, rfl⟩ := h
  obtain ⟨g', hg', rfl, rfl⟩ := h'
  exact ⟨g ∘ g', fun a b hab => hg _ _ (hg' a b hab), rfl, rfl⟩

theorem Removes.reduces {type : Junction} {e p : Expr σ × Expr σ} (h : Removes c type e p) :
    Reduces (calcValue c e.1) (calcValue c e.2) (calcValue c p.1) (calcValue c p.2) := by
  obtain ⟨k, h1, h2⟩ := h
  exact ⟨fun a => type.join a k, fun a b hab => join_rank type k hab, h1, h2⟩

section

variable {leaf : Junction → Expr σ → Expr σ → Expr σ × Expr σ}
  (hleaf : ∀ type e1 e2, Removes c type (e1, e2) (leaf type e1 e2))

include hleaf

theorem eliminateLevel_reduces (e : Expr σ) (p : Expr σ × Expr σ) :
    Reduces (calcValue c p.1) (calcValue c p.2) (calcValue c (eliminateLevel leaf e p).1)
      (calcValue c (eliminateLevel leaf e p).2) := by
  rw [eliminateLevel]
  split
  · exact (eliminateEq_removes hleaf _ p.1 p.2).reduces
  · exact Reduces.refl _ _

theorem eliminateLevels_reduces (e1 e2 : Expr σ) :
    Reduces (calcValue c e1) (calcValue c e2) (calcValue c (eliminateLevels leaf e1 e2).1)
      (calcValue c (eliminateLevels leaf e1 e2).2) := by
  have hfirst := eliminateLevel_reduces hleaf e1 (e1, e2)
  rw [eliminateLevels]
  split
  · exact hfirst.trans (eliminateLevel_reduces hleaf _ _)
  · exact hfirst

end

variable [DecidableEq σ]

theorem sameSymbol_value {e1 e2 : Expr σ} (h : sameSymbol e1 e2 = true) :
    calcValue c e1 = calcValue c e2 := by
  obtain ⟨sym, rfl, rfl⟩ := (sameSymbol_iff e1 e2).mp h
  rfl

theorem eqNode_value (c : Config σ) {fuel : Nat} {e1 e2 : Expr σ} (h : eqNode fuel e1 e2 = true) :
    calcValue c e1 = calcValue c e2 := by
  induction fuel generalizing e1 e2 with
  | zero => cases h
  | succ fuel ih =>
    cases e1 with
    | symbol sym =>
      cases e2 with
      | symbol sym' => rw [of_decide_eq_true h]
      | _ => cases h
    | comp type left right =>
      cases e2 with
      | comp type' left' right' =>
        simp only [eqNode, Bool.and_eq_true, decide_eq_true_eq] at h
        obtain ⟨⟨rfl, rfl⟩, rfl⟩ := h
        rfl
      | _ => cases h
    | not e =>
      cases e2 with
      | not e' => rw [calcValue, calcValue, ih h]
      | _ => cases h
    | two type left right =>
      cases e2 with
      | two type' left' right' =>
        rw [eqNode] at h
        split at h
        · have hleaf := removes_leaf c fun a b (hab : eqNode fuel a b = true) => ih hab
          obtain ⟨g, -, h1, h2⟩ := eliminateLevels_reduces hleaf (.two type left right)
            (.two type' left' right')
          have hsame := sameSymbol_value (c := c) h
          rw [calcValue_exprEliminateYn, calcValue_exprEliminateYn] at hsame
          rw [h1, h2, hsame]
        · cases h
      | _ => cases h

theorem exprEq_value (c : Config σ) {e1 e2 : Option (Expr σ)} (h : exprEq e1 e2 = true) :
    exprCalcValue c e1 = exprCalcValue c e2 := by
  cases e1 with
  | none =>
    cases e2 with
    | none => rfl
    | some e2 =>
      have hyes : exprIsYes (some e2) = true := h
      exact (exprIsYes_value c hyes).symm
  | some e1 =>
    cases e2 with
    | none =>
      have hyes : exprIsYes (some e1) = true ∧ _ := Bool.and_eq_true_iff.mp h
      exact exprIsYes_value c hyes.1
    | some e2 => exact eqNode_value c h

/-- What `expr_eliminate_eq` takes out is common to both expressions, so that their values compare
as those of what is left do; expressions that `expr_eq` takes for equal have one value, and where
`y` is left of the second one the first one implies it. -/
theorem common_operands_removed (e1 e2 : Option (Expr σ)) :
    (∀ c, Reduces (exprCalcValue c e1) (exprCalcValue c e2)
      (exprCalcValue c (exprEliminateEq e1 e2).1) (exprCalcValue c (exprEliminateEq e1 e2).2)) ∧
    (exprEq e1 e2 = true → ∀ c, exprCalcValue c e1 = exprCalcValue c e2) ∧
    (exprIsYes (exprEliminateEq e1 e2).2 = true →
      ∀ c, (exprCalcValue c e1).rank ≤ (exprCalcValue c e2).rank) := by
  have hreduces (c : Config σ) : Reduces (exprCalcValue c e1) (exprCalcValue c e2)
      (exprCalcValue c (exprEliminateEq e1 e2).1) (exprCalcValue c (exprEliminateEq e1 e2).2) := by
    obtain - | e1 := e1
    · exact Reduces.refl _ _
    obtain - | e2 := e2
    · exact Reduces.refl _ _
    have hleaf := removes_leaf c fun a b (h : eqNode e1.size a b = true) => eqNode_value c h
    have hlevels := eliminateLevels_reduces hleaf e1 e2
    rw [← calcValue_exprEliminateYn c (eliminateLevels _ e1 e2).1,
      ← calcValue_exprEliminateYn c (eliminateLevels _ e1 e2).2] at hlevels
    exact hlevels
  refine ⟨hreduces, fun h c => exprEq_value c h, fun hyes c => ?_⟩
  obtain ⟨g, hg, h1, h2⟩ := hreduces c
  rw [h1, h2, exprIsYes_value c hyes]
  exact hg _ _ (rank_le_yes _)

end

end Riscv32Cpu.Kconfig.Dependency
