/- module: Riscv32Cpu/Kconfig/Transform
   source: CODE/nemu/tools/kconfig/expr.c
   digest: Dependencies with their negations pushed down to the symbols and comparisons. -/

import Riscv32Cpu.Kconfig.Dependency

set_option autoImplicit false
set_option relaxedAutoImplicit false

namespace Riscv32Cpu.Kconfig.Transform

open Dependency

variable {σ : Type}

/-- The relation that holds when the other one does not. -/
def negate : Relation → Relation
  | .equal => .unequal
  | .unequal => .equal
  | .lth => .geq
  | .geq => .lth
  | .gth => .leq
  | .leq => .gth

def dual : Junction → Junction
  | .or => .and
  | .and => .or

/-- `A=n`, where `A` is of type `S_BOOLEAN`; such a symbol is never `m`. -/
def transformEqual (sym : σ) : Symbol σ → Expr σ
  | .no => .not (.symbol (.other sym))
  | .mod => .symbol .no
  | .yes => .symbol (.other sym)
  | right => .comp .equal (.other sym) right

def transformUnequal (sym : σ) : Symbol σ → Expr σ
  | .no => .symbol (.other sym)
  | .mod => .symbol .yes
  | .yes => .not (.symbol (.other sym))
  | right => .comp .unequal (.other sym) right

/-- The symbols of type `S_BOOLEAN` are those that `bool` holds of; the constants are not. -/
def transformComp (bool : σ → Bool) : Relation → Symbol σ → Symbol σ → Expr σ
  | .equal, .other sym, right =>
    if bool sym then transformEqual sym right else .comp .equal (.other sym) right
  | .unequal, .other sym, right =>
    if bool sym then transformUnequal sym right else .comp .unequal (.other sym) right
  | type, left, right => .comp type left right

/-- `!A`. -/
def transformNot : Symbol σ → Expr σ
  | .yes => .symbol .no
  | .mod => .symbol .mod
  | .no => .symbol .yes
  | sym => .not (.symbol sym)

def height : Expr σ → Nat
  | .symbol _ => 0
  | .comp _ _ _ => 1
  | .not e => height e + 1
  | .two _ left right => max (height left) (height right) + 1

theorem height_transformComp (bool : σ → Bool) (type : Relation) (left right : Symbol σ) :
    height (transformComp bool type left right) ≤ 1 := by
  cases type <;> cases left <;> cases right <;>
    simp only [transformComp, transformEqual, transformUnequal] <;> (try split) <;>
    simp [height]

theorem height_transformNot (sym : Symbol σ) : height (transformNot sym) ≤ 1 := by
  cases sym <;> simp [transformNot, height]

/-- Twice the height, and one more for a negation: what decreases. -/
def rounds : Expr σ → Nat
  | .not e => 2 * height e + 3
  | e => 2 * height e

theorem rounds_le (e : Expr σ) : rounds e ≤ 2 * height e + 1 := by
  cases e <;> simp only [rounds, height] <;> omega

theorem rounds_not (e : Expr σ) : rounds (.not e) = 2 * height e + 3 := rfl

theorem rounds_two (type : Junction) (left right : Expr σ) :
    rounds (.two type left right) = 2 * (max (height left) (height right) + 1) := rfl

theorem rounds_left (type : Junction) (left right : Expr σ) :
    rounds left < rounds (.two type left right) := by
  have hle := rounds_le left
  rw [rounds_two]
  omega

theorem rounds_right (type : Junction) (left right : Expr σ) :
    rounds right < rounds (.two type left right) := by
  have hle := rounds_le right
  rw [rounds_two]
  omega

theorem rounds_under_not (e : Expr σ) : rounds e < rounds (.not e) := by
  have hle := rounds_le e
  rw [rounds_not]
  omega

theorem rounds_not_not {a e : Expr σ} (h : height (.not a) ≤ height e) :
    rounds a < rounds (.not e) := by
  have hle := rounds_le a
  rw [height] at h
  rw [rounds_not]
  omega

theorem rounds_not_two {type : Junction} {left right e : Expr σ}
    (h : height (.two type left right) ≤ height e) :
    rounds (.two (dual type) (.not left) (.not right)) < rounds (.not e) := by
  rw [height] at h
  rw [rounds_two, rounds_not, height, height]
  omega

/-- `expr_transform`; no expression gets higher. -/
def transform (bool : σ → Bool) (e : Expr σ) : { e' : Expr σ // height e' ≤ height e } :=
  match e with
  | .symbol sym => ⟨.symbol sym, Nat.le_refl _⟩
  | .comp type left right =>
    ⟨transformComp bool type left right, height_transformComp bool type left right⟩
  | .two type left right =>
    let l := transform bool left
    let r := transform bool right
    ⟨.two type l.1 r.1, by
      have hl := l.2
      have hr := r.2
      simp only [height]
      omega⟩
  | .not e =>
    match transform bool e with
    | ⟨.not a, h⟩ =>
      let b := transform bool a
      ⟨b.1, by
        have hb := b.2
        simp only [height] at h ⊢
        omega⟩
    | ⟨.comp type left right, _⟩ =>
      ⟨.comp (negate type) left right, Nat.le_add_left 1 _⟩
    | ⟨.two type left right, h⟩ =>
      let b := transform bool (.two (dual type) (.not left) (.not right))
      ⟨b.1, by
        have hb := b.2
        simp only [height] at h hb ⊢
        omega⟩
    | ⟨.symbol sym, _⟩ =>
      ⟨transformNot sym, Nat.le_trans (height_transformNot sym) (Nat.le_add_left 1 _)⟩
termination_by rounds e
decreasing_by
  · exact rounds_left type left right
  · exact rounds_right type left right
  · exact rounds_under_not e
  · exact rounds_not_not h
  · exact rounds_not_two h

def exprTransform (bool : σ → Bool) (e : Option (Expr σ)) : Option (Expr σ) :=
  e.map fun e => (transform bool e).1

/-- What `expr_transform` makes of an expression, call by call. -/
inductive Transforms (bool : σ → Bool) : Expr σ → Expr σ → Prop
  | symbol (sym : Symbol σ) : Transforms bool (.symbol sym) (.symbol sym)
  | comp (type : Relation) (left right : Symbol σ) :
      Transforms bool (.comp type left right) (transformComp bool type left right)
  | two (type : Junction) {left right left' right' : Expr σ} :
      Transforms bool left left' → Transforms bool right right' →
      Transforms bool (.two type left right) (.two type left' right')
  | notNot {e a b : Expr σ} :
      Transforms bool e (.not a) → Transforms bool a b → Transforms bool (.not e) b
  | notComp {e : Expr σ} {type : Relation} {left right : Symbol σ} :
      Transforms bool e (.comp type left right) →
      Transforms bool (.not e) (.comp (negate type) left right)
  | notTwo {e left right b : Expr σ} {type : Junction} :
      Transforms bool e (.two type left right) →
      Transforms bool (.two (dual type) (.not left) (.not right)) b → Transforms bool (.not e) b
  | notSymbol {e : Expr σ} {sym : Symbol σ} :
      Transforms bool e (.symbol sym) → Transforms bool (.not e) (transformNot sym)

theorem transform_transforms (bool : σ → Bool) (e : Expr σ) :
    Transforms bool e (transform bool e).1 := by
  induction hn : rounds e using Nat.strongRecOn generalizing e with
  | ind n ih =>
    subst hn
    cases e with
    | symbol sym =>
      rw [transform]
      exact .symbol sym
    | comp type left right =>
      rw [transform]
      exact .comp type left right
    | two type left right =>
      rw [transform]
      exact .two type (ih _ (rounds_left type left right) left rfl)
        (ih _ (rounds_right type left right) right rfl)
    | not e =>
      have hinner := ih _ (rounds_under_not e) e rfl
      rw [transform]
      split
      · next a h heq =>
        rw [heq] at hinner
        exact .notNot hinner (ih _ (rounds_not_not h) a rfl)
      · next type left right h heq =>
        rw [heq] at hinner
        exact .notComp hinner
      · next type left right h heq =>
        rw [heq] at hinner
        exact .notTwo hinner (ih _ (rounds_not_two h) _ rfl)
      · next sym h heq =>
        rw [heq] at hinner
        exact .notSymbol hinner

def isConst : Symbol σ → Bool
  | .other _ => false
  | _ => true

/-- `A=n`, `A!=y` and the like, where `A` is of type `S_BOOLEAN`. -/
def Test (bool : σ → Bool) (type : Relation) (left right : Symbol σ) : Prop :=
  (type = .equal ∨ type = .unequal) ∧ (∃ sym, left = .other sym ∧ bool sym = true) ∧
    isConst right = true

/-- Only symbols are negated, and none of type `S_BOOLEAN` is tested for a constant. -/
def Normal (bool : σ → Bool) : Expr σ → Prop
  | .symbol _ => True
  | .comp type left right => ¬Test bool type left right
  | .not e => ∃ sym, e = .symbol (.other sym)
  | .two _ left right => Normal bool left ∧ Normal bool right

section

variable {bool : σ → Bool}

theorem not_test_other (type : Relation) (left : Symbol σ) (right : σ) :
    ¬Test bool type left (.other right) := by
  rintro ⟨-, -, hconst⟩
  cases hconst

theorem normal_transformEqual (sym : σ) (right : Symbol σ) :
    Normal bool (transformEqual sym right) := by
  cases right with
  | yes => trivial
  | mod => trivial
  | no => exact ⟨sym, rfl⟩
  | other right => exact not_test_other .equal (.other sym) right

theorem normal_transformUnequal (sym : σ) (right : Symbol σ) :
    Normal bool (transformUnequal sym right) := by
  cases right with
  | yes => exact ⟨sym, rfl⟩
  | mod => trivial
  | no => trivial
  | other right => exact not_test_other .unequal (.other sym) right

theorem transformComp_of_not_test {type : Relation} {left right : Symbol σ}
    (h : ¬Test bool type left right) :
    transformComp bool type left right = .comp type left right := by
  cases left with
  | other sym =>
    have hcond : bool sym = true → type = .equal ∨ type = .unequal → ∃ r, right = .other r := by
      intro hbool htype
      cases right with
      | other r => exact ⟨r, rfl⟩
      | _ => exact absurd ⟨htype, ⟨sym, rfl, hbool⟩, rfl⟩ h
    cases type with
    | equal =>
      rw [transformComp]
      split
      · next hbool =>
        obtain ⟨r, rfl⟩ := hcond hbool (.inl rfl)
        rfl
      · rfl
    | unequal =>
      rw [transformComp]
      split
      · next hbool =>
        obtain ⟨r, rfl⟩ := hcond hbool (.inr rfl)
        rfl
      · rfl
    | _ => rfl
  | _ => cases type <;> rfl

theorem normal_transformComp (type : Relation) (left right : Symbol σ) :
    Normal bool (transformComp bool type left right) := by
  by_cases h : Test bool type left right
  · obtain ⟨htype, ⟨sym, rfl, hbool⟩, -⟩ := h
    rcases htype with rfl | rfl
    · rw [transformComp, if_pos hbool]
      exact normal_transformEqual sym right
    · rw [transformComp, if_pos hbool]
      exact normal_transformUnequal sym right
  · rw [transformComp_of_not_test h]
    exact h

theorem Normal.negate {type : Relation} {left right : Symbol σ}
    (h : Normal bool (.comp type left right)) :
    Normal bool (.comp (negate type) left right) := by
  rintro ⟨htype, hleft, hright⟩
  refine h ⟨?_, hleft, hright⟩
  cases type with
  | equal => exact .inl rfl
  | unequal => exact .inr rfl
  | _ => rcases htype with htype | htype <;> cases htype

theorem Transforms.normal {e e' : Expr σ} (h : Transforms bool e e') : Normal bool e' := by
  induction h with
  | symbol sym => trivial
  | comp type left right => exact normal_transformComp type left right
  | two type _ _ ihleft ihright => exact ⟨ihleft, ihright⟩
  | notNot _ _ _ ih => exact ih
  | notComp _ ih => exact ih.negate
  | notTwo _ _ _ ih => exact ih
  | @notSymbol e sym _ _ =>
    cases sym with
    | other sym => exact ⟨sym, rfl⟩
    | _ => trivial

theorem Transforms.eq_of_normal {e e' : Expr σ} (h : Transforms bool e e')
    (hnormal : Normal bool e) : e' = e := by
  induction h with
  | symbol sym => rfl
  | comp type left right => exact transformComp_of_not_test hnormal
  | two type _ _ ihleft ihright => rw [ihleft hnormal.1, ihright hnormal.2]
  | notNot _ _ ih _ =>
    obtain ⟨sym, rfl⟩ := hnormal
    cases ih trivial
  | notComp _ ih =>
    obtain ⟨sym, rfl⟩ := hnormal
    cases ih trivial
  | notTwo _ _ ih _ =>
    obtain ⟨sym, rfl⟩ := hnormal
    cases ih trivial
  | notSymbol _ ih =>
    obtain ⟨sym, rfl⟩ := hnormal
    cases ih trivial
    rfl

end

/-- What `sym_calc_value` sees to for symbols of type `S_BOOLEAN`: none is `m`, and compared with a
constant, as the texts that they are, they equal the one of their value. -/
structure Typed (bool : σ → Bool) (c : Config σ) : Prop where
  value : ∀ sym, bool sym = true → c.tri sym ≠ .mod
  res : ∀ sym right, bool sym = true → isConst right = true →
    (c.res (.other sym) right = 0 ↔ c.tri sym = c.value right)

theorem holds_negate (type : Relation) (res : Int) :
    (negate type).holds res = !type.holds res := by
  rw [Bool.eq_iff_iff, Bool.not_eq_true', Bool.eq_false_iff]
  cases type <;> simp only [negate, Relation.holds, decide_eq_true_eq, ne_eq] <;> omega

theorem exprNot_exprNot (a : Tristate) : exprNot (exprNot a) = a := by
  cases a <;> rfl

theorem exprNot_join (type : Junction) (a b : Tristate) :
    (dual type).join (exprNot a) (exprNot b) = exprNot (type.join a b) := by
  cases type <;> cases a <;> cases b <;> rfl

theorem calcValue_equal (c : Config σ) (left right : Symbol σ) :
    calcValue c (.comp .equal left right) = if c.res left right = 0 then .yes else .no := by
  rw [calcValue, Relation.holds]
  simp only [decide_eq_true_eq]

theorem calcValue_negate (c : Config σ) (type : Relation) (left right : Symbol σ) :
    calcValue c (.comp (negate type) left right) =
      exprNot (calcValue c (.comp type left right)) := by
  rw [calcValue, calcValue, holds_negate]
  cases type.holds (c.res left right) <;> rfl

theorem calcValue_transformUnequal (c : Config σ) (sym : σ) (right : Symbol σ) :
    calcValue c (transformUnequal sym right) =
      exprNot (calcValue c (transformEqual sym right)) := by
  cases right with
  | yes => rfl
  | mod => rfl
  | no => exact (exprNot_exprNot _).symm
  | other right => exact calcValue_negate c .equal (.other sym) (.other right)

section

variable {bool : σ → Bool} {c : Config σ}

theorem Typed.yes_or_no (hc : Typed bool c) {sym : σ} (h : bool sym = true) :
    c.tri sym = .yes ∨ c.tri sym = .no := by
  have hvalue := hc.value sym h
  cases hv : c.tri sym with
  | yes => exact Or.inl rfl
  | mod => exact absurd hv hvalue
  | no => exact Or.inr rfl

theorem Typed.equal (hc : Typed bool c) {sym : σ} (h : bool sym = true) (right : Symbol σ) :
    calcValue c (transformEqual sym right) = calcValue c (.comp .equal (.other sym) right) := by
  have hres := hc.res sym right h
  rw [calcValue_equal]
  cases right with
  | other right => exact calcValue_equal c (.other sym) (.other right)
  | yes =>
    rw [transformEqual, calcValue, Config.value, if_congr (hres rfl) rfl rfl]
    obtain hv | hv := hc.yes_or_no h
    · rw [hv]
      rfl
    · rw [hv]
      rfl
  | mod =>
    rw [transformEqual, if_neg fun hzero => hc.value sym h ((hres rfl).mp hzero)]
    rfl
  | no =>
    rw [transformEqual, calcValue, calcValue, Config.value, if_congr (hres rfl) rfl rfl]
    obtain hv | hv := hc.yes_or_no h
    · rw [hv]
      rfl
    · rw [hv]
      rfl

theorem Typed.unequal (hc : Typed bool c) {sym : σ} (h : bool sym = true) (right : Symbol σ) :
    calcValue c (transformUnequal sym right) =
      calcValue c (.comp .unequal (.other sym) right) := by
  rw [calcValue_transformUnequal, hc.equal h, ← calcValue_negate, negate]

theorem Typed.comp (hc : Typed bool c) (type : Relation) (left right : Symbol σ) :
    calcValue c (transformComp bool type left right) = calcValue c (.comp type left right) := by
  unfold transformComp
  split
  · split
    · next h => exact hc.equal h right
    · rfl
  · split
    · next h => exact hc.unequal h right
    · rfl
  · rfl

theorem Transforms.value (hc : Typed bool c) {e e' : Expr σ} (h : Transforms bool e e') :
    calcValue c e' = calcValue c e := by
  induction h with
  | symbol sym => rfl
  | comp type left right => exact hc.comp type left right
  | two type _ _ ihleft ihright => rw [calcValue, calcValue, ihleft, ihright]
  | notNot _ _ ih ih' => rw [ih', calcValue, ← ih, calcValue, exprNot_exprNot]
  | notComp _ ih => rw [calcValue_negate, ih, calcValue]
  | notTwo _ _ ih ih' =>
    rw [ih', calcValue, calcValue, calcValue, calcValue, exprNot_join, ← ih, calcValue]
  | @notSymbol e sym _ ih =>
    rw [calcValue, ← ih]
    cases sym <;> rfl

end

/-- `expr_transform` leaves negations on symbols alone and no boolean symbol tested for a constant,
and finds nothing to do in what it returns; the value stays the same. -/
theorem transform_normalizes (bool : σ → Bool) (e : Option (Expr σ)) :
    (∀ e' ∈ exprTransform bool e, Normal bool e') ∧
    exprTransform bool (exprTransform bool e) = exprTransform bool e ∧
    ∀ c, Typed bool c → exprCalcValue c (exprTransform bool e) = exprCalcValue c e := by
  cases e with
  | none =>
    refine ⟨?_, rfl, fun c _ => rfl⟩
    intro e' he
    cases he
  | some e =>
    have h := transform_transforms bool e
    refine ⟨?_, ?_, fun c hc => h.value hc⟩
    · intro e' he
      have hout : (transform bool e).1 = e' := Option.some.inj he
      rw [← hout]
      exact h.normal
    · exact congrArg some ((transform_transforms bool _).eq_of_normal h.normal)

/-- A configuration with one option, which is set. -/
def oneSet : Config Unit where
  tri _ := .yes
  res _ right := if right = .yes then 0 else 1

theorem typed_oneSet : Typed (fun _ => true) oneSet where
  value _ _ h := by cases h
  res sym right _ hconst := by
    cases right with
    | other other => cases hconst
    | _ => simp [oneSet, Config.value]

/-- `!(A && A!=y)` -/
theorem transform_normalizes_oneSet :
    exprCalcValue oneSet (exprTransform (fun _ => true)
      (some (.not (.two .and (.symbol (.other ())) (.comp .unequal (.other ()) .yes))))) = .yes :=
  (transform_normalizes (fun _ => true) _).2.2 oneSet typed_oneSet

end Riscv32Cpu.Kconfig.Transform
