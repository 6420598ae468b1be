/- module: Riscv32Cpu/Lib/Trees
   digest: Trees over a shared pool of nodes in which every node has one place. -/

import Mathlib.Data.List.Infix

set_option autoImplicit false
set_option relaxedAutoImplicit false

namespace Riscv32Cpu.Lib.Trees

/-- Trees named by `κ` with nodes from `ν`. A place is the list of child numbers that lead to it,
the last one first; no node stands at two places. -/
structure Forest (κ ν : Type) where
  node : κ → List Nat → Option ν
  closed : ∀ k i π, node k π = none → node k (i :: π) = none
  inj : ∀ {k π k' π' v}, node k π = some v → node k' π' = some v → k = k' ∧ π = π'

namespace Forest

variable {κ ν : Type} (F : Forest κ ν)

theorem parent_of_child {k : κ} {i : Nat} {π : List Nat} {v : ν} (h : F.node k (i :: π) = some v) :
    ∃ u, F.node k π = some u := by
  cases hp : F.node k π with
  | some u => exact ⟨u, rfl⟩
  | none => cases (F.closed k i π hp).symm.trans h

/-- No tree at all. -/
def empty : Forest κ ν where
  node _ _ := none
  closed _ _ _ _ := rfl
  inj h _ := by cases h

theorem none_below {k : κ} {π : List Nat} (h : F.node k π = none) (σ : List Nat) :
    F.node k (σ ++ π) = none := by
  induction σ with
  | nil => exact h
  | cons i σ ih => exact F.closed k i _ ih

variable [DecidableEq κ]

/-- A new leaf `v` under an existing node. -/
def graft (k : κ) (π : List Nat) (i : Nat) (v : ν) (hparent : F.node k π ≠ none)
    (hfresh : ∀ k' π', F.node k' π' ≠ some v) : Forest κ ν where
  node k' π' := if k' = k ∧ π' = i :: π then some v else F.node k' π'
  closed k' j π' h := by
    by_cases hnew : k' = k ∧ π' = i :: π
    · rw [if_pos hnew] at h
      cases h
    · rw [if_neg hnew] at h
      by_cases hchild : k' = k ∧ j :: π' = i :: π
      · obtain ⟨rfl, hpath⟩ := hchild
        cases hpath
        exact absurd h hparent
      · rw [if_neg hchild]
        exact F.closed k' j π' h
  inj {k₁ π₁ k₂ π₂ u} h₁ h₂ := by
    by_cases hnew₁ : k₁ = k ∧ π₁ = i :: π <;> by_cases hnew₂ : k₂ = k ∧ π₂ = i :: π
    · exact ⟨hnew₁.1.trans hnew₂.1.symm, hnew₁.2.trans hnew₂.2.symm⟩
    · rw [if_pos hnew₁] at h₁
      rw [if_neg hnew₂] at h₂
      cases h₁
      exact absurd h₂ (hfresh k₂ π₂)
    · rw [if_neg hnew₁] at h₁
      rw [if_pos hnew₂] at h₂
      cases h₂
      exact absurd h₁ (hfresh k₁ π₁)
    · rw [if_neg hnew₁] at h₁
      rw [if_neg hnew₂] at h₂
      exact F.inj h₁ h₂

/-- A new tree of one node. -/
def plant (k : κ) (v : ν) (hnone : ∀ π, F.node k π = none) (hfresh : ∀ k' π', F.node k' π' ≠ some v) :
    Forest κ ν where
  node k' π' := if k' = k ∧ π' = [] then some v else F.node k' π'
  closed k' j π' h := by
    have hcons : ¬(k' = k ∧ j :: π' = []) := fun hc => List.cons_ne_nil _ _ hc.2
    rw [if_neg hcons]
    by_cases hk : k' = k
    · rw [hk]
      exact hnone _
    · rw [if_neg fun hc => hk hc.1] at h
      exact F.closed k' j π' h
  inj {k₁ π₁ k₂ π₂ u} h₁ h₂ := by
    by_cases hnew₁ : k₁ = k ∧ π₁ = [] <;> by_cases hnew₂ : k₂ = k ∧ π₂ = []
    · exact ⟨hnew₁.1.trans hnew₂.1.symm, hnew₁.2.trans hnew₂.2.symm⟩
    · rw [if_pos hnew₁] at h₁
      rw [if_neg hnew₂] at h₂
      cases h₁
      exact absurd h₂ (hfresh k₂ π₂)
    · rw [if_neg hnew₁] at h₁
      rw [if_pos hnew₂] at h₂
      cases h₂
      exact absurd h₁ (hfresh k₁ π₁)
    · rw [if_neg hnew₁] at h₁
      rw [if_neg hnew₂] at h₂
      exact F.inj h₁ h₂

/-- The forest without one of its trees. -/
def fell (k : κ) : Forest κ ν where
  node k' π' := if k' = k then none else F.node k' π'
  closed k' j π' h := by
    by_cases hk : k' = k
    · rw [if_pos hk]
    · rw [if_neg hk] at h ⊢
      exact F.closed k' j π' h
  inj {k₁ π₁ k₂ π₂ u} h₁ h₂ := by
    by_cases hk₁ : k₁ = k
    · rw [if_pos hk₁] at h₁
      cases h₁
    · by_cases hk₂ : k₂ = k
      · rw [if_pos hk₂] at h₂
        cases h₂
      · rw [if_neg hk₁] at h₁
        rw [if_neg hk₂] at h₂
        exact F.inj h₁ h₂

variable {F} {k : κ} {π : List Nat} {i : Nat} {v : ν}

section graft
variable {hparent : F.node k π ≠ none} {hfresh : ∀ k' π', F.node k' π' ≠ some v}

theorem graft_new : (F.graft k π i v hparent hfresh).node k (i :: π) = some v := if_pos ⟨rfl, rfl⟩

theorem graft_old {k' : κ} {π' : List Nat} (h : ¬(k' = k ∧ π' = i :: π)) :
    (F.graft k π i v hparent hfresh).node k' π' = F.node k' π' := if_neg h

theorem graft_eq_some {k' : κ} {π' : List Nat} {u : ν} :
    (F.graft k π i v hparent hfresh).node k' π' = some u →
      (k' = k ∧ π' = i :: π ∧ u = v) ∨ F.node k' π' = some u := by
  intro h
  by_cases hnew : k' = k ∧ π' = i :: π
  · have hv : some v = some u := (if_pos hnew).symm.trans h
    exact .inl ⟨hnew.1, hnew.2, (Option.some.inj hv).symm⟩
  · exact .inr ((graft_old hnew).symm.trans h)

theorem graft_eq_none {k' : κ} {π' : List Nat}
    (h : (F.graft k π i v hparent hfresh).node k' π' = none) :
    ¬(k' = k ∧ π' = i :: π) ∧ F.node k' π' = none := by
  have hne : ¬(k' = k ∧ π' = i :: π) := by
    rintro ⟨rfl, rfl⟩
    cases graft_new.symm.trans h
  exact ⟨hne, (graft_old hne).symm.trans h⟩

theorem graft_mono (hnone : F.node k (i :: π) = none) {k' : κ} {π' : List Nat} {u : ν}
    (h : F.node k' π' = some u) : (F.graft k π i v hparent hfresh).node k' π' = some u := by
  refine (graft_old fun hnew => ?_).trans h
  rw [hnew.1, hnew.2, hnone] at h
  cases h

end graft

section plant
variable {hnone : ∀ π, F.node k π = none} {hfresh : ∀ k' π', F.node k' π' ≠ some v}

theorem plant_new : (F.plant k v hnone hfresh).node k [] = some v := if_pos ⟨rfl, rfl⟩

theorem plant_child : (F.plant k v hnone hfresh).node k (i :: π) = none :=
  (if_neg fun hc => List.cons_ne_nil _ _ hc.2).trans (hnone _)

theorem plant_old {k' : κ} {π' : List Nat} (h : k' ≠ k) :
    (F.plant k v hnone hfresh).node k' π' = F.node k' π' := if_neg fun hc => h hc.1

end plant

theorem exists_plant_graft (F : Forest κ ν) (i : Nat) {w : ν} (hnone : ∀ π, F.node k π = none)
    (hv : ∀ k' π', F.node k' π' ≠ some v) (hw : ∀ k' π', F.node k' π' ≠ some w) (hne : v ≠ w) :
    ∃ F' : Forest κ ν, F'.node k [] = some v ∧ F'.node k [i] = some w ∧
      (∀ k', k' ≠ k → ∀ π, F'.node k' π = F.node k' π) ∧
      ∀ k' π u, F'.node k' π = some u → (k' = k ∧ π = [] ∧ u = v) ∨ (k' = k ∧ π = [i] ∧ u = w) ∨
        (k' ≠ k ∧ F.node k' π = some u) := by
  have hroot : (F.plant k v hnone hv).node k [] ≠ none := by
    rw [plant_new]
    exact Option.some_ne_none _
  have hfresh : ∀ k' π', (F.plant k v hnone hv).node k' π' ≠ some w := by
    intro k' π' hnode
    by_cases hk : k' = k
    · subst hk
      cases π' with
      | nil => exact hne (Option.some.inj (plant_new.symm.trans hnode))
      | cons j π' => cases plant_child.symm.trans hnode
    · exact hw k' π' ((plant_old hk).symm.trans hnode)
  have hold : ∀ k', k' ≠ k → ∀ π,
      ((F.plant k v hnone hv).graft k [] i w hroot hfresh).node k' π = F.node k' π :=
    fun k' hk π => (graft_old fun hc => hk hc.1).trans (plant_old hk)
  refine ⟨(F.plant k v hnone hv).graft k [] i w hroot hfresh,
    (graft_old fun hc => List.cons_ne_nil _ _ hc.2.symm).trans plant_new, graft_new, hold, ?_⟩
  intro k' π u hu
  by_cases hk : k' = k
  · subst hk
    rcases graft_eq_some hu with ⟨-, hpath, hval⟩ | hu
    · exact .inr (.inl ⟨rfl, hpath, hval⟩)
    · cases π with
      | nil => exact .inl ⟨rfl, rfl, (Option.some.inj (plant_new.symm.trans hu)).symm⟩
      | cons j π => cases plant_child.symm.trans hu
  · exact .inr (.inr ⟨hk, (hold k' hk π).symm.trans hu⟩)

theorem fell_self : (F.fell k).node k π = none := if_pos rfl

theorem fell_old {k' : κ} {π' : List Nat} (h : k' ≠ k) : (F.fell k).node k' π' = F.node k' π' :=
  if_neg h

theorem fell_eq_some {k' : κ} {π' : List Nat} {u : ν} (h : (F.fell k).node k' π' = some u) :
    k' ≠ k ∧ F.node k' π' = some u := by
  by_cases hk : k' = k
  · cases (if_pos hk).symm.trans h
  · exact ⟨hk, (if_neg hk).symm.trans h⟩

end Forest

end Riscv32Cpu.Lib.Trees
