/- module: Riscv32Cpu/ThreadOs/Scheduler
   source: am-kernels/kernels/thread-os/thread-os.c
   digest: The threads' round robin on several CPUs: who runs what, what is resumed, when the search
   for a task ends. -/

import Mathlib.Algebra.GroupWithZero.Nat
import Mathlib.Data.Fin.Basic
import Mathlib.Logic.Function.Basic
import Mathlib.Tactic.SplitIfs
import Riscv32Cpu.Lib.Trace

set_option autoImplicit false
set_option relaxedAutoImplicit false

namespace Riscv32Cpu.ThreadOs

open Lib.Trace (play play_invariant_all)

/-- The size of `currents`, and the most that `cpu_count()` returns. -/
def maxCpu : Nat := 8

/-- The names in `tasks`. -/
def tasks : List String := ["A", "B", "C", "D", "E"]

instance : NeZero tasks.length := ⟨by decide⟩

section

-- Contexts, the number of tasks and `cpu_count()`.
variable {κ : Type} {m n : Nat}

/-- The globals, and for each CPU whether it is inside `on_interrupt`. The rest is not in the source:
the task whose context a CPU resumed last, the context handed in when that task was interrupted
last, what the CPU resumed, and the rounds of the loop in its last call. -/
structure System (κ : Type) (m n : Nat) where
  currents : Fin n → Option (Fin m)
  context : Fin m → κ
  searching : Fin n → Bool
  running : Fin n → Option (Fin m)
  saved : Fin m → κ
  resumed : Fin n → Option κ
  rounds : Fin n → Nat

/-- The atomic steps of `on_interrupt(ev, ctx)` on a CPU: what stands before the loop, and one round
of it, the last of which returns. Traps keep interrupts off, so a CPU does not call it again from
inside. -/
inductive Event (κ : Type) (n : Nat)
  | interrupt (cpu : Fin n) (ctx : κ)
  | round (cpu : Fin n)

/-- `tasks[i].next`. -/
def next (t : Fin m) : Fin m := ⟨(t + 1) % m, Nat.mod_lt _ (Nat.zero_lt_of_lt t.isLt)⟩

/-- What `main` sets up; `kcontext` gives the context built for each task. -/
def boot (kcontext : Fin m → κ) : System κ m n where
  currents _ := none
  context := kcontext
  searching _ := false
  running _ := none
  saved := kcontext
  resumed _ := none
  rounds _ := 0

/-- `if (!current) current = &tasks[0]; else current->context = ctx;` -/
def onInterrupt [NeZero m] (cpu : Fin n) (ctx : κ) (s : System κ m n) : System κ m n :=
  let s := { s with
    searching := Function.update s.searching cpu true
    rounds := Function.update s.rounds cpu 0
    saved := match s.running cpu with
      | none => s.saved
      | some t => Function.update s.saved t ctx }
  match s.currents cpu with
  | none => { s with currents := Function.update s.currents cpu (some 0) }
  | some t => { s with context := Function.update s.context t ctx }

/-- `current = current->next`, and the return of `current->context` where the test of the loop
fails. -/
def search (cpu : Fin n) (t : Fin m) (s : System κ m n) : System κ m n :=
  let s := { s with
    currents := Function.update s.currents cpu (some (next t))
    rounds := Function.update s.rounds cpu (s.rounds cpu + 1) }
  if (next t : Nat) % n ≠ cpu then s
  else
    { s with
      searching := Function.update s.searching cpu false
      running := Function.update s.running cpu (some (next t))
      resumed := Function.update s.resumed cpu (some (s.context (next t))) }

def step [NeZero m] : Event κ n → System κ m n → Option (System κ m n)
  | .interrupt cpu ctx, s => if s.searching cpu then none else some (onInterrupt cpu ctx s)
  | .round cpu, s =>
    if s.searching cpu then (s.currents cpu).map fun t => search cpu t s else none

/-- No two CPUs run one task, a CPU resumed what was saved last for its task, and a saved context
is overwritten only by the CPU that was running the task. -/
structure Isolated [NeZero m] (s : System κ m n) : Prop where
  exclusive : ∀ c d t, s.searching c = false → s.searching d = false →
    s.currents c = some t → s.currents d = some t → c = d
  latest : ∀ c t, s.searching c = false → s.currents c = some t → s.resumed c = some (s.saved t)
  owned : ∀ e u t, step e s = some u → u.context t ≠ s.context t →
    ∃ c ctx, e = .interrupt c ctx ∧ s.running c = some t ∧ u.context t = ctx

/-- A scheduler of `m` tasks on `n` CPUs: in every run a call that has begun can go on, and none
goes around its loop more often than some bound. -/
structure Scheduled [NeZero m] (n : Nat) (kcontext : Fin m → κ) : Prop where
  isolated : ∀ es (s : System κ m n), play step es (boot kcontext) = some s → Isolated s
  goesOn : ∀ es (s : System κ m n), play step es (boot kcontext) = some s → ∀ c,
    s.searching c = true → ∃ u, step (.round c) s = some u
  ends : ∃ b, ∀ es (s : System κ m n), play step es (boot kcontext) = some s → ∀ c, s.rounds c ≤ b

/-- A CPU runs only tasks whose place in the table is its own number modulo `n`. -/
structure Inv (s : System κ m n) : Prop where
  context : s.context = s.saved
  outside : ∀ c, s.searching c = false → s.currents c = s.running c
  inside : ∀ c, s.searching c = true → s.currents c ≠ none
  mine : ∀ c t, s.running c = some t → (t : Nat) % n = c
  latest : ∀ c t, s.searching c = false → s.running c = some t → s.resumed c = some (s.saved t)

theorem inv_boot (kcontext : Fin m → κ) : Inv (boot kcontext : System κ m n) where
  context := rfl
  outside := fun _ _ => rfl
  inside := fun _ h => nomatch h
  mine := fun _ _ h => nomatch h
  latest := fun _ _ _ h => nomatch h

theorem Inv.ne_of_ne {s : System κ m n} (h : Inv s) {c d : Fin n} {t u : Fin m} (hcd : c ≠ d)
    (hc : s.running c = some t) (hd : s.running d = some u) : u ≠ t := by
  rintro rfl
  exact hcd (Fin.ext ((h.mine c u hc).symm.trans (h.mine d u hd)))

theorem Inv.interrupted [NeZero m] {s : System κ m n} (h : Inv s) {cpu : Fin n} (ctx : κ)
    (hout : s.searching cpu = false) : Inv (onInterrupt cpu ctx s) := by
  have hcur := h.outside cpu hout
  have hother : ∀ c, Function.update s.searching cpu true c = false →
      c ≠ cpu ∧ s.searching c = false := by
    intro c hc
    rw [Function.update_apply] at hc
    split_ifs at hc with hne
    exact ⟨hne, hc⟩
  cases hrun : s.running cpu with
  | none =>
    rw [hrun] at hcur
    simp only [onInterrupt, hcur, hrun]
    refine ⟨h.context, fun c hc => ?_, fun c hc => ?_, h.mine, fun c t hc hr => ?_⟩
    · obtain ⟨hne, hc⟩ := hother c hc
      exact (Function.update_of_ne hne _ _).trans (h.outside c hc)
    · simp only [Function.update_apply] at hc ⊢
      split_ifs at hc ⊢ with hne
      · exact Option.some_ne_none _
      · exact h.inside c hc
    · exact h.latest c t (hother c hc).2 hr
  | some x =>
    rw [hrun] at hcur
    simp only [onInterrupt, hcur, hrun]
    refine ⟨by rw [h.context], fun c hc => ?_, fun c hc => ?_, h.mine, fun c t hc hr => ?_⟩
    · exact h.outside c (hother c hc).2
    · simp only [Function.update_apply] at hc
      split_ifs at hc with hne
      · rw [hne, hcur]
        exact Option.some_ne_none _
      · exact h.inside c hc
    · obtain ⟨hne, hc⟩ := hother c hc
      refine (h.latest c t hc hr).trans (congrArg some ?_)
      exact (Function.update_of_ne (h.ne_of_ne hne.symm hrun hr) _ _).symm

theorem Inv.searched {s : System κ m n} (h : Inv s) {cpu : Fin n} (t : Fin m)
    (hin : s.searching cpu = true) : Inv (search cpu t s) := by
  unfold search
  split_ifs with htest
  · refine ⟨h.context, fun c hc => ?_, fun c hc => ?_, h.mine, h.latest⟩
    · have hne : c ≠ cpu := by
        rintro rfl
        rw [hin] at hc
        cases hc
      exact (Function.update_of_ne hne _ _).trans (h.outside c hc)
    · simp only [Function.update_apply]
      split_ifs
      · exact Option.some_ne_none _
      · exact h.inside c hc
  · have hmine : (next t : Nat) % n = cpu := Decidable.not_not.mp htest
    refine ⟨h.context, fun c hc => ?_, fun c hc => ?_, fun c u hr => ?_, fun c u hc hr => ?_⟩ <;>
      by_cases hne : c = cpu
    · subst hne
      simp only [Function.update_self]
    · simp only [Function.update_of_ne hne] at hc ⊢
      exact h.outside c hc
    · subst hne
      simp only [Function.update_self] at hc
      cases hc
    · simp only [Function.update_of_ne hne] at hc ⊢
      exact h.inside c hc
    · subst hne
      simp only [Function.update_self, Option.some.injEq] at hr
      rw [← hr]
      exact hmine
    · simp only [Function.update_of_ne hne] at hr
      exact h.mine c u hr
    · subst hne
      simp only [Function.update_self, Option.some.injEq] at hr ⊢
      rw [← hr, h.context]
    · simp only [Function.update_of_ne hne] at hc hr ⊢
      exact h.latest c u hc hr

theorem context_search (cpu : Fin n) (t : Fin m) (s : System κ m n) :
    (search cpu t s).context = s.context := by
  unfold search
  split_ifs <;> rfl

/-- How far the task of index `c` is behind that of index `t`, around a table of `m`. -/
def gap (m c t : Nat) : Nat := if t < c then c - t else m + c - t

theorem gap_le {c t : Nat} (hc : c < m) : gap m c t ≤ m := by
  unfold gap
  split_ifs <;> omega

theorem gap_pos {c t : Nat} (ht : t < m) : 0 < gap m c t := by
  unfold gap
  split_ifs <;> omega

theorem gap_next {c : Nat} (t : Fin m) (hc : c < m) (hne : (next t : Nat) ≠ c) :
    gap m c (next t) + 1 = gap m c t := by
  have ht := t.isLt
  have hnext : (next t : Nat) = (t + 1) % m := rfl
  by_cases hlast : (t : Nat) + 1 = m
  · rw [hlast, Nat.mod_self] at hnext
    unfold gap
    split_ifs <;> omega
  · rw [Nat.mod_eq_of_lt (by omega)] at hnext
    unfold gap
    split_ifs <;> omega

/-- Every round brings the search nearer to the task with the CPU's own number. -/
def Nearing (s : System κ m n) : Prop :=
  ∀ c, s.rounds c ≤ m ∧
    ∀ t, s.searching c = true → s.currents c = some t → s.rounds c + gap m c t ≤ m

theorem nearing_boot (kcontext : Fin m → κ) : Nearing (boot kcontext : System κ m n) :=
  fun _ => ⟨Nat.zero_le m, fun _ hs => nomatch hs⟩

theorem Nearing.searched {s : System κ m n} (h : Nearing s) (hnm : n ≤ m) {cpu : Fin n} {t : Fin m}
    (hin : s.searching cpu = true) (ht : s.currents cpu = some t) : Nearing (search cpu t s) := by
  intro c
  have hc := c.isLt
  unfold search
  by_cases hne : c = cpu
  · subst hne
    have hnear := (h c).2 t hin ht
    have hpos : 0 < gap m c t := gap_pos t.isLt
    split_ifs with htest
    · have hmiss : (next t : Nat) ≠ c := by
        intro heq
        rw [heq, Nat.mod_eq_of_lt hc] at htest
        exact htest rfl
      have hnext := gap_next t (by omega) hmiss
      simp only [Function.update_self]
      refine ⟨by omega, fun u _ hu => ?_⟩
      rw [← Option.some.inj hu]
      omega
    · simp only [Function.update_self]
      exact ⟨by omega, fun u hs => nomatch hs⟩
  · split_ifs
    all_goals
      simp only [Function.update_of_ne hne]
      exact h c

variable [NeZero m]

theorem step_cases {e : Event κ n} {s u : System κ m n} (h : step e s = some u) :
    (∃ cpu ctx, e = .interrupt cpu ctx ∧ s.searching cpu = false ∧ u = onInterrupt cpu ctx s) ∨
      ∃ cpu t, e = .round cpu ∧ s.searching cpu = true ∧ s.currents cpu = some t ∧
        u = search cpu t s := by
  cases e with
  | interrupt cpu ctx =>
    simp only [step] at h
    split_ifs at h with hin
    exact .inl ⟨cpu, ctx, rfl, Bool.eq_false_iff.mpr hin, (Option.some.inj h).symm⟩
  | round cpu =>
    simp only [step] at h
    split_ifs at h with hin
    obtain ⟨t, ht, hu⟩ := Option.map_eq_some_iff.mp h
    exact .inr ⟨cpu, t, rfl, hin, ht, hu.symm⟩

theorem Inv.step {e : Event κ n} {s u : System κ m n} (h : Inv s) (hu : step e s = some u) :
    Inv u := by
  obtain ⟨cpu, ctx, -, hout, rfl⟩ | ⟨cpu, t, -, hin, -, rfl⟩ := step_cases hu
  · exact h.interrupted ctx hout
  · exact h.searched t hin

theorem Inv.owned {s : System κ m n} (h : Inv s) {cpu : Fin n} {ctx : κ} {t : Fin m}
    (hout : s.searching cpu = false) (ht : (onInterrupt cpu ctx s).context t ≠ s.context t) :
    s.running cpu = some t ∧ (onInterrupt cpu ctx s).context t = ctx := by
  have hcur := h.outside cpu hout
  cases hrun : s.running cpu with
  | none =>
    rw [hrun] at hcur
    simp only [onInterrupt, hcur] at ht
    exact absurd rfl ht
  | some x =>
    rw [hrun] at hcur
    simp only [onInterrupt, hcur] at ht ⊢
    by_cases hx : t = x
    · rw [hx]
      exact ⟨rfl, Function.update_self _ _ _⟩
    · exact absurd (Function.update_of_ne hx _ _) ht

theorem Inv.isolated {s : System κ m n} (h : Inv s) : Isolated s where
  exclusive := by
    intro c d t hc hd htc htd
    rw [h.outside c hc] at htc
    rw [h.outside d hd] at htd
    exact Fin.ext ((h.mine c t htc).symm.trans (h.mine d t htd))
  latest := fun c t hc ht => h.latest c t hc (h.outside c hc ▸ ht)
  owned := by
    intro e u t hu ht
    obtain ⟨cpu, ctx, rfl, hout, rfl⟩ | ⟨cpu, x, rfl, -, -, rfl⟩ := step_cases hu
    · exact ⟨cpu, ctx, rfl, h.owned hout ht⟩
    · exact absurd (congrFun (context_search cpu x s) t) ht

@[simp] theorem rounds_onInterrupt (cpu : Fin n) (ctx : κ) (s : System κ m n) :
    (onInterrupt cpu ctx s).rounds = Function.update s.rounds cpu 0 := by
  cases h : s.currents cpu <;> simp only [onInterrupt, h]

@[simp] theorem searching_onInterrupt (cpu : Fin n) (ctx : κ) (s : System κ m n) :
    (onInterrupt cpu ctx s).searching = Function.update s.searching cpu true := by
  cases h : s.currents cpu <;> simp only [onInterrupt, h]

theorem currents_onInterrupt {c cpu : Fin n} (h : c ≠ cpu) (ctx : κ) (s : System κ m n) :
    (onInterrupt cpu ctx s).currents c = s.currents c := by
  cases hcur : s.currents cpu with
  | none =>
    simp only [onInterrupt, hcur]
    exact Function.update_of_ne h _ _
  | some t => simp only [onInterrupt, hcur]

theorem Nearing.interrupted {s : System κ m n} (h : Nearing s) (hnm : n ≤ m) (cpu : Fin n)
    (ctx : κ) : Nearing (onInterrupt cpu ctx s) := by
  intro c
  have hc := c.isLt
  rw [rounds_onInterrupt, searching_onInterrupt]
  by_cases hne : c = cpu
  · subst hne
    rw [Function.update_self]
    refine ⟨Nat.zero_le m, fun t _ _ => ?_⟩
    rw [Nat.zero_add]
    exact gap_le (by omega)
  · rw [currents_onInterrupt hne, Function.update_of_ne hne, Function.update_of_ne hne]
    exact h c

theorem Nearing.step {e : Event κ n} {s u : System κ m n} (h : Nearing s) (hnm : n ≤ m)
    (hu : step e s = some u) : Nearing u := by
  obtain ⟨cpu, ctx, -, -, rfl⟩ | ⟨cpu, t, -, hin, ht, rfl⟩ := step_cases hu
  · exact h.interrupted hnm cpu ctx
  · exact h.searched hnm hin ht

theorem rounds_replicate {cpu : Fin n} (hlate : m ≤ cpu) (k : Nat) {s : System κ m n} {t : Fin m}
    (hin : s.searching cpu = true) (ht : s.currents cpu = some t) :
    ∃ u, play step (List.replicate k (.round cpu)) s = some u ∧
      u.rounds cpu = s.rounds cpu + k := by
  induction k generalizing s t with
  | zero => exact ⟨s, rfl, rfl⟩
  | succ k ih =>
    have hmiss : (next t : Nat) % n ≠ cpu := by
      have hnext := (next t).isLt
      have hcpu := cpu.isLt
      rw [Nat.mod_eq_of_lt (by omega)]
      omega
    have hround : step (.round cpu) s = some { s with
        currents := Function.update s.currents cpu (some (next t))
        rounds := Function.update s.rounds cpu (s.rounds cpu + 1) } := by
      rw [step, if_pos hin, ht, Option.map_some, search, if_pos hmiss]
    obtain ⟨u, hplay, hrounds⟩ := ih (t := next t)
      (s := { s with
        currents := Function.update s.currents cpu (some (next t))
        rounds := Function.update s.rounds cpu (s.rounds cpu + 1) })
      hin (Function.update_self _ _ _)
    refine ⟨u, ?_, ?_⟩
    · rw [List.replicate_succ, play, hround, Option.bind_some]
      exact hplay
    · rw [hrounds]
      simp only [Function.update_self]
      omega

theorem play_inv {kcontext : Fin m → κ} {es : List (Event κ n)} {s : System κ m n}
    (h : play step es (boot kcontext) = some s) : Inv s :=
  play_invariant_all (fun _ _ _ hs hu => hs.step hu) h (inv_boot kcontext)

theorem scheduled_of_le {kcontext : Fin m → κ} (hnm : n ≤ m) : Scheduled n kcontext where
  isolated := fun _ _ h => (play_inv h).isolated
  goesOn := by
    intro es s h c hin
    obtain ⟨t, ht⟩ := Option.ne_none_iff_exists'.mp ((play_inv h).inside c hin)
    exact ⟨search c t s, by simp only [step, if_pos hin, ht, Option.map_some]⟩
  ends := by
    refine ⟨m, fun es s h c => ?_⟩
    have hnear : Nearing s :=
      play_invariant_all (fun _ _ _ hs hu => hs.step hnm hu) h (nearing_boot kcontext)
    exact (hnear c).1

/-- With more CPUs than tasks the calls of one of them go around without end. -/
theorem rounds_unbounded (kcontext : Fin m → κ) (hmn : m < n) (b : Nat) :
    ∃ es, ∃ s : System κ m n, play step es (boot kcontext) = some s ∧ b < s.rounds ⟨m, hmn⟩ := by
  let cpu : Fin n := ⟨m, hmn⟩
  have hfirst : step (.interrupt cpu (kcontext 0)) (boot kcontext : System κ m n) =
      some (onInterrupt cpu (kcontext 0) (boot kcontext)) := rfl
  obtain ⟨s, hplay, hrounds⟩ := rounds_replicate (show m ≤ (cpu : Nat) from Nat.le_refl m) (b + 1)
    (s := onInterrupt cpu (kcontext 0) (boot kcontext)) (t := 0)
    (by rw [searching_onInterrupt, Function.update_self]) (Function.update_self _ _ _)
  refine ⟨.interrupt cpu (kcontext 0) :: List.replicate (b + 1) (.round cpu), s, ?_, ?_⟩
  · rw [play, hfirst, Option.bind_some]
    exact hplay
  · rw [hrounds]
    omega

end

section

variable {κ : Type}

/-- The threads of `tasks` are scheduled on `cpu_count()` CPUs exactly when there are not more CPUs
than tasks. -/
theorem threads_scheduled_iff (cpuCount : Nat) (kcontext : Fin tasks.length → κ) :
    Scheduled cpuCount kcontext ↔ cpuCount ≤ tasks.length := by
  refine ⟨fun h => ?_, scheduled_of_le⟩
  obtain ⟨b, hb⟩ := h.ends
  refine Nat.le_of_not_lt fun hlt => ?_
  obtain ⟨es, s, hplay, hrounds⟩ := rounds_unbounded kcontext hlt b
  exact absurd (hb es s hplay _) (Nat.not_le_of_lt hrounds)

end

/-- On six CPUs the last one finds no task. -/
theorem six_cpus_not_scheduled :
    6 ≤ maxCpu ∧ ¬Scheduled 6 (fun t : Fin tasks.length => (t : Nat)) := by
  refine ⟨by decide, fun h => ?_⟩
  obtain ⟨b, hb⟩ := h.ends
  obtain ⟨es, s, hplay, hrounds⟩ :=
    rounds_unbounded (fun t : Fin tasks.length => (t : Nat)) (n := 6) (by decide) b
  exact absurd (hb es s hplay _) (Nat.not_le_of_lt hrounds)

end Riscv32Cpu.ThreadOs
