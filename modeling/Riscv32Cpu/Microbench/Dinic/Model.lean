/- module: Riscv32Cpu/Microbench/Dinic/Model
   source: CODE/am-kernels/benchmarks/microbench/src/dinic/dinic.cc
   digest: Dinic's algorithm: edges in pairs, levels, and the search along them. -/

import Mathlib.Algebra.Group.Nat.Defs
import Mathlib.Logic.Function.Basic
import Riscv32Cpu.Lib.Loops

set_option autoImplicit false
set_option relaxedAutoImplicit false

namespace Riscv32Cpu.Microbench.Dinic

open Lib.Loops

/-- The `int` that a computation leaves. -/
def int (n : Int) : Int := n.bmod (2 ^ 32)

def INF : Int := 0x3f3f3f

/-- `from`, `to`, `cap` and `flow`. -/
structure Edge where
  src : Nat
  dst : Nat
  cap : Int
  flow : Int

/-- The object, with the size of its arrays of edges. Where an index is -1 there is none. -/
structure Graph where
  n : Nat
  maxm : Int
  m : Nat
  s : Nat
  t : Nat
  edges : Nat → Edge
  head : Nat → Option Nat
  nxt : Nat → Option Nat
  d : Nat → Nat
  cur : Nat → Option Nat
  queue : Nat → Nat
  vis : Nat → Bool

inductive Stop
  | outside
  | unfinished

/-- How many edges the arrays hold. -/
def maxm (n : Nat) : Int :=
  let nold := (int (n - 2)).tdiv 2
  int ((nold * nold + nold * 2) * 2)

/-- `bench_alloc` returns zeros. -/
def init (n : Nat) : Graph where
  n
  maxm := maxm n
  m := 0
  s := 0
  t := 0
  edges := fun _ => ⟨0, 0, 0, 0⟩
  head := fun i => if i < n then none else some 0
  nxt := fun _ => some 0
  d := fun _ => 0
  cur := fun _ => some 0
  queue := fun _ => 0
  vis := fun _ => false

/-- One of the two edges: the next one of the list of its first vertex. -/
def Graph.link (G : Graph) (e : Edge) : Except Stop Graph :=
  if G.m < G.maxm then
    .ok { G with
      edges := Function.update G.edges G.m e
      nxt := Function.update G.nxt G.m (G.head e.src)
      head := Function.update G.head e.src (some G.m)
      m := G.m + 1 }
  else .error .outside

def AddEdge (G : Graph) (u v : Nat) (c : Int) : Except Stop Graph :=
  if c = 0 then return G
  else do
    let G ← G.link ⟨u, v, c, 0⟩
    G.link ⟨v, u, 0, 0⟩

/-- A call of `AddEdge`. -/
structure Call where
  u : Nat
  v : Nat
  c : Int

def build (n : Nat) (calls : List Call) : Except Stop Graph :=
  calls.foldlM (fun G call => AddEdge G call.u call.v call.c) (init n)

/-- `queue[qr ++] = v`. -/
def Graph.enqueue (G : Graph) (qr v : Nat) : Except Stop Graph :=
  if qr < G.n then .ok { G with queue := Function.update G.queue qr v } else .error .outside

/-- The loop of `BFS` over the edges of `x`. -/
def bfsEdges (x : Nat) : Nat → Option Nat → Graph → Nat → Except Stop (Graph × Nat)
  | 0, _, _, _ => .error .unfinished
  | _ + 1, none, G, qr => .ok (G, qr)
  | fuel + 1, some i, G, qr =>
    let e := G.edges i
    if G.vis e.dst = false ∧ e.cap > e.flow then do
      let G := { G with
        vis := Function.update G.vis e.dst true
        d := Function.update G.d e.dst (G.d x + 1) }
      let G ← G.enqueue qr e.dst
      bfsEdges x fuel (G.nxt i) G (qr + 1)
    else bfsEdges x fuel (G.nxt i) G qr

def bfsLoop : Nat → Graph → Nat → Nat → Except Stop Graph
  | 0, _, _, _ => .error .unfinished
  | fuel + 1, G, qf, qr =>
    if qf ≠ qr then do
      let x := G.queue qf
      let (G, qr) ← bfsEdges x fuel (G.head x) G qr
      bfsLoop fuel G (qf + 1) qr
    else .ok G

def BFS (fuel : Nat) (G : Graph) : Except Stop (Bool × Graph) := do
  let G := { G with vis := fun i => if i < G.n then false else G.vis i }
  let G ← G.enqueue 0 G.s
  let G := { G with
    d := Function.update G.d G.s 0
    vis := Function.update G.vis G.s true }
  let G ← bfsLoop fuel G 0 1
  return (G.vis G.t, G)

/-- `e.flow += f; edges[i^1].flow -= f;`. -/
def Graph.augment (G : Graph) (i : Nat) (f : Int) : Graph :=
  let edges := Function.update G.edges i
    { G.edges i with flow := int ((G.edges i).flow + f) }
  { G with
    edges := Function.update edges (i ^^^ 1)
      { edges (i ^^^ 1) with flow := int ((edges (i ^^^ 1)).flow - f) } }

/-- The loop of `DFS` over the edges of `x`. -/
def dfsEdges (dfs : Nat → Int → Graph → Except Stop (Int × Graph)) (x : Nat) :
    Nat → Option Nat → Int → Int → Graph → Except Stop (Int × Graph)
  | 0, _, _, _, _ => .error .unfinished
  | _ + 1, none, flow, _, G => .ok (flow, G)
  | fuel + 1, some i, flow, a, G =>
    let e := G.edges i
    if G.d x + 1 = G.d e.dst then do
      let (f, G) ← dfs e.dst (min a (int (e.cap - e.flow))) G
      if f > 0 then
        let G := G.augment i f
        let flow := int (flow + f)
        let a := int (a - f)
        if a = 0 then return (flow, G) else dfsEdges dfs x fuel (G.nxt i) flow a G
      else dfsEdges dfs x fuel (G.nxt i) flow a G
    else dfsEdges dfs x fuel (G.nxt i) flow a G

def DFS : Nat → Nat → Int → Graph → Except Stop (Int × Graph)
  | 0, _, _, _ => .error .unfinished
  | fuel + 1, x, a, G =>
    if x = G.t ∨ a = 0 then .ok (a, G) else dfsEdges (DFS fuel) x fuel (G.cur x) 0 a G

/-- The loop of `Maxflow`. -/
def phases : Nat → Graph → Int → Except Stop (Int × Graph)
  | 0, _, _ => .error .unfinished
  | fuel + 1, G, flow => do
    let (found, G) ← BFS fuel G
    if found = true then
      let G := { G with cur := fun i => if i < G.n then G.head i else G.cur i }
      let (f, G) ← DFS fuel G.s INF G
      phases fuel G (int (flow + f))
    else return (flow, G)

def Maxflow (fuel s t : Nat) (G : Graph) : Except Stop (Int × Graph) :=
  phases fuel { G with s, t } 0

section fuel
variable {x : Nat} {p : Option Nat} {G : Graph} {qf qr fuel fuel' : Nat}

theorem bfsEdges_succ {r : Graph × Nat} (h : bfsEdges x fuel p G qr = .ok r) :
    bfsEdges x (fuel + 1) p G qr = .ok r := by
  induction fuel generalizing p G qr with
  | zero => cases h
  | succ fuel ih =>
    cases p with
    | none => exact h
    | some i =>
      rw [bfsEdges] at h ⊢
      by_cases hfound : G.vis (G.edges i).dst = false ∧ (G.edges i).cap > (G.edges i).flow
      · rw [if_pos hfound] at h ⊢
        exact bind_ok_mono (fun _ hG => hG) (fun _ hrest => ih hrest) h
      · rw [if_neg hfound] at h ⊢
        exact ih h

theorem bfsLoop_succ {r : Graph} (h : bfsLoop fuel G qf qr = .ok r) :
    bfsLoop (fuel + 1) G qf qr = .ok r := by
  induction fuel generalizing G qf qr with
  | zero => cases h
  | succ fuel ih =>
    rw [bfsLoop] at h ⊢
    by_cases hne : qf ≠ qr
    · rw [if_pos hne] at h ⊢
      exact bind_ok_mono (fun _ hedges => bfsEdges_succ hedges) (fun _ hrest => ih hrest) h
    · rw [if_neg hne] at h ⊢
      exact h

theorem BFS_succ {r : Bool × Graph} (h : BFS fuel G = .ok r) : BFS (fuel + 1) G = .ok r :=
  bind_ok_mono (fun _ hG => hG)
    (fun _ hrest => bind_ok_mono (fun _ hloop => bfsLoop_succ hloop) (fun _ hr => hr) hrest) h

theorem dfsEdges_succ {dfs dfs' : Nat → Int → Graph → Except Stop (Int × Graph)}
    (hdfs : ∀ y a G r, dfs y a G = .ok r → dfs' y a G = .ok r) {flow a : Int} {r : Int × Graph}
    (h : dfsEdges dfs x fuel p flow a G = .ok r) :
    dfsEdges dfs' x (fuel + 1) p flow a G = .ok r := by
  induction fuel generalizing p flow a G with
  | zero => cases h
  | succ fuel ih =>
    cases p with
    | none => exact h
    | some i =>
      rw [dfsEdges] at h ⊢
      by_cases hlevel : G.d x + 1 = G.d (G.edges i).dst
      · rw [if_pos hlevel] at h ⊢
        refine bind_ok_mono (hdfs _ _ _) (fun ⟨f, G'⟩ hrest => ?_) h
        by_cases hf : f > 0
        · simp only [if_pos hf] at hrest ⊢
          by_cases ha : int (a - f) = 0
          · rw [if_pos ha] at hrest ⊢
            exact hrest
          · rw [if_neg ha] at hrest ⊢
            exact ih hrest
        · simp only [if_neg hf] at hrest ⊢
          exact ih hrest
      · rw [if_neg hlevel] at h ⊢
        exact ih h

theorem DFS_succ {a : Int} {r : Int × Graph} (h : DFS fuel x a G = .ok r) :
    DFS (fuel + 1) x a G = .ok r := by
  induction fuel generalizing x a G r with
  | zero => cases h
  | succ fuel ih =>
    rw [DFS] at h ⊢
    by_cases hstop : x = G.t ∨ a = 0
    · rw [if_pos hstop] at h ⊢
      exact h
    · rw [if_neg hstop] at h ⊢
      exact dfsEdges_succ (fun _ _ _ _ hdfs => ih hdfs) h

theorem phases_succ {flow : Int} {r : Int × Graph} (h : phases fuel G flow = .ok r) :
    phases (fuel + 1) G flow = .ok r := by
  induction fuel generalizing G flow with
  | zero => cases h
  | succ fuel ih =>
    rw [phases] at h ⊢
    refine bind_ok_mono (fun _ hbfs => BFS_succ hbfs) (fun ⟨found, G'⟩ hrest => ?_) h
    cases found with
    | false => exact hrest
    | true => exact bind_ok_mono (fun _ hdfs => DFS_succ hdfs) (fun _ hnext => ih hnext) hrest

theorem Maxflow_mono {s t : Nat} {r : Int × Graph} (h : Maxflow fuel s t G = .ok r)
    (hle : fuel ≤ fuel') : Maxflow fuel' s t G = .ok r := by
  induction hle with
  | refl => exact h
  | step _ ih => exact phases_succ ih

end fuel

end Riscv32Cpu.Microbench.Dinic
