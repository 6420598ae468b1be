/- module: Riscv32Cpu/Nemu/Expr
   source: CODE/nemu/src/monitor/sdb/expr.c
   digest: The debugger's expression tokenizer, its rules, and the strings it gets through. -/

import Mathlib.Logic.Function.Basic
import Riscv32Cpu.Lib.Effect
import Riscv32Cpu.Lib.Regexec

set_option autoImplicit false
set_option relaxedAutoImplicit false

namespace Riscv32Cpu.Nemu.Expr

open Lib.Effect Lib.Regexec

/-- A C string up to its terminator; a byte is the character of its code. -/
abbrev Str := List Char

def tkNotype : Nat := 256
def tkEq : Nat := 257

structure Rule where
  regex : Str
  tokenType : Nat

def rules : List Rule :=
  [⟨[' ', '+'], tkNotype⟩, ⟨['\\', '+'], '+'.toNat⟩, ⟨['=', '='], tkEq⟩]

/-- The compiled rules; `none` where `init_regex` panics. -/
def initRegex : Option (List (RegularExpression Char)) := rules.mapM fun r => regcomp r.regex

def re : List (RegularExpression Char) := initRegex.getD []

structure Token where
  type : Nat
  str : Str
  deriving DecidableEq

/-- The globals `tokens` and `nr_token`. -/
structure Table where
  tokens : Fin 32 → Token
  nrToken : Nat

/-- What can end `make_token` other than a `return`: `TODO()`, and a write past `tokens[31]`.
`unfinished` is a loop that ran out of fuel. -/
inductive Stop
  | todo
  | pastTokens
  | unfinished

abbrev T := EStateM Stop Table

/-- `snprintf(str, size, "%.*s", ..)`. -/
def snprintf (size : Nat) (text : Str) : Str := text.take (size - 1)

def addToken (type : Nat) (text : Str) : T Unit := fun s =>
  if h : s.nrToken < 32 then
    .ok () ⟨Function.update s.tokens ⟨s.nrToken, h⟩ ⟨type, snprintf 32 text⟩, s.nrToken + 1⟩
  else .error .pastTokens s

/-- The `switch` over the type of the rule that matched. -/
def act (rule : Rule) (text : Str) : T Unit :=
  if rule.tokenType = '+'.toNat then addToken rule.tokenType text
  else if rule.tokenType = tkEq then addToken rule.tokenType text
  else throw .todo

/-- The rule and the length of its match, when it matches at the start. -/
def matchRule (s : Str) (rule : Rule × RegularExpression Char) : Option (Rule × Nat) :=
  match regexec rule.2 s with
  | some (0, eo) => some (rule.1, eo)
  | _ => none

/-- The loop over the rules. -/
def firstMatch (s : Str) : Option (Rule × Nat) := (rules.zip re).findSome? (matchRule s)

def makeTokenLoop (e : Str) : Nat → Nat → T Bool
  | 0, _ => throw .unfinished
  | fuel + 1, position =>
    if position < e.length then
      match firstMatch (e.drop position) with
      | none => return false
      | some (rule, len) => do
        act rule ((e.drop position).take len)
        makeTokenLoop e fuel (position + len)
    else return true

def makeToken (fuel : Nat) (e : Str) : T Bool := do
  modify fun s => { s with nrToken := 0 }
  makeTokenLoop e fuel 0

/-- A lexeme that has a token of its own. -/
inductive Lexeme
  | plus
  | eq
  deriving DecidableEq

def Lexeme.text : Lexeme → Str
  | .plus => ['+']
  | .eq => ['=', '=']

def Lexeme.type : Lexeme → Nat
  | .plus => '+'.toNat
  | .eq => tkEq

def Lexeme.token (l : Lexeme) : Token := ⟨l.type, l.text⟩

/-- A run of `n + 1` spaces, or a lexeme. -/
inductive Piece
  | spaces (n : Nat)
  | lexeme (l : Lexeme)

def Piece.text : Piece → Str
  | .spaces n => List.replicate (n + 1) ' '
  | .lexeme l => l.text

def Piece.lexeme? : Piece → Option Lexeme
  | .spaces _ => none
  | .lexeme l => some l

def lexemes (ps : List Piece) : List Lexeme := ps.filterMap Piece.lexeme?

/-- The entries that are in use. -/
def Table.used (s : Table) : List Token := (List.ofFn s.tokens).take s.nrToken

/-- `make_token` returns, says whether the string is made of spaces and at most 32 lexemes, and
leaves the tokens of these lexemes. -/
def Tokenizes (e : Str) : Prop :=
  ∀ s, ∃ b s', (∃ n, ∀ fuel ≥ n, makeToken fuel e s = .ok b s') ∧
    (b = true ↔ ∃ ps : List Piece, e = ps.flatMap Piece.text ∧ (lexemes ps).length ≤ 32) ∧
    (b = true → ∀ ps : List Piece, e = ps.flatMap Piece.text →
      s'.used = (lexemes ps).map Lexeme.token)

/-- The lexemes that the string starts with, and what is behind them. -/
def lead : Str → List Lexeme × Str
  | '+' :: s => (.plus :: (lead s).1, (lead s).2)
  | '=' :: '=' :: s => (.eq :: (lead s).1, (lead s).2)
  | s => ([], s)

/-- At most 32 lexemes at the start, and no space behind them. -/
def Plain (e : Str) : Prop := (lead e).1.length ≤ 32 ∧ (lead e).2.head? ≠ some ' '

theorem initRegex_eq : initRegex = some [run ' ' * 1, word ['+'], word ['=', '=']] := by
  rfl

theorem matchRule_eq (s : Str) (rule : Rule × RegularExpression Char) :
    matchRule s rule = (longest rule.2 s).map (rule.1, ·) := by
  rw [matchRule]
  cases hs : longest rule.2 s with
  | some n =>
    rw [(regexec_start rule.2 s n).mpr hs]
    rfl
  | none =>
    split
    · next eo h =>
      rw [(regexec_start rule.2 s eo).mp h] at hs
      cases hs
    · rfl

theorem firstMatch_eq (s : Str) : firstMatch s =
    ((longest (run ' ' * 1) s).map (⟨[' ', '+'], tkNotype⟩, ·)).or
      (((longest (word ['+']) s).map (⟨['\\', '+'], '+'.toNat⟩, ·)).or
        ((longest (word ['=', '=']) s).map (⟨['=', '='], tkEq⟩, ·))) := by
  rw [firstMatch, re, initRegex_eq]
  simp only [rules, Option.getD_some, List.zip_cons_cons, List.zip_nil_right,
    List.findSome?_cons, List.findSome?_nil, matchRule_eq]
  cases longest (run ' ' * 1) s with
  | some n => rfl
  | none =>
    cases longest (word ['+']) s with
    | some n => rfl
    | none =>
      cases longest (word ['=', '=']) s with
      | some n => rfl
      | none => rfl

theorem longest_blank_isSome (s : Str) : (longest (run ' ' * 1) s).isSome ↔ s.head? = some ' ' := by
  have hsame : (run ' ' * 1).matches' = (run ' ').matches' := by
    rw [RegularExpression.matches'_mul, RegularExpression.matches'_epsilon, mul_one]
  rw [← longest_run_isSome, Option.isSome_iff_ne_none, Option.isSome_iff_ne_none, ne_eq, ne_eq,
    longest_eq_none_iff, longest_eq_none_iff, hsame]

theorem firstMatch_blank {s : Str} (h : s.head? = some ' ') :
    ∃ n, firstMatch s = some (⟨[' ', '+'], tkNotype⟩, n) := by
  obtain ⟨n, hn⟩ := Option.isSome_iff_exists.mp ((longest_blank_isSome s).mpr h)
  exact ⟨n, by rw [firstMatch_eq, hn, Option.map_some, Option.some_or]⟩

theorem firstMatch_no_blank {s : Str} (h : s.head? ≠ some ' ') : firstMatch s =
    if ['+'] <+: s then some (⟨['\\', '+'], '+'.toNat⟩, 1)
    else if ['=', '='] <+: s then some (⟨['=', '='], tkEq⟩, 2)
    else none := by
  have hnone : longest (run ' ' * 1) s = none := by
    cases hs : longest (run ' ' * 1) s with
    | none => rfl
    | some n => exact absurd ((longest_blank_isSome s).mp (by rw [hs]; rfl)) h
  rw [firstMatch_eq, hnone, longest_word, longest_word, Option.map_none, Option.none_or]
  split
  · rfl
  · split
    · rfl
    · rfl

/-- The tokens added so far. -/
structure Table.Holds (s : Table) (toks : List Token) : Prop where
  count : s.nrToken = toks.length
  used : s.used = toks

theorem Table.Holds.le {s : Table} {toks : List Token} (h : s.Holds toks) : toks.length ≤ 32 := by
  have hlen := congrArg List.length h.used
  rw [Table.used, List.length_take, List.length_ofFn] at hlen
  omega

theorem addToken_full {s : Table} {toks : List Token} (h : s.Holds toks) (hfull : 32 ≤ toks.length)
    (type : Nat) (text : Str) : addToken type text s = .error .pastTokens s := by
  have hcount := h.count
  exact dif_neg (by omega)

theorem addToken_room {s : Table} {toks : List Token} (h : s.Holds toks) (hroom : toks.length < 32)
    (l : Lexeme) :
    ∃ s', addToken l.type l.text s = .ok () s' ∧ s'.Holds (toks ++ [l.token]) := by
  have hcount := h.count
  have hlt : s.nrToken < 32 := by omega
  have htext : snprintf 32 l.text = l.text := by cases l <;> rfl
  refine ⟨_, dif_pos hlt, ?_, ?_⟩
  · rw [List.length_append, ← hcount]
    rfl
  · apply List.ext_getElem?
    intro i
    have hused : (if i < s.nrToken then if h : i < 32 then some (s.tokens ⟨i, h⟩) else none
        else none) = toks[i]? := by
      rw [← h.used, Table.used, List.getElem?_take, List.getElem?_ofFn]
    rw [Table.used, List.getElem?_take, List.getElem?_ofFn, htext, List.getElem?_append]
    dsimp only
    rcases Nat.lt_trichotomy i s.nrToken with hlo | rfl | hhi
    · have hne : (⟨i, by omega⟩ : Fin 32) ≠ ⟨s.nrToken, hlt⟩ :=
        Fin.ne_of_val_ne (Nat.ne_of_lt hlo)
      rw [if_pos hlo, dif_pos (by omega)] at hused
      rw [if_pos (by omega), dif_pos (by omega), if_pos (by omega), Function.update_of_ne hne,
        hused]
    · rw [if_pos (by omega), dif_pos hlt, if_neg (by omega), Function.update_self, hcount,
        Nat.sub_self]
      rfl
    · rw [if_neg (by omega), if_neg (by omega), List.getElem?_eq_none (by simp; omega)]

theorem lead_blank {s : Str} (h : s.head? = some ' ') : lead s = ([], s) := by
  cases s with
  | nil => cases h
  | cons c s =>
    obtain rfl : c = ' ' := Option.some.inj h
    rw [lead]
    · intro t
      simp
    · intro t
      simp

theorem firstMatch_lexeme (l : Lexeme) (s : Str) :
    ∃ rule, firstMatch (l.text ++ s) = some (rule, l.text.length) ∧
      ∀ text, act rule text = addToken l.type text := by
  cases l with
  | plus =>
    have hblank : (Lexeme.plus.text ++ s).head? ≠ some ' ' := by simp [Lexeme.text]
    have hplus : ['+'] <+: Lexeme.plus.text ++ s := List.prefix_append ['+'] s
    refine ⟨⟨['\\', '+'], '+'.toNat⟩, ?_, fun text => rfl⟩
    rw [firstMatch_no_blank hblank, if_pos hplus]
    rfl
  | eq =>
    have hblank : (Lexeme.eq.text ++ s).head? ≠ some ' ' := by simp [Lexeme.text]
    have hplus : ¬['+'] <+: Lexeme.eq.text ++ s := by simp [Lexeme.text]
    have heq : ['=', '='] <+: Lexeme.eq.text ++ s := List.prefix_append ['=', '='] s
    refine ⟨⟨['=', '='], tkEq⟩, ?_, fun text => rfl⟩
    rw [firstMatch_no_blank hblank, if_neg hplus, if_pos heq]
    rfl

theorem makeTokenLoop_lexeme (e : Str) {l : Lexeme} {s : Str} {position : Nat}
    (hs : e.drop position = l.text ++ s) (fuel : Nat) :
    makeTokenLoop e (fuel + 1) position = (do
      addToken l.type l.text
      makeTokenLoop e fuel (position + l.text.length)) := by
  obtain ⟨rule, hmatch, hact⟩ := firstMatch_lexeme l s
  have hlen := congrArg List.length hs
  have hpos : 0 < l.text.length := by cases l <;> decide
  rw [List.length_drop, List.length_append] at hlen
  rw [makeTokenLoop, if_pos (by omega), hs, hmatch]
  dsimp only
  rw [hact, List.take_left]

theorem drop_lexeme {e s : Str} {l : Lexeme} {position : Nat}
    (hs : e.drop position = l.text ++ s) : e.drop (position + l.text.length) = s := by
  rw [← List.drop_drop, hs, List.drop_left]

theorem makeTokenLoop_stuck {e s : Str} {position : Nat} (hs : e.drop position = s)
    (hblank : s.head? ≠ some ' ') (hplus : ¬['+'] <+: s) (heq : ¬['=', '='] <+: s)
    (fuel : Nat) : makeTokenLoop e (fuel + 1) position = pure (decide (s = [])) := by
  have hlen := congrArg List.length hs
  rw [List.length_drop] at hlen
  rw [makeTokenLoop, hs, firstMatch_no_blank hblank, if_neg hplus, if_neg heq]
  cases s with
  | nil => rw [if_neg (by simp at hlen; omega), decide_eq_true rfl]
  | cons c s =>
    rw [if_pos (by simp at hlen; omega), decide_eq_false (List.cons_ne_nil c s)]

/-- From where `s` is left: the loop adds the lexemes at the start and says whether they are all of
`s`, when they fit in the table and no space stands behind them; otherwise it does not return. -/
def Loops (e s : Str) : Prop :=
  ∀ position, e.drop position = s → ∀ (table : Table) (toks : List Token), table.Holds toks →
    (toks.length + (lead s).1.length ≤ 32 → (lead s).2.head? ≠ some ' ' → ∃ table',
      (∀ fuel > s.length,
        makeTokenLoop e fuel position table = .ok (decide ((lead s).2 = [])) table') ∧
      table'.Holds (toks ++ (lead s).1.map Lexeme.token)) ∧
    (¬(toks.length + (lead s).1.length ≤ 32 ∧ (lead s).2.head? ≠ some ' ') →
      ∀ fuel, returned (makeTokenLoop e fuel position table) = false)

theorem lead_lexeme (l : Lexeme) (s : Str) :
    lead (l.text ++ s) = (l :: (lead s).1, (lead s).2) := by
  cases l <;> rfl

theorem loops_lexeme {e s : Str} (l : Lexeme) (ih : Loops e s) : Loops e (l.text ++ s) := by
  intro position hs table toks htable
  have hstep := makeTokenLoop_lexeme e hs
  have hpos : 0 < l.text.length := by cases l <;> decide
  rw [lead_lexeme]
  dsimp only
  rw [List.length_cons, List.map_cons]
  rcases Nat.lt_or_ge toks.length 32 with hroom | hfull
  · obtain ⟨table₁, hadd, htable₁⟩ := addToken_room htable hroom l
    obtain ⟨hgood, hbad⟩ := ih _ (drop_lexeme hs) table₁ _ htable₁
    rw [List.length_append, List.length_singleton] at hgood hbad
    constructor
    · intro hfit hend
      obtain ⟨table₂, hrun, htable₂⟩ := hgood (by omega) hend
      refine ⟨table₂, fun fuel hfuel => ?_, ?_⟩
      · rw [List.length_append] at hfuel
        obtain ⟨k, rfl⟩ : ∃ k, fuel = k + 1 := ⟨fuel - 1, by omega⟩
        rw [hstep, bind_of_ok hadd, hrun k (by omega)]
      · rw [List.append_assoc] at htable₂
        exact htable₂
    · intro hnot fuel
      cases fuel with
      | zero => rfl
      | succ k =>
        rw [hstep, bind_of_ok hadd]
        exact hbad (fun h => hnot ⟨by omega, h.2⟩) k
  · constructor
    · intro hfit
      omega
    · intro hnot fuel
      cases fuel with
      | zero => rfl
      | succ k =>
        rw [hstep, bind_of_error (addToken_full htable hfull l.type l.text)]
        rfl

theorem loops_stop {e s : Str} (hplus : ¬['+'] <+: s) (heq : ¬['=', '='] <+: s)
    (hlead : lead s = ([], s)) : Loops e s := by
  intro position hs table toks htable
  have hle := htable.le
  rw [hlead]
  constructor
  · intro hfit hend
    refine ⟨table, fun fuel hfuel => ?_, ?_⟩
    · obtain ⟨k, rfl⟩ : ∃ k, fuel = k + 1 := ⟨fuel - 1, by omega⟩
      rw [makeTokenLoop_stuck hs hend hplus heq]
      rfl
    · rw [List.map_nil, List.append_nil]
      exact htable
  · intro hnot fuel
    have hblank : s.head? = some ' ' := by
      by_contra hne
      exact hnot ⟨hle, hne⟩
    cases fuel with
    | zero => rfl
    | succ k =>
      obtain ⟨n, hmatch⟩ := firstMatch_blank hblank
      have hlen := congrArg List.length hs
      have hpos : 0 < s.length := by
        cases s with
        | nil => cases hblank
        | cons c s => exact Nat.succ_pos _
      rw [List.length_drop] at hlen
      rw [makeTokenLoop, if_pos (by omega), hs, hmatch]
      rfl

theorem loops (e s : Str) : Loops e s := by
  induction s using lead.induct with
  | case1 s ih => exact loops_lexeme .plus ih
  | case2 s ih => exact loops_lexeme .eq ih
  | case3 s hplus heq =>
    refine loops_stop (fun h => ?_) (fun h => ?_) (lead.eq_3 s hplus heq)
    · obtain ⟨t, rfl⟩ := h
      exact hplus t rfl
    · obtain ⟨t, rfl⟩ := h
      exact heq t rfl

theorem makeToken_runs (e : Str) (s : Table) :
    (Plain e → ∃ s', (∀ fuel > e.length, makeToken fuel e s = .ok (decide ((lead e).2 = [])) s') ∧
      s'.Holds ((lead e).1.map Lexeme.token)) ∧
    (¬Plain e → ∀ fuel, returned (makeToken fuel e s) = false) := by
  have hstart : Table.Holds { s with nrToken := 0 } [] := ⟨rfl, rfl⟩
  obtain ⟨hgood, hbad⟩ := loops e e 0 rfl _ _ hstart
  rw [List.length_nil, Nat.zero_add] at hgood hbad
  exact ⟨fun h => hgood h.1 h.2, hbad⟩

theorem flatMap_lead (s : Str) : s = (lead s).1.flatMap Lexeme.text ++ (lead s).2 := by
  induction s using lead.induct with
  | case1 s ih =>
    rw [lead, List.flatMap_cons, List.append_assoc, ← ih]
    rfl
  | case2 s ih =>
    rw [lead, List.flatMap_cons, List.append_assoc, ← ih]
    rfl
  | case3 s hplus heq =>
    rw [lead.eq_3 s hplus heq]
    rfl

theorem lead_pieces (ps : List Piece) (h : (lead (ps.flatMap Piece.text)).2.head? ≠ some ' ') :
    lead (ps.flatMap Piece.text) = (lexemes ps, []) := by
  induction ps with
  | nil => rfl
  | cons p ps ih =>
    cases p with
    | spaces n =>
      have hblank : ((Piece.spaces n :: ps).flatMap Piece.text).head? = some ' ' := rfl
      rw [lead_blank hblank] at h
      exact absurd hblank h
    | lexeme l =>
      have hsplit : (Piece.lexeme l :: ps).flatMap Piece.text =
          l.text ++ ps.flatMap Piece.text := rfl
      rw [hsplit, lead_lexeme] at h ⊢
      rw [ih h]
      rfl

theorem pieces_iff {e : Str} (h : Plain e) :
    (lead e).2 = [] ↔ ∃ ps : List Piece, e = ps.flatMap Piece.text ∧ (lexemes ps).length ≤ 32 := by
  constructor
  · intro hrest
    refine ⟨(lead e).1.map .lexeme, ?_, ?_⟩
    · have hsplit := flatMap_lead e
      rw [hrest, List.append_nil] at hsplit
      rw [List.flatMap_map]
      exact hsplit
    · have hback : lexemes ((lead e).1.map .lexeme) = (lead e).1 := by
        rw [lexemes, List.filterMap_map]
        exact List.filterMap_some
      rw [hback]
      exact h.1
  · rintro ⟨ps, rfl, -⟩
    rw [lead_pieces ps h.2]

theorem tokenizes_of_plain {e : Str} (h : Plain e) : Tokenizes e := by
  intro s
  obtain ⟨s', hrun, hholds⟩ := (makeToken_runs e s).1 h
  refine ⟨decide ((lead e).2 = []), s', ⟨e.length + 1, hrun⟩, ?_, ?_⟩
  · rw [decide_eq_true_iff]
    exact pieces_iff h
  · intro _ ps hps
    have hlead := lead_pieces ps (hps ▸ h.2)
    rw [← hps] at hlead
    rw [hholds.used, hlead]

theorem plain_of_tokenizes {e : Str} (h : Tokenizes e) : Plain e := by
  have s : Table := ⟨fun _ => ⟨0, []⟩, 0⟩
  obtain ⟨b, s', ⟨n, hrun⟩, -⟩ := h s
  by_contra hnot
  have hstuck := (makeToken_runs e s).2 hnot n
  rw [hrun n le_rfl] at hstuck
  cases hstuck

/-- The tokenizer is total and lossless exactly on the strings that start with at most 32 lexemes
and have no space behind these. -/
theorem makeToken_tokenizes_iff (e : Str) : Tokenizes e ↔ Plain e :=
  ⟨plain_of_tokenizes, tokenizes_of_plain⟩

/-- A space, and a 33rd lexeme. -/
theorem blank_stops_tokenizer :
    ¬Tokenizes [' '] ∧ ¬Tokenizes (List.replicate 33 '+') := by
  constructor
  · intro h
    exact (plain_of_tokenizes h).2 rfl
  · intro h
    have hle := (plain_of_tokenizes h).1
    revert hle
    decide

end Riscv32Cpu.Nemu.Expr
