/- module: Riscv32Cpu/Kernels/SnakeGame
   source: CODE/am-kernels/kernels/snake/snake.c, abstract-machine/am/include/amdev.h
   digest: The snake's body, a ring that is written over, and games in which it is long enough. -/

import Mathlib.Data.BitVec
import Mathlib.Data.Finset.Prod
import Mathlib.Data.Int.Interval
import Mathlib.Tactic.Zify
import Riscv32Cpu.Lib.Ring
import Riscv32Cpu.Lib.Trace

set_option autoImplicit false
set_option relaxedAutoImplicit false

namespace Riscv32Cpu.Kernels.SnakeGame

open Lib.Ring Lib.Trace

abbrev MAX_LENGTH : Nat := 100

/-- `dir_t`. -/
inductive Dir
  | none | up | down | left | right
  deriving DecidableEq

/-- `point_t`. -/
@[ext]
structure Point where
  x : Int
  y : Int
  deriving DecidableEq

/-- `dim_t`. -/
structure Dim where
  width : Int
  height : Int

/-- The corner of the board. -/
structure Board where
  top : Int
  left : Int

/-- `snake_t`. -/
structure Snake where
  body : Int → Point
  length : Int
  index : Int
  dead : Bool

inductive Stop
  | outside
  | unfinished

def Snake.get (s : Snake) (j : Int) : Except Stop Point :=
  if 0 ≤ j ∧ j < MAX_LENGTH then .ok (s.body j) else .error .outside

def Snake.set (s : Snake) (j : Int) (p : Point) : Except Stop Snake :=
  if 0 ≤ j ∧ j < MAX_LENGTH then .ok { s with body := Function.update s.body j p }
  else .error .outside

/-- What `draw_tile` is called with. -/
structure Tile where
  y : Int
  x : Int
  color : BitVec 32

def drawTile (board : Board) (p : Point) (color : BitVec 32) : Tile :=
  ⟨p.y + board.top + 1, p.x + board.left + 1, color⟩

def printFood (food : Point) (board : Board) : Tile := drawTile board food 0x000000ff

def printHead (s : Snake) (board : Board) : Except Stop Tile := do
  let p ← s.get s.index
  return drawTile board p 0x00ff0000

def clearTail (s : Snake) (board : Board) : Except Stop Tile := do
  let t := s.index - s.length
  let t := if t < 0 then t + MAX_LENGTH else t
  let p ← s.get t
  return drawTile board p 0

/-- The codes that `AM_KEYS` gives the four keys. -/
def getDir : Nat → Dir
  | 75 => .left
  | 73 => .up
  | 76 => .right
  | 74 => .down
  | _ => .none

/-- The first `switch` of the main loop. -/
def turn (dir : Dir) : Dir → Dir
  | .up => if dir ≠ .down then .up else dir
  | .down => if dir ≠ .up then .down else dir
  | .left => if dir ≠ .right then .left else dir
  | .right => if dir ≠ .left then .right else dir
  | .none => dir

/-- The `switch` of `move_snake`. -/
def Dir.advance (p : Point) : Dir → Point
  | .left => { p with x := p.x - 1 }
  | .down => { p with y := p.y + 1 }
  | .right => { p with x := p.x + 1 }
  | .up => { p with y := p.y - 1 }
  | .none => p

def moveSnake (s : Snake) (dir : Dir) : Except Stop Snake := do
  let p ← s.get s.index
  let index := s.index + 1
  let index := if index = MAX_LENGTH then 0 else index
  { s with index }.set index (dir.advance p)

/-- The loop of `is_dead`, from `i` on. -/
def isDeadLoop (s : Snake) (head : Point) : Nat → Int → Except Stop Bool
  | 0, _ => .error .unfinished
  | fuel + 1, i =>
    if i ≠ s.length then do
      let j := s.index - i
      let j := if j < 0 then j + MAX_LENGTH else j
      let p ← s.get j
      if head.x = p.x ∧ head.y = p.y then return true else isDeadLoop s head fuel (i + 1)
    else return false

def isDead (s : Snake) (gameSize : Dim) (fuel : Nat) : Except Stop Bool := do
  let head ← s.get s.index
  if head.x = -1 then return true
  else if head.x = gameSize.width then return true
  else if head.y = -1 then return true
  else if head.y = gameSize.height then return true
  else isDeadLoop s head fuel 1

def hasFood (s : Snake) (food : Point) : Except Stop Bool := do
  let p ← s.get s.index
  return decide (p.x = food.x ∧ p.y = food.y)

/-- What `main` computes from the size of the screen, in tiles. -/
structure Config where
  gameSize : Dim
  board : Board

def config (screen : Dim) : Config :=
  let gameSize : Dim := ⟨screen.width - 2, screen.height - 2⟩
  { gameSize
    board :=
      { left := screen.width.tdiv 2 - gameSize.width.tdiv 2 - 1
        top := screen.height.tdiv 2 - gameSize.height.tdiv 2 - 1 } }

/-- The locals of `main`, and the tiles drawn since the board was. -/
structure Game where
  snake : Snake
  dir : Dir
  food : Point
  tiles : List Tile

/-- What a round is given: the key, and the next food where this one is eaten. -/
structure Input where
  key : Nat
  food : Point

def newGame (cfg : Config) (food : Point) : Game where
  snake :=
    { body := Function.update
        (Function.update (fun _ => ⟨0, 0⟩) 0
          ⟨cfg.gameSize.width.tdiv 2, cfg.gameSize.height.tdiv 2⟩)
        1 ⟨cfg.gameSize.width.tdiv 2, cfg.gameSize.height.tdiv 2 + 1⟩
      length := 2
      index := 1
      dead := false }
  dir := .right
  food
  tiles := [printFood food cfg.board]

/-- The body of the `do` loop. -/
def round (cfg : Config) (fuel : Nat) (i : Input) (g : Game) : Except Stop Game := do
  let headTile ← printHead g.snake cfg.board
  let tailTile ← clearTail g.snake cfg.board
  let dir := turn g.dir (getDir i.key)
  let snake ← moveSnake g.snake dir
  let dead ← isDead snake cfg.gameSize fuel
  let snake := { snake with dead }
  if ← hasFood snake g.food then
    return { snake := { snake with length := snake.length + 1 }, dir, food := i.food
             tiles := g.tiles ++ [headTile, tailTile, printFood i.food cfg.board] }
  else return { snake, dir, food := g.food, tiles := g.tiles ++ [headTile, tailTile] }

/-- Where the head goes in this round. -/
def nextHead (i : Input) (g : Game) : Point :=
  (turn g.dir (getDir i.key)).advance (g.snake.body g.snake.index)

/-- The cells of the snake after a round, the head first: the tail follows unless it eats. -/
def slither (i : Input) (g : Game) (cells : List Point) : List Point :=
  if nextHead i g = g.food then nextHead i g :: cells else nextHead i g :: cells.dropLast

/-- A game, and the cells of the snake. -/
structure History where
  game : Game
  cells : List Point

def start (cfg : Config) (food : Point) : History where
  game := newGame cfg food
  cells := [⟨cfg.gameSize.width.tdiv 2, cfg.gameSize.height.tdiv 2 + 1⟩,
    ⟨cfg.gameSize.width.tdiv 2, cfg.gameSize.height.tdiv 2⟩]

/-- A round of a game that is not over. -/
def step (cfg : Config) (fuel : Nat) (i : Input) (h : History) : Option History :=
  if h.game.snake.dead then none
  else
    match round cfg fuel i h.game with
    | .ok g => some ⟨g, slither i h.game h.cells⟩
    | .error _ => none

/-- The last `length` entries of the ring are these cells. -/
structure Occupies (s : Snake) (cells : List Point) : Prop where
  length : s.length = cells.length
  recent : Recent MAX_LENGTH s.body s.index cells

/-- The ring holds the snake, and no round accesses a place that it has not. -/
def Sound (cfg : Config) (fuel : Nat) (h : History) : Prop :=
  Occupies h.game.snake h.cells ∧
    (h.game.snake.dead = false → ∀ i, ∃ g, round cfg fuel i h.game = .ok g)

/-- The snake does not eat when it is as long as the ring. -/
def Room (i : Input) (h : History) : Prop :=
  h.game.snake.dead = false → nextHead i h.game = h.game.food → h.game.snake.length ≠ MAX_LENGTH

instance (i : Input) (h : History) : Decidable (Room i h) := inferInstanceAs (Decidable (_ → _ → _))

variable {s : Snake} {cells : List Point}

theorem get_of_mem {j : Int} (hlow : 0 ≤ j) (hhigh : j < MAX_LENGTH) :
    s.get j = .ok (s.body j) := if_pos ⟨hlow, hhigh⟩

theorem get_back (hr : Recent MAX_LENGTH s.body s.index cells) {k : Int} (hk : 0 ≤ k)
    (hmax : k ≤ MAX_LENGTH) :
    s.get (if s.index - k < 0 then s.index - k + MAX_LENGTH else s.index - k) =
      .ok (s.body ((s.index - k) % MAX_LENGTH)) := by
  rw [← back hr.index_nonneg hr.index_lt hk hmax]
  exact get_of_mem (Int.emod_nonneg _ (by decide)) (Int.emod_lt_of_pos _ (by decide))

theorem moveSnake_ok (hr : Recent MAX_LENGTH s.body s.index cells) (dir : Dir) :
    moveSnake s dir = .ok { s with
      index := (s.index + 1) % MAX_LENGTH
      body := Function.update s.body ((s.index + 1) % MAX_LENGTH)
        (dir.advance (s.body s.index)) } := by
  rw [moveSnake, get_of_mem hr.index_nonneg hr.index_lt, next hr.index_nonneg hr.index_lt]
  refine if_pos ?_
  have hlow := hr.index_nonneg
  have hhigh := hr.index_lt
  split <;> omega

theorem isDeadLoop_ok {head : Point} (hlen : s.length = cells.length)
    (hmax : cells.length ≤ MAX_LENGTH) (hr : Recent MAX_LENGTH s.body s.index cells) {i : Nat}
    (hi : i ≤ cells.length) {fuel : Nat} (hfuel : cells.length - i < fuel) :
    isDeadLoop s head fuel i = .ok (decide (head ∈ cells.drop i)) := by
  induction fuel generalizing i with
  | zero => cases hfuel
  | succ fuel ih =>
    rw [isDeadLoop, hlen]
    rcases Nat.lt_or_ge i cells.length with hlt | hge
    · have hne : (i : Int) ≠ cells.length := by omega
      rw [if_pos hne]
      show (s.get _ >>= _) = _
      rw [get_back hr (by omega) (by omega), hr.entry i hlt, List.drop_eq_getElem_cons hlt]
      show (if _ then _ else _) = _
      by_cases heq : head = cells[i]
      · rw [if_pos ⟨congrArg Point.x heq, congrArg Point.y heq⟩, decide_eq_true]
        · rfl
        · rw [heq]
          exact List.mem_cons_self ..
      · rw [if_neg fun h => heq (Point.ext h.1 h.2)]
        have hrest := ih (i := i + 1) (by omega) (by omega)
        rw [Int.natCast_add, Int.natCast_one] at hrest
        rw [hrest]
        exact congrArg _ (decide_eq_decide.mpr (List.mem_cons.trans (or_iff_right heq)).symm)
    · have heq : (i : Int) = cells.length := by omega
      rw [if_neg (not_not_intro heq), List.drop_eq_nil_of_le hge]
      rfl

/-- The head has left the board, or is on a cell of its own. -/
def Crashed (gameSize : Dim) (head : Point) (body : List Point) : Prop :=
  (head.x = -1 ∨ head.x = gameSize.width ∨ head.y = -1 ∨ head.y = gameSize.height) ∨ head ∈ body

instance (gameSize : Dim) (head : Point) (body : List Point) :
    Decidable (Crashed gameSize head body) := inferInstanceAs (Decidable (_ ∨ _))

theorem isDead_ok {head : Point} (hlen : s.length = (head :: cells).length)
    (hmax : (head :: cells).length ≤ MAX_LENGTH)
    (hr : Recent MAX_LENGTH s.body s.index (head :: cells)) (gameSize : Dim) {fuel : Nat}
    (hfuel : MAX_LENGTH ≤ fuel) :
    isDead s gameSize fuel = .ok (decide (Crashed gameSize head cells)) := by
  have hlong : (head :: cells).length - 1 < fuel := by
    rw [List.length_cons] at hmax ⊢
    omega
  have hloop : isDeadLoop s head fuel (1 : Nat) = .ok (decide (head ∈ cells)) :=
    isDeadLoop_ok hlen hmax hr (Nat.succ_pos _) hlong
  rw [isDead, get_of_mem hr.index_nonneg hr.index_lt, hr.head]
  show (if _ then _ else _) = _
  rw [Int.natCast_one] at hloop
  rw [hloop]
  unfold Crashed
  split_ifs with hleft hright htop hbottom
  case neg => exact congrArg _ (decide_eq_decide.mpr (by simp [hleft, hright, htop, hbottom]))
  all_goals exact congrArg _ (decide_eq_true (by simp [*])).symm

theorem hasFood_ok (hr : Recent MAX_LENGTH s.body s.index cells) (food : Point) :
    hasFood s food = .ok (decide (s.body s.index = food)) := by
  rw [hasFood, get_of_mem hr.index_nonneg hr.index_lt]
  exact congrArg _ (decide_eq_decide.mpr Point.ext_iff.symm)

variable {cfg : Config} {fuel : Nat} {i : Input} {g : Game}

/-- The snake after it has moved, before it has eaten. -/
def moved (cfg : Config) (i : Input) (g : Game) (cells : List Point) : Snake where
  body := Function.update g.snake.body ((g.snake.index + 1) % MAX_LENGTH) (nextHead i g)
  length := g.snake.length
  index := (g.snake.index + 1) % MAX_LENGTH
  dead := decide (Crashed cfg.gameSize (nextHead i g) cells.dropLast)

theorem recent_moved (cfg : Config) (i : Input) (ho : Occupies g.snake cells) (hne : cells ≠ [])
    (hmax : cells.length ≤ MAX_LENGTH) :
    Recent MAX_LENGTH (moved cfg i g cells).body (moved cfg i g cells).index
      (nextHead i g :: cells.dropLast) := by
  have hpos := List.length_pos_of_ne_nil hne
  refine ho.recent.dropLast.push ?_ _
  rw [List.length_dropLast]
  omega

theorem round_ok (cfg : Config) (i : Input) (ho : Occupies g.snake cells) (hne : cells ≠ [])
    (hmax : cells.length ≤ MAX_LENGTH) (hfuel : MAX_LENGTH ≤ fuel) :
    ∃ tiles, round cfg fuel i g = .ok
      (if nextHead i g = g.food then
        ⟨{ moved cfg i g cells with length := g.snake.length + 1 },
          turn g.dir (getDir i.key), i.food, tiles⟩
      else ⟨moved cfg i g cells, turn g.dir (getDir i.key), g.food, tiles⟩) := by
  have hr := ho.recent
  have hm := recent_moved cfg i ho hne hmax
  have hlen : (nextHead i g :: cells.dropLast).length = cells.length := by
    have hpos := List.length_pos_of_ne_nil hne
    rw [List.length_cons, List.length_dropLast]
    omega
  have hhead : printHead g.snake cfg.board =
      .ok (drawTile cfg.board (g.snake.body g.snake.index) 0x00ff0000) := by
    rw [printHead, get_of_mem hr.index_nonneg hr.index_lt]
    rfl
  have htail : clearTail g.snake cfg.board =
      .ok (drawTile cfg.board
        (g.snake.body ((g.snake.index - g.snake.length) % MAX_LENGTH)) 0) := by
    have hlow : 0 ≤ g.snake.length := by
      have := ho.length
      omega
    have hhigh : g.snake.length ≤ MAX_LENGTH := by
      have := ho.length
      omega
    show (g.snake.get _ >>= _) = _
    rw [get_back hr hlow hhigh]
    rfl
  have hmove : moveSnake g.snake (turn g.dir (getDir i.key)) =
      .ok { moved cfg i g cells with dead := g.snake.dead } := moveSnake_ok hr _
  have hdead : isDead { moved cfg i g cells with dead := g.snake.dead } cfg.gameSize fuel =
      .ok (moved cfg i g cells).dead := by
    refine isDead_ok (s := { moved cfg i g cells with dead := g.snake.dead }) ?_
      (hlen.trans_le hmax) hm _ hfuel
    rw [hlen]
    exact ho.length
  have hfood : hasFood (moved cfg i g cells) g.food = .ok (decide (nextHead i g = g.food)) := by
    rw [hasFood_ok hm, hm.head]
  rw [round, hhead, htail]
  show ∃ tiles, (moveSnake _ _ >>= _) = _
  rw [hmove]
  show ∃ tiles, (isDead _ _ _ >>= _) = _
  rw [hdead]
  show ∃ tiles, (hasFood (moved cfg i g cells) g.food >>= _) = _
  rw [hfood]
  by_cases heat : nextHead i g = g.food
  · simp only [if_pos heat, decide_eq_true heat]
    exact ⟨_, rfl⟩
  · simp only [if_neg heat, decide_eq_false heat]
    exact ⟨_, rfl⟩

/-- What holds in every game in which the ring is long enough. -/
structure Inv (h : History) : Prop where
  occupies : Occupies h.game.snake h.cells
  long : h.cells ≠ []
  fits : h.cells.length ≤ MAX_LENGTH

theorem inv_start (cfg : Config) (food : Point) : Inv (start cfg food) where
  occupies := by
    refine ⟨rfl, ⟨Int.one_nonneg, (by decide : (1 : Int) < MAX_LENGTH), fun k hk => ?_⟩⟩
    match k, hk with
    | 0, _ => rfl
    | 1, _ => rfl
  long := List.cons_ne_nil _ _
  fits := by
    show 2 ≤ MAX_LENGTH
    decide

variable {h t : History}

theorem Inv.sound (hi : Inv h) (hfuel : MAX_LENGTH ≤ fuel) : Sound cfg fuel h := by
  refine ⟨hi.occupies, fun _ i => ?_⟩
  obtain ⟨tiles, hround⟩ := round_ok cfg i hi.occupies hi.long hi.fits hfuel
  exact ⟨_, hround⟩

theorem Inv.step_eq (hi : Inv h) (cfg : Config) (i : Input) (hfuel : MAX_LENGTH ≤ fuel)
    (hlive : h.game.snake.dead = false) :
    ∃ tiles, step cfg fuel i h = some ⟨
      if nextHead i h.game = h.game.food then
        ⟨{ moved cfg i h.game h.cells with length := h.game.snake.length + 1 },
          turn h.game.dir (getDir i.key), i.food, tiles⟩
      else ⟨moved cfg i h.game h.cells, turn h.game.dir (getDir i.key), h.game.food, tiles⟩,
      slither i h.game h.cells⟩ := by
  obtain ⟨tiles, hround⟩ := round_ok cfg i hi.occupies hi.long hi.fits hfuel
  refine ⟨tiles, ?_⟩
  rw [step, hlive, hround]
  rfl

theorem live_of_step (ht : step cfg fuel i h = some t) : h.game.snake.dead = false := by
  rw [← Bool.not_eq_true]
  intro hdead
  rw [step, if_pos hdead] at ht
  cases ht

theorem Inv.step (hi : Inv h) (hfuel : MAX_LENGTH ≤ fuel) (hroom : Room i h)
    (ht : step cfg fuel i h = some t) : Inv t := by
  have hlive := live_of_step ht
  obtain ⟨tiles, hstep⟩ := hi.step_eq cfg i hfuel hlive
  obtain rfl := Option.some.inj (hstep.symm.trans ht)
  have hlen := hi.occupies.length
  have hfits := hi.fits
  have hpos := List.length_pos_of_ne_nil hi.long
  by_cases heat : nextHead i h.game = h.game.food
  · have hshort : h.cells.length < MAX_LENGTH := by
      have hfull := hroom hlive heat
      omega
    simp only [slither, if_pos heat]
    refine ⟨⟨?_, hi.occupies.recent.push hshort _⟩, List.cons_ne_nil _ _, hshort⟩
    show h.game.snake.length + 1 = _
    rw [hlen, List.length_cons, Int.natCast_succ]
  · have hsame : (nextHead i h.game :: h.cells.dropLast).length = h.cells.length := by
      rw [List.length_cons, List.length_dropLast]
      omega
    simp only [slither, if_neg heat]
    refine ⟨⟨?_, recent_moved cfg i hi.occupies hi.long hfits⟩, List.cons_ne_nil _ _,
      hsame.trans_le hfits⟩
    rw [hsame]
    exact hlen

/-- In every game in which the snake does not eat when it is as long as the ring, the ring holds
the snake, and every place that is accessed is one of the ring's. -/
theorem ring_sound (hfuel : MAX_LENGTH ≤ fuel) (screen : Dim) (food : Point) {inputs : List Input}
    (hroom : Along (step (config screen) fuel) Room inputs (start (config screen) food))
    (ht : play (step (config screen) fuel) inputs (start (config screen) food) = some t) :
    Sound (config screen) fuel t := by
  refine Inv.sound (play_invariant (fun i s u hi hok hu => ?_) ht hroom (inv_start _ food)) hfuel
  exact hi.step hfuel hok hu

/-- On the smallest screen, a snake that eats, turns up, and eats again. -/
theorem up_sound : ∃ t, play (step (config ⟨8, 8⟩) 100) [⟨0, ⟨4, 3⟩⟩, ⟨73, ⟨1, 2⟩⟩]
    (start (config ⟨8, 8⟩) ⟨4, 4⟩) = some t ∧ Sound (config ⟨8, 8⟩) 100 t := by
  have hroom : Along (step (config ⟨8, 8⟩) 100) Room [⟨0, ⟨4, 3⟩⟩, ⟨73, ⟨1, 2⟩⟩]
      (start (config ⟨8, 8⟩) ⟨4, 4⟩) := by decide
  exact ⟨_, rfl, ring_sound le_rfl _ _ hroom rfl⟩

/-- A cell of the board. -/
def Inside (gameSize : Dim) (p : Point) : Prop :=
  (0 ≤ p.x ∧ p.x < gameSize.width) ∧ 0 ≤ p.y ∧ p.y < gameSize.height

/-- While the game goes on, the cells before the tail are different cells of the board. The tail may
be where the head is, which has eaten there. -/
structure OnBoard (gameSize : Dim) (h : History) : Prop where
  two : 2 ≤ h.cells.length
  inside : ∀ p ∈ h.cells.dropLast, Inside gameSize p
  nodup : h.cells.dropLast.Nodup

theorem OnBoard.length_le {gameSize : Dim} (hb : OnBoard gameSize h) :
    h.cells.length ≤ gameSize.width.toNat * gameSize.height.toNat + 1 := by
  have hcells : h.cells.dropLast.toFinset.card ≤
      (Finset.Ico 0 gameSize.width ×ˢ Finset.Ico 0 gameSize.height).card := by
    refine Finset.card_le_card_of_injOn (fun p => (p.x, p.y)) (fun p hp => ?_) ?_
    · have hin := hb.inside p (List.mem_toFinset.mp hp)
      rw [Finset.mem_coe, Finset.mem_product, Finset.mem_Ico, Finset.mem_Ico]
      exact hin
    · intro p _ q _ heq
      exact Point.ext (Prod.mk.inj heq).1 (Prod.mk.inj heq).2
  rw [List.toFinset_card_of_nodup hb.nodup, List.length_dropLast, Finset.card_product, Int.card_Ico,
    Int.card_Ico, Int.sub_zero, Int.sub_zero] at hcells
  omega

theorem onBoard_start {screen : Dim} (hw : 8 ≤ screen.width) (hh : 8 ≤ screen.height)
    (food : Point) : OnBoard (config screen).gameSize (start (config screen) food) where
  two := le_rfl
  inside := by
    intro p hp
    cases List.mem_singleton.mp hp
    show (0 ≤ (screen.width - 2).tdiv 2 ∧ (screen.width - 2).tdiv 2 < screen.width - 2) ∧
      0 ≤ (screen.height - 2).tdiv 2 + 1 ∧ (screen.height - 2).tdiv 2 + 1 < screen.height - 2
    rw [Int.tdiv_eq_ediv_of_nonneg (by omega), Int.tdiv_eq_ediv_of_nonneg (by omega)]
    omega
  nodup := List.nodup_singleton _

theorem inside_advance {gameSize : Dim} {p : Point} {body : List Point} (hp : Inside gameSize p)
    (dir : Dir) (hfree : ¬Crashed gameSize (dir.advance p) body) :
    Inside gameSize (dir.advance p) := by
  obtain ⟨hout, -⟩ := not_or.mp hfree
  unfold Inside at hp ⊢
  cases dir <;> simp only [Dir.advance] at hout ⊢ <;> omega

theorem OnBoard.step (hb : OnBoard cfg.gameSize h) (hi : Inv h) (hfuel : MAX_LENGTH ≤ fuel)
    (ht : step cfg fuel i h = some t) (htlive : t.game.snake.dead = false) :
    OnBoard cfg.gameSize t := by
  obtain ⟨tiles, hstep⟩ := hi.step_eq cfg i hfuel (live_of_step ht)
  obtain rfl := Option.some.inj (hstep.symm.trans ht)
  have hfree : ¬Crashed cfg.gameSize (nextHead i h.game) h.cells.dropLast := by
    refine of_decide_eq_false (Eq.trans ?_ htlive)
    simp only
    split <;> rfl
  obtain ⟨p, l, hcells⟩ := List.exists_cons_of_ne_nil hi.long
  have hhead : h.game.snake.body h.game.snake.index = p := (hcells ▸ hi.occupies.recent).head
  have hlong := hb.two
  have hmem : p ∈ h.cells.dropLast := by
    rw [hcells] at hlong ⊢
    rw [List.dropLast_cons_of_ne_nil (List.ne_nil_of_length_pos (Nat.succ_le_succ_iff.mp hlong))]
    exact List.mem_cons_self ..
  have hnext : Inside cfg.gameSize (nextHead i h.game) := by
    rw [nextHead, hhead] at hfree ⊢
    exact inside_advance (hb.inside p hmem) _ hfree
  have hsub : (slither i h.game h.cells).dropLast.Sublist
      (nextHead i h.game :: h.cells.dropLast) := by
    rw [slither]
    split
    · rw [List.dropLast_cons_of_ne_nil hi.long]
    · exact List.dropLast_sublist _
  have hall : (nextHead i h.game :: h.cells.dropLast).Nodup :=
    List.nodup_cons.mpr ⟨(not_or.mp hfree).2, hb.nodup⟩
  refine ⟨?_, fun q hq => ?_, hall.sublist hsub⟩
  · show 2 ≤ (slither i h.game h.cells).length
    rw [slither]
    split
    · rw [List.length_cons]
      omega
    · rw [List.length_cons, List.length_dropLast]
      omega
  · rcases List.mem_cons.mp (hsub.mem hq) with rfl | hold
    · exact hnext
    · exact hb.inside q hold

/-- On a board of fewer than 99 cells, every game is sound, whatever the keys are and wherever the
food is put. -/
theorem ring_sound_of_small (hfuel : MAX_LENGTH ≤ fuel) {screen : Dim} (hw : 8 ≤ screen.width)
    (hh : 8 ≤ screen.height) (hsmall : (screen.width - 2) * (screen.height - 2) < 99)
    (food : Point) {inputs : List Input}
    (ht : play (step (config screen) fuel) inputs (start (config screen) food) = some t) :
    Sound (config screen) fuel t := by
  have hcells : (screen.width - 2).toNat * (screen.height - 2).toNat < 99 := by
    zify
    rw [Int.toNat_of_nonneg (by omega), Int.toNat_of_nonneg (by omega)]
    exact hsmall
  have hroom : ∀ i : Input, ∀ s : History,
      (s.game.snake.dead = false → OnBoard (config screen).gameSize s) → Inv s → Room i s := by
    intro i s hb hi hlive _ hfull
    have hle := (hb hlive).length_le
    rw [hi.occupies.length] at hfull
    change (s.cells.length : Int) = 100 at hfull
    change s.cells.length ≤ (screen.width - 2).toNat * (screen.height - 2).toNat + 1 at hle
    omega
  refine Inv.sound ?_ hfuel
  refine (play_invariant_all (p := fun s => Inv s ∧
    (s.game.snake.dead = false → OnBoard (config screen).gameSize s)) ?_ ht
    ⟨inv_start _ food, fun _ => onBoard_start hw hh food⟩).1
  rintro i s u ⟨hi, hb⟩ hu
  exact ⟨hi.step hfuel (hroom i s hb hi) hu, (hb (live_of_step hu)).step hi hfuel hu⟩

/-! A game that the ring is too short for: on a wide screen the food lies ahead every time. -/

/-- No key, and the food that follows the `k`-th one. -/
def ahead (k : Nat) : Input := ⟨0, ⟨121 + k, 67⟩⟩

/-- The snake that has eaten `k` times. -/
def line : Nat → List Point
  | 0 => [⟨119, 67⟩, ⟨119, 66⟩]
  | k + 1 => ⟨120 + k, 67⟩ :: line k

theorem line_head (k : Nat) : ∃ l, line k = ⟨119 + k, 67⟩ :: l := by
  cases k with
  | zero => exact ⟨_, rfl⟩
  | succ k =>
    refine ⟨line k, ?_⟩
    rw [line, Int.natCast_succ, add_comm (k : Int), ← add_assoc]
    rfl

theorem line_behind {k : Nat} {p : Point} (hp : p ∈ line k) : p.x ≤ 119 + k := by
  induction k with
  | zero =>
    rcases List.mem_pair.mp hp with rfl | rfl <;> decide
  | succ k ih =>
    rcases List.mem_cons.mp hp with rfl | hp
    · simp only
      omega
    · have := ih hp
      omega

/-- The game after `k` rounds. -/
structure Straight (k : Nat) (h : History) : Prop where
  cells : h.cells = line k
  length : h.game.snake.length = 2 + k
  index : h.game.snake.index = (1 + k) % MAX_LENGTH
  live : h.game.snake.dead = false
  dir : h.game.dir = .right
  food : h.game.food = ⟨120 + k, 67⟩

theorem Straight.step {k : Nat} (hs : Straight k h) (hi : Inv h) (hk : k ≤ 98) :
    ∃ t, step (config ⟨240, 135⟩) 100 (ahead k) h = some t ∧ Straight (k + 1) t := by
  obtain ⟨tiles, hstep⟩ := hi.step_eq (config ⟨240, 135⟩) (ahead k) le_rfl hs.live
  obtain ⟨l, hl⟩ := line_head k
  have hbody : h.game.snake.body h.game.snake.index = ⟨119 + k, 67⟩ :=
    (hl ▸ hs.cells ▸ hi.occupies.recent).head
  have hnext : nextHead (ahead k) h.game = ⟨120 + k, 67⟩ := by
    rw [nextHead, hs.dir, hbody]
    show (⟨119 + k + 1, 67⟩ : Point) = _
    congr 1
    omega
  have heat : nextHead (ahead k) h.game = h.game.food := hnext.trans hs.food.symm
  have hfree : ¬Crashed (config ⟨240, 135⟩).gameSize (nextHead (ahead k) h.game)
      h.cells.dropLast := by
    rw [hnext]
    rintro ((hleft | hright | htop | hbottom) | hmem)
    · simp only at hleft
      omega
    · change 120 + (k : Int) = 238 at hright
      omega
    · cases htop
    · cases hbottom
    · have := line_behind (hs.cells ▸ List.mem_of_mem_dropLast hmem)
      simp only at this
      omega
  rw [if_pos heat] at hstep
  refine ⟨_, hstep, ?_⟩
  constructor
  case cells =>
    show slither _ _ _ = _
    rw [slither, if_pos heat, hnext, hs.cells]
    rfl
  case length =>
    show h.game.snake.length + 1 = _
    rw [hs.length]
    omega
  case index =>
    show (h.game.snake.index + 1) % (MAX_LENGTH : Int) = _
    have hnat : ((k + 1 : Nat) : Int) = k + 1 := Int.natCast_succ k
    rw [hs.index, Int.emod_add_emod, hnat, add_assoc]
  case live => exact decide_eq_false hfree
  case dir =>
    show turn h.game.dir .none = _
    rw [hs.dir]
    rfl
  case food =>
    show (⟨121 + k, 67⟩ : Point) = _
    congr 1
    omega

theorem straight_run {k : Nat} (hk : k ≤ 98) :
    ∃ t, play (step (config ⟨240, 135⟩) 100) ((List.range k).map ahead)
        (start (config ⟨240, 135⟩) ⟨120, 67⟩) = some t ∧ Straight k t ∧ Inv t := by
  induction k with
  | zero => exact ⟨_, rfl, ⟨rfl, rfl, rfl, rfl, rfl, rfl⟩, inv_start _ _⟩
  | succ k ih =>
    obtain ⟨t, ht, hs, hi⟩ := ih (by omega)
    obtain ⟨u, hu, hsu⟩ := hs.step hi (by omega)
    have hroom : Room (ahead k) t := by
      intro _ _ hfull
      rw [hs.length] at hfull
      change 2 + (k : Int) = 100 at hfull
      omega
    refine ⟨u, ?_, hsu, hi.step le_rfl hroom hu⟩
    rw [List.range_succ, List.map_append, play_append, ht]
    exact (play_singleton _ _).trans hu

/-- A screen of 1920 by 1080 pixels, and food ahead 99 times: the game goes on, and whatever the
next key is, the place in front of the ring is accessed. -/
theorem straight_not_sound : ∃ t,
    play (step (config ⟨240, 135⟩) 100) ((List.range 99).map ahead)
      (start (config ⟨240, 135⟩) ⟨120, 67⟩) = some t ∧
    t.game.snake.dead = false ∧ (∀ i, round (config ⟨240, 135⟩) 100 i t.game = .error .outside) ∧
    ¬Sound (config ⟨240, 135⟩) 100 t := by
  obtain ⟨t, ht, hs, hi⟩ := straight_run le_rfl
  obtain ⟨u, hu, hsu⟩ := hs.step hi le_rfl
  have hplay : play (step (config ⟨240, 135⟩) 100) ((List.range 99).map ahead)
      (start (config ⟨240, 135⟩) ⟨120, 67⟩) = some u := by
    rw [List.range_succ, List.map_append, play_append, ht]
    exact (play_singleton _ _).trans hu
  have hindex : u.game.snake.index = 0 := hsu.index
  have hlength : u.game.snake.length = 101 := hsu.length
  have hround : ∀ i, round (config ⟨240, 135⟩) 100 i u.game = .error .outside := by
    intro i
    have hhead : u.game.snake.get 0 = .ok (u.game.snake.body 0) := if_pos (by decide)
    have htail : clearTail u.game.snake (config ⟨240, 135⟩).board = .error .outside := by
      rw [clearTail, hindex, hlength]
      rfl
    rw [round, printHead, hindex, hhead, htail]
    rfl
  refine ⟨u, hplay, hsu.live, hround, fun hsound => ?_⟩
  obtain ⟨g, hg⟩ := hsound.2 hsu.live (ahead 99)
  rw [hround] at hg
  cases hg

end Riscv32Cpu.Kernels.SnakeGame
