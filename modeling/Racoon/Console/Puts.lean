import Racoon.Lib.Run
import Racoon.Machine

/-!
# The console

`kernel/puts.c`. The text memory of the screen has two bytes for each of its cells, the
character and its attribute. The cursor is moved behind each character and brought back
onto the screen before the next one, so that it may stand one column or one row behind
the end, but never both. A byte that is stored outside the text memory is a fault.
-/

namespace Racoon.Console
open Lib

def SCREEN_ATTR : ℤ := 7
def WIDTH : ℤ := 80
def HEIGHT : ℤ := 25

abbrev Screen := ℤ → ℤ

/-- `s_x` and `s_y` with the screen, and the position that the controller of the screen holds. -/
structure State where
  screen : Screen
  x : ℤ
  y : ℤ
  register : BitVec 16

/-- `screen[ offset ] = v` -/
def store (screen : Screen) (offset v : ℤ) : Outcome Screen :=
  if 0 ≤ offset ∧ offset < HEIGHT * WIDTH * 2 then .ok (Function.update screen offset v)
  else .error .badAccess

/-- `kmemcpy( screen, screen + from, bytes )` -/
def moveDown (screen : Screen) (start bytes : ℤ) : Outcome Screen :=
  if 0 ≤ start ∧ start + bytes ≤ HEIGHT * WIDTH * 2 then
    .ok fun i => if 0 ≤ i ∧ i < bytes then screen (i + start) else screen i
  else .error .badAccess

/-- A character and the attribute behind it. -/
def storeCell (screen : Screen) (offset c : ℤ) : Outcome Screen := do
  let screen ← store screen offset c
  store screen (offset + 1) SCREEN_ATTR

/-- Blank cells from an offset on. -/
def blankFrom : ℕ → ℤ → Screen → Outcome Screen
  | 0, _, screen => .ok screen
  | left + 1, offset, screen => do
    let screen ← storeCell screen offset 32
    blankFrom left (offset + 2) screen

def getCursor (s : State) : State :=
  let x : ℤ := s.register.toNat % 80
  let y : ℤ := s.register.toNat / 80
  { s with
    x := if x < 0 ∨ WIDTH ≤ x then 0 else x
    y := if y < 0 ∨ HEIGHT ≤ y then 0 else y }

def setCursor (s : State) : State :=
  { s with register := BitVec.ofInt 16 (s.y * 80 + s.x) }

def scroll (screen : Screen) : Outcome Screen := do
  let screen ← moveDown screen (WIDTH * 2) ((HEIGHT - 1) * WIDTH * 2)
  blankFrom 80 ((HEIGHT - 1) * WIDTH * 2) screen

/-- The rows are blanked one after the other. -/
def clear (s : State) : Outcome State := do
  let screen ← blankFrom (25 * 80) 0 s.screen
  .ok (setCursor { s with screen := screen, x := 0, y := 0 })

def putc (screen : Screen) (x y c : ℤ) : Outcome Screen :=
  storeCell screen (y * WIDTH * 2 + x * 2) c

/-- A line that is full is left. -/
def wrap (x y : ℤ) : ℤ × ℤ := if WIDTH ≤ x then (0, y + 1) else (x, y)

/-- The row behind the last one is made the last one. -/
def scrollBack (screen : Screen) (y : ℤ) : Outcome (Screen × ℤ) :=
  if HEIGHT ≤ y then do
    let screen ← scroll screen
    .ok (screen, y - 1)
  else .ok (screen, y)

/-- A round of `puts_xy`. -/
def putsChar (screen : Screen) (x y c : ℤ) : Outcome (Screen × ℤ × ℤ) := do
  let (x, y) := wrap x y
  let (screen, y) ← scrollBack screen y
  if c = 10 then .ok (screen, 0, y + 1)
  else do
    let screen ← putc screen x y c
    .ok (screen, x + 1, y)

def putsXy (screen : Screen) (x y : ℤ) : List ℤ → Outcome (Screen × ℤ × ℤ)
  | [] => .ok (screen, x, y)
  | c :: s =>
    if c = 0 then .ok (screen, x, y)
    else do
      let (screen, x, y) ← putsChar screen x y c
      putsXy screen x y s

/-- The cursor that `puts` begins with. -/
def State.located (s : State) : State := if s.x < 0 ∨ s.y < 0 then getCursor s else s

def puts (s : State) (str : List ℤ) : Outcome State := do
  let s := s.located
  let (screen, x, y) ← putsXy s.screen s.x s.y str
  .ok (setCursor { s with screen := screen, x := x, y := y })

/-- Where the cursor can stand between two characters. -/
structure OnScreen (x y : ℤ) : Prop where
  left : 0 ≤ x
  right : x ≤ WIDTH
  top : 0 ≤ y
  bottom : y ≤ HEIGHT
  corner : y = HEIGHT → x = 0

/-- Any calls of `puts`, from a cursor that is not known yet, one that `get_cursor` has read, or a
cleared screen. -/
def consoleSystem : System State (List ℤ) Fault where
  Init s := s.x = -1 ∧ s.y = -1 ∨ (∃ s₀, s = getCursor s₀) ∨ ∃ s₀, clear s₀ = .ok s
  Guard _ _ := True
  step := puts

section Screens
variable {screen : Screen} {x y c : ℤ}

theorem storeCell_ok (screen : Screen) (h₀ : 0 ≤ c) (h : c + 2 ≤ HEIGHT * WIDTH * 2) (v : ℤ) :
    ∃ screen', storeCell screen c v = .ok screen' := by
  rw [storeCell, store, if_pos ⟨h₀, by omega⟩, ok_bind, store, if_pos ⟨by omega, by omega⟩]
  exact ⟨_, rfl⟩

theorem blankFrom_ok (screen : Screen) {left : ℕ} (h₀ : 0 ≤ c)
    (h : c + 2 * left ≤ HEIGHT * WIDTH * 2) :
    ∃ screen', blankFrom left c screen = .ok screen' := by
  induction left generalizing c screen with
  | zero => exact ⟨screen, rfl⟩
  | succ left ih =>
    push_cast at h
    obtain ⟨screen₁, h₁⟩ := storeCell_ok screen h₀ (by omega) 32
    rw [blankFrom, h₁, ok_bind]
    exact ih screen₁ (by omega) (by omega)

theorem scroll_ok (screen : Screen) : ∃ screen', scroll screen = .ok screen' := by
  rw [scroll, moveDown, if_pos (by decide), ok_bind]
  exact blankFrom_ok _ (by decide) (by decide)

theorem putc_ok (screen : Screen) (hx : 0 ≤ x) (hx' : x < WIDTH) (hy : 0 ≤ y) (hy' : y < HEIGHT)
    (c : ℤ) :
    ∃ screen', putc screen x y c = .ok screen' := by
  unfold WIDTH at *
  unfold HEIGHT at *
  exact storeCell_ok screen (by unfold WIDTH; omega) (by unfold HEIGHT WIDTH; omega) c

/-- The line left cannot be the one behind the screen, as the cursor is at its end. -/
theorem wrap_eq (h : OnScreen x y) : ∃ x' y', wrap x y = (x', y') ∧ 0 ≤ x' ∧ x' < WIDTH ∧
    0 ≤ y' ∧ y' ≤ HEIGHT := by
  obtain ⟨hx, hx', hy, hy', hcorner⟩ := h
  by_cases hfull : WIDTH ≤ x
  · refine ⟨0, y + 1, if_pos hfull, le_rfl, by decide, by omega, ?_⟩
    unfold WIDTH at *
    omega
  · exact ⟨x, y, if_neg hfull, hx, by omega, hy, hy'⟩

theorem scrollBack_ok (screen : Screen) (h₀ : 0 ≤ y) (h : y ≤ HEIGHT) :
    ∃ screen' y', scrollBack screen y = .ok (screen', y') ∧ 0 ≤ y' ∧ y' < HEIGHT := by
  by_cases hlow : HEIGHT ≤ y
  · obtain ⟨screen', hs⟩ := scroll_ok screen
    refine ⟨screen', y - 1, by rw [scrollBack, if_pos hlow, hs, ok_bind], ?_, by omega⟩
    unfold HEIGHT at *
    omega
  · exact ⟨screen, y, if_neg hlow, h₀, by omega⟩

/-- The cursor is on the screen when the character is put there. -/
theorem putsChar_ok (screen : Screen) (h : OnScreen x y) (c : ℤ) :
    ∃ screen' x' y', putsChar screen x y c = .ok (screen', x', y') ∧ OnScreen x' y' := by
  obtain ⟨x₁, y₁, hwrap, hx, hx', hy, hy'⟩ := wrap_eq h
  obtain ⟨screen₁, y₂, hscroll, hy₂, hy₂'⟩ := scrollBack_ok screen hy hy'
  rw [putsChar, hwrap]
  dsimp only
  rw [hscroll, ok_bind]
  by_cases hc : c = 10
  · exact ⟨screen₁, 0, y₂ + 1, if_pos hc, le_rfl, by decide, by omega, by omega, fun _ => rfl⟩
  · obtain ⟨screen₂, hputc⟩ := putc_ok screen₁ hx hx' hy₂ hy₂' c
    refine ⟨screen₂, x₁ + 1, y₂, ?_, by omega, by omega, hy₂, by omega, by omega⟩
    rw [if_neg hc, hputc, ok_bind]

theorem putsXy_ok (screen : Screen) (h : OnScreen x y) (s : List ℤ) :
    ∃ screen' x' y', putsXy screen x y s = .ok (screen', x', y') ∧ OnScreen x' y' := by
  induction s generalizing screen x y with
  | nil => exact ⟨screen, x, y, rfl, h⟩
  | cons c s ih =>
    rw [putsXy]
    by_cases hc : c = 0
    · exact ⟨screen, x, y, if_pos hc, h⟩
    · obtain ⟨screen₁, x₁, y₁, h₁, hon⟩ := putsChar_ok screen h c
      rw [if_neg hc, h₁, ok_bind]
      exact ih screen₁ hon

end Screens

section Calls
variable {s t : State}

theorem getCursor_onScreen (s : State) : OnScreen (getCursor s).x (getCursor s).y := by
  have hx : (0 : ℤ) ≤ s.register.toNat % 80 := by omega
  have hy : (0 : ℤ) ≤ s.register.toNat / 80 := by omega
  unfold getCursor
  dsimp only
  simp only [WIDTH, HEIGHT]
  constructor
  all_goals
    norm_num only [WIDTH, HEIGHT]
    split_ifs <;> omega

/-- The cursor is not known yet, or on the screen. -/
def Ready (s : State) : Prop := s.x = -1 ∧ s.y = -1 ∨ OnScreen s.x s.y

theorem Ready.located (h : Ready s) : OnScreen s.located.x s.located.y := by
  unfold State.located
  by_cases hneg : s.x < 0 ∨ s.y < 0
  · rw [if_pos hneg]
    exact getCursor_onScreen s
  · rw [if_neg hneg]
    rcases h with ⟨hx, -⟩ | h
    · omega
    · exact h

theorem Ready.puts (h : Ready s) (str : List ℤ) : ∃ t, puts s str = .ok t ∧ Ready t := by
  obtain ⟨screen, x, y, hrun, hon⟩ := putsXy_ok s.located.screen h.located str
  rw [Console.puts]
  dsimp only
  rw [hrun, ok_bind]
  exact ⟨_, rfl, .inr hon⟩

theorem ready_init (h : consoleSystem.Init s) : Ready s := by
  rcases h with h | ⟨s₀, rfl⟩ | ⟨s₀, h⟩
  · exact .inl h
  · exact .inr (getCursor_onScreen s₀)
  · obtain ⟨screen, -, h⟩ := bind_eq_ok.mp h
    cases h
    exact .inr ⟨le_rfl, show (0 : ℤ) ≤ WIDTH by decide, le_rfl, show (0 : ℤ) ≤ HEIGHT by decide,
      fun _ => rfl⟩

theorem ready_of_reach (h : consoleSystem.Reach s) : Ready s :=
  h.invariant (fun _ => ready_init) fun _ str hs _ => hs.puts str

/-- No call stores a byte outside the text memory, and the cursor is where it can stand after each
character. -/
theorem puts_stays_on_screen (h : consoleSystem.Reach s) (str : List ℤ) :
    (∃ t, puts s str = .ok t) ∧ ∀ n, ∃ screen x y,
      putsXy s.located.screen s.located.x s.located.y (str.take n) = .ok (screen, x, y) ∧
        OnScreen x y := by
  have hready := ready_of_reach h
  obtain ⟨t, ht, -⟩ := hready.puts str
  exact ⟨⟨t, ht⟩, fun n => putsXy_ok s.located.screen hready.located (str.take n)⟩

/-- The last column of the last row and a line behind it, from a cursor that was read. -/
theorem puts_stays_on_screen_corner :
    (∃ t, puts (getCursor ⟨fun _ => 0, -1, -1, 1999⟩) [65, 10, 66] = .ok t) ∧
      ∀ n, ∃ screen x y, putsXy (fun _ => 0) 79 24 ([65, 10, 66].take n) = .ok (screen, x, y) ∧
        OnScreen x y :=
  puts_stays_on_screen (.of_init (.inr (.inl ⟨⟨fun _ => 0, -1, -1, 1999⟩, rfl⟩))) [65, 10, 66]

end Calls

end Racoon.Console
