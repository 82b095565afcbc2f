import ChipEight.Screen

/-!
# Drawing pixel by pixel

A `FrameBuffer` holds one byte for every pixel: 1 if it is lit, 0 if not. `FrameBuffer.draw` puts a
sprite on it one bit after the other and takes nothing for granted: a sum has to fit into its type,
a difference must not be negative, an index has to be in range, or there is no result. On the bytes
of a screen there always is one, and it is made of the bytes of the screen with the sprite drawn
(`draw_cells`).

A step of drawing is described by the pixels that it turns over (`Draws`), and steps whose pixels do
not overlap add up (`Draws.bind`).
-/

namespace ChipEight

/-- A number, if it is below a limit. -/
def fits? (limit n : Nat) : Option Nat := if n < limit then some n else none

/-- A difference, if it is not negative. -/
def minus? (a b : Nat) : Option Nat := if b ≤ a then some (a - b) else none

theorem fits?_of_lt {limit n : Nat} (h : n < limit) : fits? limit n = some n := if_pos h

theorem minus?_of_le {a b : Nat} (h : b ≤ a) : minus? a b = some (a - b) := if_pos h

/-- A picture with one byte a pixel, by row and column. -/
abbrev FrameBuffer := Vector (Vector UInt8 screenWidth) screenHeight

/-- The byte of a pixel. -/
def cell (lit : Bool) : UInt8 := if lit then 1 else 0

theorem or_and_cell (a b c : Bool) : cell a ||| (cell b &&& cell c) = cell (a || (b && c)) := by
  cases a <;> cases b <;> cases c <;> rfl

theorem xor_cell (a b : Bool) : cell a ^^^ cell b = cell (a ^^ b) := by
  cases a <;> cases b <;> rfl

theorem getMsbD_eq_testBit (byte : UInt8) {bit : Nat} (h : bit < 8) :
    byte.toBitVec.getMsbD bit = byte.toNat.testBit (7 - bit) := by
  have h7 : 8 - 1 - bit = 7 - bit := by omega
  rw [BitVec.getMsbD_eq_getLsbD, decide_eq_true h, Bool.true_and, h7]
  rfl

theorem shiftRight_and_one (byte : UInt8) {bit : Nat} (h : bit < 8) :
    (byte >>> UInt8.ofNat (7 - bit)) &&& 1 = cell (byte.toBitVec.getMsbD bit) := by
  have hshift : (UInt8.ofNat (7 - bit)).toNat % 8 = 7 - bit := by
    rw [UInt8.toNat_ofNat']
    omega
  have hbit : byte.toBitVec.getMsbD bit = decide (byte.toNat / 2 ^ (7 - bit) % 2 = 1) := by
    rw [getMsbD_eq_testBit byte h, Nat.testBit_eq_decide_div_mod_eq]
  apply UInt8.toNat_inj.mp
  rw [UInt8.toNat_and, UInt8.toNat_shiftRight, hshift, Nat.shiftRight_eq_div_pow, hbit]
  show byte.toNat / 2 ^ (7 - bit) &&& 1 = _
  rw [Nat.and_one_is_mod]
  rcases Nat.mod_two_eq_zero_or_one (byte.toNat / 2 ^ (7 - bit)) with h2 | h2 <;> rw [h2] <;> rfl

namespace Screen

/-- The screen whose lit pixels a predicate tells. -/
def ofPixels (f : Fin screenHeight → Fin screenWidth → Bool) : Screen :=
  Vector.ofFn fun y => (BitVec.ofBoolListBE (List.ofFn (f y))).cast List.length_ofFn

/-- The bytes of a screen. -/
def cells (s : Screen) : FrameBuffer := Vector.ofFn fun y => Vector.ofFn fun x => cell (s.pixel y x)

@[simp] theorem pixel_ofPixels (f : Fin screenHeight → Fin screenWidth → Bool)
    (y : Fin screenHeight) (x : Fin screenWidth) : (ofPixels f).pixel y x = f y x := by
  have hx : x.val < (List.ofFn (f y)).length := by rw [List.length_ofFn]; exact x.isLt
  show BitVec.getMsbD (ofPixels f)[y.val] x.val = f y x
  rw [ofPixels, Vector.getElem_ofFn, BitVec.getMsbD_cast, BitVec.getMsbD_ofBoolListBE,
    List.getD_eq_getElem?_getD, List.getElem?_eq_getElem hx, Option.getD_some, List.getElem_ofFn]

theorem getElem_cells (s : Screen) (y x : Nat) (hy : y < screenHeight) (hx : x < screenWidth) :
    s.cells[y][x] = cell (s.pixel ⟨y, hy⟩ ⟨x, hx⟩) := by
  simp [cells]

theorem overlaps_eq_false_iff {a b : Screen} :
    a.overlaps b = false ↔ ∀ y x, a.pixel y x = true → b.pixel y x = false := by
  rw [← Bool.not_eq_true, overlaps_iff]
  simp

theorem xor_blank (s : Screen) : s.xor blank = s :=
  ext_pixel fun y x => by rw [pixel_xor, pixel_blank, Bool.xor_false]

theorem overlaps_blank (s : Screen) : s.overlaps blank = false :=
  overlaps_eq_false_iff.mpr fun y x _ => pixel_blank y x

theorem xor_xor (s a b : Screen) : (s.xor a).xor b = s.xor (a.xor b) :=
  ext_pixel fun y x => by simp only [pixel_xor, Bool.xor_assoc]

theorem overlaps_xor (s : Screen) {a b : Screen} (hab : a.overlaps b = false) :
    s.overlaps (a.xor b) = (s.overlaps a || (s.xor a).overlaps b) := by
  rw [overlaps_eq_false_iff] at hab
  rw [Bool.eq_iff_iff, Bool.or_eq_true, overlaps_iff, overlaps_iff, overlaps_iff]
  simp only [pixel_xor]
  constructor
  · rintro ⟨y, x, hs, h⟩
    cases ha : a.pixel y x with
    | true => exact .inl ⟨y, x, hs, ha⟩
    | false => exact .inr ⟨y, x, by simp [hs, ha], by simpa [ha] using h⟩
  · rintro (⟨y, x, hs, ha⟩ | ⟨y, x, hs, hb⟩)
    · exact ⟨y, x, hs, by simp [ha, hab y x ha]⟩
    · cases ha : a.pixel y x with
      | true => simp [hab y x ha] at hb
      | false => exact ⟨y, x, by simpa [ha] using hs, by simp [ha, hb]⟩

/-- A screen with one pixel on it, or none. -/
def dot (py px : Nat) (lit : Bool) : Screen :=
  ofPixels fun y x => decide (y = py) && decide (x = px) && lit

theorem overlaps_dot (s : Screen) (py : Fin screenHeight) (px : Fin screenWidth) (lit : Bool) :
    s.overlaps (dot py px lit) = (lit && s.pixel py px) := by
  rw [Bool.eq_iff_iff, overlaps_iff, Bool.and_eq_true]
  constructor
  · rintro ⟨y, x, hs, hd⟩
    simp only [dot, pixel_ofPixels, Bool.and_eq_true, decide_eq_true_eq] at hd
    obtain ⟨⟨hy, hx⟩, hlit⟩ := hd
    rw [Fin.ext hy, Fin.ext hx] at hs
    exact ⟨hlit, hs⟩
  · rintro ⟨rfl, hs⟩
    exact ⟨py, px, hs, by simp [dot]⟩

/-- The pixels of a row of a sprite, in row `py`, from bit number `bit` on. -/
def bitsFrom (byte : UInt8) (py left bit : Nat) : Screen :=
  ofPixels fun y x =>
    decide (y = py) && (decide (left + bit ≤ x) && byte.toBitVec.getMsbD (x - left))

theorem bitsFrom_of_le {byte : UInt8} {py left bit : Nat}
    (h : screenWidth ≤ left + bit ∨ 8 ≤ bit) : bitsFrom byte py left bit = blank := by
  refine ext_pixel fun y x => ?_
  rw [bitsFrom, pixel_ofPixels, pixel_blank]
  by_cases hle : left + bit ≤ x.val
  · have h8 : 8 ≤ x.val - left := by omega
    rw [BitVec.getMsbD_of_ge _ _ h8, Bool.and_false, Bool.and_false]
  · rw [decide_eq_false hle, Bool.false_and, Bool.and_false]

theorem bitsFrom_succ (byte : UInt8) (py left bit : Nat) :
    bitsFrom byte py left bit =
      (dot py (left + bit) (byte.toBitVec.getMsbD bit)).xor (bitsFrom byte py left (bit + 1)) := by
  refine ext_pixel fun y x => ?_
  simp only [pixel_xor, bitsFrom, dot, pixel_ofPixels]
  by_cases hx : x.val = left + bit
  · have h1 : left + bit ≤ x.val := by omega
    have h2 : ¬left + (bit + 1) ≤ x.val := by omega
    have h3 : x.val - left = bit := by omega
    rw [decide_eq_true h1, decide_eq_false h2, decide_eq_true hx, h3]
    simp
  · have h1 : left + bit ≤ x.val ↔ left + (bit + 1) ≤ x.val := by omega
    simp [hx, h1]

theorem overlaps_dot_bitsFrom (byte : UInt8) (py left bit : Nat) (lit : Bool) :
    (dot py (left + bit) lit).overlaps (bitsFrom byte py left (bit + 1)) = false := by
  rw [overlaps_eq_false_iff]
  intro y x hd
  simp only [dot, bitsFrom, pixel_ofPixels, Bool.and_eq_true, decide_eq_true_eq] at hd ⊢
  have hle : ¬left + (bit + 1) ≤ x.val := by omega
  rw [decide_eq_false hle, Bool.false_and, Bool.and_false]

theorem sprite_of_le {left top : Nat} {bytes : List UInt8} (h : screenHeight ≤ top) :
    sprite left top bytes = blank := by
  refine ext_pixel fun y x => ?_
  have hy : ¬top ≤ y.val := by omega
  rw [pixel_sprite, pixel_blank, decide_eq_false hy, Bool.false_and]

theorem sprite_nil (left top : Nat) : sprite left top [] = blank :=
  ext_pixel fun y x => by rw [pixel_sprite, pixel_blank]; simp

theorem sprite_cons (left top : Nat) (byte : UInt8) (bytes : List UInt8) :
    sprite left top (byte :: bytes) =
      (bitsFrom byte top left 0).xor (sprite left (top + 1) bytes) := by
  refine ext_pixel fun y x => ?_
  rw [pixel_xor, pixel_sprite, pixel_sprite, bitsFrom, pixel_ofPixels]
  rcases Nat.lt_trichotomy y.val top with hy | hy | hy
  · have h1 : ¬top ≤ y.val := by omega
    have h2 : ¬top + 1 ≤ y.val := by omega
    have h3 : ¬y.val = top := by omega
    simp [h1, h2, h3]
  · have h2 : ¬top + 1 ≤ y.val := by omega
    rw [decide_eq_false h2]
    simp [hy]
  · have h1 : top ≤ y.val := by omega
    have h2 : top + 1 ≤ y.val := by omega
    have h3 : ¬y.val = top := by omega
    have h4 : y.val - top = y.val - (top + 1) + 1 := by omega
    simp [h1, h2, h3, h4]

theorem overlaps_bitsFrom_sprite (byte : UInt8) (left top : Nat) (bytes : List UInt8) :
    (bitsFrom byte top left 0).overlaps (sprite left (top + 1) bytes) = false := by
  rw [overlaps_eq_false_iff]
  intro y x hb
  simp only [bitsFrom, pixel_ofPixels, Bool.and_eq_true, decide_eq_true_eq] at hb
  have hy : ¬top + 1 ≤ y.val := by omega
  rw [pixel_sprite, decide_eq_false hy, Bool.false_and]

end Screen

namespace FrameBuffer

open Screen

/-- A frame buffer on which a sprite is being drawn, and whether a lit pixel was met so far. -/
structure Canvas where
  collision : UInt8
  frame : FrameBuffer

/-- Draws a bit of a sprite. -/
def plot (py px : Nat) (bit : UInt8) (c : Canvas) : Option Canvas := do
  let row ← c.frame[py]?
  let pixel ← row[px]?
  return {
    collision := c.collision ||| (bit &&& pixel)
    frame := c.frame.setIfInBounds py (row.setIfInBounds px (pixel ^^^ bit)) }

/-- Draws some bits of a row, by their numbers, as far as the right edge. -/
def drawBits (byte : UInt8) (py left : Nat) : List Nat → Canvas → Option Canvas
  | [], c => some c
  | bit :: bits, c => do
    let px ← fits? UInt64.size (left + bit)
    if screenWidth ≤ px then return c
    let shift ← minus? 7 bit
    drawBits byte py left bits (← plot py px ((byte >>> UInt8.ofNat shift) &&& 1) c)

/-- Draws the rows of a sprite from number `row` on, as far as the bottom edge. -/
def drawRows (left top : Nat) : Nat → List UInt8 → Canvas → Option Canvas
  | _, [], c => some c
  | row, byte :: bytes, c => do
    let py ← fits? UInt64.size (top + row)
    if screenHeight ≤ py then return c
    drawRows left top (row + 1) bytes (← drawBits byte py left (List.range 8) c)

/-- Draws a sprite. -/
def draw (frame : FrameBuffer) (left top : Nat) (bytes : List UInt8) : Option Canvas :=
  drawRows left top 0 bytes { collision := 0, frame }

/-- The screen that the bytes of a frame buffer stand for, if each of them is 0 or 1. -/
def screen? (frame : FrameBuffer) : Option Screen :=
  if ∀ y x, (frame.get y).get x = 0 ∨ (frame.get y).get x = 1 then
    some (ofPixels fun y x => (frame.get y).get x = 1)
  else none

theorem screen?_cells (s : Screen) : screen? s.cells = some s := by
  have hcell : ∀ y x, (s.cells.get y).get x = cell (s.pixel y x) :=
    fun y x => getElem_cells s y x y.isLt x.isLt
  unfold screen?
  rw [if_pos]
  · refine congrArg some (ext_pixel fun y x => ?_)
    rw [pixel_ofPixels, hcell]
    cases s.pixel y x <;> rfl
  · intro y x
    rw [hcell]
    cases s.pixel y x
    · exact .inl rfl
    · exact .inr rfl

/-! ### Steps of drawing -/

/-- The bytes of a screen, with the collision so far. -/
def canvas (hit : Bool) (s : Screen) : Canvas := ⟨cell hit, s.cells⟩

/-- A step of drawing turns over the lit pixels of a screen, and notices which of them were lit. -/
def Draws (step : Canvas → Option Canvas) (a : Screen) : Prop :=
  ∀ (hit : Bool) (s : Screen),
    step (canvas hit s) = some (canvas (hit || s.overlaps a) (s.xor a))

theorem draws_some : Draws some blank := by
  intro hit s
  rw [overlaps_blank, xor_blank, Bool.or_false]

theorem Draws.bind {step step' : Canvas → Option Canvas} {a b : Screen} (ha : Draws step a)
    (hb : Draws step' b) (hab : a.overlaps b = false) :
    Draws (fun c => (step c).bind step') (a.xor b) := by
  intro hit s
  show (step (canvas hit s)).bind step' = _
  rw [ha hit s, Option.bind_some, hb, xor_xor, overlaps_xor s hab, Bool.or_assoc]

theorem draws_plot (py : Fin screenHeight) (px : Fin screenWidth) (lit : Bool) :
    Draws (plot py px (cell lit)) (dot py px lit) := by
  intro hit s
  have hrow : s.cells[py.val]? = some s.cells[py] := Vector.getElem?_eq_getElem py.isLt
  have hpixel : s.cells[py][px.val]? = some (cell (s.pixel py px)) := by
    rw [Vector.getElem?_eq_getElem px.isLt]
    exact congrArg some (getElem_cells s py px py.isLt px.isLt)
  have hplot : plot py px (cell lit) (canvas hit s) = some {
      collision := cell hit ||| (cell lit &&& cell (s.pixel py px))
      frame := s.cells.setIfInBounds py
        (s.cells[py].setIfInBounds px (cell (s.pixel py px) ^^^ cell lit)) } := by
    show (s.cells[py.val]?).bind _ = _
    rw [hrow, Option.bind_some]
    show (s.cells[py][px.val]?).bind _ = _
    rw [hpixel]
    rfl
  rw [hplot, or_and_cell, xor_cell, overlaps_dot]
  refine congrArg some (congrArg (Canvas.mk _) ?_)
  apply Vector.ext
  intro y hy
  apply Vector.ext
  intro x hx
  rw [getElem_cells _ y x hy hx, pixel_xor, dot, pixel_ofPixels]
  by_cases hpy : py.val = y
  · subst hpy
    rw [Vector.getElem_setIfInBounds_self]
    by_cases hpx : px.val = x
    · subst hpx
      rw [Vector.getElem_setIfInBounds_self]
      simp
    · rw [Vector.getElem_setIfInBounds_ne hx hpx]
      have hne : ¬x = px.val := fun h => hpx h.symm
      simp [getElem_cells, hne]
  · rw [Vector.getElem_setIfInBounds_ne hy hpy, getElem_cells s y x hy hx]
    have hne : ¬y = py.val := fun h => hpy h.symm
    simp [hne]

theorem draws_bits (byte : UInt8) (py : Fin screenHeight) {left : Nat} (hleft : left < 256)
    {bit n : Nat} (h : bit + n = 8) :
    Draws (drawBits byte py left (List.range' bit n)) (bitsFrom byte py left bit) := by
  induction n generalizing bit with
  | zero =>
    have h8 : 8 ≤ bit := by omega
    rw [bitsFrom_of_le (.inr h8)]
    exact draws_some
  | succ n ih =>
    intro hit s
    have hpx : fits? UInt64.size (left + bit) = some (left + bit) := by
      apply fits?_of_lt
      rw [UInt64.size]
      omega
    have hshift : minus? 7 bit = some (7 - bit) := minus?_of_le (by omega)
    rw [List.range'_succ, drawBits, hpx]
    by_cases hedge : screenWidth ≤ left + bit
    · rw [bitsFrom_of_le (.inl hedge)]
      simp only [bind, Option.bind, if_pos hedge]
      exact draws_some hit s
    · rw [bitsFrom_succ]
      simp only [bind, Option.bind, if_neg hedge, hshift]
      rw [shiftRight_and_one byte (by omega)]
      exact (draws_plot py ⟨left + bit, Nat.lt_of_not_le hedge⟩ _).bind (ih (by omega))
        (overlaps_dot_bitsFrom byte py left bit _) hit s

theorem draws_rows {left top row : Nat} (hleft : left < 256) (bytes : List UInt8)
    (h : top + row + bytes.length < UInt64.size) :
    Draws (drawRows left top row bytes) (sprite left (top + row) bytes) := by
  induction bytes generalizing row with
  | nil =>
    rw [sprite_nil]
    exact draws_some
  | cons byte bytes ih =>
    intro hit s
    rw [List.length_cons] at h
    have hpy : fits? UInt64.size (top + row) = some (top + row) := fits?_of_lt (by omega)
    rw [drawRows, hpy]
    by_cases hedge : screenHeight ≤ top + row
    · rw [sprite_of_le hedge]
      simp only [bind, Option.bind, if_pos hedge]
      exact draws_some hit s
    · have hbits : Draws (drawBits byte (top + row) left (List.range 8))
          (bitsFrom byte (top + row) left 0) := by
        rw [List.range_eq_range']
        exact draws_bits byte ⟨top + row, Nat.lt_of_not_le hedge⟩ hleft (Nat.zero_add 8)
      have hrows : Draws (drawRows left top (row + 1) bytes) (sprite left (top + row + 1) bytes) :=
        ih (by omega)
      have hall := hbits.bind hrows (overlaps_bitsFrom_sprite byte left _ bytes)
      rw [sprite_cons]
      simp only [bind, Option.bind_some, if_neg hedge]
      exact hall hit s

/-- Drawing on the bytes of a screen never gets stuck, and draws what `Screen.sprite` says. -/
theorem draw_cells (s : Screen) {left top : Nat} (hleft : left < 256) (htop : top < 256)
    {bytes : List UInt8} (h : bytes.length ≤ 16) :
    s.cells.draw left top bytes =
      some (canvas (s.overlaps (sprite left top bytes)) (s.xor (sprite left top bytes))) := by
  have hfit : top + 0 + bytes.length < UInt64.size := by
    rw [UInt64.size]
    omega
  have hrows : Draws (drawRows left top 0 bytes) (sprite left (top + 0) bytes) :=
    draws_rows hleft bytes hfit
  have hdraw := hrows false s
  rw [Nat.add_zero, Bool.false_or] at hdraw
  exact hdraw

end FrameBuffer

end ChipEight
