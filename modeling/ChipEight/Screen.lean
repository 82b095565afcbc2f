/-!
# The screen

32 rows of 64 pixels. A row is a word of 64 bits whose most significant bit is the leftmost pixel.
Drawing combines the screen with a `sprite`, a screen that is dark but for the sprite's own pixels:
pixels that would fall off the right or the bottom edge are not on it.
-/

namespace ChipEight

/-- Pixels of a row. -/
abbrev screenWidth : Nat := 64

/-- Rows of the screen. -/
abbrev screenHeight : Nat := 32

/-- The rows of a picture, from the top. -/
abbrev Screen := Vector (BitVec screenWidth) screenHeight

namespace Screen

/-- A screen with no pixel lit. -/
def blank : Screen := Vector.replicate screenHeight 0

/-- Whether the pixel in row `y` and column `x` is lit. -/
def pixel (s : Screen) (y : Fin screenHeight) (x : Fin screenWidth) : Bool := s[y].getMsbD x

/-- A row of a sprite, with its first pixel in column `left`. -/
def spriteRow (left : Nat) (byte : UInt8) : BitVec screenWidth :=
  ((byte.toBitVec.setWidth screenWidth) <<< 56) >>> left

/-- A dark screen with a sprite on it, one byte a row, with its corner in row `top` and column
`left`. -/
def sprite (left top : Nat) (bytes : List UInt8) : Screen :=
  Vector.ofFn fun y =>
    if top ≤ y then (bytes[y.val - top]?).elim 0 (spriteRow left) else 0

/-- The pixels lit on one of two screens and not on the other. -/
def xor (a b : Screen) : Screen := Vector.zipWith (· ^^^ ·) a b

/-- Whether some pixel is lit on both of two screens. -/
def overlaps (a b : Screen) : Bool := (Vector.zipWith (· &&& ·) a b).any (· != 0)

theorem pixel_blank (y : Fin screenHeight) (x : Fin screenWidth) : blank.pixel y x = false := by
  simp [pixel, blank]

theorem pixel_xor (a b : Screen) (y : Fin screenHeight) (x : Fin screenWidth) :
    (a.xor b).pixel y x = (a.pixel y x ^^ b.pixel y x) := by
  simp [pixel, xor]

/-- A row of a sprite lights the columns from `left` to `left + 7` as the bits of its byte say, the
most significant bit first. -/
theorem getMsbD_spriteRow (left : Nat) (byte : UInt8) (x : Fin screenWidth) :
    (spriteRow left byte).getMsbD x.val =
      (decide (left ≤ x) && byte.toBitVec.getMsbD (x - left)) := by
  have hx : x.val < 64 := x.isLt
  by_cases h : left ≤ x.val
  · have h1 : 56 ≤ x.val - left + 56 := by omega
    have h2 : x.val - left + 56 + 8 - 64 = x.val - left := by omega
    have h3 : ¬x.val < left := by omega
    simp [spriteRow, screenWidth, BitVec.getMsbD_ushiftRight, BitVec.getMsbD_setWidth, hx, h, h2,
      h3]
  · have h3 : x.val < left := by omega
    simp [spriteRow, screenWidth, BitVec.getMsbD_ushiftRight, h, h3]

theorem pixel_sprite (left top : Nat) (bytes : List UInt8) (y : Fin screenHeight)
    (x : Fin screenWidth) :
    (sprite left top bytes).pixel y x =
      (decide (top ≤ y) && (bytes[y.val - top]?).any fun byte =>
        decide (left ≤ x) && byte.toBitVec.getMsbD (x - left)) := by
  by_cases h : top ≤ y.val
  · cases hb : bytes[y.val - top]? with
    | none => simp [pixel, sprite, h, hb]
    | some byte => simp [pixel, sprite, h, hb, getMsbD_spriteRow]
  · simp [pixel, sprite, h]

theorem overlaps_iff {a b : Screen} :
    a.overlaps b ↔ ∃ y x, a.pixel y x = true ∧ b.pixel y x = true := by
  rw [overlaps, Vector.any_eq_true]
  constructor
  · rintro ⟨y, hy, h⟩
    by_cases hx : ∃ x : Fin screenWidth, (a[y] &&& b[y]).getMsbD x = true
    · obtain ⟨x, hx⟩ := hx
      rw [BitVec.getMsbD_and, Bool.and_eq_true] at hx
      exact ⟨⟨y, hy⟩, x, hx⟩
    · refine absurd ?_ (bne_iff_ne.mp h)
      rw [Vector.getElem_zipWith]
      apply BitVec.eq_of_getMsbD_eq
      intro x hx'
      have h0 := fun h => hx ⟨⟨x, hx'⟩, h⟩
      simpa using h0
  · rintro ⟨y, x, ha, hb⟩
    refine ⟨y, y.isLt, bne_iff_ne.mpr fun h => ?_⟩
    rw [Vector.getElem_zipWith] at h
    have hx : (a[y] &&& b[y]).getMsbD x = true := by
      rw [BitVec.getMsbD_and, Bool.and_eq_true]
      exact ⟨ha, hb⟩
    rw [show a[y] &&& b[y] = 0 from h] at hx
    simp at hx

theorem ext_pixel {a b : Screen} (h : ∀ y x, a.pixel y x = b.pixel y x) : a = b := by
  apply Vector.ext
  intro y hy
  apply BitVec.eq_of_getMsbD_eq
  intro x hx
  exact h ⟨y, hy⟩ ⟨x, hx⟩

end Screen

end ChipEight
