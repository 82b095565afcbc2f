import ChipEight.Instruction.Encode
import ChipEight.Proofs.Strict
import ChipEight.Proofs.Superposition

/-!
# Sprites, cell by cell

A draw turns over the cells of its mask, so it is described by what the mask is in each cell: inside
the rectangle of the sprite a bit of memory (`pixel_mask_of_mem`), outside it nothing
(`pixel_mask_of_notMem`). What of the rectangle lies beyond the edges of the screen has no cells,
and is dropped. The flag is raised if some cell goes dark (`overlaps_iff_goes_dark`).
-/

namespace ChipEight

/-- The cell in a row and a column. -/
def FrameBuffer.cellAt (frame : FrameBuffer) (py : Fin screenHeight) (px : Fin screenWidth) :
    UInt8 :=
  (frame.get py).get px

namespace Screen

theorem cell_eq_one_iff {lit : Bool} : cell lit = 1 ↔ lit = true := by
  cases lit <;> decide

theorem cell_eq_zero_iff {lit : Bool} : cell lit = 0 ↔ lit = false := by
  cases lit <;> decide

theorem cellAt_cells (s : Screen) (py : Fin screenHeight) (px : Fin screenWidth) :
    s.cells.cellAt py px = cell (s.pixel py px) :=
  getElem_cells s py px py.isLt px.isLt

theorem overlaps_iff_goes_dark {s mask : Screen} :
    s.overlaps mask = true ↔
      ∃ (py : Fin screenHeight) (px : Fin screenWidth),
        s.cells.cellAt py px = 1 ∧ (s.xor mask).cells.cellAt py px = 0 := by
  rw [overlaps_iff]
  refine exists₂_congr fun py px => ?_
  rw [cellAt_cells, cellAt_cells, cell_eq_one_iff, cell_eq_zero_iff, pixel_xor]
  cases s.pixel py px <;> simp

end Screen

namespace Snapshot

variable {s : Snapshot} {x y : Register} {n : Fin 16} {py : Fin screenHeight}
  {px : Fin screenWidth}

theorem pixel_mask_of_mem (hend : s.index.toNat + n ≤ memorySize)
    (h : (s.register y).toNat ≤ py ∧ py < (s.register y).toNat + n ∧
      (s.register x).toNat ≤ px ∧ px < (s.register x).toNat + 8) :
    (s.mask (.draw x y n)).pixel py px =
      s.memory[s.index.toNat + (py - (s.register y).toNat)].toNat.testBit
        (7 - (px - (s.register x).toNat)) := by
  have hbyte : s.index.toNat + (py - (s.register y).toNat) < memorySize := by omega
  have hbit : px - (s.register x).toNat < 8 := by omega
  simp only [mask, Screen.pixel_ofPixels]
  rw [decide_eq_true h, Bool.true_and, Vector.getElem?_eq_getElem hbyte, Option.any_some,
    getMsbD_eq_testBit _ hbit]

theorem pixel_mask_of_notMem
    (h : ¬((s.register y).toNat ≤ py ∧ py < (s.register y).toNat + n ∧
      (s.register x).toNat ≤ px ∧ px < (s.register x).toNat + 8)) :
    (s.mask (.draw x y n)).pixel py px = false := by
  simp only [mask, Screen.pixel_ofPixels]
  rw [decide_eq_false h, Bool.false_and]

end Snapshot

/-- `c'` is `c` behind an instruction that puts a mask on the screen, tells by the flag whether it
lay on a lit pixel, and goes on. -/
structure Context.Stamps (c c' : Context) (mask : Screen) : Prop where
  screen : c'.state.screen = c.state.screen.xor mask
  flag : c'.state.register flagRegister = if c.state.screen.overlaps mask then 1 else 0
  counter : c'.state.pc = c.state.pc + 2
  rest : c' = c.withState { c.state with
    pc := c'.state.pc
    v := c.state.v.set flagRegister (c'.state.register flagRegister)
    screen := c'.state.screen
    drawn := true }

theorem Context.stamps_drawSprite (c : Context) (left top : Nat) (bytes : List UInt8) :
    c.Stamps (c.withState (c.state.drawSprite left top bytes).next)
      (Screen.sprite left top bytes) := by
  have hflag : (c.state.setFlag (c.state.screen.overlaps (Screen.sprite left top bytes))).register
      flagRegister = if c.state.screen.overlaps (Screen.sprite left top bytes) then 1 else 0 :=
    (Snapshot.register_setRegister _ _ _ _).trans (if_pos rfl)
  have hv : (c.state.setFlag (c.state.screen.overlaps (Screen.sprite left top bytes))).v =
      c.state.v.set flagRegister ((c.state.setFlag (c.state.screen.overlaps
        (Screen.sprite left top bytes))).register flagRegister) := by
    rw [hflag]
    rfl
  exact {
    screen := rfl
    flag := hflag
    counter := rfl
    rest := congrArg (fun v => c.withState { c.state with
      pc := c.state.pc + 2, v, screen := _, drawn := true }) hv }

namespace Instruction

/-- A draw whose bytes are all there is carried out, and puts its mask on the screen. -/
theorem exists_execute_draw (consume : Bool) {c : Context} (x y : Register) {n : Fin 16}
    (hend : c.state.index.toNat + n ≤ memorySize) :
    ∃ c', (draw x y n).execute consume c = .ok c' ∧ c.Stamps c' (c.state.mask (draw x y n)) := by
  have hnone : (draw x y n).fault? c.state = none := by
    have hspan : (draw x y n).span? = some n.val := rfl
    rw [fault?_of_span? hspan, Snapshot.blockFault?, if_pos hend]
  have hexists : ∃ c', (draw x y n).execute consume c = .ok c' :=
    Context.exists_execute_iff.mpr hnone
  obtain ⟨c', h⟩ := hexists
  refine ⟨c', h, ?_⟩
  obtain ⟨bytes, hbytes, rfl⟩ := execute_draw h
  rw [← Snapshot.sprite_eq_mask hbytes]
  exact c.stamps_drawSprite _ _ _

/-- **A draw puts exactly the clipped sprite on the screen.** Let a word be at the counter and all
bytes of the sprite in memory, and let the sprite not be an empty one at address zero. Then the draw
is carried out with nothing out of the ordinary. A cell of the screen that lies in the rectangle of
the sprite, with the corner that the registers give before the draw, is turned over by its bit of
memory; every other cell stays, so what of the sprite lies beyond the edges is dropped. The flag
tells whether some cell went dark, the picture counts as touched, the counter goes on, and nothing
else changes. -/
theorem draws_clipped_sprite (consume : Bool) (c : Context) (x y : Register) (n : Fin 16)
    (hpc : c.state.pc.toNat ≤ 0xFFE) (hend : c.state.index.toNat + n ≤ memorySize)
    (hhollow : ¬(n = 0 ∧ c.state.index = 0)) :
    decode? (.ofRegisters 0xD x y n) = some (draw x y n) ∧
    ∃ c', (draw x y n).execute consume c = .ok c' ∧
      (draw x y n).strict consume c = some (.ok c') ∧
      let left := (c.state.register x).toNat
      let top := (c.state.register y).toNat
      let old := c.state.screen.cells.cellAt
      let new := c'.state.screen.cells.cellAt
      (∀ (py : Fin screenHeight) (px : Fin screenWidth), new py px =
        if h : top ≤ py ∧ py < top + n ∧ left ≤ px ∧ px < left + 8 then
          old py px ^^^ cell (c.state.memory[c.state.index.toNat + (py - top)].toNat.testBit
            (7 - (px - left)))
        else old py px) ∧
      c'.state.register flagRegister =
        (if ∃ (py : Fin screenHeight) (px : Fin screenWidth), old py px = 1 ∧ new py px = 0
          then 1 else 0) ∧
      c'.state.pc.toNat = c.state.pc.toNat + 2 ∧
      c' = c.withState { c.state with
        pc := c'.state.pc
        v := c.state.v.set flagRegister (c'.state.register flagRegister)
        screen := c'.state.screen
        drawn := true } := by
  obtain ⟨c', he, hc⟩ := exists_execute_draw consume x y hend
  refine ⟨decode?_encode (draw x y n), c', he, ?_, fun py px => ?_, ?_, ?_, hc.rest⟩
  · rw [strict_draw hpc (end_pos_of_not_hollow hhollow), he]
  · rw [Screen.cellAt_cells, Screen.cellAt_cells, hc.screen, Screen.pixel_xor, ← xor_cell]
    split
    · next h => rw [Snapshot.pixel_mask_of_mem hend h]
    · next h =>
      rw [Snapshot.pixel_mask_of_notMem h]
      exact UInt8.xor_zero
  · rw [hc.flag, hc.screen]
    exact if_congr Screen.overlaps_iff_goes_dark rfl rfl
  · rw [hc.counter]
    exact toNat_pc_add hpc (by decide)

/-- The glyph of zero in the lower right corner, over a lit bottom row, with the flag register as
its column: two columns and two rows of it are seen, and the bottom row makes the flag go up. -/
theorem draws_clipped_sprite_corner :
    let s := (Snapshot.initial.setRegister flagRegister 62).setRegister 2 30
    let c : Context :=
      ⟨{ s with screen := .ofPixels fun py _ => py = 31 }, .released, .arithmetic 0 0⟩
    ∃ c', (draw flagRegister 2 5).execute false c = .ok c' ∧
      c'.state.screen.cells.cellAt 30 63 = 1 ∧ c'.state.screen.cells.cellAt 31 62 = 0 ∧
      c'.state.screen.cells.cellAt 31 63 = 1 ∧ c'.state.screen.cells.cellAt 30 0 = 0 ∧
      c'.state.screen.cells.cellAt 0 63 = 0 ∧ c'.state.register flagRegister = 1 := by
  intro s c
  obtain ⟨-, c', he, -, hcells, hflag, -, -⟩ := draws_clipped_sprite false c flagRegister 2 5
    (by decide +kernel) (by decide +kernel) (by decide +kernel)
  have hdark : c'.state.screen.cells.cellAt 31 62 = 0 := (hcells 31 62).trans (by decide +kernel)
  refine ⟨c', he, (hcells 30 63).trans ?_, hdark, (hcells 31 63).trans ?_, (hcells 30 0).trans ?_,
    (hcells 0 63).trans ?_, hflag.trans (if_pos ⟨31, 62, ?_, hdark⟩)⟩
  all_goals decide +kernel

end Instruction

end ChipEight
