import ChipEight.Proofs.Faults
import ChipEight.Proofs.Footprint
import ChipEight.Proofs.Pixels
import Mathlib.Algebra.BigOperators.Group.List.Lemmas
import Mathlib.Algebra.BigOperators.Ring.List
import Mathlib.Algebra.Ring.Parity

/-!
# Drawing superposes

A draw whose corner is not given by the flag register turns over the pixels of its `mask`, and
leaves everything that masks are made of alone: the index register, memory and all registers but the
flag. So a list of draws turns a pixel over once for each mask that it lies on (`pixel_superpose`),
and only the parity of their number counts: the order of the draws does not matter, and what is
drawn an even number of times is gone (`draws_superpose`).
-/

namespace ChipEight

theorem Memory.getElem?_of_readBlock {m : Memory} {addr len : Nat} {bytes : List UInt8}
    (h : m.readBlock addr len = .ok bytes) {k : Nat} (hk : k < len) :
    bytes[k]? = m[addr + k]? := by
  unfold readBlock at h
  split at h
  · next hlen =>
    cases h
    have haddr : addr + k < memorySize := by omega
    rw [List.getElem?_ofFn, dif_pos hk, Vector.getElem?_eq_getElem haddr]
  · cases h

namespace Screen

/-- Turning screens over on one another. -/
def superpose (s : Screen) (masks : List Screen) : Screen := masks.foldl xor s

theorem pixel_superpose (s : Screen) (masks : List Screen) (y : Fin screenHeight)
    (x : Fin screenWidth) : (s.superpose masks).pixel y x =
      (s.pixel y x ^^ decide (Odd (masks.countP (·.pixel y x)))) := by
  induction masks generalizing s with
  | nil => simp [superpose]
  | cons mask masks ih =>
    have hcons : s.superpose (mask :: masks) = (s.xor mask).superpose masks := rfl
    rw [hcons, ih, pixel_xor, List.countP_cons]
    cases mask.pixel y x with
    | false => simp
    | true =>
      simp only [if_true, Nat.odd_add_one]
      by_cases h : Odd (masks.countP (·.pixel y x)) <;> cases s.pixel y x <;> simp [h]

theorem superpose_perm {s : Screen} {masks masks' : List Screen} (h : masks'.Perm masks) :
    s.superpose masks' = s.superpose masks :=
  ext_pixel fun y x => by rw [pixel_superpose, pixel_superpose, h.countP_eq]

theorem superpose_of_even {α : Type} [DecidableEq α] {s : Screen} {mask : α → Screen} {l : List α}
    (h : ∀ a, Even (l.count a)) : s.superpose (l.map mask) = s := by
  refine ext_pixel fun y x => ?_
  have heven : Even ((l.map mask).countP (·.pixel y x)) := by
    rw [List.countP_map, ← List.sum_map_count_dedup_filter_eq_countP, even_iff_two_dvd]
    apply List.dvd_sum
    intro n hn
    obtain ⟨a, -, rfl⟩ := List.mem_map.mp hn
    exact even_iff_two_dvd.mp (h a)
  rw [pixel_superpose, decide_eq_false (Nat.not_odd_iff_even.mpr heven), Bool.xor_false]

end Screen

/-! ### Masks -/

namespace Instruction

/-- A draw whose corner is not given by the flag register. -/
def IsSteadyDraw : Instruction → Prop
  | draw x y _ => x ≠ flagRegister ∧ y ≠ flagRegister
  | _ => False

theorem IsSteadyDraw.exists_eq {i : Instruction} (h : i.IsSteadyDraw) :
    ∃ x y n, i = draw x y n ∧ x ≠ flagRegister ∧ y ≠ flagRegister := by
  cases i with
  | draw x y n => exact ⟨x, y, n, rfl, h⟩
  | _ => exact h.elim

end Instruction

namespace Snapshot

/-- The pixels of the screen that a draw turns over: of the `n` bytes at the index register, the one
in row `py` has its bit in column `px` set, counted from the corner that the registers give. -/
def mask (s : Snapshot) : Instruction → Screen
  | .draw x y n => .ofPixels fun py px =>
    let left := (s.register x).toNat
    let top := (s.register y).toNat
    decide (top ≤ py ∧ py < top + n ∧ left ≤ px ∧ px < left + 8) &&
      (s.memory[s.index.toNat + (py - top)]?).any fun byte => byte.toBitVec.getMsbD (px - left)
  | _ => .blank

theorem sprite_eq_mask {s : Snapshot} {x y : Register} {n : Fin 16} {bytes : List UInt8}
    (h : s.readIndexed n = .ok bytes) :
    Screen.sprite (s.register x).toNat (s.register y).toNat bytes = s.mask (.draw x y n) := by
  have hlen : bytes.length = n := Memory.length_of_readBlock h
  refine Screen.ext_pixel fun py px => ?_
  simp only [mask, Screen.pixel_ofPixels]
  by_cases hin : (s.register y).toNat ≤ py ∧ py < (s.register y).toNat + n ∧
      (s.register x).toNat ≤ px ∧ px < (s.register x).toNat + 8
  · obtain ⟨htop, hbottom, hleft, -⟩ := id hin
    have hrow : py - (s.register y).toNat < n := by omega
    rw [decide_eq_true hin, Bool.true_and, Screen.pixel_sprite, decide_eq_true htop, Bool.true_and,
      decide_eq_true hleft, Memory.getElem?_of_readBlock h hrow]
    simp only [Bool.true_and]
  · rw [decide_eq_false hin, Bool.false_and, Bool.eq_false_iff]
    intro hlit
    have hrectangle := Screen.mem_rectangle_of_pixel hlit
    rw [hlen] at hrectangle
    exact hin hrectangle

/-- What masks are made of is the same in both snapshots. -/
structure SameSprites (s s' : Snapshot) : Prop where
  index : s'.index = s.index
  memory : s'.memory = s.memory
  register : ∀ r ≠ flagRegister, s'.register r = s.register r

variable {s s' s'' : Snapshot} {i : Instruction}

theorem SameSprites.refl (s : Snapshot) : SameSprites s s := ⟨rfl, rfl, fun _ _ => rfl⟩

theorem SameSprites.trans (h : SameSprites s s') (h' : SameSprites s' s'') : SameSprites s s'' where
  index := h'.index.trans h.index
  memory := h'.memory.trans h.memory
  register r hr := (h'.register r hr).trans (h.register r hr)

theorem SameSprites.mask (h : SameSprites s s') (hi : i.IsSteadyDraw) : s'.mask i = s.mask i := by
  obtain ⟨x, y, n, rfl, hx, hy⟩ := hi.exists_eq
  simp only [Snapshot.mask, h.index, h.memory, h.register x hx, h.register y hy]

theorem SameSprites.fault? (h : SameSprites s s') (hi : i.IsSteadyDraw) :
    i.fault? s' = i.fault? s := by
  obtain ⟨x, y, n, rfl, -, -⟩ := hi.exists_eq
  have hspan : (Instruction.draw x y n).span? = some n.val := rfl
  rw [Instruction.fault?_of_span? hspan, Instruction.fault?_of_span? hspan, blockFault?,
    blockFault?, h.index]

end Snapshot

/-! ### Draws one after the other -/

namespace Context

variable {consume : Bool} {c c' : Context} {i : Instruction} {draws : List Instruction}

/-- Carries instructions out one after the other, if none of them fails. -/
def executeAll (consume : Bool) (c : Context) (instructions : List Instruction) :
    Except Fault Context :=
  instructions.foldlM (Instruction.execute consume) c

theorem executeAll_cons_eq_ok : c.executeAll consume (i :: draws) = .ok c' ↔
    ∃ c₁, i.execute consume c = .ok c₁ ∧ c₁.executeAll consume draws = .ok c' := by
  unfold executeAll
  rw [List.foldlM_cons]
  exact bind_eq_ok_iff

theorem execute_steadyDraw (hi : i.IsSteadyDraw) (h : i.execute consume c = .ok c') :
    c.state.SameSprites c'.state ∧
      c'.state.screen = c.state.screen.xor (c.state.mask i) ∧
      c'.state.register flagRegister =
        if c.state.screen.overlaps (c.state.mask i) then 1 else 0 := by
  obtain ⟨x, y, n, rfl, -, -⟩ := hi.exists_eq
  obtain ⟨bytes, hbytes, rfl⟩ := Instruction.execute_draw h
  rw [← Snapshot.sprite_eq_mask hbytes]
  refine ⟨⟨rfl, rfl, fun r hr => ?_⟩, rfl, ?_⟩
  · exact (Snapshot.register_setRegister _ _ _ _).trans (if_neg hr)
  · exact (Snapshot.register_setRegister _ _ _ _).trans (if_pos rfl)

theorem exists_execute_iff :
    (∃ c', i.execute consume c = .ok c') ↔ i.fault? c.state = none := by
  rw [Option.eq_none_iff_forall_ne_some]
  cases h : i.execute consume c with
  | ok c' =>
    refine iff_of_true ⟨c', rfl⟩ fun f hf => ?_
    rw [Instruction.execute_eq_error_iff.mpr hf] at h
    cases h
  | error f =>
    exact iff_of_false nofun fun hnone => hnone f (Instruction.execute_eq_error_iff.mp h)

theorem exists_executeAll_iff (hdraws : ∀ i ∈ draws, i.IsSteadyDraw) :
    (∃ c', c.executeAll consume draws = .ok c') ↔ ∀ i ∈ draws, i.fault? c.state = none := by
  induction draws generalizing c with
  | nil => exact iff_of_true ⟨c, rfl⟩ nofun
  | cons i draws ih =>
    rw [List.forall_mem_cons] at hdraws ⊢
    obtain ⟨hi, hdraws⟩ := hdraws
    have hrest : ∀ c₁, i.execute consume c = .ok c₁ →
        ((∃ c', c₁.executeAll consume draws = .ok c') ↔ ∀ j ∈ draws, j.fault? c.state = none) := by
      intro c₁ h₁
      have hsame := (execute_steadyDraw hi h₁).1
      rw [ih hdraws]
      exact forall₂_congr fun j hj => by rw [hsame.fault? (hdraws j hj)]
    rw [← exists_execute_iff (c := c)]
    constructor
    · rintro ⟨c', h⟩
      obtain ⟨c₁, h₁, h⟩ := executeAll_cons_eq_ok.mp h
      exact ⟨⟨c₁, h₁⟩, (hrest c₁ h₁).mp ⟨c', h⟩⟩
    · rintro ⟨⟨c₁, h₁⟩, h⟩
      obtain ⟨c', h⟩ := (hrest c₁ h₁).mpr h
      exact ⟨c', executeAll_cons_eq_ok.mpr ⟨c₁, h₁, h⟩⟩

/-- Draws put all their masks on the screen, the masks as they were before the first. -/
theorem executeAll_steadyDraws (hdraws : ∀ i ∈ draws, i.IsSteadyDraw)
    (h : c.executeAll consume draws = .ok c') :
    c.state.SameSprites c'.state ∧
      c'.state.screen = c.state.screen.superpose (draws.map c.state.mask) := by
  induction draws generalizing c with
  | nil => cases h; exact ⟨.refl _, rfl⟩
  | cons i draws ih =>
    rw [List.forall_mem_cons] at hdraws
    obtain ⟨hi, hdraws⟩ := hdraws
    obtain ⟨c₁, h₁, h⟩ := executeAll_cons_eq_ok.mp h
    obtain ⟨hsame, hscreen, -⟩ := execute_steadyDraw hi h₁
    obtain ⟨hsame', hscreen'⟩ := ih hdraws h
    refine ⟨hsame.trans hsame', ?_⟩
    have hmasks : draws.map c₁.state.mask = draws.map c.state.mask :=
      List.map_congr_left fun j hj => hsame.mask (hdraws j hj)
    rw [hscreen', hmasks, hscreen]
    rfl

theorem executeAll_perm {draws' : List Instruction} (hdraws : ∀ i ∈ draws, i.IsSteadyDraw)
    (h : c.executeAll consume draws = .ok c') (hperm : draws'.Perm draws) :
    ∃ c'', c.executeAll consume draws' = .ok c'' ∧ c''.state.screen = c'.state.screen := by
  have hdraws' : ∀ i ∈ draws', i.IsSteadyDraw := fun i hi => hdraws i (hperm.mem_iff.mp hi)
  have hfault := (exists_executeAll_iff hdraws).mp ⟨c', h⟩
  obtain ⟨c'', h''⟩ := (exists_executeAll_iff hdraws').mpr
    fun i hi => hfault i (hperm.mem_iff.mp hi)
  refine ⟨c'', h'', ?_⟩
  rw [(executeAll_steadyDraws hdraws' h'').2, (executeAll_steadyDraws hdraws h).2]
  exact Screen.superpose_perm (hperm.map _)

theorem flag_eq_one_iff {flag : Bool} : (if flag then 1 else 0 : UInt8) = 1 ↔ flag = true := by
  cases flag <;> decide

/-- Of two draws of the same sprite, the second meets the pixels that the first has found dark. -/
theorem execute_twice (hi : i.IsSteadyDraw) (h : i.execute consume c = .ok c') :
    ∃ c'', i.execute consume c' = .ok c'' ∧ c''.state.screen = c.state.screen ∧
      (c'.state.register flagRegister = 1 ↔
        ∃ py px, (c.state.mask i).pixel py px = true ∧ c.state.screen.pixel py px = true) ∧
      (c''.state.register flagRegister = 1 ↔
        ∃ py px, (c.state.mask i).pixel py px = true ∧ c.state.screen.pixel py px = false) := by
  obtain ⟨hsame, hscreen, hflag⟩ := execute_steadyDraw hi h
  have hfault := exists_execute_iff.mp ⟨c', h⟩
  rw [← hsame.fault? hi] at hfault
  obtain ⟨c'', h''⟩ := exists_execute_iff.mpr hfault
  obtain ⟨-, hscreen', hflag'⟩ := execute_steadyDraw hi h''
  rw [hsame.mask hi, hscreen] at hscreen' hflag'
  refine ⟨c'', h'', ?_, ?_, ?_⟩
  · rw [hscreen']
    exact Screen.ext_pixel fun py px => by simp [Screen.pixel_xor]
  · rw [hflag, flag_eq_one_iff, Screen.overlaps_iff]
    exact exists₂_congr fun py px => and_comm
  · rw [hflag', flag_eq_one_iff, Screen.overlaps_iff]
    refine exists₂_congr fun py px => ?_
    rw [Screen.pixel_xor]
    cases (c.state.mask i).pixel py px <;> simp

/-- **Drawing superposes.** Let draws be carried out one after the other, none of them failing and
none taking its corner from the flag register. The picture then has the masks of all of them on it,
which are those of the state before the first, as the index register, memory and the other registers
stay. So every order of the draws succeeds and makes the same picture, and draws that occur an even
number of times each leave the picture as it was. A draw that is made twice tells the first time
whether its mask lies on a lit pixel, and the second time whether it lay on a dark one. -/
theorem draws_superpose (hdraws : ∀ i ∈ draws, i.IsSteadyDraw)
    (h : c.executeAll consume draws = .ok c') :
    c.state.SameSprites c'.state ∧
    c'.state.screen = c.state.screen.superpose (draws.map c.state.mask) ∧
    (∀ draws' : List Instruction, draws'.Perm draws →
      ∃ c'', c.executeAll consume draws' = .ok c'' ∧ c''.state.screen = c'.state.screen) ∧
    ((∀ i, Even (draws.count i)) → c'.state.screen = c.state.screen) ∧
    ∀ i ∈ draws, ∃ c₁ c₂, i.execute consume c = .ok c₁ ∧ i.execute consume c₁ = .ok c₂ ∧
      c₂.state.screen = c.state.screen ∧
      (c₁.state.register flagRegister = 1 ↔
        ∃ py px, (c.state.mask i).pixel py px = true ∧ c.state.screen.pixel py px = true) ∧
      (c₂.state.register flagRegister = 1 ↔
        ∃ py px, (c.state.mask i).pixel py px = true ∧ c.state.screen.pixel py px = false) := by
  obtain ⟨hsame, hscreen⟩ := executeAll_steadyDraws hdraws h
  refine ⟨hsame, hscreen, fun draws' => executeAll_perm hdraws h, fun heven => ?_, fun i hi => ?_⟩
  · rw [hscreen]
    exact Screen.superpose_of_even heven
  · have hfault := (exists_executeAll_iff hdraws).mp ⟨c', h⟩ i hi
    obtain ⟨c₁, h₁⟩ := exists_execute_iff.mpr hfault
    obtain ⟨c₂, h₂⟩ := execute_twice (hdraws i hi) h₁
    exact ⟨c₁, c₂, h₁, h₂⟩

/-- Two glyphs that lie on one another in the lower right corner of the screen, each cut off there:
drawn twice, they are gone. -/
theorem draws_superpose_corner :
    let s := ((Snapshot.initial.setRegister 1 62).setRegister 2 30).setRegister 3 60
    let c : Context := ⟨s, .released, .arithmetic 0 0⟩
    let glyphs : List Instruction := [.draw 1 2 5, .draw 3 2 5]
    (∃ c', c.executeAll false (glyphs ++ glyphs) = .ok c' ∧ c'.state.screen = s.screen) ∧
      ∃ c₁ c₂, Instruction.execute false c (.draw 1 2 5) = .ok c₁ ∧
        Instruction.execute false c₁ (.draw 1 2 5) = .ok c₂ ∧
        c₁.state.register flagRegister ≠ 1 ∧ c₂.state.register flagRegister = 1 := by
  intro s c glyphs
  have hdraws : ∀ i ∈ glyphs ++ glyphs, i.IsSteadyDraw := by
    simp [glyphs, Instruction.IsSteadyDraw, flagRegister]
  have hfault : ∀ i ∈ glyphs ++ glyphs, i.fault? c.state = none := by decide +kernel
  obtain ⟨c', h⟩ : ∃ c', c.executeAll false (glyphs ++ glyphs) = .ok c' :=
    (exists_executeAll_iff hdraws).mpr hfault
  obtain ⟨-, -, -, hrestored, htwice⟩ := draws_superpose hdraws h
  have heven : ∀ i, Even ((glyphs ++ glyphs).count i) := fun i => ⟨_, List.count_append⟩
  refine ⟨⟨c', h, hrestored heven⟩, ?_⟩
  obtain ⟨c₁, c₂, h₁, h₂, -, hmet, hmet'⟩ := htwice (.draw 1 2 5) (by decide)
  refine ⟨c₁, c₂, h₁, h₂, fun hflag => ?_, hmet'.mpr ⟨30, 62, by decide +kernel, by decide +kernel⟩⟩
  obtain ⟨py, px, -, hlit⟩ := hmet.mp hflag
  exact Bool.false_ne_true ((Screen.pixel_blank py px).symm.trans hlit)

end Context

end ChipEight
