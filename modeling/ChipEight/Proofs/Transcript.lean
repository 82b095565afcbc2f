import ChipEight.Proofs.Headless
import ChipEight.Proofs.Sprites
import Mathlib.Data.List.FinRange

/-!
# The transcript of a terminal

What a terminal writes can be read back: every picture cell by cell, and every bell at its place
among the pictures (`transcript_is_faithful`). It shows only whether a cell is 1, which loses
nothing because the cells of a screen are 0 or 1 (`exists_cells_iff`).

A `Reader` takes a value off the front of a text. It is right (`Reader.Reads`) if it accepts just
what is written for the value, whatever stands behind; so no text begins with two values. From a
reader of pixels the readers of pictures, of outputs and of a whole transcript are put together, and
each part keeps this (`Reads.before`, `Reads.vector`, `all_eq_some_iff`).
-/

namespace ChipEight

/-! ### Readers -/

/-- Takes a value off the front of a text, and gives back the rest. -/
abbrev Reader (α : Type) := List Char → Option (α × List Char)

namespace Reader

variable {α β : Type}

/-- The reader accepts just the texts that begin with what is written for a value. -/
def Reads (p : Reader α) (write : α → List Char) : Prop :=
  ∀ text a rest, p text = some (a, rest) ↔ text = write a ++ rest

/-- A value of another type. -/
def map (f : α → β) (p : Reader α) : Reader β := fun text =>
  (p text).map fun (a, rest) => (f a, rest)

/-- A value and a mark behind it. -/
def before (p : Reader α) (mark : List Char) : Reader α := fun text => do
  let (a, rest) ← p text
  if mark.isPrefixOf rest then return (a, rest.drop mark.length) else none

/-- A mark and a value behind it. -/
def behind (p : Reader α) (mark : List Char) : Reader α := fun text =>
  if mark.isPrefixOf text then p (text.drop mark.length) else none

/-- So many values. -/
def times (p : Reader α) : Nat → Reader (List α)
  | 0, text => some ([], text)
  | n + 1, text => do
    let (a, rest) ← p text
    let (l, rest) ← p.times n rest
    return (a :: l, rest)

/-- So many values as a vector. -/
def vector (p : Reader α) (n : Nat) : Reader (Vector α n) := fun text => do
  let (l, rest) ← p.times n text
  if h : l.toArray.size = n then return (⟨l.toArray, h⟩, rest) else none

/-- Values up to the end of the text, `n` at most. -/
def all (p : Reader α) : Nat → List Char → Option (List α)
  | _, [] => some []
  | 0, _ :: _ => none
  | n + 1, text => do
    let (a, rest) ← p text
    return a :: (← p.all n rest)

variable {p : Reader α} {write : α → List Char} {n : Nat} {text rest : List Char}

theorem isPrefixOf_drop_iff {mark : List Char} :
    (mark.isPrefixOf text = true ∧ text.drop mark.length = rest) ↔ text = mark ++ rest := by
  rw [List.isPrefixOf_iff_prefix]
  constructor
  · rintro ⟨⟨tail, rfl⟩, rfl⟩
    rw [List.drop_left]
  · rintro rfl
    exact ⟨List.prefix_append .., List.drop_left⟩

theorem Reads.map {f : α → β} {g : β → α} (h : p.Reads write) (hfg : ∀ b, f (g b) = b)
    (hgf : ∀ a, g (f a) = a) : (p.map f).Reads fun b => write (g b) := by
  intro text b rest
  rw [← h, Reader.map, Option.map_eq_some_iff]
  constructor
  · rintro ⟨⟨a, rest'⟩, hp, heq⟩
    cases heq
    rw [hp, hgf]
  · intro hp
    exact ⟨_, hp, by simp only [hfg]⟩

theorem Reads.before (h : p.Reads write) (mark : List Char) :
    (p.before mark).Reads fun a => write a ++ mark := by
  intro text a rest
  rw [List.append_assoc, ← h, Reader.before, Option.bind_eq_bind, Option.bind_eq_some_iff]
  constructor
  · rintro ⟨⟨a', rest'⟩, hp, heq⟩
    obtain ⟨hmark, heq⟩ := Option.ite_none_right_eq_some.mp heq
    cases heq
    rw [hp, ← isPrefixOf_drop_iff.mp ⟨hmark, rfl⟩]
  · intro hp
    obtain ⟨hmark, hrest⟩ := isPrefixOf_drop_iff.mpr (rfl : mark ++ rest = mark ++ rest)
    refine ⟨_, hp, Option.ite_none_right_eq_some.mpr ⟨hmark, ?_⟩⟩
    rw [hrest]
    rfl

theorem Reads.behind (h : p.Reads write) (mark : List Char) :
    (p.behind mark).Reads fun a => mark ++ write a := by
  intro text a rest
  rw [List.append_assoc, ← isPrefixOf_drop_iff, ← h, Reader.behind, Option.ite_none_right_eq_some]

theorem times_eq_some_iff (h : p.Reads write) {l : List α} :
    p.times n text = some (l, rest) ↔ l.length = n ∧ text = l.flatMap write ++ rest := by
  induction n generalizing text rest l with
  | zero =>
    rw [times, Option.some_inj, Prod.mk.injEq, List.length_eq_zero_iff]
    constructor
    · rintro ⟨rfl, rfl⟩
      exact ⟨rfl, rfl⟩
    · rintro ⟨rfl, rfl⟩
      exact ⟨rfl, rfl⟩
  | succ n ih =>
    simp only [times, Option.bind_eq_bind, Option.bind_eq_some_iff, Prod.exists, h _ _ _, ih]
    constructor
    · rintro ⟨a, _, rfl, l, _, ⟨rfl, rfl⟩, heq⟩
      cases heq
      exact ⟨rfl, by rw [List.flatMap_cons, List.append_assoc]⟩
    · rintro ⟨hlength, rfl⟩
      obtain ⟨a, l, rfl⟩ := List.exists_cons_of_length_eq_add_one hlength
      refine ⟨a, _, ?_, l, rest, ⟨Nat.succ.inj hlength, rfl⟩, rfl⟩
      rw [List.flatMap_cons, List.append_assoc]

theorem Reads.vector (h : p.Reads write) (n : Nat) :
    (p.vector n).Reads fun v => v.toList.flatMap write := by
  intro text v rest
  simp only [Reader.vector, Option.bind_eq_bind, Option.bind_eq_some_iff, Prod.exists,
    times_eq_some_iff h]
  constructor
  · rintro ⟨l, _, ⟨hlength, rfl⟩, heq⟩
    rw [dif_pos (List.size_toArray.trans hlength)] at heq
    cases heq
    rfl
  · rintro rfl
    refine ⟨v.toList, rest, ⟨v.length_toList, rfl⟩, ?_⟩
    rw [dif_pos (List.size_toArray.trans v.length_toList)]
    rfl

theorem all_eq_some_iff (h : p.Reads write) (hne : ∀ a, write a ≠ []) {l : List α}
    (hn : text.length ≤ n) : p.all n text = some l ↔ text = l.flatMap write := by
  induction n, text using all.induct generalizing l with
  | case1 n =>
    cases l with
    | nil => simp [all]
    | cons a l => simp [all, hne]
  | case2 c text => exact absurd hn (Nat.not_succ_le_zero _)
  | case3 n text htext ih =>
    -- what is written for a value is not empty, so the rest is shorter
    have hrest {a : α} {rest : List Char} (he : text = write a ++ rest) : rest.length ≤ n := by
      have hpos := List.length_pos_iff.mpr (hne a)
      rw [he, List.length_append] at hn
      omega
    obtain ⟨c, text, rfl⟩ := List.exists_cons_of_ne_nil htext
    simp only [all, Option.bind_eq_bind, Option.bind_eq_some_iff, Prod.exists, h _ _ _]
    constructor
    · rintro ⟨a, rest, he, l, hl, heq⟩
      cases heq
      rw [List.flatMap_cons, ← (ih rest (hrest he)).mp hl, he]
    · intro he
      cases l with
      | nil => exact absurd he htext
      | cons a l =>
        rw [List.flatMap_cons] at he
        exact ⟨a, _, he, l, (ih _ (hrest he)).mpr rfl, rfl⟩

end Reader

theorem Sink.text_of_put {s : Sink} {text : String} (h : (s.put text).result = .ok ()) :
    (s.put text).device.text = s.text ++ text := by
  unfold put at h ⊢
  split at h
  · next hroom => rw [if_pos hroom]
  · cases h

/-! ### Pictures -/

namespace FrameBuffer

/-- A picture as a terminal shows it: the sequence that moves the cursor home, and a line for each
row in which the cells that are 1 are lit. -/
def print (frame : FrameBuffer) : List Char :=
  Terminal.home.toList ++ (List.finRange screenHeight).flatMap fun y =>
    ((List.finRange screenWidth).map fun x => Terminal.pixelChar (frame.cellAt y x = 1)) ++ ['\n']

theorem print_cells (s : Screen) : s.cells.print = Terminal.home.toList ++
    (List.finRange screenHeight).flatMap fun y =>
      ((List.finRange screenWidth).map fun x => Terminal.pixelChar (s.pixel y x)) ++ ['\n'] := by
  simp only [print, Screen.cellAt_cells, Screen.cell_eq_one_iff, Bool.decide_eq_true]

theorem exists_cells_iff {frame : FrameBuffer} : (∃ s : Screen, s.cells = frame) ↔
    ∀ y x, frame.cellAt y x = 0 ∨ frame.cellAt y x = 1 := by
  constructor
  · rintro ⟨s, rfl⟩ y x
    rw [Screen.cellAt_cells]
    cases s.pixel y x
    · exact .inl rfl
    · exact .inr rfl
  · intro h
    refine ⟨.ofPixels fun y x => frame.cellAt y x = 1, ?_⟩
    apply Vector.ext
    intro y hy
    apply Vector.ext
    intro x hx
    rw [Screen.getElem_cells, Screen.pixel_ofPixels]
    rcases h ⟨y, hy⟩ ⟨x, hx⟩ with hdark | hlit
    · rw [hdark]
      exact hdark.symm
    · rw [hlit]
      exact hlit.symm

end FrameBuffer

namespace Terminal

theorem toList_home : home.toList = ['\x1b', '[', 'H'] := rfl

theorem toList_line (row : BitVec screenWidth) : (line row).toList =
    ((List.finRange screenWidth).map fun x => pixelChar (row.getMsbD x.val)) ++ ['\n'] := by
  rw [line, String.toList_append, String.toList_ofList]
  rfl

theorem toList_frame (s : Screen) : (frame s).toList = s.cells.print := by
  have hrows : s.toList = (List.finRange screenHeight).map fun y => s[y] :=
    List.ext_getElem (by simp) fun k h _ => by simp
  rw [FrameBuffer.print_cells, frame, String.toList_append, String.toList_join, hrows,
    List.map_map, List.flatMap_map]
  simp only [Function.comp_apply, toList_line]
  rfl

/-- Reads a pixel. -/
def readPixel : Reader Bool
  | '█' :: rest => some (true, rest)
  | ' ' :: rest => some (false, rest)
  | _ => none

theorem readPixel_reads : readPixel.Reads fun lit => [pixelChar lit] := by
  intro text lit rest
  unfold readPixel
  split
  · cases lit <;> simp [pixelChar]
  · cases lit <;> simp [pixelChar]
  · next hlit hdark =>
    simp only [reduceCtorEq, false_iff]
    rintro rfl
    cases lit
    · exact hdark rest rfl
    · exact hlit rest rfl

/-- Reads a picture. -/
def readFrame : Reader Screen :=
  ((((readPixel.vector screenWidth).before ['\n']).vector screenHeight).behind home.toList).map
    fun rows => .ofPixels fun y x => (rows.get y).get x

theorem readFrame_reads : readFrame.Reads fun s => s.cells.print := by
  have hwrite (s : Screen) : s.cells.print = home.toList ++
      (Vector.ofFn fun y => Vector.ofFn fun x => s.pixel y x).toList.flatMap fun row =>
        (row.toList.flatMap fun lit => [pixelChar lit]) ++ ['\n'] := by
    rw [FrameBuffer.print_cells, Vector.toList_ofFn, List.ofFn_eq_map, List.flatMap_map]
    simp only [Vector.toList_ofFn, List.ofFn_eq_map, List.flatMap_map, ← List.map_eq_flatMap]
  simp only [hwrite]
  refine ((((readPixel_reads.vector screenWidth).before ['\n']).vector screenHeight).behind
    home.toList).map (fun s => ?_) (fun rows => ?_)
  · refine Screen.ext_pixel fun y x => ?_
    rw [Screen.pixel_ofPixels]
    show (Vector.ofFn fun y => Vector.ofFn fun x => s.pixel y x)[y.val][x.val] = s.pixel y x
    rw [Vector.getElem_ofFn, Vector.getElem_ofFn]
  · apply Vector.ext
    intro y hy
    apply Vector.ext
    intro x hx
    rw [Vector.getElem_ofFn, Vector.getElem_ofFn, Screen.pixel_ofPixels]
    rfl

/-- What a terminal puts out. -/
inductive Output where
  | picture (s : Screen)
  | tone
  deriving DecidableEq

namespace Output

/-- What is written for an output. -/
def print : Output → List Char
  | picture s => s.cells.print
  | tone => [bellChar]

/-- Reads an output. -/
def read : Reader Output := fun text =>
  if text.head? = some bellChar then some (tone, text.tail) else readFrame.map picture text

theorem read_reads : read.Reads print := by
  intro text o rest
  by_cases hbell : text.head? = some bellChar
  · obtain ⟨tail, rfl⟩ := List.head?_eq_some_iff.mp hbell
    rw [read, if_pos hbell]
    cases o with
    | picture s => simp [print, FrameBuffer.print, toList_home, bellChar]
    | tone => simp [print]
  · rw [read, if_neg hbell, Reader.map, Option.map_eq_some_iff]
    cases o with
    | picture s =>
      rw [print, ← readFrame_reads]
      constructor
      · rintro ⟨_, hs, heq⟩
        cases heq
        exact hs
      · intro hs
        exact ⟨_, hs, rfl⟩
    | tone =>
      constructor
      · rintro ⟨_, _, heq⟩
        cases heq
      · rintro rfl
        exact absurd rfl hbell

theorem print_ne_nil (o : Output) : o.print ≠ [] := by
  cases o with
  | picture s => exact List.append_ne_nil_of_left_ne_nil (by decide) _
  | tone => exact List.cons_ne_nil _ _

/-- All that is written for outputs. -/
def transcript (outputs : List Output) : String := String.ofList (outputs.flatMap print)

/-- Reads all that a terminal has put out. -/
def decode (text : String) : Option (List Output) := read.all text.toList.length text.toList

theorem decode_eq_some_iff {text : String} {outputs : List Output} :
    decode text = some outputs ↔ text = transcript outputs := by
  rw [transcript, ← String.toList_inj, String.toList_ofList]
  exact Reader.all_eq_some_iff read_reads print_ne_nil (Nat.le_refl _)

theorem transcript_inj {outputs outputs' : List Output} :
    transcript outputs = transcript outputs' ↔ outputs = outputs' := by
  rw [← decode_eq_some_iff, decode_eq_some_iff.mpr rfl, Option.some_inj]

/-- Has a frontend put the output out. -/
def call {σ : Type} (f : Frontend σ) : Output → σ → Reply σ Unit
  | picture s, d => f.render s d
  | tone, d => f.beep d

/-- Has a frontend put outputs out, one after the other, until it fails. -/
def callAll {σ : Type} (f : Frontend σ) : List Output → σ → Reply σ Unit
  | [], d => { device := d, result := .ok () }
  | o :: outputs, d =>
    let reply := o.call f d
    match reply.result with
    | .ok _ => callAll f outputs reply.device
    | .error _ => reply

theorem call_frontend (o : Output) (s : Sink) :
    o.call frontend s = s.put (String.ofList o.print) := by
  cases o with
  | picture screen =>
    rw [print, ← toList_frame, String.ofList_toList]
    rfl
  | tone => rfl

theorem text_of_callAll {outputs : List Output} {s : Sink}
    (h : (callAll frontend outputs s).result = .ok ()) :
    (callAll frontend outputs s).device.text = s.text ++ transcript outputs := by
  induction outputs generalizing s with
  | nil => exact String.append_empty.symm
  | cons o outputs ih =>
    rw [callAll, call_frontend] at h ⊢
    split at h
    · next hput =>
      rw [ih h, Sink.text_of_put hput, String.append_assoc, transcript, ← String.ofList_append]
      rfl
    · next hput =>
      rw [hput] at h
      cases h

theorem callAll_of_takesAll {s : Sink} (h : s.TakesAll) (outputs : List Output) :
    (callAll frontend outputs s).result = .ok () := by
  induction outputs generalizing s with
  | nil => rfl
  | cons o outputs ih =>
    simp only [callAll, call_frontend, Sink.put_of_takesAll h]
    exact ih ⟨h.unlimited, h.flushes⟩

/-- **The transcript of a terminal is faithful.** A sink that takes every text makes no output fail.
Outputs none of which fails leave the pictures, cell by cell, and the bells behind what was in the
sink. This text is decoded to just these outputs, and no others leave it. A picture can be any frame
buffer whose cells are 0 or 1. -/
theorem transcript_is_faithful (s : Sink) (outputs : List Output) :
    (s.TakesAll → (callAll frontend outputs s).result = .ok ()) ∧
    ((callAll frontend outputs s).result = .ok () →
      (callAll frontend outputs s).device.text = s.text ++ transcript outputs ∧
      decode (transcript outputs) = some outputs ∧
      ∀ outputs', (callAll frontend outputs' s).result = .ok () →
        ((callAll frontend outputs' s).device.text = (callAll frontend outputs s).device.text ↔
          outputs' = outputs)) ∧
    ∀ frame : FrameBuffer, (∃ screen : Screen, screen.cells = frame) ↔
      ∀ y x, frame.cellAt y x = 0 ∨ frame.cellAt y x = 1 := by
  refine ⟨fun h => callAll_of_takesAll h outputs, fun h => ?_,
    fun frame => FrameBuffer.exists_cells_iff⟩
  refine ⟨text_of_callAll h, decode_eq_some_iff.mpr rfl, fun outputs' h' => ?_⟩
  rw [text_of_callAll h, text_of_callAll h', String.append_right_inj, transcript_inj]

/-- The lowest pixel on the right between two bells, and without the second bell. -/
theorem transcript_of_dot :
    let outputs : List Output := [.tone, .picture (.dot 31 63 true), .tone]
    let others : List Output := [.tone, .picture (.dot 31 63 true)]
    Sink.TakesAll {} ∧ (callAll frontend outputs {}).result = .ok () ∧
      (callAll frontend others {}).result = .ok () ∧
      decode (transcript outputs) = some outputs ∧
      (callAll frontend others {}).device.text ≠ (callAll frontend outputs {}).device.text := by
  intro outputs others
  have htakes : Sink.TakesAll {} := ⟨rfl, rfl⟩
  have hresult := (transcript_is_faithful {} outputs).1 htakes
  have hothers := (transcript_is_faithful {} others).1 htakes
  obtain ⟨-, hdecode, hunique⟩ := (transcript_is_faithful {} outputs).2.1 hresult
  refine ⟨htakes, hresult, hothers, hdecode, fun htext => ?_⟩
  exact absurd (congrArg List.length ((hunique others hothers).mp htext)) (by decide)

end Output

end Terminal

end ChipEight
