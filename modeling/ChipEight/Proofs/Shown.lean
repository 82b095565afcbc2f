import ChipEight.ByteStream.Seeded
import ChipEight.Frontend.Script
import ChipEight.Proofs.Lives

/-!
# The screen never goes stale

The picture that a frontend was given last is the picture of the machine, at the end of every turn
of a life without faults. Cycles that draw and reversals that bring a snapshot back are all that
changes the picture, and a turn shows it behind either (`pictures_of_once`), so the invariant is
that the two agree.
-/

namespace ChipEight

variable {σ : Type} {f : Frontend σ} {w w' : World (Recorded σ)}

namespace World

theorem pictures_polled (w : World (Recorded σ)) (f : Frontend σ) :
    (w.polled f.recorded).device.pictures = w.device.pictures := by
  show (w.device.after _ _).pictures = _
  rw [Recorded.pictures_after, List.append_nil]

theorem pictures_rendered (w : World (Recorded σ)) (f : Frontend σ) :
    (w.rendered f.recorded).device.pictures =
      w.device.pictures ++ [w.session.machine.state.screen] :=
  Recorded.pictures_after ..

theorem pictures_beeped (w : World (Recorded σ)) (f : Frontend σ) :
    (w.beeped f.recorded).device.pictures = w.device.pictures := by
  show (w.device.after _ _).pictures = _
  rw [Recorded.pictures_after, List.append_nil]

theorem screen_silenced {τ : Type} (w : World τ) :
    w.silenced.session.machine.state.screen = w.session.machine.state.screen := by
  unfold silenced
  split <;> rfl

theorem screen_sounded {τ : Type} (w : World τ) (f : Frontend τ) :
    (w.sounded f).session.machine.state.screen = w.session.machine.state.screen := by
  unfold sounded
  split
  · exact screen_silenced w
  · rfl

theorem screen_pictured {τ : Type} (w : World τ) (f : Frontend τ) (drawn : Bool) :
    (w.pictured f drawn).session.machine.state.screen = w.session.machine.state.screen := by
  cases drawn <;> rfl

theorem pictures_sounded (w : World (Recorded σ)) (f : Frontend σ) :
    (w.sounded f.recorded).device.pictures = w.device.pictures := by
  unfold sounded
  split
  · exact w.pictures_beeped f
  · rfl

theorem pictures_pictured (w : World (Recorded σ)) (f : Frontend σ) (drawn : Bool) :
    (w.pictured f.recorded drawn).device.pictures =
      w.device.pictures ++ if drawn then [w.session.machine.state.screen] else [] := by
  cases drawn with
  | false => exact (List.append_nil _).symm
  | true => exact w.pictures_rendered f

end World

namespace Turn

/-- A turn that ends well shows one picture if its labour touches the screen, the one that the
machine ends up with, and else none, with the screen as it was. -/
theorem pictures_of_once (h : (once f.recorded).run w = .ok () w') :
    ((w.steps f.recorded).any Step.touches = true ∧
      w'.device.pictures = w.device.pictures ++ [w'.session.machine.state.screen]) ∨
    ((w.steps f.recorded).any Step.touches = false ∧ w'.device.pictures = w.device.pictures ∧
      w'.session.machine.state.screen = w.session.machine.state.screen) := by
  have hends := once_ends f.recorded w
  rw [h] at hends
  cases hends with
  | quits hc hq =>
    refine .inr ⟨by rw [World.steps_of_quit hc hq]; rfl, ?_, rfl⟩
    exact w.pictures_polled f
  | @rests c w₁ hl hh =>
    have hpictures : w₁.device.pictures = w.device.pictures := by
      rw [hl.device]
      exact w.pictures_polled f
    generalize ht : (w.steps f.recorded).any Step.touches = touched
    have hshown := (World.pictures_sounded (w₁.pictured f.recorded touched) f).trans
      (w₁.pictures_pictured f touched)
    have hscreen := (World.screen_sounded (w₁.pictured f.recorded touched) f.recorded).trans
      (w₁.screen_pictured f.recorded touched)
    rw [hpictures, ← hscreen] at hshown
    cases touched with
    | true => exact .inl ⟨rfl, hshown⟩
    | false =>
      refine .inr ⟨rfl, hshown.trans (List.append_nil _), ?_⟩
      -- the labour neither draws nor restores
      have hquiet : ∀ s ∈ w.steps f.recorded, (s.draws = true → s.halts = true) ∧
          s.restores = false := by
        intro s hs
        have htouch := List.any_eq_false.mp ht s hs
        rw [Step.touches, Bool.or_eq_true, not_or] at htouch
        exact ⟨fun hd => absurd hd htouch.1, Bool.eq_false_iff.mpr htouch.2⟩
      have hrun := Machine.screen_run hquiet
      refine hscreen.trans ?_
      rw [hl.session]
      exact hrun

end Turn

theorem Machine.IsLoaded.screen {m : Machine} (h : m.IsLoaded) : m.state.screen = .blank := by
  obtain ⟨settings, source, memory, _, rfl⟩ := h.exists_eq
  rfl

theorem shown_step (h : (Turn.once f.recorded).run w = .ok () w')
    (hw : w.device.shown = w.session.machine.state.screen) :
    w'.device.shown = w'.session.machine.state.screen := by
  rcases Turn.pictures_of_once h with ⟨_, hp⟩ | ⟨_, hp, hs⟩
  · rw [Recorded.shown, hp, List.getLast?_concat, Option.getD_some]
  · rw [Recorded.shown, hp, hs]
    exact hw

/-- **The screen never goes stale.** Whatever has happened to the session of a freshly loaded
machine, as long as nothing went wrong, the picture that was shown last is the picture of the
machine, and a further turn in which nothing goes wrong ends well and keeps it so. Such a turn shows
one picture at most, and shows one exactly if a cycle of it draws or a reversal of it brings a
snapshot back. -/
theorem shown_eq_screen {m : Machine} (hm : m.IsLoaded) (journal : Journal) (device : σ)
    {life : List (Episode σ)} (h : (World.new m journal device).EveryTurn Turn.Smooth life) :
    let w := (World.new m journal device).live life
    w.device.shown = w.session.machine.state.screen ∧
    ∀ f : Frontend σ, w.session.cancelled = false → Turn.Smooth f.recorded w →
      ∃ w', (Turn.once f.recorded).run w = .ok () w' ∧
      w'.device.shown = w'.session.machine.state.screen ∧
      ∃ pictures, w'.device.pictures = w.device.pictures ++ pictures ∧ pictures.length ≤ 1 ∧
        (pictures ≠ [] ↔ ∃ s ∈ w.steps f.recorded, s.draws = true ∨ s.restores = true) := by
  intro w
  have hinv : w.device.shown = w.session.machine.state.screen := by
    refine World.live_induction (P := Turn.Smooth)
      (I := fun s d => d.shown = s.machine.state.screen) ?_ (fun _ _ _ h => h) h hm.screen.symm
    intro f w _ hsmooth hw
    obtain ⟨w', hw'⟩ := hsmooth.exists_run
    unfold World.after
    rw [hw']
    exact shown_step hw' hw
  refine ⟨hinv, fun f _ hsmooth => ?_⟩
  obtain ⟨w', hw'⟩ := hsmooth.exists_run
  refine ⟨w', hw', shown_step hw' hinv, ?_⟩
  have hsome : (w.steps f.recorded).any Step.touches = true ↔
      ∃ s ∈ w.steps f.recorded, s.draws = true ∨ s.restores = true := by
    simp [List.any_eq_true, Step.touches]
  rcases Turn.pictures_of_once hw' with ⟨ht, hp⟩ | ⟨ht, hp, _⟩
  · exact ⟨_, hp, Nat.le_refl 1, by simpa using hsome.mp ht⟩
  · refine ⟨[], by rw [hp, List.append_nil], Nat.zero_le 1, ?_⟩
    rw [← hsome, ht]
    simp

/-- A sprite is drawn, and taken back by rewinding: of two pictures shown the second is blank. -/
theorem shown_eq_screen_sprite_taken_back :
    let m := (Machine.fresh { clockHz := 100 } (.cipher default)).perform
      (.load [0xD0, 0x05, 0x12, 0x00])
    let device : Playback Unit := { polls := [{ wait := 10000000 },
      { wait := 10000000, control := { rewind := true } }], device := () }
    let w := (World.new m {} device).live [.run (Script.frontend {} .silent) 3]
    w.device.shown = w.session.machine.state.screen ∧ w.device.shown = .blank ∧
      w.device.pictures.length = 2 := by
  intro m device w
  have hm : m.IsLoaded := Machine.isLoaded_perform rfl (by decide) (.cipher default)
  refine ⟨(shown_eq_screen hm {} device ?_).1, ?_, ?_⟩
  all_goals decide +kernel

end ChipEight
