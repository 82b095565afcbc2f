import ChipEight.ByteStream.Seeded
import ChipEight.Proofs.Rates
import ChipEight.Proofs.Shutdown

/-!
# The last picture of a program that halts

A turn shows the picture behind all of its cycles, and a cycle that halts the machine ends the turn
before that (`shown_of_halted`). So the picture that a halting program leaves on the screen is the
one that the machine had when the last turn began: what earlier cycles of that turn have drawn is on
the machine and is not shown. A turn that finds a single cycle due draws nothing before it halts
(`not_cutsOff_of_due_le_one`), and any other turn that ends well has shown what it drew.
-/

namespace ChipEight

variable {σ : Type}

namespace Turn

open World

/-- No call that a turn makes to the frontend fails. -/
structure Answered (f : Frontend σ) (w : World σ) : Prop where
  polls : (w.pollReply f).result.isOk = true
  shows : w.shows f = true → (w.renderReply f).result.isOk = true
  plays : w.plays f = true → (w.beepReply f).result.isOk = true

instance (f : Frontend σ) (w : World σ) : Decidable (Answered f w) :=
  decidable_of_iff (_ ∧ _ ∧ _)
    ⟨fun h => ⟨h.1, h.2.1, h.2.2⟩, fun h => ⟨h.polls, h.shows, h.plays⟩⟩

/-- A cycle of a turn halts the machine, and another has drawn before. -/
def CutsOff (f : Frontend σ) (w : World σ) : Prop :=
  (∃ s ∈ w.steps f, s.halts = true) ∧ ∃ s ∈ w.steps f, s.draws = true ∧ s.halts = false

instance (f : Frontend σ) (w : World σ) : Decidable (CutsOff f w) :=
  inferInstanceAs (Decidable (_ ∧ _))

section

variable {f : Frontend σ} {w w' : World σ} {P I : World σ → Prop} {fault : Fault} {n : Nat}

theorem Answered.halts_of_error (h : Answered f w) (hrun : (once f).run w = .error fault w') :
    (∃ c, w.Laboured f c w') ∧ (w.steps f).any Step.halts = true := by
  have hends := once_ends f w
  rw [hrun] at hends
  cases hends with
  | pollFails hp =>
    have hpolls := h.polls
    rw [hp] at hpolls
    cases hpolls
  | halts hl hh => exact ⟨⟨_, hl⟩, hh⟩
  | renderFails hl hh ht hr =>
    have hshows := h.shows (by simp [World.shows, hh, ht])
    rw [← hl.renderReply, hr] at hshows
    cases hshows
  | beepFails hl hh htone hr hs =>
    have hplays := h.plays ((plays_of_shown hh hs).2.trans (hl.toneWaits _ ▸ htone))
    rw [← hl.beepReply, hr] at hplays
    cases hplays

theorem eq_of_cycle_mem_steps {c : Control} (hc : (w.pollReply f).result = .ok c)
    (hdue : ((w.polled f).handOut c).2.cycles ≤ 1) {s : Step} (hs : s ∈ w.steps f)
    (ho : s.operation = .cycle) : s = ⟨(w.polled f).session.machine, .cycle⟩ := by
  have hone : (if (w.polled f).session.cancelled then 0
      else ((w.polled f).handOut c).2.cycles) ≤ 1 := by
    split <;> omega
  simp only [World.steps, labour, hc, labourFor] at hs
  generalize (w.polled f).session.machine = m at hs ⊢
  generalize (if (w.polled f).session.cancelled then 0
    else ((w.polled f).handOut c).2.cycles) = n at hs hone
  split at hs
  · cases hs
  split at hs
  · have hmem := Machine.operation_mem_of_mem_steps hs
    rw [ho] at hmem
    cases Machine.eq_reverse_of_mem_retreat hmem
  -- the ticks behind the batch do not matter
  have hbatch : s ∈ m.steps (m.batch n) := by
    split at hs
    · exact hs
    · rw [Machine.steps_append, List.mem_append] at hs
      refine hs.resolve_right fun hticks => ?_
      have hmem := Machine.operation_mem_of_mem_steps hticks
      rw [ho] at hmem
      exact Machine.cycle_notMem_replicate_tick _ hmem
  rcases Nat.le_one_iff_eq_zero_or_eq_one.mp hone with rfl | rfl
  · cases hbatch
  · rw [Machine.batch, Machine.batch, ite_self] at hbatch
    exact List.mem_singleton.mp hbatch

theorem not_cutsOff_of_due_le_one {c : Control} (hc : (w.pollReply f).result = .ok c)
    (hdue : ((w.polled f).handOut c).2.cycles ≤ 1) : ¬CutsOff f w := by
  rintro ⟨⟨s, hs, hhalts⟩, s', hs', hdraws, hgoes⟩
  have hcycle : s.operation = .cycle := by
    by_contra hne
    rw [Step.halts_of_ne hne] at hhalts
    cases hhalts
  have hcycle' : s'.operation = .cycle := by
    by_contra hne
    rw [Step.draws_of_ne hne] at hdraws
    cases hdraws
  -- both are the one cycle of the turn
  rw [eq_of_cycle_mem_steps hc hdue hs' hcycle', ← eq_of_cycle_mem_steps hc hdue hs hcycle,
    hhalts] at hgoes
  cases hgoes

theorem exists_last_turn (step : ∀ w w', I w → (once f).run w = .ok () w' → I w')
    (hall : Every P f n w) (hw : I w) (h : (upTo f n).run w = .error fault w') :
    ∃ k v, k < n ∧ (upTo f k).run w = .ok false v ∧ P v ∧ I v ∧
      (once f).run v = .error fault w' := by
  induction n generalizing w with
  | zero => cases h
  | succ n ih =>
    rw [run_upTo_succ] at h
    cases hc : w.session.cancelled with
    | true =>
      rw [hc] at h
      cases h
    | false =>
      obtain ⟨hfirst, hrest⟩ := hall hc
      rw [hc, if_neg Bool.false_ne_true] at h
      cases hr : (once f).run w with
      | error fault₁ w₁ =>
        rw [hr] at h
        cases h
        refine ⟨0, w, Nat.succ_pos n, ?_, hfirst, hw, hr⟩
        rw [← hc]
        rfl
      | ok u w₁ =>
        rw [hr] at h
        obtain ⟨k, v, hk, hrun, hP, hI, hlast⟩ := ih (hrest w₁ hr) (step w w₁ hw hr) h
        refine ⟨k + 1, v, Nat.succ_lt_succ hk, ?_, hP, hI, hlast⟩
        rw [run_upTo_succ, hc, if_neg Bool.false_ne_true, hr]
        exact hrun

theorem restores_of_halts (hh : (w.steps f).any Step.halts = true) {s : Step}
    (hs : s ∈ w.steps f) : s.restores = false := by
  refine Step.restores_of_ne fun ho => ?_
  have hmem := Machine.operation_mem_of_mem_steps hs
  rw [ho] at hmem
  rcases w.labour_cases f with ⟨n, hl⟩ | ⟨n, k, hl, _⟩
  · have hno : Operation.cycle ∉ w.labour f := by
      intro hcycle
      rw [hl] at hcycle
      cases Machine.eq_reverse_of_mem_retreat hcycle
    rw [World.steps, Machine.any_halts_of_no_cycle hno] at hh
    cases hh
  · rw [hl, List.mem_append] at hmem
    rcases hmem with hmem | hmem
    · cases Machine.eq_cycle_of_mem_batch hmem
    · cases List.eq_of_mem_replicate hmem

theorem screen_worked_of_halts (hh : (w.steps f).any Step.halts = true) (hcut : ¬CutsOff f w) :
    (w.worked f).state.screen = w.session.machine.state.screen := by
  refine Machine.screen_run fun s hs => ⟨fun hd => ?_, restores_of_halts hh hs⟩
  by_contra hgoes
  exact hcut ⟨List.any_eq_true.mp hh, s, hs, hd, Bool.eq_false_iff.mpr hgoes⟩

end

section

variable {f : Frontend σ} {w w₁ : World (Recorded σ)} {c : Control}

theorem shown_of_halted (hl : w.Laboured f.recorded c w₁) :
    w₁.device.pictures = w.device.pictures ∧ w₁.device.shown = w.device.shown := by
  have hpictures : w₁.device.pictures = w.device.pictures := by
    rw [hl.device]
    exact w.pictures_polled f
  exact ⟨hpictures, by rw [Recorded.shown, Recorded.shown, hpictures]⟩

/-- A turn whose calls are answered and that cuts nothing off leaves the picture of the machine on
the screen, whether it ends well or with a fault. -/
theorem shown_after_once (ha : Answered f.recorded w) (hcut : ¬CutsOff f.recorded w)
    (hw : w.device.shown = w.session.machine.state.screen) :
    (w.after (once f.recorded)).device.shown =
      (w.after (once f.recorded)).session.machine.state.screen := by
  unfold World.after
  cases hrun : (once f.recorded).run w with
  | ok _ w' => exact shown_step hrun hw
  | error fault w' =>
    obtain ⟨⟨c, hl⟩, hh⟩ := ha.halts_of_error hrun
    show w'.device.shown = w'.session.machine.state.screen
    rw [(shown_of_halted hl).2, hw, hl.machine, screen_worked_of_halts hh hcut]

end

end Turn

open Turn in
/-- **A halting program's last picture is shown, unless its last turn cuts it off.** Let every call
to the frontends of a session be answered and no turn of it have cut off what it drew, however its
earlier runs have ended. Then what is shown is the picture of the machine. Let a further run end
with a fault, with every call answered too:

* a cycle has halted the machine in the last turn, and no picture is shown in that turn, so what is
  shown at the end is the picture that the machine had before it;
* that is the picture of the machine unless the turn has cut it off, and it has not if no more than
  one cycle had come due;
* a turn that ends well and has drawn or taken a cycle back has shown the picture behind that. -/
theorem last_picture {m : Machine} (hm : m.IsLoaded) (journal : Journal) (device : σ)
    {life : List (Episode σ)}
    (h : (World.new m journal device).EveryTurn (fun f w => Answered f w ∧ ¬CutsOff f w) life) :
    let w := (World.new m journal device).live life
    w.device.shown = w.session.machine.state.screen ∧
    ∀ (f : Frontend σ) (n : Nat) (fault : Fault) (w' : World (Recorded σ)),
      Every (Answered f.recorded) f.recorded n (w.after announce) →
      (untilCancelled f.recorded n).run w = .error fault w' →
      ∃ k v, k < n ∧ (upTo f.recorded k).run (w.after announce) = .ok false v ∧
        (once f.recorded).run v = .error fault w' ∧ (∃ s ∈ v.steps f.recorded, s.halts = true) ∧
        w'.device.pictures = v.device.pictures ∧
        w'.device.shown = v.session.machine.state.screen ∧
        (¬CutsOff f.recorded v → w'.device.shown = w'.session.machine.state.screen) ∧
        (∀ c, (v.pollReply f.recorded).result = .ok c →
          ((v.polled f.recorded).handOut c).2.cycles ≤ 1 → ¬CutsOff f.recorded v) ∧
        ∀ u u', (once f.recorded).run u = .ok () u' →
          (∃ s ∈ u.steps f.recorded, s.draws = true ∨ s.restores = true) →
          u'.device.pictures = u.device.pictures ++ [u'.session.machine.state.screen] := by
  intro w
  -- the invariant: between two turns the picture of the machine is shown
  have hshown : w.device.shown = w.session.machine.state.screen :=
    World.live_induction (P := fun f w => Answered f w ∧ ¬CutsOff f w)
      (I := fun s d => d.shown = s.machine.state.screen)
      (fun _ _ _ hturn hw => shown_after_once hturn.1 hturn.2 hw) (fun _ _ _ hw => hw) h
      hm.screen.symm
  refine ⟨hshown, fun f n fault w' hall hrun => ?_⟩
  rw [run_untilCancelled_eq_error_iff] at hrun
  obtain ⟨k, v, hk, hbefore, ha, hv, hlast⟩ := exists_last_turn
    (I := fun w => w.device.shown = w.session.machine.state.screen)
    (fun w w' hw hturn => shown_step hturn hw) hall hshown hrun
  obtain ⟨⟨c, hl⟩, hh⟩ := ha.halts_of_error hlast
  obtain ⟨hpictures, hkept⟩ := shown_of_halted hl
  refine ⟨k, v, hk, hbefore, hlast, List.any_eq_true.mp hh, hpictures, hkept.trans hv,
    fun hcut => ?_, fun c => not_cutsOff_of_due_le_one, fun u u' hturn htouch => ?_⟩
  · rw [hkept, hv, hl.machine, screen_worked_of_halts hh hcut]
  · rcases pictures_of_once hturn with ⟨_, hp⟩ | ⟨ht, _, _⟩
    · exact hp
    · obtain ⟨s, hs, htouches⟩ := htouch
      have hnone := List.any_eq_false.mp ht s hs
      rw [Step.touches, Bool.or_eq_true] at hnone
      exact absurd htouches hnone

/-- A sprite and a return from nowhere. -/
def spriteAndHalt : List UInt8 := [0xD0, 0x05, 0x00, 0xEE]

open Turn in
/-- The sprite is drawn and shown in one turn and the next one halts; a second run only halts. -/
theorem last_picture_behind_sprite :
    let m := (Machine.fresh { clockHz := 100 } (.cipher default)).perform (.load spriteAndHalt)
    let device : Playback Unit :=
      { polls := List.replicate 3 { wait := 10000000 }, device := () }
    let f : Frontend (Playback Unit) := Script.frontend {} .silent
    let w := (World.new m {} device).live [.run f 2]
    ∃ w', (untilCancelled f.recorded 1).run w = .error (.stackUnderflow 0x202) w' ∧
      w'.device.shown = w'.session.machine.state.screen ∧ w'.device.shown ≠ .blank := by
  intro m device f w
  have hm : m.IsLoaded := Machine.isLoaded_perform rfl (by decide) (.cipher default)
  have hlife : (World.new m {} device).EveryTurn (fun f w => Answered f w ∧ ¬CutsOff f w)
      [.run f 2] := by decide +kernel
  have hall : Every (Answered f.recorded) f.recorded 1 (w.after announce) := by decide +kernel
  have hwhole : ¬CutsOff f.recorded (w.after announce) := by decide +kernel
  have hends : failsWith (untilCancelled f.recorded 1) (.stackUnderflow 0x202)
      (fun w' => w'.device.shown != .blank) w = true := by decide +kernel
  obtain ⟨w', hrun, hlit⟩ := exists_of_failsWith hends
  obtain ⟨k, v, hk, hbefore, _, _, _, _, hshown, _⟩ :=
    (last_picture hm {} device hlife).2 f 1 _ w' hall hrun
  obtain rfl := Nat.lt_one_iff.mp hk
  obtain rfl := eq_of_upTo_zero hbefore
  exact ⟨w', hrun, hshown hwhole, bne_iff_ne.mp hlit⟩

open Turn in
/-- A look at the keys takes as long as two cycles. The sprite is drawn and the machine halts in one
turn, and the sprite is not shown. -/
theorem last_picture_cut_off :
    let m := (Machine.fresh { clockHz := 100 } (.cipher default)).perform (.load spriteAndHalt)
    let device : Playback Unit := { polls := [{ wait := 20000000 }], device := () }
    let f : Frontend (Playback Unit) := Script.frontend {} .silent
    let w := World.new m {} device
    m.IsLoaded ∧ Every (Answered f.recorded) f.recorded 1 (w.after announce) ∧
    ∃ w', (untilCancelled f.recorded 1).run w = .error (.stackUnderflow 0x202) w' ∧
      w'.device.pictures = [] ∧ w'.device.shown = .blank ∧
      w'.session.machine.state.screen = Screen.sprite 0 0 [0xF0, 0x90, 0x90, 0x90, 0xF0] ∧
      w'.device.shown ≠ w'.session.machine.state.screen := by
  intro m device f w
  have hends : failsWith (untilCancelled f.recorded 1) (.stackUnderflow 0x202)
      (fun w' => w'.device.pictures.isEmpty &&
        w'.session.machine.state.screen == Screen.sprite 0 0 [0xF0, 0x90, 0x90, 0x90, 0xF0])
      w = true := by
    decide +kernel
  refine ⟨Machine.isLoaded_perform rfl (by decide) (.cipher default), by decide +kernel, ?_⟩
  obtain ⟨w', hrun, hpictures⟩ := exists_of_failsWith hends
  rw [Bool.and_eq_true, beq_iff_eq, List.isEmpty_iff] at hpictures
  obtain ⟨hnone, hscreen⟩ := hpictures
  have hshown : w'.device.shown = .blank := by rw [Recorded.shown, hnone]; rfl
  refine ⟨w', hrun, hnone, hshown, hscreen, ?_⟩
  rw [hshown, hscreen]
  decide +kernel

end ChipEight
