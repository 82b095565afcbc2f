import ChipEight.Proofs.Lives

/-!
# The course of a turn

A turn sets the keys, does its labour, and takes a tone that it comes to play out of the mailbox.
These operations are read off the world before it, and so is whether it shows a picture and plays a
tone; a turn that fails has stopped on the way (`behind_once`). The machine behind a turn is the run
of its operations (`machine_once`), and the machine behind some turns the run of all that they do
(`machine_upTo`), so what a run comes to can be counted on a list.
-/

namespace ChipEight

variable {σ : Type}

namespace World

/-- The machine behind the labour of a turn. -/
def worked (w : World σ) (f : Frontend σ) : Machine :=
  (w.polled f).session.machine.run (w.labour f)

def shows (w : World σ) (f : Frontend σ) : Bool :=
  !(w.steps f).any Step.halts && (w.steps f).any Step.touches

/-- Whether a turn comes to play a tone, which a picture that fails prevents. -/
def plays (w : World σ) (f : Frontend σ) : Bool :=
  !(w.steps f).any Step.halts && (!w.shows f || (w.renderReply f).result.isOk) && w.sounds f

/-- All that a turn does to the machine. -/
def operations (w : World σ) (f : Frontend σ) : List Operation :=
  .setKeys (w.pollReply f).keys :: (w.labour f ++ if w.plays f then [.receiveTone] else [])

/-- The world behind a picture and a tone, each if it is wanted. -/
def presented (w : World σ) (f : Frontend σ) (shows plays : Bool) : World σ :=
  if plays then (w.pictured f shows).beeped f else w.pictured f shows

variable {f : Frontend σ} {w w₁ : World σ} {c : Control}

theorem run_operations (w : World σ) (f : Frontend σ) :
    w.session.machine.run (w.operations f) =
      if w.plays f then (w.worked f).receiveTone.1 else w.worked f := by
  rw [operations, Machine.run_cons, Machine.run_append]
  cases w.plays f <;> rfl

theorem steps_operations (w : World σ) (f : Frontend σ) :
    w.session.machine.steps (w.operations f) =
      ⟨w.session.machine, .setKeys (w.pollReply f).keys⟩ ::
        (w.steps f ++ (w.worked f).steps (if w.plays f then [.receiveTone] else [])) := by
  rw [operations, Machine.steps, Machine.steps_append]
  rfl

theorem mem_steps_operations {s : Step} (h : s ∈ w.steps f) :
    s ∈ w.session.machine.steps (w.operations f) := by
  rw [steps_operations]
  exact List.mem_cons_of_mem _ (List.mem_append_left _ h)

theorem labour_of_dismissed (h : ∀ c, (w.pollReply f).result = .ok c → c.quit = true) :
    w.labour f = [] ∧ w.shows f = false ∧ w.plays f = false := by
  have hnone : w.labour f = [] ∧ w.sounds f = false := by
    unfold labour sounds
    cases hr : (w.pollReply f).result with
    | error fault => exact ⟨rfl, rfl⟩
    | ok c =>
      have hq := h c hr
      simp [hq]
  simp [plays, shows, steps, hnone, Machine.steps]

theorem plays_of_shown (hh : (w.steps f).any Step.halts = false)
    (hs : (w.steps f).any Step.touches = true → (w.renderReply f).result.isOk = true) :
    w.shows f = (w.steps f).any Step.touches ∧ w.plays f = w.sounds f := by
  unfold plays shows
  rw [hh]
  cases ht : (w.steps f).any Step.touches with
  | false => simp
  | true => simp [hs ht]

theorem sounds_of_plays (h : w.plays f = true) : w.sounds f = true := by
  rw [plays, Bool.and_eq_true] at h
  exact h.2

theorem session_pictured (w : World σ) (f : Frontend σ) (drawn : Bool) :
    (w.pictured f drawn).session = w.session.heed
      (drawn && (f.render w.session.machine.state.screen w.device).cancels) := by
  cases drawn <;> rfl

theorem session_sounded (w : World σ) (f : Frontend σ) :
    (w.sounded f).session = { w.session.heed (w.toneWaits && (f.beep w.device).cancels) with
      machine := if w.toneWaits then w.session.machine.receiveTone.1 else w.session.machine } := by
  unfold sounded
  cases h : w.toneWaits with
  | false => rfl
  | true =>
    have hl : w.session.listening = true := by
      rw [toneWaits, Bool.and_eq_true] at h
      exact h.1
    rw [if_pos rfl, if_pos rfl, beeped, silenced, if_pos hl, Bool.true_and]
    rfl

namespace Laboured

theorem machine (h : w.Laboured f c w₁) : w₁.session.machine = w.worked f := by
  rw [h.session]
  rfl

theorem machine_pictured (h : w.Laboured f c w₁) (drawn : Bool) :
    (w₁.pictured f drawn).session.machine = w.worked f := by
  rw [session_pictured]
  exact h.machine

theorem machine_presented (h : w.Laboured f c w₁) (shows : Bool) :
    (w₁.presented f shows (w.plays f)).session.machine =
      w.session.machine.run (w.operations f) := by
  rw [run_operations, presented]
  cases hp : w.plays f with
  | false => exact h.machine_pictured shows
  | true =>
    have htone : (w₁.pictured f shows).toneWaits = true :=
      (h.toneWaits shows).trans (sounds_of_plays hp)
    have hsounded : (w₁.pictured f shows).sounded f = (w₁.pictured f shows).beeped f := if_pos htone
    rw [if_pos rfl, if_pos rfl, ← hsounded, session_sounded, htone, h.machine_pictured]
    rfl

end Laboured

/-- The worlds that a turn can leave behind, whether it ends well or fails. -/
inductive Behind (w : World σ) (f : Frontend σ) : World σ → Prop
  | polled : (∀ c, (w.pollReply f).result = .ok c → c.quit = true) → Behind w f (w.polled f)
  | quit : (∀ c, (w.pollReply f).result = .ok c → c.quit = true) →
      Behind w f { w.polled f with session := (w.polled f).session.cancel }
  | failed {c : Control} {w₁ : World σ} : w.Laboured f c w₁ →
      Behind w f (w₁.presented f (w.shows f) (w.plays f))
  | rested {c : Control} {w₁ : World σ} : w.Laboured f c w₁ →
      Behind w f (w₁.presented f (w.shows f) (w.plays f)).rested

theorem behind_once (w : World σ) (f : Frontend σ) : w.Behind f (w.after (Turn.once f)) := by
  have hends := Turn.once_ends f w
  unfold after
  generalize (Turn.once f).run w = result at hends
  cases hends with
  | pollFails hp => exact .polled (by simp [hp])
  | quits hc hq =>
    refine .quit fun c hc' => ?_
    rw [hc] at hc'
    cases hc'
    exact hq
  | @halts c w₁ _ hl hh =>
    have hshows : w.shows f = false := by simp [shows, hh]
    have hplays : w.plays f = false := by simp [plays, hh]
    have hbehind := Behind.failed hl
    rwa [hshows, hplays] at hbehind
  | renderFails hl hh ht hr =>
    -- the tone would come behind the picture
    rw [hl.renderReply] at hr
    have hshows : w.shows f = true := by simp [shows, hh, ht]
    have hplays : w.plays f = false := by simp [plays, hshows, hr, Except.isOk, Except.toBool]
    have hbehind := Behind.failed hl
    rwa [hshows, hplays] at hbehind
  | beepFails hl hh htone _ hs =>
    obtain ⟨hshows, hplays⟩ := plays_of_shown hh hs
    have hbehind := Behind.failed hl
    rwa [hshows, hplays, ← hl.toneWaits, htone] at hbehind
  | @rests c w₁ hl hh hs =>
    obtain ⟨hshows, hplays⟩ := plays_of_shown hh hs
    have hbehind := Behind.rested hl
    rwa [hshows, hplays, ← hl.toneWaits ((w.steps f).any Step.touches)] at hbehind

theorem machine_of_dismissed (h : ∀ c, (w.pollReply f).result = .ok c → c.quit = true) :
    w.session.machine.run (w.operations f) = (w.polled f).session.machine := by
  obtain ⟨hlabour, _, hplays⟩ := labour_of_dismissed h
  rw [run_operations, hplays, worked, hlabour]
  rfl

/-- The machine behind a turn, also behind one that fails, is the run of what the turn does. -/
theorem machine_once (w : World σ) (f : Frontend σ) :
    (w.after (Turn.once f)).session.machine = w.session.machine.run (w.operations f) := by
  have hbehind := w.behind_once f
  generalize w.after (Turn.once f) = v at hbehind ⊢
  cases hbehind with
  | polled h => exact (machine_of_dismissed h).symm
  | quit h => exact (machine_of_dismissed h).symm
  | failed hl => exact hl.machine_presented _
  | rested hl => exact hl.machine_presented _

end World

namespace Turn

/-- All that is done to the machine in up to `n` turns. -/
def operations (f : Frontend σ) : Nat → World σ → List Operation
  | 0, _ => []
  | n + 1, w =>
    if w.session.cancelled then []
    else w.operations f ++ match (once f).run w with
      | .ok _ w' => operations f n w'
      | .error _ _ => []

variable {f : Frontend σ} {w w' : World σ}

theorem operations_of_ok (hc : w.session.cancelled = false) (hrun : (once f).run w = .ok () w')
    (n : Nat) : operations f (n + 1) w = w.operations f ++ operations f n w' := by
  rw [operations, hc, if_neg Bool.false_ne_true, hrun]

theorem steps_operations_of_ok (hc : w.session.cancelled = false)
    (hrun : (once f).run w = .ok () w') (n : Nat) :
    w.session.machine.steps (operations f (n + 1) w) =
      w.session.machine.steps (w.operations f) ++
        w'.session.machine.steps (operations f n w') := by
  rw [operations_of_ok hc hrun, Machine.steps_append, ← w.machine_once f, World.after_of_ok hrun]

theorem operations_of_error {fault : Fault} (hc : w.session.cancelled = false)
    (hrun : (once f).run w = .error fault w') (n : Nat) :
    operations f (n + 1) w = w.operations f := by
  rw [operations, hc, if_neg Bool.false_ne_true, hrun]
  exact List.append_nil _

/-- The machine behind some turns is the run of all that they do. -/
theorem machine_upTo (f : Frontend σ) (n : Nat) (w : World σ) :
    (w.after (upTo f n)).session.machine = w.session.machine.run (operations f n w) := by
  induction n generalizing w with
  | zero => rfl
  | succ n ih =>
    have hfirst := w.machine_once f
    unfold World.after at hfirst ih ⊢
    rw [run_upTo_succ]
    cases hc : w.session.cancelled with
    | true =>
      rw [operations, hc]
      rfl
    | false =>
      rw [if_neg Bool.false_ne_true]
      cases hrun : (once f).run w with
      | error fault w' =>
        rw [hrun] at hfirst
        rw [operations_of_error hc hrun]
        exact hfirst
      | ok u w' =>
        rw [hrun] at hfirst
        rw [operations_of_ok hc hrun, Machine.run_append, ← hfirst]
        exact ih w'

end Turn

end ChipEight
