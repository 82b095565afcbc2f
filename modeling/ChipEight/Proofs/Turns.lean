import ChipEight.Frontend.Script
import ChipEight.Proofs.Batches
import ChipEight.Session.Turn

/-!
# Turns

`once_ends` says once how a turn can go: the look at the keys fails, the user quits, a cycle halts
the machine, or the work is done and the turn goes on to present it. What it does to the machine in
between is its `labour`, a list of operations that is read off the world before the turn. The calls
that the frontend receives are counted on a recorded frontend.
-/

namespace ChipEight

variable {σ α : Type}

namespace World

/-- The answer to the look at the keys that a turn begins with. -/
def pollReply (w : World σ) (f : Frontend σ) : PollReply σ :=
  f.poll w.session.now w.session.machine.keys w.device

def polled (w : World σ) (f : Frontend σ) : World σ := w.afterPoll (w.pollReply f)

/-- The pacing behind a look at the clock, and the work that it hands out. -/
def handOut (w : World σ) (c : Control) : Pacing × Due :=
  w.session.pacing.advance w.session.now (if c.fastForward then fastForwardSpeed else 1)

def paced (w : World σ) (c : Control) : World σ :=
  { w with session := { w.session with pacing := (w.handOut c).1 } }

/-- The operations with which the work that has come due is done: reversals, or cycles and then
ticks, which a halting cycle prevents. -/
def labourFor (w : World σ) (c : Control) : List Operation :=
  let due := (w.handOut c).2
  let m := w.session.machine
  if c.rewind then m.retreat due.cycles
  else
    let batch := m.batch (if w.session.cancelled then 0 else due.cycles)
    if (m.steps batch).any Step.halts then batch else batch ++ .replicate due.ticks .tick

/-- What a turn does to the machine once it has looked at the keys. -/
def labour (w : World σ) (f : Frontend σ) : List Operation :=
  match (w.pollReply f).result with
  | .error _ => []
  | .ok c => if c.quit then [] else (w.polled f).labourFor c

/-- The labour of a turn, each operation with the machine that it is done to. -/
def steps (w : World σ) (f : Frontend σ) : List Step :=
  (w.polled f).session.machine.steps (w.labour f)

/-- The labour of a turn is reversals, or cycles and then ticks; there are none behind a halting
cycle. -/
theorem labour_cases (w : World σ) (f : Frontend σ) :
    let m := (w.polled f).session.machine
    (∃ n, w.labour f = m.retreat n) ∨
    ∃ n k, w.labour f = m.batch n ++ .replicate k .tick ∧
      ((m.steps (m.batch n)).any Step.halts = true → k = 0) := by
  unfold labour
  split
  · exact .inl ⟨0, rfl⟩
  · split
    · exact .inl ⟨0, rfl⟩
    · unfold labourFor
      simp only
      generalize (if (w.polled f).session.cancelled then 0
        else ((w.polled f).handOut _).2.cycles) = n
      split
      · exact .inl ⟨_, rfl⟩
      · split
        · exact .inr ⟨n, 0, (List.append_nil _).symm, fun _ => rfl⟩
        · next hh => exact .inr ⟨n, _, rfl, fun h => absurd h hh⟩

theorem labourFor_of_goesOn {w : World σ} {c : Control}
    (hh : (w.session.machine.steps (w.labourFor c)).any Step.halts = false) :
    let due := (w.handOut c).2
    w.labourFor c =
      if c.rewind then w.session.machine.retreat due.cycles
      else .replicate (if w.session.cancelled then 0 else due.cycles) .cycle ++
        .replicate due.ticks .tick := by
  unfold labourFor at hh ⊢
  cases hr : c.rewind with
  | true => simp only [if_true]
  | false =>
    simp only [hr, Bool.false_eq_true, if_false] at hh ⊢
    generalize (if w.session.cancelled then 0 else (w.handOut c).2.cycles) = n at hh ⊢
    split at hh
    · next h =>
      rw [h] at hh
      cases hh
    · next h => rw [if_neg h, Machine.batch_eq_replicate (Bool.eq_false_iff.mpr h)]

theorem labour_of_goesOn {w : World σ} {f : Frontend σ} {c : Control}
    (hc : (w.pollReply f).result = .ok c) (hq : c.quit = false)
    (hh : (w.steps f).any Step.halts = false) :
    let due := ((w.polled f).handOut c).2
    w.labour f =
      if c.rewind then (w.polled f).session.machine.retreat due.cycles
      else .replicate (if (w.polled f).session.cancelled then 0 else due.cycles) .cycle ++
        .replicate due.ticks .tick := by
  have hlabour : w.labour f = (w.polled f).labourFor c := by
    simp only [labour, hc, hq, Bool.false_eq_true, if_false]
  rw [steps, hlabour] at hh
  rw [hlabour]
  exact labourFor_of_goesOn hh

theorem cycle_notMem_labour {w : World σ} {f : Frontend σ}
    (h : (w.polled f).session.cancelled = true) : .cycle ∉ w.labour f := by
  intro hmem
  rw [labour] at hmem
  split at hmem
  · cases hmem
  split at hmem
  · cases hmem
  rw [labourFor, h] at hmem
  simp only [if_true, Machine.batch, Machine.steps, List.any_nil, Bool.false_eq_true, if_false,
    List.nil_append] at hmem
  split at hmem
  · cases Machine.eq_reverse_of_mem_retreat hmem
  · exact Machine.cycle_notMem_replicate_tick _ hmem

/-- The world behind a picture. -/
def rendered (w : World σ) (f : Frontend σ) : World σ :=
  w.afterCall (f.render w.session.machine.state.screen w.device)

/-- Whether a look into the mailbox finds a tone. -/
def toneWaits (w : World σ) : Bool := w.session.listening && w.session.machine.mailbox.pending

/-- The world behind a look into the mailbox. -/
def silenced (w : World σ) : World σ :=
  if w.session.listening then
    { w with session := { w.session with machine := w.session.machine.receiveTone.1 } }
  else w

/-- The world behind a tone that was found. -/
def beeped (w : World σ) (f : Frontend σ) : World σ := w.silenced.afterCall (f.beep w.device)

/-- The world behind the picture, if it has to be shown. -/
def pictured (w : World σ) (f : Frontend σ) (drawn : Bool) : World σ :=
  if drawn then w.rendered f else w

/-- The world behind the tone, if there is one. -/
def sounded (w : World σ) (f : Frontend σ) : World σ := if w.toneWaits then w.beeped f else w

def rested (w : World σ) : World σ := { w with session := w.session.rest }

/-- The answer to the picture, if the labour of a turn touches it. -/
def renderReply (w : World σ) (f : Frontend σ) : Reply σ Unit :=
  f.render ((w.polled f).session.machine.run (w.labour f)).state.screen (w.polled f).device

/-- Whether a tone waits behind the labour of a turn in which the user does not quit. -/
def sounds (w : World σ) (f : Frontend σ) : Bool :=
  match (w.pollReply f).result with
  | .error _ => false
  | .ok c => !c.quit &&
    (w.session.listening && ((w.polled f).session.machine.run (w.labour f)).mailbox.pending)

/-- The answer to the tone, if one waits. -/
def beepReply (w : World σ) (f : Frontend σ) : Reply σ Unit :=
  f.beep (if (w.steps f).any Step.touches then (w.renderReply f).device else (w.polled f).device)

/-- `w'` is the world in which a turn from `w` has done its labour for a user who asked for `c`. -/
structure Laboured (w : World σ) (f : Frontend σ) (c : Control) (w' : World σ) : Prop where
  asked : (w.pollReply f).result = .ok c
  stays : c.quit = false
  device : w'.device = (w.polled f).device
  session : w'.session = { (w.polled f).session with
    machine := (w.polled f).session.machine.run (w.labour f)
    pacing := ((w.polled f).handOut c).1 }

theorem toneWaits_pictured (w : World σ) (f : Frontend σ) (drawn : Bool) :
    (w.pictured f drawn).toneWaits = w.toneWaits := by
  cases drawn <;> rfl

namespace Laboured

variable {w w' : World σ} {f : Frontend σ} {c : Control}

theorem renderReply (h : w.Laboured f c w') :
    f.render w'.session.machine.state.screen w'.device = w.renderReply f := by
  rw [h.session, h.device]
  rfl

theorem toneWaits (h : w.Laboured f c w') (drawn : Bool) :
    (w'.pictured f drawn).toneWaits = w.sounds f := by
  have hsounds : w.sounds f = (w.session.listening &&
      ((w.polled f).session.machine.run (w.labour f)).mailbox.pending) := by
    simp only [sounds, h.asked, h.stays, Bool.not_false, Bool.true_and]
  rw [toneWaits_pictured, hsounds, World.toneWaits, h.session]
  rfl

theorem beepReply (h : w.Laboured f c w') :
    f.beep (w'.pictured f ((w.steps f).any Step.touches)).device = w.beepReply f := by
  unfold World.beepReply
  cases (w.steps f).any Step.touches with
  | false => exact congrArg f.beep h.device
  | true => exact congrArg (fun r : Reply σ Unit => f.beep r.device) h.renderReply

end Laboured

theorem steps_of_pollFails {f : Frontend σ} {w : World σ} {fault : Fault}
    (h : (w.pollReply f).result = .error fault) : w.steps f = [] := by
  simp only [steps, labour, h, Machine.steps]

theorem steps_of_quit {f : Frontend σ} {w : World σ} {c : Control}
    (hc : (w.pollReply f).result = .ok c) (hq : c.quit = true) : w.steps f = [] := by
  simp only [steps, labour, hc, hq, if_true, Machine.steps]

end World

namespace Turn

open World

variable {f : Frontend σ} {w : World σ}

/-! ### Stages of a turn -/

theorem run_conclude (r : Except Fault α) (w : World σ) :
    (conclude r).run w = match r with
      | .ok a => .ok a w
      | .error fault => .error fault w := by
  cases r <;> rfl

theorem run_poll (f : Frontend σ) (w : World σ) :
    (poll f).run w = (conclude (w.pollReply f).result).run (w.polled f) := rfl

theorem run_render (f : Frontend σ) (w : World σ) :
    (render f).run w =
      (conclude (f.render w.session.machine.state.screen w.device).result).run (w.rendered f) :=
  rfl

theorem run_takeTone (w : World σ) : takeTone.run w = .ok w.toneWaits w.silenced := by
  show (if w.session.listening then _ else _ : Turn σ Bool).run w = _
  unfold toneWaits silenced
  cases w.session.listening <;> rfl

theorem run_due (w : World σ) (c : Control) :
    (due c.fastForward).run w =
      .ok (w.handOut c).2 (w.paced c) := rfl

theorem run_rewind (w : World σ) (n : Nat) :
    (rewind n).run w = .ok (w.bench.rewind n).2 (w.withBench (w.bench.rewind n).1) := rfl

theorem run_work (w : World σ) (due : Due) :
    (work due).run w =
      match w.bench.cycles false false (if w.session.cancelled then 0 else due.cycles) with
      | (b, .ok drawn) => .ok drawn (w.withBench (b.ticks due.ticks))
      | (b, .error fault) => .error fault (w.withBench b) := by
  show ((conclude (w.bench.cycles w.session.cancelled false due.cycles).2) >>= _).run
    (w.withBench _) = _
  rw [EStateM.run_bind, run_conclude, Workbench.cycles_eq]
  cases h : w.bench.cycles false false (if w.session.cancelled then 0 else due.cycles) with
  | mk b r => cases r <;> rfl

@[simp] theorem toneWaits_silenced (w : World σ) : w.silenced.toneWaits = false := by
  unfold silenced toneWaits
  cases h : w.session.listening
  · simp [h]
  · simp [Machine.receiveTone, Mailbox.receive]

@[simp] theorem toneWaits_beeped (w : World σ) (f : Frontend σ) :
    (w.beeped f).toneWaits = false := toneWaits_silenced w

theorem silenced_of_not_toneWaits (h : w.toneWaits = false) : w.silenced = w := by
  unfold silenced
  split
  · next hl =>
    have hp : w.session.machine.mailbox.pending = false := by simpa [toneWaits, hl] using h
    obtain ⟨⟨⟨settings, state, history, keys, random, ⟨pending, sender, receiver⟩, taken⟩, _⟩, _⟩ :=
      w
    simp only at hp
    subst hp
    rfl
  · rfl

theorem run_drain_of_not_toneWaits (h : w.toneWaits = false) (looks : Nat) :
    (drain f looks).run w = .ok () w := by
  cases looks with
  | zero => rfl
  | succ n =>
    rw [drain, EStateM.run_bind, run_takeTone, h, silenced_of_not_toneWaits h]
    rfl

/-- Two looks are enough: the mailbox holds one tone at most, and nothing sends while tones are
played. -/
theorem run_drain (f : Frontend σ) (w : World σ) (looks : Nat) :
    (drain f (looks + 2)).run w =
      if w.toneWaits then (conclude (f.beep w.device).result).run (w.beeped f) else .ok () w := by
  cases h : w.toneWaits with
  | false => exact run_drain_of_not_toneWaits h _
  | true =>
    rw [drain, EStateM.run_bind, run_takeTone, h]
    have hd : w.silenced.device = w.device := by
      unfold silenced
      split <;> rfl
    show ((conclude (f.beep w.silenced.device).result >>= fun _ => drain f (looks + 1)).run
      (w.silenced.afterCall (f.beep w.silenced.device))) = _
    rw [hd, EStateM.run_bind, run_conclude, run_conclude]
    cases (f.beep w.device).result with
    | error fault => rfl
    | ok u => exact run_drain_of_not_toneWaits (toneWaits_beeped w f) _

/-- The ways in which a turn can end. -/
inductive Ends (f : Frontend σ) (w : World σ) : EStateM.Result Fault (World σ) Unit → Prop
  | pollFails {fault : Fault} : (w.pollReply f).result = .error fault →
      Ends f w (.error fault (w.polled f))
  | quits {c : Control} : (w.pollReply f).result = .ok c → c.quit = true →
      Ends f w (.ok () { w.polled f with session := (w.polled f).session.cancel })
  | halts {c : Control} {w' : World σ} {fault : Fault} : w.Laboured f c w' →
      (w.steps f).any Step.halts = true → Ends f w (.error fault w')
  | renderFails {c : Control} {w' : World σ} {fault : Fault} : w.Laboured f c w' →
      (w.steps f).any Step.halts = false → (w.steps f).any Step.touches = true →
      (f.render w'.session.machine.state.screen w'.device).result = .error fault →
      Ends f w (.error fault (w'.rendered f))
  | beepFails {c : Control} {w' : World σ} {fault : Fault} : w.Laboured f c w' →
      (w.steps f).any Step.halts = false →
      (w'.pictured f ((w.steps f).any Step.touches)).toneWaits = true →
      (f.beep (w'.pictured f ((w.steps f).any Step.touches)).device).result = .error fault →
      ((w.steps f).any Step.touches = true → (w.renderReply f).result.isOk = true) →
      Ends f w (.error fault ((w'.pictured f ((w.steps f).any Step.touches)).beeped f))
  | rests {c : Control} {w' : World σ} : w.Laboured f c w' →
      (w.steps f).any Step.halts = false →
      ((w.steps f).any Step.touches = true → (w.renderReply f).result.isOk = true) →
      Ends f w (.ok () ((w'.pictured f ((w.steps f).any Step.touches)).sounded f).rested)

theorem run_sound_rest (f : Frontend σ) (w : World σ) :
    (do sound f; rest : Turn σ Unit).run w =
      match (if w.toneWaits then (f.beep w.device).result else .ok ()) with
      | .ok _ => .ok () (w.sounded f).rested
      | .error fault => .error fault (w.beeped f) := by
  rw [EStateM.run_bind, sound, run_drain, sounded]
  cases w.toneWaits with
  | false => rfl
  | true =>
    rw [if_pos rfl, if_pos rfl, if_pos rfl, run_conclude]
    cases (f.beep w.device).result <;> rfl

theorem ends_sound_rest {c : Control} {w' : World σ} (hl : w.Laboured f c w')
    (hh : (w.steps f).any Step.halts = false)
    (hs : (w.steps f).any Step.touches = true → (w.renderReply f).result.isOk = true) :
    Ends f w ((do sound f; rest : Turn σ Unit).run
      (w'.pictured f ((w.steps f).any Step.touches))) := by
  rw [run_sound_rest]
  split
  · exact .rests hl hh hs
  · next hr =>
    split at hr
    · next htone => exact .beepFails hl hh htone hr hs
    · cases hr

theorem ends_present {c : Control} {w' : World σ} (hl : w.Laboured f c w')
    (hh : (w.steps f).any Step.halts = false) :
    Ends f w ((present f ((w.steps f).any Step.touches)).run w') := by
  have hsound := ends_sound_rest hl hh
  cases ht : (w.steps f).any Step.touches with
  | false =>
    rw [ht] at hsound
    exact hsound (nomatch ·)
  | true =>
    rw [ht] at hsound
    show Ends f w ((do render f; sound f; rest : Turn σ Unit).run w')
    rw [EStateM.run_bind, run_render, run_conclude]
    cases hr : (f.render w'.session.machine.state.screen w'.device).result with
    | error fault => exact .renderFails hl hh ht hr
    | ok u => exact hsound fun _ => by rw [← hl.renderReply, hr]; rfl

theorem run_serve_rewind {c : Control} (hr : c.rewind = true) (w : World σ) :
    (serve f c).run w = (present f (w.bench.rewind (w.handOut c).2.cycles).2).run
      ((w.paced c).withBench (w.bench.rewind (w.handOut c).2.cycles).1) := by
  rw [serve, EStateM.run_bind, run_due]
  simp only [hr, if_true]
  rw [EStateM.run_bind, run_rewind]
  rfl

theorem run_serve_work {c : Control} (hr : c.rewind = false) (w : World σ) :
    (serve f c).run w =
      match w.bench.cycles false false (if w.session.cancelled then 0 else (w.handOut c).2.cycles) with
      | (b, .ok drawn) =>
        (present f drawn).run ((w.paced c).withBench (b.ticks (w.handOut c).2.ticks))
      | (b, .error fault) => .error fault ((w.paced c).withBench b) := by
  rw [serve, EStateM.run_bind, run_due]
  simp only [hr, Bool.false_eq_true, if_false]
  rw [EStateM.run_bind, run_work]
  have hbench : (w.paced c).bench = w.bench := rfl
  have hcancelled : (w.paced c).session.cancelled = w.session.cancelled := rfl
  rw [hbench, hcancelled]
  cases w.bench.cycles false false (if w.session.cancelled then 0 else (w.handOut c).2.cycles) with
  | mk b r => cases r <;> rfl

theorem ends_serve_rewind {c : Control} (hc : (w.pollReply f).result = .ok c)
    (hq : c.quit = false) (hr : c.rewind = true) : Ends f w ((serve f c).run (w.polled f)) := by
  generalize hm : (w.polled f).session.machine = m
  generalize hn : ((w.polled f).handOut c).2.cycles = n
  have hlabour : w.labour f = m.retreat n := by
    simp only [labour, hc, hq, labourFor, hr, hm, hn, Bool.false_eq_true, if_false, if_true]
  have hsteps : w.steps f = m.steps (m.retreat n) := by rw [World.steps, hm, hlabour]
  have hback : .cycle ∉ m.retreat n := fun h => nomatch Machine.eq_reverse_of_mem_retreat h
  have hhalts : (w.steps f).any Step.halts = false := by
    rw [hsteps]
    exact Machine.any_halts_of_no_cycle hback
  obtain ⟨hrun, hrewound⟩ := Workbench.rewind_spec (w.polled f).bench n
  have hbench : (w.polled f).bench.machine = m := hm
  rw [hbench] at hrun hrewound
  have hdrawn : ((w.polled f).bench.rewind n).2 = (w.steps f).any Step.touches := by
    rw [hrewound, hsteps, Machine.any_touches_of_no_cycle hback]
  rw [run_serve_rewind hr, hn, hdrawn]
  refine ends_present ⟨hc, hq, rfl, ?_⟩ hhalts
  rw [hlabour, hm, ← hrun]
  rfl

theorem ends_serve_work {c : Control} (hc : (w.pollReply f).result = .ok c)
    (hq : c.quit = false) (hr : c.rewind = false) : Ends f w ((serve f c).run (w.polled f)) := by
  generalize hm : (w.polled f).session.machine = m
  generalize hn : (if (w.polled f).session.cancelled then 0
    else ((w.polled f).handOut c).2.cycles) = n
  generalize hk : ((w.polled f).handOut c).2.ticks = k
  have hlabour : w.labour f =
      if (m.steps (m.batch n)).any Step.halts then m.batch n
      else m.batch n ++ .replicate k .tick := by
    simp only [labour, hc, hq, labourFor, hr, hm, hn, hk, Bool.false_eq_true, if_false]
  obtain ⟨hrun, hresult⟩ := Workbench.cycles_spec (w.polled f).bench false n
  have hbench : (w.polled f).bench.machine = m := hm
  rw [hbench] at hrun hresult
  rw [run_serve_work hr, hn]
  generalize (w.polled f).bench.cycles false false n = answer at hrun hresult
  obtain ⟨b, r⟩ := answer
  rcases hresult with ⟨hh, rfl⟩ | ⟨hh, fault, rfl⟩
  · -- the batch is complete, and the ticks follow
    have hno := Machine.cycle_notMem_replicate_tick k
    rw [hh, if_neg Bool.false_ne_true] at hlabour
    have hsteps : w.steps f =
        m.steps (m.batch n) ++ (m.run (m.batch n)).steps (.replicate k .tick) := by
      rw [World.steps, hm, hlabour, Machine.steps_append]
    have hhalts : (w.steps f).any Step.halts = false := by
      rw [hsteps, List.any_append, hh, Machine.any_halts_of_no_cycle hno, Bool.or_false]
    have hback : .reverse ∉ m.batch n ++ .replicate k .tick := by
      intro h
      rcases List.mem_append.mp h with h | h
      · cases Machine.eq_cycle_of_mem_batch h
      · cases List.eq_of_mem_replicate h
    have htouches : (w.steps f).any Step.touches = (m.steps (m.batch n)).any Step.draws := by
      rw [World.steps, hm, hlabour, Machine.any_touches_of_no_reverse hback, Machine.steps_append,
        List.any_append, Machine.any_draws_of_no_cycle hno, Bool.or_false]
    rw [Bool.false_or, ← htouches]
    refine ends_present ⟨hc, hq, rfl, ?_⟩ hhalts
    rw [hlabour, Machine.run_append, hm, ← hrun, ← Workbench.ticks_machine, hk]
    rfl
  · -- the batch is cut off at a cycle that halts, and there are no ticks
    rw [hh, if_pos rfl] at hlabour
    refine .halts (c := c) ⟨hc, hq, rfl, ?_⟩ ?_
    · rw [hlabour, hm, ← hrun]
      rfl
    · rw [World.steps, hm, hlabour]
      exact hh

theorem ends_serve {c : Control} (hc : (w.pollReply f).result = .ok c) (hq : c.quit = false) :
    Ends f w ((serve f c).run (w.polled f)) := by
  cases hr : c.rewind with
  | true => exact ends_serve_rewind hc hq hr
  | false => exact ends_serve_work hc hq hr

theorem once_ends (f : Frontend σ) (w : World σ) : Ends f w ((once f).run w) := by
  show Ends f w ((poll f >>= fun c => if c.quit then cancel else serve f c).run w)
  rw [EStateM.run_bind, run_poll, run_conclude]
  cases hc : (w.pollReply f).result with
  | error fault => exact .pollFails hc
  | ok c =>
    cases hq : c.quit with
    | true =>
      simp only [hq, if_true]
      exact .quits hc hq
    | false =>
      simp only [hq, Bool.false_eq_true, if_false]
      exact ends_serve hc hq

/-- Nothing goes wrong in a turn: the calls to the frontend succeed and no cycle halts the
machine. -/
structure Smooth (f : Frontend σ) (w : World σ) : Prop where
  polls : (w.pollReply f).result.isOk = true
  goesOn : (w.steps f).any Step.halts = false
  shows : (w.steps f).any Step.touches = true → (w.renderReply f).result.isOk = true
  plays : w.sounds f = true → (w.beepReply f).result.isOk = true

instance (f : Frontend σ) (w : World σ) : Decidable (Smooth f w) :=
  decidable_of_iff (_ ∧ _ ∧ _ ∧ _)
    ⟨fun h => ⟨h.1, h.2.1, h.2.2.1, h.2.2.2⟩, fun h => ⟨h.polls, h.goesOn, h.shows, h.plays⟩⟩

/-- The turn comes to show the picture, and that fails. -/
structure RenderFails (f : Frontend σ) (w : World σ) : Prop where
  goesOn : (w.steps f).any Step.halts = false
  touches : (w.steps f).any Step.touches = true
  fails : (w.renderReply f).result.isOk = false

instance (f : Frontend σ) (w : World σ) : Decidable (RenderFails f w) :=
  decidable_of_iff (_ ∧ _ ∧ _)
    ⟨fun h => ⟨h.1, h.2.1, h.2.2⟩, fun h => ⟨h.goesOn, h.touches, h.fails⟩⟩

theorem Smooth.exists_run {f : Frontend σ} {w : World σ} (h : Smooth f w) :
    ∃ w', (once f).run w = .ok () w' := by
  have hends := once_ends f w
  generalize (once f).run w = result at hends ⊢
  cases hends with
  | quits => exact ⟨_, rfl⟩
  | rests => exact ⟨_, rfl⟩
  | pollFails hp =>
    have hpolls := h.polls
    rw [hp] at hpolls
    cases hpolls
  | halts hl hh =>
    rw [h.goesOn] at hh
    cases hh
  | renderFails hl hh ht hr =>
    have hshows := h.shows ht
    rw [← hl.renderReply, hr] at hshows
    cases hshows
  | beepFails hl hh htone hr =>
    have hplays := h.plays (hl.toneWaits _ ▸ htone)
    rw [← hl.beepReply, hr] at hplays
    cases hplays

end Turn

end ChipEight
