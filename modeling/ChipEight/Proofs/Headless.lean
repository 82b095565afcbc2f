import ChipEight.Frontend.Terminal
import ChipEight.Proofs.RealTime
import ChipEight.Proofs.Shown
import ChipEight.Proofs.Timeless

/-!
# Frontends without a user

A plain frontend has no keys, asks for nothing and never fails; a terminal whose sink takes every
text is one. In front of it only the rests of a session take time, so no turn makes more than one
cycle (`Session.OnTime`), and what a turn comes to can be said by that cycle alone (`single`): each
cycle that draws gets a picture of its own, and a cycle that halts the machine ends the run with its
fault.
-/

namespace ChipEight

variable {σ : Type}

/-- A frontend that has no keys, asks for nothing and does not fail while its device keeps `I`. -/
structure Frontend.Plain (f : Frontend σ) (I : σ → Prop) : Prop where
  polls : ∀ now keys d, I d → ∃ d', I d' ∧
    f.poll now keys d = { device := d', keys, result := .ok {} }
  renders : ∀ screen d, I d → ∃ d', I d' ∧ f.render screen d = { device := d', result := .ok () }
  beeps : ∀ d, I d → ∃ d', I d' ∧ f.beep d = { device := d', result := .ok () }

/-! ### The terminal -/

namespace Terminal

def bellChar : Char := '\x07'

theorem toList_bell : bell.toList = [bellChar] := rfl

theorem bellChar_notMem_frame (s : Screen) : bellChar ∉ (frame s).toList := by
  intro h
  rw [frame, String.toList_append, String.toList_join, List.mem_append, List.mem_flatMap] at h
  rcases h with h | ⟨row, hrow, h⟩
  · exact absurd h (by decide)
  · obtain ⟨pixels, _, rfl⟩ := List.mem_map.mp hrow
    rw [line, String.toList_append, String.toList_ofList, List.mem_append, List.mem_map] at h
    rcases h with ⟨x, _, hx⟩ | h
    · cases hlit : pixels.getMsbD x.val <;> rw [hlit] at hx <;> exact absurd hx (by decide)
    · exact absurd h (by decide)

end Terminal

namespace Sink

/-- What has been written, without the bells. -/
def muted (s : Sink) : List Char := s.text.toList.filter (· != Terminal.bellChar)

/-- Every text can be written. -/
structure TakesAll (s : Sink) : Prop where
  unlimited : s.limit = none
  flushes : s.flushFails = false

variable {s : Sink}

theorem put_of_takesAll (h : s.TakesAll) (text : String) :
    s.put text = {
      device := { s with text := s.text ++ text, written := s.written + text.utf8ByteSize }
      result := .ok () } := by
  simp [put, hasRoom, h.unlimited, h.flushes]

theorem muted_append (s : Sink) (text : String) (written : Nat) :
    muted { s with text := s.text ++ text, written } =
      s.muted ++ text.toList.filter (· != Terminal.bellChar) := by
  simp only [muted, String.toList_append, List.filter_append]

/-- The sink takes every text, and besides what was in it at first it holds the pictures that were
shown. -/
structure Holds (first : List Char) (r : Recorded Sink) : Prop where
  takesAll : r.device.TakesAll
  muted : r.device.muted = first ++ r.pictures.flatMap fun s => (Terminal.frame s).toList

theorem Holds.start (h : s.TakesAll) : Holds s.muted { device := s } :=
  ⟨h, (List.append_nil _).symm⟩

end Sink

theorem Terminal.plain (first : List Char) : frontend.recorded.Plain (Sink.Holds first) where
  polls now keys r h := by
    refine ⟨r.after (.poll now keys) r.device, ⟨h.takesAll, ?_⟩, rfl⟩
    rw [Recorded.pictures_after, List.append_nil]
    exact h.muted
  renders screen r h := by
    have hput := Sink.put_of_takesAll h.takesAll (frame screen)
    refine ⟨r.after (.render screen) (r.device.put (frame screen)).device, ⟨?_, ?_⟩, ?_⟩
    · show (r.device.put (frame screen)).device.TakesAll
      rw [hput]
      exact ⟨h.takesAll.unlimited, h.takesAll.flushes⟩
    · have hframe : (frame screen).toList.filter (· != bellChar) = (frame screen).toList := by
        rw [List.filter_eq_self]
        intro c hc
        exact bne_iff_ne.mpr fun he => bellChar_notMem_frame screen (he ▸ hc)
      show (r.device.put (frame screen)).device.muted = _
      rw [hput, Sink.muted_append, hframe, h.muted, Recorded.pictures_after, List.flatMap_append,
        List.append_assoc, List.flatMap_singleton]
    · simp only [Frontend.recorded, frontend, hput]
  beeps r h := by
    have hput := Sink.put_of_takesAll h.takesAll bell
    refine ⟨r.after .beep (r.device.put bell).device, ⟨?_, ?_⟩, ?_⟩
    · show (r.device.put bell).device.TakesAll
      rw [hput]
      exact ⟨h.takesAll.unlimited, h.takesAll.flushes⟩
    · have hbell : bell.toList.filter (· != bellChar) = [] := by
        rw [toList_bell]
        rfl
      show (r.device.put bell).device.muted = _
      rw [hput, Sink.muted_append, hbell, Recorded.pictures_after, List.append_nil,
        List.append_nil]
      exact h.muted
    · simp only [Frontend.recorded, frontend, hput]

/-! ### The machine in a turn -/

namespace Machine

variable {m : Machine}

/-- The picture that the next cycle asks to be shown, if it does. -/
def nextPicture (m : Machine) : List Screen :=
  match m.cycle.2 with
  | .ok .redraw => [m.cycle.1.state.screen]
  | _ => []

theorem nextPicture_of_not_halts (h : Step.halts ⟨m, .cycle⟩ = false) :
    m.nextPicture = if Step.draws ⟨m, .cycle⟩ then [m.cycle.1.state.screen] else [] := by
  unfold nextPicture
  rcases cycle_of_not_halts h with ⟨hd, hr⟩ | ⟨hd, _, hr | ⟨w, hr⟩⟩ <;> rw [hd, hr] <;> rfl

theorem timeless_ticks (m : Machine) (k : Nat) :
    (m.run (.replicate k .tick)).timeless = m.timeless := by
  induction k generalizing m with
  | zero => rfl
  | succ k ih => exact ih m.tick

theorem any_touches_ticks (m : Machine) (k : Nat) :
    (m.steps (.replicate k .tick)).any Step.touches = false := by
  have hno : Operation.reverse ∉ List.replicate k .tick := by
    intro h
    cases List.eq_of_mem_replicate h
  rw [any_touches_of_no_reverse hno, any_draws_of_no_cycle (cycle_notMem_replicate_tick k)]

theorem timeless_takeReceiver (m : Machine) : m.takeReceiver.1.timeless = m.timeless := rfl

end Machine

theorem Workbench.cycles_of_halts {b : Workbench} {fault : Fault}
    (h : b.machine.cycle = (b.machine, .error fault)) (hf : fault.isRecoverable = false)
    (drawn : Bool) (n : Nat) :
    (b.cycles false drawn (n + 1)).1.machine = b.machine ∧
      (b.cycles false drawn (n + 1)).2 = .error fault := by
  simp [cycles, cycle, h, hf, report]

/-! ### The turns of a plain session -/

namespace World

variable {f : Frontend σ} {I : σ → Prop} {w : World σ} {settings : Settings} {done : List Operation}

/-- The world of a session that goes on in front of a plain frontend, with some operations done. -/
structure Runs (I : σ → Prop) (settings : Settings) (done : List Operation) (w : World σ) : Prop where
  device : I w.device
  going : w.session.cancelled = false
  onTime : w.session.OnTime settings done

theorem pollReply_of_plain (hf : f.Plain I) (h : I w.device) :
    (w.pollReply f).result = .ok {} ∧ (w.pollReply f).elapsed = 0 ∧
      (w.polled f).session = w.session ∧ I (w.polled f).device := by
  obtain ⟨d, hd, hpoll⟩ := hf.polls w.session.now w.session.machine.keys w.device h
  have hreply : w.pollReply f = _ := hpoll
  unfold polled
  rw [hreply]
  refine ⟨rfl, rfl, ?_, hd⟩
  simp only [afterPoll, afterCall, Nat.add_zero]
  rfl

theorem undisturbed_of_plain (hf : f.Plain I) (h : I w.device) : Turn.Undisturbed f w := by
  obtain ⟨hresult, helapsed, _⟩ := pollReply_of_plain hf h
  refine ⟨helapsed, fun c hc => ?_⟩
  cases hresult.symm.trans hc
  exact ⟨rfl, rfl⟩

theorem device_pictured (hf : f.Plain I) (h : I w.device) (drawn : Bool) :
    I (w.pictured f drawn).device ∧ (w.pictured f drawn).session = w.session := by
  cases drawn with
  | false => exact ⟨h, rfl⟩
  | true =>
    obtain ⟨d, hd, hrender⟩ := hf.renders w.session.machine.state.screen w.device h
    simp only [pictured, rendered, afterCall, hrender, if_true]
    exact ⟨hd, rfl⟩

theorem device_sounded (hf : f.Plain I) (h : I w.device) :
    I (w.sounded f).device ∧ (w.sounded f).session.cancelled = w.session.cancelled ∧
      (w.sounded f).session.machine.timeless = w.session.machine.timeless := by
  unfold sounded
  split
  · obtain ⟨d, hd, hbeep⟩ := hf.beeps w.device h
    have hsilenced : w.silenced.device = w.device ∧
        w.silenced.session.cancelled = w.session.cancelled ∧
        w.silenced.session.machine.timeless = w.session.machine.timeless := by
      unfold silenced
      split <;> exact ⟨rfl, rfl, rfl⟩
    simp only [beeped, afterCall, hbeep]
    exact ⟨hd, hsilenced.2⟩
  · exact ⟨h, rfl, rfl⟩

theorem labour_of_plain (hf : f.Plain I) (h : w.Runs I settings done)
    (hs : settings.check = .ok ()) :
    let m := w.session.machine
    let due := ((w.polled f).handOut {}).2
    (due.cycles = 0 ∧ w.labour f = .replicate due.ticks .tick) ∨
    (due.cycles = 1 ∧ Step.halts ⟨m, .cycle⟩ = true ∧ w.labour f = [.cycle]) ∨
    (due.cycles = 1 ∧ Step.halts ⟨m, .cycle⟩ = false ∧
      w.labour f = .cycle :: .replicate due.ticks .tick) := by
  intro m due
  obtain ⟨hresult, _, hsession, _⟩ := pollReply_of_plain hf h.device
  have hdue : due = (w.session.pacing.advance w.session.now 1).2 := by
    show ((w.polled f).session.pacing.advance (w.polled f).session.now 1).2 = _
    rw [hsession]
  have hone : due.cycles ≤ 1 := by
    rw [hdue]
    exact ((h.onTime.advance hs).1 .cycles).2.2.2
  have hlabour : w.labour f = if (m.steps (m.batch due.cycles)).any Step.halts
      then m.batch due.cycles else m.batch due.cycles ++ .replicate due.ticks .tick := by
    simp only [labour, hresult, labourFor, hsession, h.going, Bool.false_eq_true, if_false]
    rfl
  rcases Nat.le_one_iff_eq_zero_or_eq_one.mp hone with h0 | h1
  · rw [h0] at hlabour
    exact .inl ⟨h0, hlabour⟩
  · rw [h1] at hlabour
    have hbatch : m.batch 1 = [.cycle] := by
      simp only [Machine.batch, ite_self]
    have hany : (m.steps [.cycle]).any Step.halts = Step.halts ⟨m, .cycle⟩ := Bool.or_false _
    rw [hbatch, hany] at hlabour
    cases hh : Step.halts ⟨m, .cycle⟩ with
    | true =>
      rw [hh] at hlabour
      exact .inr (.inl ⟨h1, rfl, hlabour⟩)
    | false =>
      rw [hh] at hlabour
      exact .inr (.inr ⟨h1, rfl, hlabour⟩)

end World

namespace Turn

open World

variable {f : Frontend σ} {settings : Settings} {done : List Operation}

theorem once_of_asked {f : Frontend σ} {w : World σ} {c : Control}
    (hc : (w.pollReply f).result = .ok c) (hq : c.quit = false) :
    (once f).run w = (serve f c).run (w.polled f) := by
  show (poll f >>= fun c => if c.quit then cancel else serve f c).run w = _
  rw [EStateM.run_bind, run_poll, run_conclude, hc]
  simp only [hq, Bool.false_eq_true, if_false]

/-- What a turn in front of a plain frontend comes to. -/
inductive Single (I : Recorded σ → Prop) (f : Frontend σ) (w : World (Recorded σ)) :
    EStateM.Result Fault (World (Recorded σ)) Unit → Prop
  | waits {w' : World (Recorded σ)} : Clock.cycles.count (w.operations f.recorded) = 0 →
      w'.session.machine.timeless = w.session.machine.timeless →
      w'.device.pictures = w.device.pictures → Single I f w (.ok () w')
  | goesOn {w' : World (Recorded σ)} : Clock.cycles.count (w.operations f.recorded) = 1 →
      ⟨w.session.machine, .cycle⟩ ∈ w.session.machine.steps (w.operations f.recorded) →
      Step.halts ⟨w.session.machine, .cycle⟩ = false →
      w'.session.machine.timeless = w.session.machine.cycle.1.timeless →
      w'.device.pictures = w.device.pictures ++ w.session.machine.nextPicture →
      Single I f w (.ok () w')
  | halts {w' : World (Recorded σ)} {fault : Fault} :
      Clock.cycles.count (w.operations f.recorded) = 1 →
      ⟨w.session.machine, .cycle⟩ ∈ w.session.machine.steps (w.operations f.recorded) →
      w.session.machine.cycle = (w.session.machine, .error fault) → fault.isRecoverable = false →
      I w'.device → w'.session.machine.timeless = w.session.machine.timeless →
      w'.device.pictures = w.device.pictures → Single I f w (.error fault w')

variable {I : Recorded σ → Prop} {w w' : World (Recorded σ)}

theorem timeless_of_once (hf : f.recorded.Plain I) (h : w.Runs I settings done)
    (hrun : (once f.recorded).run w = .ok () w') :
    I w'.device ∧ w'.session.cancelled = false ∧ w'.session.machine.timeless =
      (w.session.machine.run (w.labour f.recorded)).timeless := by
  obtain ⟨hresult, _, hsession, hdevice⟩ := pollReply_of_plain hf h.device
  have hends := once_ends f.recorded w
  rw [hrun] at hends
  cases hends with
  | quits hc hq =>
    rw [hresult] at hc
    cases hc
    cases hq
  | @rests c w₁ hl hh =>
    rw [← hl.device] at hdevice
    have hlabour := hl.session
    rw [hsession] at hlabour
    obtain ⟨hdevice, hpictured⟩ :=
      device_pictured hf hdevice ((w.steps f.recorded).any Step.touches)
    obtain ⟨hdevice, hcancelled, htimeless⟩ := device_sounded hf hdevice
    rw [hpictured, hlabour] at hcancelled htimeless
    exact ⟨hdevice, hcancelled.trans h.going, htimeless⟩

theorem smooth_of_plain {f : Frontend σ} {I : σ → Prop} {w : World σ} (hf : f.Plain I)
    (h : I w.device) (hh : (w.steps f).any Step.halts = false) : Smooth f w := by
  obtain ⟨hresult, _, _, hdevice⟩ := pollReply_of_plain hf h
  obtain ⟨d, hd, hrender⟩ := hf.renders
    ((w.polled f).session.machine.run (w.labour f)).state.screen (w.polled f).device hdevice
  have hreply : w.renderReply f = _ := hrender
  refine ⟨by rw [hresult]; rfl, hh, fun _ => by rw [hreply]; rfl, fun _ => ?_⟩
  rw [World.beepReply, hreply]
  split
  · obtain ⟨_, _, hbeep⟩ := hf.beeps d hd
    rw [hbeep]
    rfl
  · obtain ⟨_, _, hbeep⟩ := hf.beeps (w.polled f).device hdevice
    rw [hbeep]
    rfl

theorem run_of_halts (hf : f.recorded.Plain I) (h : w.Runs I settings done) {fault : Fault}
    (hdue : ((w.polled f.recorded).handOut {}).2.cycles = 1)
    (hcycle : w.session.machine.cycle = (w.session.machine, .error fault))
    (hfault : fault.isRecoverable = false) :
    ∃ w', (once f.recorded).run w = .error fault w' ∧ I w'.device ∧
      w'.session.machine = w.session.machine ∧ w'.device.pictures = w.device.pictures := by
  obtain ⟨hresult, _, hsession, hdevice⟩ := pollReply_of_plain hf h.device
  have hmachine : (w.polled f.recorded).bench.machine = w.session.machine :=
    congrArg Session.machine hsession
  have hgoing : (w.polled f.recorded).session.cancelled = false := hsession ▸ h.going
  rw [← hmachine] at hcycle
  obtain ⟨hleft, hends⟩ := Workbench.cycles_of_halts hcycle hfault false 0
  rw [once_of_asked hresult rfl, run_serve_work rfl, hgoing, hdue]
  simp only [Bool.false_eq_true, if_false]
  generalize (w.polled f.recorded).bench.cycles false false (0 + 1) = answer at hleft hends ⊢
  obtain ⟨b, r⟩ := answer
  cases hends
  exact ⟨_, rfl, hdevice, hleft.trans hmachine, w.pictures_polled f⟩

theorem single (hf : f.recorded.Plain I) (h : w.Runs I settings done)
    (hs : settings.check = .ok ()) : Single I f w ((once f.recorded).run w) := by
  obtain ⟨_, _, hsession, _⟩ := pollReply_of_plain hf h.device
  have hsteps : w.steps f.recorded = w.session.machine.steps (w.labour f.recorded) := by
    rw [World.steps, hsession]
  have hcount := Clock.cycles.count_operations w f.recorded
  rcases labour_of_plain hf h hs with ⟨_, hl⟩ | ⟨hdue, hh, hl⟩ | ⟨_, hh, hl⟩
  · -- no cycle has come due, and ticks neither halt nor draw
    generalize ((w.polled f.recorded).handOut {}).2.ticks = k at hl
    rw [hl] at hsteps
    have hhalts : (w.steps f.recorded).any Step.halts = false := by
      rw [hsteps]
      exact Machine.any_halts_of_no_cycle (Machine.cycle_notMem_replicate_tick k)
    obtain ⟨w', hrun⟩ := (smooth_of_plain hf h.device hhalts).exists_run
    have htimeless := (timeless_of_once hf h hrun).2.2
    rw [hl, Machine.timeless_ticks] at htimeless
    rw [hrun]
    refine .waits (hcount.trans (hl ▸ Clock.cycles.count_due ⟨0, k⟩)) htimeless ?_
    rcases pictures_of_once hrun with ⟨ht, _⟩ | ⟨_, hp, _⟩
    · rw [hsteps, Machine.any_touches_ticks] at ht
      cases ht
    · exact hp
  · obtain ⟨fault, hcycle, hfault⟩ := Machine.cycle_of_halts hh
    obtain ⟨w', hrun, hdevice, hmachine, hpictures⟩ := run_of_halts hf h hdue hcycle hfault
    rw [hl] at hsteps
    rw [hrun]
    exact .halts (hcount.trans (hl ▸ rfl))
      (mem_steps_operations (hsteps ▸ List.mem_singleton_self _)) hcycle hfault hdevice
      (congrArg Machine.timeless hmachine) hpictures
  · -- behind one cycle there are only ticks, so the turn draws if the cycle does
    generalize ((w.polled f.recorded).handOut {}).2.ticks = k at hl
    rw [hl, Machine.steps] at hsteps
    have hhalts : (w.steps f.recorded).any Step.halts = false := by
      rw [hsteps, List.any_cons, hh]
      exact Machine.any_halts_of_no_cycle (Machine.cycle_notMem_replicate_tick k)
    obtain ⟨w', hrun⟩ := (smooth_of_plain hf h.device hhalts).exists_run
    have htimeless := (timeless_of_once hf h hrun).2.2
    rw [hl, Machine.run_cons, Machine.timeless_ticks] at htimeless
    have htouches : (w.steps f.recorded).any Step.touches =
        Step.draws ⟨w.session.machine, .cycle⟩ := by
      rw [hsteps, List.any_cons, Machine.any_touches_ticks, Bool.or_false]
      exact Bool.or_false _
    rw [hrun]
    refine .goesOn (hcount.trans (hl ▸ Clock.cycles.count_due ⟨1, k⟩))
      (mem_steps_operations (hsteps ▸ List.mem_cons_self)) hh htimeless ?_
    rw [Machine.nextPicture_of_not_halts hh, ← htouches]
    rcases pictures_of_once hrun with ⟨ht, hp⟩ | ⟨ht, hp, _⟩
    · have hscreen : w'.session.machine.state.screen = w.session.machine.cycle.1.state.screen :=
        congrArg (fun m => m.state.screen) htimeless
      rw [ht, if_pos rfl, hp, hscreen]
    · rw [ht, if_neg Bool.false_ne_true, hp, List.append_nil]

theorem runs_of_once (hf : f.recorded.Plain I) (h : w.Runs I settings done)
    (hs : settings.check = .ok ()) (hrun : (once f.recorded).run w = .ok () w') :
    w'.Runs I settings (done ++ w.operations f.recorded) ∧ w.session.now < w'.session.now := by
  obtain ⟨hdevice, hgoing, _⟩ := timeless_of_once hf h hrun
  obtain ⟨hontime, _, hnow, hidle, _⟩ :=
    onTime_step h.onTime hs (undisturbed_of_plain hf h.device) hrun hgoing
  exact ⟨⟨hdevice, hgoing, hontime⟩, by omega⟩

end Turn

end ChipEight
