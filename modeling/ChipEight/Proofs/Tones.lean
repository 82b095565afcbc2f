import ChipEight.ByteStream.Seeded
import ChipEight.Frontend.Script
import ChipEight.Proofs.Lives

/-!
# Tones are neither lost nor invented

Every time the sound timer runs out the session plays one tone, in the same turn. The reason is that
the mailbox is empty when a turn begins: the ticks of a turn run the timer out at most once, so the
tone is accepted, and however the turn ends it has been taken out by then, unless showing the
picture failed. Behind a halting cycle there are no ticks, and a tone that fails has been taken out
before it is played.
-/

namespace ChipEight

variable {σ : Type}

namespace Machine

variable {m : Machine} {ops ops' : List Operation}

/-- A list of operations that leaves the mailbox alone. -/
structure Quiet (m : Machine) (ops : List Operation) : Prop where
  expires : ∀ s ∈ m.steps ops, s.expires = false
  mailbox : (m.run ops).mailbox = m.mailbox

/-- A list of operations that runs the sound timer out at most once, and what that does to the
mailbox. -/
structure OneTone (m : Machine) (ops : List Operation) : Prop where
  count_le : (m.steps ops).countP Step.expires ≤ 1
  accepts : ∀ s ∈ m.steps ops, s.expires = true → s.machine.mailbox.accepts = true
  mailbox : (m.run ops).mailbox = { m.mailbox with pending := (m.steps ops).any Step.expires }

theorem quiet_of_no_tick (h : ∀ o ∈ ops, o = .cycle ∨ o = .reverse) : m.Quiet ops where
  expires s hs := by
    apply Step.expires_of_ne
    rcases h _ (operation_mem_of_mem_steps hs) with ho | ho <;> rw [ho] <;> exact nofun
  mailbox := by
    refine run_induction (P := fun m' => m'.mailbox = m.mailbox) (fun m' o ho hm' => ?_) rfl
    rcases h o ho with rfl | rfl
    · exact (mailbox_cycle m').trans hm'
    · exact (mailbox_reverse m').trans hm'

theorem quiet_ticks (h : m.state.sound = 0) (k : Nat) : m.Quiet (.replicate k .tick) := by
  induction k generalizing m with
  | zero => exact ⟨(fun _ hs => nomatch hs), rfl⟩
  | succ k ih =>
    have hs : m.tick.state.sound = 0 := by simp [tick, Snapshot.tick, h]
    have hm : m.tick.mailbox = m.mailbox := by simp [tick, Snapshot.soundExpires, h]
    have hrest := ih hs
    refine ⟨fun s hs => ?_, hrest.mailbox.trans hm⟩
    rcases List.mem_cons.mp hs with rfl | hs
    · simp [Step.expires, h]
    · exact hrest.expires s hs

theorem Quiet.countP (h : m.Quiet ops) : (m.steps ops).countP Step.expires = 0 :=
  List.countP_eq_zero.mpr fun s hs => by simp [h.expires s hs]

theorem Quiet.any (h : m.Quiet ops) : (m.steps ops).any Step.expires = false :=
  List.any_eq_false.mpr fun s hs => by simp [h.expires s hs]

theorem Quiet.oneTone (h : m.Quiet ops) (hp : m.mailbox.pending = false) : m.OneTone ops where
  count_le := by
    have := h.countP
    omega
  accepts s hs he := by
    rw [h.expires s hs] at he
    cases he
  mailbox := by rw [h.mailbox, h.any, ← hp]

theorem Quiet.append (h : m.Quiet ops) (h' : (m.run ops).OneTone ops') :
    m.OneTone (ops ++ ops') where
  count_le := by
    rw [steps_append, List.countP_append, h.countP, Nat.zero_add]
    exact h'.count_le
  accepts s hs he := by
    rw [steps_append] at hs
    rcases List.mem_append.mp hs with hs | hs
    · rw [h.expires s hs] at he
      cases he
    · exact h'.accepts s hs he
  mailbox := by
    rw [run_append, h'.mailbox, h.mailbox, steps_append, List.any_append, h.any, Bool.false_or]

theorem oneTone_ticks (hp : m.mailbox.pending = false) (hr : m.mailbox.hasReceiver = true)
    (k : Nat) : m.OneTone (.replicate k .tick) := by
  induction k generalizing m with
  | zero => exact Quiet.oneTone ⟨(fun _ hs => nomatch hs), rfl⟩ hp
  | succ k ih =>
    by_cases hs : m.state.sound = 1
    · have he : Step.expires ⟨m, .tick⟩ = true := by simp [Step.expires, hs]
      have hm : m.tick.mailbox = { m.mailbox with pending := true } := by
        simp [tick, Snapshot.soundExpires, hs, Mailbox.send, Mailbox.accepts, hp, hr]
      have hrest : m.tick.Quiet (.replicate k .tick) :=
        quiet_ticks (by simp [tick, Snapshot.tick, hs]) k
      constructor
      · have hcount := List.countP_cons_of_pos (l := m.tick.steps (.replicate k .tick)) he
        rw [hrest.countP] at hcount
        exact Nat.le_of_eq hcount
      · intro s hs' he'
        rcases List.mem_cons.mp hs' with rfl | hs'
        · simp [Mailbox.accepts, hp, hr]
        · rw [hrest.expires s hs'] at he'
          cases he'
      · show (m.tick.run (.replicate k .tick)).mailbox = { m.mailbox with
          pending := (⟨m, .tick⟩ :: m.tick.steps (.replicate k .tick)).any Step.expires }
        rw [hrest.mailbox, hm, List.any_cons, he, Bool.true_or]
    · have hm : m.tick.mailbox = m.mailbox := by simp [tick, Snapshot.soundExpires, hs]
      have hfirst : m.Quiet [.tick] := by
        refine ⟨fun s hs' => ?_, hm⟩
        cases List.mem_singleton.mp hs'
        simp [Step.expires, hs]
      exact hfirst.append (ih (by rw [← hp, ← hm]; rfl) (by rw [← hr, ← hm]; rfl))

end Machine

/-- Nothing is in the mailbox, and the session would take out what is put into it. -/
structure Session.Listens (s : Session) : Prop where
  listening : s.listening = true
  pending : s.machine.mailbox.pending = false
  hasReceiver : s.machine.mailbox.hasReceiver = true

theorem Session.Listens.rest {s : Session} (h : s.Listens) : s.rest.Listens :=
  ⟨h.listening, h.pending, h.hasReceiver⟩

theorem Machine.IsLoaded.listens {m : Machine} (h : m.IsLoaded) : (Session.start m).Listens := by
  obtain ⟨settings, source, memory, _, rfl⟩ := h.exists_eq
  exact ⟨rfl, rfl, rfl⟩

namespace World

variable {f : Frontend σ} {w : World σ}

theorem labour_oneTone (f : Frontend σ) (hp : w.session.machine.mailbox.pending = false)
    (hr : w.session.machine.mailbox.hasReceiver = true) :
    (w.polled f).session.machine.OneTone (w.labour f) ∧
      ((w.steps f).any Step.halts = true → (w.polled f).session.machine.Quiet (w.labour f)) := by
  rcases w.labour_cases f with ⟨n, hl⟩ | ⟨n, k, hl, hk⟩
  · have hquiet : (w.polled f).session.machine.Quiet (w.labour f) := by
      rw [hl]
      exact Machine.quiet_of_no_tick fun o ho => .inr (Machine.eq_reverse_of_mem_retreat ho)
    exact ⟨hquiet.oneTone hp, fun _ => hquiet⟩
  · have hquiet : (w.polled f).session.machine.Quiet ((w.polled f).session.machine.batch n) :=
      Machine.quiet_of_no_tick fun o ho => .inl (Machine.eq_cycle_of_mem_batch ho)
    have hmail := hquiet.mailbox
    have hone := hquiet.append (Machine.oneTone_ticks (by rw [hmail]; exact hp)
      (by rw [hmail]; exact hr) k)
    refine ⟨hl ▸ hone, fun hh => ?_⟩
    have hno := Machine.cycle_notMem_replicate_tick k
    rw [World.steps, hl, Machine.steps_append, List.any_append, Machine.any_halts_of_no_cycle hno,
      Bool.or_false] at hh
    rw [hl, hk hh, List.replicate_zero, List.append_nil]
    exact hquiet

theorem tones_polled (w : World (Recorded σ)) (f : Frontend σ) :
    (w.polled f.recorded).device.tones = w.device.tones := Recorded.tones_after ..

theorem tones_pictured (w : World (Recorded σ)) (f : Frontend σ) (drawn : Bool) :
    (w.pictured f.recorded drawn).device.tones = w.device.tones := by
  cases drawn with
  | false => rfl
  | true => exact Recorded.tones_after ..

theorem tones_beeped (w : World (Recorded σ)) (f : Frontend σ) :
    (w.beeped f.recorded).device.tones = w.device.tones + 1 := Recorded.tones_after ..

end World

namespace Turn

variable {f : Frontend σ} {w : World (Recorded σ)}

theorem listens_beeped {w : World (Recorded σ)} (hl : w.session.listening = true)
    (hr : w.session.machine.mailbox.hasReceiver = true) :
    (w.beeped f.recorded).session.Listens := by
  have hs : w.silenced =
      { w with session := { w.session with machine := w.session.machine.receiveTone.1 } } :=
    if_pos hl
  unfold World.beeped
  rw [hs]
  exact ⟨hl, rfl, hr⟩

theorem laboured_tones {c : Control} {w₁ : World (Recorded σ)} (hw : w.session.Listens)
    (hl : w.Laboured f.recorded c w₁) (drawn : Bool) :
    let v := w₁.pictured f.recorded drawn
    v.session.listening = true ∧ v.session.machine.mailbox.hasReceiver = true ∧
      v.toneWaits = (w.steps f.recorded).any Step.expires ∧ v.device.tones = w.device.tones := by
  intro v
  have hsession : v.session.listening = w₁.session.listening ∧
      v.session.machine = w₁.session.machine := by cases drawn <;> exact ⟨rfl, rfl⟩
  have hlisten : w₁.session.listening = true := by
    rw [hl.session]
    exact hw.listening
  have hmail : w₁.session.machine.mailbox = { w.session.machine.mailbox with
      pending := (w.steps f.recorded).any Step.expires } := by
    rw [hl.session]
    exact (World.labour_oneTone f.recorded hw.pending hw.hasReceiver).1.mailbox
  refine ⟨hsession.1.trans hlisten, ?_, ?_, ?_⟩
  · rw [hsession.2, hmail]
    exact hw.hasReceiver
  · rw [World.toneWaits, hsession.1, hlisten, hsession.2, hmail]
    rfl
  · rw [World.tones_pictured, hl.device]
    exact w.tones_polled f

/-- A turn that begins with an empty mailbox ends with an empty mailbox, and plays a tone just when
its labour runs the sound timer out. -/
theorem tones_of_once (hw : w.session.Listens) (hr : ¬RenderFails f.recorded w) :
    (w.after (once f.recorded)).session.Listens ∧
    (w.after (once f.recorded)).device.tones =
      w.device.tones + if (w.steps f.recorded).any Step.expires then 1 else 0 := by
  have hends := once_ends f.recorded w
  unfold World.after
  generalize (once f.recorded).run w = result at hends
  cases hends with
  | pollFails hp =>
    rw [World.steps_of_pollFails hp]
    exact ⟨⟨hw.listening, hw.pending, hw.hasReceiver⟩, w.tones_polled f⟩
  | quits hc hq =>
    rw [World.steps_of_quit hc hq]
    exact ⟨⟨hw.listening, hw.pending, hw.hasReceiver⟩, w.tones_polled f⟩
  | halts hl hh =>
    obtain ⟨hlisten, hreceiver, hwaits, htones⟩ := laboured_tones hw hl false
    -- no ticks follow a batch that halts, so no tone has been sent
    have hquiet := (World.labour_oneTone f.recorded hw.pending hw.hasReceiver).2 hh
    have hany : (w.steps f.recorded).any Step.expires = false := hquiet.any
    rw [hany] at hwaits ⊢
    rw [World.toneWaits, hlisten] at hwaits
    exact ⟨⟨hlisten, hwaits, hreceiver⟩, htones⟩
  | renderFails hl hh ht hfail =>
    refine absurd ⟨hh, ht, ?_⟩ hr
    rw [← hl.renderReply, hfail]
    rfl
  | beepFails hl hh htone _ =>
    obtain ⟨hlisten, hreceiver, hwaits, htones⟩ := laboured_tones hw hl _
    rw [htone] at hwaits
    rw [← hwaits, if_pos rfl, World.tones_beeped, htones]
    exact ⟨listens_beeped hlisten hreceiver, rfl⟩
  | rests hl hh =>
    obtain ⟨hlisten, hreceiver, hwaits, htones⟩ := laboured_tones hw hl _
    rw [← hwaits, ← htones]
    generalize World.pictured _ _ _ = v at hlisten hreceiver
    cases hv : v.toneWaits with
    | true =>
      rw [World.sounded, hv, if_pos rfl, if_pos rfl]
      exact ⟨(listens_beeped hlisten hreceiver).rest, World.tones_beeped ..⟩
    | false =>
      rw [World.sounded, hv, if_neg Bool.false_ne_true, if_neg Bool.false_ne_true]
      rw [World.toneWaits, hlisten] at hv
      exact ⟨Session.Listens.rest ⟨hlisten, hv, hreceiver⟩, rfl⟩

end Turn

end ChipEight
