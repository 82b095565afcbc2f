import ChipEight.ByteStream.Seeded
import ChipEight.Proofs.Timeless

/-!
# Tones are conserved

The listener at the receiving end of the mailbox takes tones out, or goes away. Every tone that the
mailbox accepts is received or still waits, for as long as there is a listener (`Tally`, kept by
each operation in `Tally.perform`), and what is accepted comes from an expiry of the sound timer.

Nothing flows the other way. `Machine.unheard` forgets the mailbox; no operation looks at it but
those of the listener, so they can be left out of a run, and the rest goes as it went
(`course_filter`).
-/

namespace ChipEight

/-- What the listener does. -/
def Operation.listens : Operation → Bool
  | .takeReceiver | .dropReceiver | .receiveTone => true
  | _ => false

namespace Step

/-- A tick that reports that a tone was queued. -/
def queues : Step → Bool
  | ⟨m, .tick⟩ => match m.tickEvent? with
    | some .toneQueued => true
    | _ => false
  | _ => false

/-- A look into the mailbox that finds a tone. -/
def receives : Step → Bool
  | ⟨m, .receiveTone⟩ => m.receiveTone.2
  | _ => false

theorem queues_tick (m : Machine) :
    queues ⟨m, .tick⟩ = (expires ⟨m, .tick⟩ && m.mailbox.accepts) := by
  have hexpires : expires ⟨m, .tick⟩ = m.state.soundExpires := rfl
  rw [hexpires, queues, Machine.tickEvent?]
  cases m.state.soundExpires with
  | false => rfl
  | true => cases m.mailbox.accepts <;> rfl

theorem expires_of_queues {s : Step} (h : s.queues = true) : s.expires = true := by
  obtain ⟨m, o⟩ := s
  cases o with
  | tick =>
    rw [queues_tick, Bool.and_eq_true] at h
    exact h.1
  | _ => cases h

end Step

namespace Machine

theorem mailbox_perform (m : Machine) (o : Operation) : (m.perform o).mailbox =
    match o with
    | .tick => if m.state.soundExpires then m.mailbox.send else m.mailbox
    | .receiveTone => m.mailbox.receive
    | .dropReceiver => m.mailbox.dropReceiver
    | _ => m.mailbox := by
  cases o with
  | cycle => exact m.mailbox_cycle
  | reverse => exact m.mailbox_reverse
  | load rom => obtain ⟨memory, hm⟩ := m.exists_perform_load rom; rw [hm]
  | _ => rfl

end Machine

/-- How many tones a mailbox accepted and how many were received. A listener who goes away may leave
one tone behind. -/
structure Tally (accepted received : Nat) (box : Mailbox) : Prop where
  listened : box.hasReceiver = true → accepted = received + box.pending.toNat
  gone : box.hasReceiver = false → box.pending = false ∧ received ≤ accepted
  le : accepted ≤ received + 1

namespace Tally

variable {accepted received : Nat} {box : Mailbox}

theorem pending_le (h : Tally accepted received box) :
    received + box.pending.toNat ≤ accepted := by
  cases hr : box.hasReceiver with
  | true => exact Nat.le_of_eq (h.listened hr).symm
  | false =>
    obtain ⟨hp, hle⟩ := h.gone hr
    rw [hp]
    exact hle

theorem send (h : Tally accepted received box) :
    Tally (accepted + box.accepts.toNat) received box.send := by
  obtain ⟨_ | _, sender, _ | _⟩ := box <;>
    · have hlistened := h.listened
      have hgone := h.gone
      have hle := h.le
      constructor <;> simp_all [Mailbox.send, Mailbox.accepts]

theorem receive (h : Tally accepted received box) :
    Tally accepted (received + box.pending.toNat) box.receive where
  listened hr := h.listened hr
  gone hr := by
    obtain ⟨hp, hle⟩ := h.gone hr
    rw [hp]
    exact ⟨rfl, hle⟩
  le := by
    have := h.le
    omega

theorem dropReceiver (h : Tally accepted received box) :
    Tally accepted received box.dropReceiver where
  listened hr := nomatch hr
  gone _ := ⟨rfl, Nat.le_trans (Nat.le_add_right ..) h.pending_le⟩
  le := h.le

variable {m : Machine}

theorem perform (h : Tally accepted received m.mailbox) (o : Operation) :
    Tally (accepted + (Step.queues ⟨m, o⟩).toNat) (received + (Step.receives ⟨m, o⟩).toNat)
      (m.perform o).mailbox := by
  rw [Machine.mailbox_perform]
  cases o with
  | tick =>
    have hexpires : Step.expires ⟨m, .tick⟩ = m.state.soundExpires := rfl
    rw [Step.queues_tick, hexpires]
    cases m.state.soundExpires with
    | false => exact h
    | true => exact h.send
  | receiveTone => exact h.receive
  | dropReceiver => exact h.dropReceiver
  | _ => exact h

theorem run (h : Tally accepted received m.mailbox) (ops : List Operation) :
    Tally (accepted + (m.steps ops).countP Step.queues)
      (received + (m.steps ops).countP Step.receives) (m.run ops).mailbox := by
  induction ops generalizing m accepted received with
  | nil => exact h
  | cons o ops ih =>
    rw [Machine.run_cons, Machine.steps, Machine.countP_cons_toNat, Machine.countP_cons_toNat,
      ← Nat.add_assoc, ← Nat.add_assoc]
    exact ih (h.perform o)

end Tally

namespace Machine

variable {m m' new : Machine} {o : Operation} {ops : List Operation}

theorem hasReceiver_perform (ho : o ≠ .dropReceiver) :
    (m.perform o).mailbox.hasReceiver = m.mailbox.hasReceiver := by
  have hsend : m.mailbox.send.hasReceiver = m.mailbox.hasReceiver := by
    unfold Mailbox.send
    split <;> rfl
  rw [mailbox_perform]
  cases o with
  | dropReceiver => exact absurd rfl ho
  | tick => cases m.state.soundExpires <;> simp [hsend]
  | _ => rfl

theorem hasReceiver_run (m : Machine) (ops : List Operation) :
    (m.run ops).mailbox.hasReceiver = true ↔
      m.mailbox.hasReceiver = true ∧ .dropReceiver ∉ ops := by
  induction ops generalizing m with
  | nil => simp
  | cons o ops ih =>
    rw [run_cons, ih, List.mem_cons, not_or]
    by_cases ho : .dropReceiver = o
    · subst ho
      have hgone : ¬(m.perform .dropReceiver).mailbox.hasReceiver = true := nofun
      simp [hgone]
    · rw [hasReceiver_perform (Ne.symm ho)]
      simp [ho]

/-! ### Machines without a mailbox -/

/-- All of a machine but the mailbox. -/
def unheard (m : Machine) : Machine := { m with mailbox := {}, receiverTaken := false }

theorem unheard_cycle (m : Machine) :
    m.unheard.cycle.2 = m.cycle.2 ∧ m.unheard.cycle.1.unheard = m.cycle.1.unheard := by
  rcases m.cycle_cases with ⟨hpc, hc⟩ | ⟨w, hw, hd, hc⟩ | ⟨i, f, hi, he, hc⟩ | ⟨i, c, hi, he, hc⟩
  · have hc' : m.unheard.cycle = _ := cycle_of_gt (m := m.unheard) hpc
    rw [hc, hc']
    exact ⟨rfl, rfl⟩
  · have hc' : m.unheard.cycle = _ := cycle_of_unknown (m := m.unheard) hw hd
    rw [hc, hc']
    exact ⟨rfl, rfl⟩
  · have hc' : m.unheard.cycle = _ := cycle_of_error (m := m.unheard) hi he
    rw [hc, hc']
    exact ⟨rfl, rfl⟩
  · have hc' : m.unheard.cycle = _ := cycle_of_ok (m := m.unheard) hi he
    rw [hc, hc']
    exact ⟨rfl, rfl⟩

theorem unheard_perform_of_listens (ho : o.listens = true) :
    (m.perform o).unheard = m.unheard := by
  cases o with
  | takeReceiver | dropReceiver | receiveTone => rfl
  | _ => cases ho

theorem unheard_perform (ho : o.listens = false) :
    Step.answer ⟨m.unheard, o⟩ = Step.answer ⟨m, o⟩ ∧
      (m.unheard.perform o).unheard = (m.perform o).unheard := by
  cases o with
  | cycle =>
    obtain ⟨hanswer, hmachine⟩ := m.unheard_cycle
    exact ⟨congrArg Answer.cycle hanswer, hmachine⟩
  | reverse =>
    cases hp : m.history with
    | nil =>
      have hp' : m.unheard.history = [] := hp
      simp only [Step.answer, perform, reverse_of_nil hp, reverse_of_nil hp']
      exact ⟨trivial, rfl⟩
    | cons s past =>
      have hp' : m.unheard.history = s :: past := hp
      simp only [Step.answer, perform, reverse_of_cons hp, reverse_of_cons hp']
      exact ⟨trivial, rfl⟩
  | load rom =>
    refine ⟨rfl, ?_⟩
    have hrom : m.unheard.state.memory.loadRom rom = m.state.memory.loadRom rom := rfl
    simp only [perform, load, Snapshot.loadRom, hrom]
    cases m.state.memory.loadRom rom <;> rfl
  | takeReceiver | dropReceiver | receiveTone => cases ho
  | _ => exact ⟨rfl, rfl⟩

/-- What a run shows to everyone but the listener: of every other operation its answer, and the
machine behind it without the mailbox. -/
def course (m : Machine) (ops : List Operation) : List (Operation × Answer × Machine) :=
  ((m.steps ops).filter fun s => !s.operation.listens).map fun s =>
    (s.operation, s.answer, (s.machine.perform s.operation).unheard)

/-- The listener cannot be told from the course of a run. -/
theorem course_filter (he : m.unheard = m'.unheard) (ops : List Operation) :
    m.course ops = m'.course (ops.filter fun o => !o.listens) ∧
      (m.run ops).unheard = (m'.run (ops.filter fun o => !o.listens)).unheard := by
  induction ops generalizing m m' with
  | nil => exact ⟨rfl, he⟩
  | cons o ops ih =>
    cases ho : o.listens with
    | true =>
      rw [List.filter_cons_of_neg (by simp [ho])]
      have hcourse : m.course (o :: ops) = (m.perform o).course ops := by
        simp [course, steps, ho]
      rw [hcourse]
      exact ih ((unheard_perform_of_listens ho).trans he)
    | false =>
      obtain ⟨hanswer, hmachine⟩ := unheard_perform (m := m) ho
      obtain ⟨hanswer', hmachine'⟩ := unheard_perform (m := m') ho
      rw [he] at hanswer hmachine
      have hnext : (m.perform o).unheard = (m'.perform o).unheard := hmachine.symm.trans hmachine'
      obtain ⟨hrest, hend⟩ := ih hnext
      rw [List.filter_cons_of_pos (by simp [ho])]
      have hcons : ∀ (m : Machine) (ops : List Operation), m.course (o :: ops) =
          (o, Step.answer ⟨m, o⟩, (m.perform o).unheard) :: (m.perform o).course ops := by
        intro m ops
        simp [course, steps, ho]
      rw [hcons, hcons, ← hanswer, ← hanswer', hnext, hrest]
      exact ⟨rfl, hend⟩

/-- **Tones are conserved, and the listener disturbs nothing.** Whatever is done to a new machine,
the tones that its mailbox accepted are those that were received and the one that waits, until the
receiving end is dropped; behind that at most one is lost. All of them come from expiries of the
sound timer. An expiry is accepted if the receiving end is still there and nothing waits; otherwise
the tick goes on without it and changes the timers only. Without what the listener does, every other
operation answers the same and leaves the same machine but for the mailbox. -/
theorem tones_conserved {settings : Settings} {source : RandomSource}
    (h : create settings source = .ok new) (ops : List Operation) :
    let m := new.run ops
    let accepted := (new.steps ops).countP Step.queues
    let received := (new.steps ops).countP Step.receives
    (.dropReceiver ∉ ops → accepted = received + m.mailbox.pending.toNat) ∧
    received + m.mailbox.pending.toNat ≤ accepted ∧ accepted ≤ received + 1 ∧
    (∀ s ∈ new.steps ops, s.queues = true → s.expires = true) ∧
    (Step.expires ⟨m, .tick⟩ = true →
      (Step.queues ⟨m, .tick⟩ = true ↔ .dropReceiver ∉ ops ∧ m.mailbox.pending = false) ∧
      (Step.queues ⟨m, .tick⟩ = false → m.tick = { m with state := m.state.tick })) ∧
    new.course ops = new.course (ops.filter fun o => !o.listens) ∧
    m.unheard = (new.run (ops.filter fun o => !o.listens)).unheard := by
  intro m accepted received
  obtain ⟨_, rfl⟩ := create_eq_ok_iff.mp h
  have hstart : Tally 0 0 (fresh settings source).mailbox := ⟨fun _ => rfl, nofun, by decide⟩
  have htally := hstart.run ops
  rw [Nat.zero_add, Nat.zero_add] at htally
  have hreceiver : m.mailbox.hasReceiver = true ↔ .dropReceiver ∉ ops := by
    rw [hasReceiver_run]
    exact and_iff_right rfl
  obtain ⟨hcourse, hend⟩ := course_filter (m := fresh settings source) rfl ops
  refine ⟨fun hno => htally.listened (hreceiver.mpr hno), htally.pending_le, htally.le,
    fun s _ => Step.expires_of_queues, fun hexpires => ?_, hcourse, hend⟩
  have hqueues : Step.queues ⟨m, .tick⟩ = m.mailbox.accepts := by
    rw [Step.queues_tick, hexpires, Bool.true_and]
  rw [hqueues, Mailbox.accepts, Bool.and_eq_true, Bool.not_eq_true', hreceiver]
  refine ⟨Iff.rfl, fun hno => ?_⟩
  have hsend : m.mailbox.send = m.mailbox := by rw [Mailbox.send, Mailbox.accepts, hno]; rfl
  unfold tick
  rw [hsend, ite_self]

/-- A tick is made again behind a reversal, while its tone waits: the timer runs out a second time,
and the second tone is dropped. -/
theorem tones_conserved_ticked_again :
    let new := fresh {} (.cipher default)
    let ops := [.load [0x60, 0x01, 0xF0, 0x18, 0x61, 0x00], .takeReceiver, .cycle, .cycle, .cycle,
      .tick, .reverse, .tick]
    let again := ops ++ [.receiveTone, .receiveTone]
    (new.steps again).countP Step.expires = 2 ∧ (new.steps again).countP Step.receives = 1 ∧
      (new.steps again).countP Step.queues = 1 ∧
      (new.run again).unheard = (new.run ops).unheard := by
  intro new ops again
  have hcreate : create {} (.cipher default) = .ok new := create_eq_ok_iff.mpr ⟨rfl, rfl⟩
  obtain ⟨hconserved, -, -, -, -, -, hend⟩ := tones_conserved hcreate again
  obtain ⟨-, -, -, -, -, -, hend'⟩ := tones_conserved hcreate ops
  have hreceived : (new.steps again).countP Step.receives = 1 := by decide +kernel
  have hpending : (new.run again).mailbox.pending = false := by decide +kernel
  have haccepted := hconserved (by simp [again, ops])
  rw [hreceived, hpending] at haccepted
  exact ⟨by decide +kernel, hreceived, haccepted, hend.trans hend'.symm⟩

end Machine

end ChipEight
