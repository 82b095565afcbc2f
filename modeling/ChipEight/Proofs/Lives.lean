import ChipEight.Proofs.Turns

/-!
# The life of a session

A session is run against one frontend after the other, and in between its handles may be copied and
used to cancel it; a run that ended with a fault can be followed by another. A `Frontend σ` keeps
all that the frontends of a life have to remember in one device, and the calls they receive are
recorded over the whole life. What every turn keeps, a life keeps (`live_induction`).
-/

namespace ChipEight

variable {σ α : Type}

namespace Recorded

def pictures (r : Recorded σ) : List Screen :=
  r.calls.toList.filterMap fun
    | .render screen => some screen
    | _ => none

/-- The picture that was shown last; the screen is blank before the first. -/
def shown (r : Recorded σ) : Screen := r.pictures.getLast?.getD .blank

def tones (r : Recorded σ) : Nat :=
  r.calls.toList.countP fun
    | .beep => true
    | _ => false

theorem pictures_after (r : Recorded σ) (call : Call) (device : σ) :
    (r.after call device).pictures = r.pictures ++
      match call with
      | .render screen => [screen]
      | _ => [] := by
  cases call <;> simp [pictures, after]

theorem tones_after (r : Recorded σ) (call : Call) (device : σ) :
    (r.after call device).tones = r.tones +
      match call with
      | .beep => 1
      | _ => 0 := by
  cases call <;> simp [tones, after]

end Recorded

/-- A machine that has been built and given a program, and nothing else. -/
def Machine.IsLoaded (m : Machine) : Prop :=
  ∃ settings source rom new, Machine.create settings source = .ok new ∧ new.load rom = .ok m

theorem Machine.isLoaded_perform {settings : Settings} {rom : List UInt8}
    (hs : settings.check = .ok ()) (hr : rom.length ≤ maxRomSize) (source : RandomSource) :
    ((fresh settings source).perform (.load rom)).IsLoaded := by
  refine ⟨settings, source, rom, fresh settings source, create_eq_ok_iff.mpr ⟨hs, rfl⟩, ?_⟩
  simp only [perform, load, Snapshot.loadRom, Memory.loadRom, if_pos hr]
  rfl

theorem Machine.IsLoaded.exists_eq {m : Machine} (h : m.IsLoaded) :
    ∃ settings source memory, settings.check = .ok () ∧
      m = { fresh settings source with state := { Snapshot.initial with memory } } := by
  obtain ⟨settings, source, rom, new, hnew, hload⟩ := h
  obtain ⟨hcheck, rfl⟩ := create_eq_ok_iff.mp hnew
  have hm := (fresh settings source).exists_perform_load rom
  simp only [perform, hload] at hm
  obtain ⟨memory, rfl⟩ := hm
  exact ⟨settings, source, memory, hcheck, rfl⟩

/-- Something that happens to a session: it is run against a frontend for up to so many turns, one
of its handles is copied, or it is cancelled through one of them. -/
inductive Episode (σ : Type) where
  | run (f : Frontend σ) (turns : Nat)
  | copy (handle : Nat)
  | cancel (handle : Nat)

namespace World

/-- The world behind a program, whether it ends well or with a fault. -/
def after (w : World σ) (x : Turn σ α) : World σ :=
  match x.run w with
  | .ok _ w => w
  | .error _ w => w

theorem after_of_ok {w w' : World σ} {x : Turn σ α} {a : α} (h : x.run w = .ok a w') :
    w.after x = w' := by rw [after, h]

theorem after_of_error {w w' : World σ} {x : Turn σ α} {fault : Fault}
    (h : x.run w = .error fault w') : w.after x = w' := by rw [after, h]

/-- The world of a new session, before any call. -/
def new (m : Machine) (journal : Journal) (device : σ) : World (Recorded σ) :=
  { session := .start m, device := { device }, journal }

def withHandles (w : World σ) (handles : Cancellation) : World σ :=
  { w with session := { w.session with handles } }

/-- The world behind an episode. A handle that there is not can be neither copied nor used. -/
def episode (w : World (Recorded σ)) : Episode σ → World (Recorded σ)
  | .run f turns => w.after (Turn.untilCancelled f.recorded turns)
  | .copy handle =>
    if handle < w.session.handles.size then w.withHandles (w.session.handles.copy handle) else w
  | .cancel handle =>
    if handle < w.session.handles.size then w.withHandles (w.session.handles.cancel handle) else w

theorem episode_cases (w : World (Recorded σ)) (e : Episode σ) :
    (∃ f turns, e = .run f turns) ∨ ∃ handles, w.episode e = w.withHandles handles := by
  cases e with
  | run f turns => exact .inl ⟨f, turns, rfl⟩
  | copy handle | cancel handle =>
    right
    simp only [episode]
    split
    · exact ⟨_, rfl⟩
    · exact ⟨w.session.handles, rfl⟩

/-- The world behind some episodes. -/
def live (w : World (Recorded σ)) (life : List (Episode σ)) : World (Recorded σ) :=
  life.foldl episode w

end World

namespace Turn

/-- Every turn that is made in up to `n` turns starts from a world with the property. -/
def Every (P : World σ → Prop) (f : Frontend σ) : Nat → World σ → Prop
  | 0, _ => True
  | n + 1, w => w.session.cancelled = false →
      P w ∧ ∀ w', (once f).run w = .ok () w' → Every P f n w'

variable {f : Frontend σ} {w : World σ} {P : World σ → Prop} {I : World σ → Prop}

theorem every_of_forall (h : ∀ w, P w) (n : Nat) (w : World σ) : Every P f n w := by
  induction n generalizing w with
  | zero => exact trivial
  | succ n ih => exact fun _ => ⟨h w, fun w' _ => ih w'⟩

theorem run_upTo_succ (f : Frontend σ) (n : Nat) (w : World σ) :
    (upTo f (n + 1)).run w =
      if w.session.cancelled then .ok true w
      else match (once f).run w with
        | .ok _ w' => (upTo f n).run w'
        | .error fault w' => .error fault w' := by
  have hc : isCancelled.run w = .ok w.session.cancelled w := rfl
  rw [upTo, EStateM.run_bind, hc]
  cases w.session.cancelled with
  | true => rfl
  | false =>
    show (once f >>= fun _ => upTo f n).run w = _
    rw [if_neg Bool.false_ne_true, EStateM.run_bind]
    cases (once f).run w <;> rfl

theorem every_succ_iff {n : Nat} : Every P f (n + 1) w ↔ w.session.cancelled = true ∨
    P w ∧ match (once f).run w with
      | .ok _ w' => Every P f n w'
      | .error _ _ => True := by
  rw [Every]
  cases w.session.cancelled with
  | true => simp
  | false => cases (once f).run w <;> simp

/-- Making the turns tells whether each of them starts from a world with the property. -/
instance decidableEvery [DecidablePred P] : (n : Nat) → (w : World σ) → Decidable (Every P f n w)
  | 0, _ => .isTrue trivial
  | n + 1, w =>
    have : Decidable (match (once f).run w with
        | .ok _ w' => Every P f n w'
        | .error _ _ => True) :=
      match (once f).run w with
      | .ok _ w' => decidableEvery n w'
      | .error _ _ => .isTrue trivial
    decidable_of_iff' _ every_succ_iff

/-- Whether a program fails with `fault` and leaves a world with `p` behind. -/
def failsWith (x : Turn σ α) (fault : Fault) (p : World σ → Bool) (w : World σ) : Bool :=
  match x.run w with
  | .ok _ _ => false
  | .error fault' w' => fault' == fault && p w'

theorem exists_of_failsWith {x : Turn σ α} {fault : Fault} {p : World σ → Bool}
    (h : failsWith x fault p w = true) : ∃ w', x.run w = .error fault w' ∧ p w' = true := by
  unfold failsWith at h
  split at h
  · cases h
  · next fault' w' hrun =>
    rw [Bool.and_eq_true, beq_iff_eq] at h
    obtain ⟨rfl, hp⟩ := h
    exact ⟨w', hrun, hp⟩

/-- Whether `n` turns and one more reach their rests, `p` before the last and `q` behind it. -/
def rests (f : Frontend σ) (n : Nat) (p q : World σ → Bool) (w : World σ) : Bool :=
  match (upTo f n).run w with
  | .ok false w =>
    match (once f).run w with
    | .ok _ w' => p w && !w'.session.cancelled && q w'
    | .error _ _ => false
  | _ => false

theorem exists_of_rests {n : Nat} {p q : World σ → Bool} (h : rests f n p q w = true) :
    ∃ w₁ w₂, (upTo f n).run w = .ok false w₁ ∧ (once f).run w₁ = .ok () w₂ ∧
      w₂.session.cancelled = false ∧ p w₁ = true ∧ q w₂ = true := by
  unfold rests at h
  split at h
  · next w₁ hrun =>
    split at h
    · next u w₂ hturn =>
      rw [Bool.and_eq_true, Bool.and_eq_true, Bool.not_eq_true'] at h
      obtain ⟨⟨hp, hc⟩, hq⟩ := h
      exact ⟨w₁, w₂, hrun, hturn, hc, hp, hq⟩
    · cases h
  · cases h

theorem run_untilCancelled (f : Frontend σ) (n : Nat) (w : World σ) :
    (untilCancelled f n).run w = match (upTo f n).run (w.after announce) with
      | .ok true w' => .ok true { w' with journal := w'.journal.add .stopping }
      | .ok false w' => .ok false w'
      | .error fault w' => .error fault w' := by
  have ha : announce.run w = .ok () (w.after announce) := rfl
  rw [untilCancelled, EStateM.run_bind, ha]
  simp only [EStateM.run_bind]
  cases (upTo f n).run (w.after announce) with
  | error fault w' => rfl
  | ok cancelled w' => cases cancelled <;> rfl

theorem exists_after_untilCancelled (f : Frontend σ) (n : Nat) (w : World σ) :
    ∃ ended, w.after (untilCancelled f n) =
      { (w.after announce).after (upTo f n) with journal := ended } := by
  have hrun := run_untilCancelled f n w
  generalize w.after announce = begun at hrun ⊢
  unfold World.after
  rw [hrun]
  cases (upTo f n).run begun with
  | error fault w' => exact ⟨w'.journal, rfl⟩
  | ok cancelled w' =>
    cases cancelled with
    | true => exact ⟨_, rfl⟩
    | false => exact ⟨w'.journal, rfl⟩

theorem upTo_induction
    (step : ∀ w, w.session.cancelled = false → P w → I w → I (w.after (once f)))
    {n : Nat} (hall : Every P f n w) (h : I w) : I (w.after (upTo f n)) := by
  induction n generalizing w with
  | zero => exact h
  | succ n ih =>
    unfold World.after
    rw [run_upTo_succ]
    cases hc : w.session.cancelled with
    | true => exact h
    | false =>
      obtain ⟨hP, hrest⟩ := hall hc
      have hnext := step w hc hP h
      unfold World.after at hnext
      rw [if_neg Bool.false_ne_true]
      cases hr : (once f).run w with
      | error fault w' =>
        rw [hr] at hnext
        exact hnext
      | ok u w' =>
        rw [hr] at hnext
        exact ih (hrest w' hr) hnext

end Turn

namespace World

/-- Every turn that is made in a life starts from a world with the property. -/
def EveryTurn (P : Frontend (Recorded σ) → World (Recorded σ) → Prop) (w : World (Recorded σ)) :
    List (Episode σ) → Prop
  | [] => True
  | e :: life => (match e with
      | .run f turns => Turn.Every (P f.recorded) f.recorded turns (w.after Turn.announce)
      | _ => True) ∧ EveryTurn P (w.episode e) life

variable {P : Frontend (Recorded σ) → World (Recorded σ) → Prop}
  {I : Session → Recorded σ → Prop}

instance decidableEveryTurn [∀ f w, Decidable (P f w)] :
    (w : World (Recorded σ)) → (life : List (Episode σ)) → Decidable (EveryTurn P w life)
  | _, [] => .isTrue trivial
  | w, .run f turns :: life =>
    have := decidableEveryTurn (w.episode (.run f turns)) life
    inferInstanceAs (Decidable (Turn.Every _ _ turns _ ∧ _))
  | w, .copy handle :: life =>
    have := decidableEveryTurn (w.episode (.copy handle)) life
    inferInstanceAs (Decidable (True ∧ _))
  | w, .cancel handle :: life =>
    have := decidableEveryTurn (w.episode (.cancel handle)) life
    inferInstanceAs (Decidable (True ∧ _))

/-- What every turn keeps and does not depend on the handles, a life keeps. -/
theorem live_induction
    (step : ∀ (f : Frontend σ) (w : World (Recorded σ)), w.session.cancelled = false →
      P f.recorded w → I w.session w.device →
      I (w.after (Turn.once f.recorded)).session (w.after (Turn.once f.recorded)).device)
    (handles : ∀ s d handles, I s d → I { s with handles } d) {w : World (Recorded σ)}
    {life : List (Episode σ)} (hall : EveryTurn P w life) (h : I w.session w.device) :
    I (w.live life).session (w.live life).device := by
  induction life generalizing w with
  | nil => exact h
  | cons e life ih =>
    obtain ⟨hfirst, hrest⟩ := hall
    refine ih hrest ?_
    obtain ⟨f, turns, rfl⟩ | ⟨c, hc⟩ := w.episode_cases e
    · obtain ⟨ended, hw⟩ := Turn.exists_after_untilCancelled f.recorded turns w
      show I (w.after (Turn.untilCancelled f.recorded turns)).session
        (w.after (Turn.untilCancelled f.recorded turns)).device
      rw [hw]
      exact Turn.upTo_induction (I := fun w => I w.session w.device)
        (fun w => step f w) hfirst h
    · rw [hc]
      exact handles _ _ c h

end World

end ChipEight
