import ChipEight.ByteStream.Seeded
import ChipEight.Proofs.Course

/-!
# Cancelling a session is final

A session is cancelled through a handle, during a call to the frontend, or by a user who quits. The
turn in which that happens is carried to its end, but for the cycles if it happened during the look
at the keys (`Turn.Orderly`). It is the last turn of the run, which ends well unless a call has
failed (`Turn.untilCancelled_of_cancelled`), and every later run ends before its first turn.

A session holds one of its handles. All are copies of one another and share a flag
(`Session.Shared`), so what is done through any of them is done to the session.
-/

namespace ChipEight

variable {σ : Type}

/-! ### Calls and rests -/

namespace World

def turnCalls (w : World σ) (f : Frontend σ) : List Call :=
  .poll w.session.now w.session.machine.keys ::
    ((if w.shows f then [.render (w.worked f).state.screen] else []) ++
      if w.plays f then [.beep] else [])

/-- The session behind a turn that has come to its rest. -/
def finished (w : World σ) (f : Frontend σ) (c : Control) : Session :=
  { w.session.heed ((w.pollReply f).cancels || (w.shows f && (w.renderReply f).cancels) ||
      (w.plays f && (w.beepReply f).cancels)) with
    machine := w.session.machine.run (w.operations f)
    pacing := ((w.polled f).handOut c).1
    now := w.session.now + (w.pollReply f).elapsed + ((w.polled f).handOut c).1.idle }

variable {f : Frontend σ} {w w₁ : World σ} {c : Control}

theorem turnCalls_of_dismissed (h : ∀ c, (w.pollReply f).result = .ok c → c.quit = true) :
    w.turnCalls f = [.poll w.session.now w.session.machine.keys] := by
  obtain ⟨-, hshows, hplays⟩ := labour_of_dismissed h
  simp [turnCalls, hshows, hplays]

theorem calls_after (r : Recorded σ) (call : Call) (device : σ) :
    (r.after call device).calls.toList = r.calls.toList ++ [call] := Array.toList_push

theorem calls_polled (w : World (Recorded σ)) (f : Frontend σ) :
    (w.polled f.recorded).device.calls.toList =
      w.device.calls.toList ++ [.poll w.session.now w.session.machine.keys] := calls_after ..

theorem calls_pictured (w : World (Recorded σ)) (f : Frontend σ) (drawn : Bool) :
    (w.pictured f.recorded drawn).device.calls.toList = w.device.calls.toList ++
      if drawn then [.render w.session.machine.state.screen] else [] := by
  cases drawn
  · exact (List.append_nil _).symm
  · exact calls_after ..

theorem calls_presented (w : World (Recorded σ)) (f : Frontend σ) (shows plays : Bool) :
    (w.presented f.recorded shows plays).device.calls.toList = w.device.calls.toList ++
      ((if shows then [.render w.session.machine.state.screen] else []) ++
        if plays then [.beep] else []) := by
  unfold presented
  rw [← List.append_assoc, ← calls_pictured w f]
  cases plays
  · exact (List.append_nil _).symm
  · exact calls_after ..

namespace Laboured

theorem session_rested (h : w.Laboured f c w₁) (hh : (w.steps f).any Step.halts = false)
    (hs : (w.steps f).any Step.touches = true → (w.renderReply f).result.isOk = true) :
    ((w₁.pictured f ((w.steps f).any Step.touches)).sounded f).rested.session =
      w.finished f c := by
  obtain ⟨hshows, hplays⟩ := plays_of_shown hh hs
  have hrest : ∀ v : World σ, v.rested.session = v.session.rest := fun _ => rfl
  rw [hrest, session_sounded, h.toneWaits, h.beepReply, session_pictured, h.renderReply, h.session,
    finished, run_operations, hshows, hplays, ← Session.heed_heed, ← Session.heed_heed]
  rfl

variable {f : Frontend σ} {w w₁ : World (Recorded σ)}

theorem calls (h : w.Laboured f.recorded c w₁) :
    w₁.device.calls.toList =
      w.device.calls.toList ++ [.poll w.session.now w.session.machine.keys] := by
  rw [h.device, calls_polled]

theorem calls_presented (h : w.Laboured f.recorded c w₁) (shows plays : Bool) :
    (w₁.presented f.recorded shows plays).device.calls.toList =
      w.device.calls.toList ++ .poll w.session.now w.session.machine.keys ::
        ((if shows then [.render (w.worked f.recorded).state.screen] else []) ++
          if plays then [.beep] else []) := by
  rw [World.calls_presented, h.calls, h.machine, List.append_assoc, List.singleton_append]

end Laboured

theorem calls_once (f : Frontend σ) (w : World (Recorded σ)) :
    (w.after (Turn.once f.recorded)).device.calls.toList =
      w.device.calls.toList ++ w.turnCalls f.recorded := by
  have hbehind := w.behind_once f.recorded
  generalize w.after (Turn.once f.recorded) = v at hbehind ⊢
  cases hbehind with
  | polled h =>
    rw [turnCalls_of_dismissed h]
    exact w.calls_polled f
  | quit h =>
    rw [turnCalls_of_dismissed h]
    exact w.calls_polled f
  | failed hl => exact hl.calls_presented ..
  | rested hl => exact hl.calls_presented ..

end World

namespace Turn

variable {f : Frontend σ} {w w' : World σ} {c : Control}

/-- The call to the frontend that a turn fails at. -/
inductive CallFails (f : Frontend σ) (w : World σ) (fault : Fault) : Prop
  | poll : (w.pollReply f).result = .error fault → CallFails f w fault
  | render : w.shows f = true → (w.renderReply f).result = .error fault → CallFails f w fault
  | beep : w.plays f = true → (w.beepReply f).result = .error fault → CallFails f w fault

theorem callFails_of_cancelled {fault : Fault} (h : (once f).run w = .error fault w')
    (hc : w'.session.cancelled = true) : CallFails f w fault := by
  have hends := once_ends f w
  rw [h] at hends
  cases hends with
  | pollFails hp => exact .poll hp
  | halts hl hh =>
    rw [hl.session] at hc
    rw [World.steps, Machine.any_halts_of_no_cycle (World.cycle_notMem_labour hc)] at hh
    cases hh
  | renderFails hl hh ht hr =>
    rw [hl.renderReply] at hr
    exact .render (by simp [World.shows, hh, ht]) hr
  | beepFails hl hh htone hr hs =>
    rw [hl.beepReply] at hr
    rw [hl.toneWaits] at htone
    exact .beep ((World.plays_of_shown hh hs).2.trans htone) hr

theorem Smooth.run_once (h : Smooth f w) (hc : (w.pollReply f).result = .ok c)
    (hq : c.quit = false) : ∃ w', (once f).run w = .ok () w' ∧ w'.session = w.finished f c := by
  obtain ⟨w', hw'⟩ := h.exists_run
  refine ⟨w', hw', ?_⟩
  have hends := once_ends f w
  rw [hw'] at hends
  cases hends with
  | quits hc' hq' =>
    rw [hc] at hc'
    cases hc'
    rw [hq] at hq'
    cases hq'
  | rests hl hh hs =>
    have hasked := hl.asked
    rw [hc] at hasked
    cases hasked
    exact hl.session_rested hh hs

theorem once_of_quit (hc : (w.pollReply f).result = .ok c) (hq : c.quit = true) :
    (once f).run w = .ok () { w.polled f with session := (w.polled f).session.cancel } := by
  show (poll f >>= fun c => if c.quit then cancel else serve f c).run w = _
  rw [EStateM.run_bind, run_poll, run_conclude, hc]
  simp only [hq, if_true]
  rfl

/-- What a turn comes to: one look at the keys, then at most one picture and one tone; nothing
behind a look in which the user quits; no cycle, and so none that halts, behind one in which the
session is cancelled. The work that has come due is done, the picture is shown, the tone is played
and the session rests once. No turn follows one behind which the session is cancelled. -/
structure Orderly (f : Frontend σ) (w : World (Recorded σ)) : Prop where
  calls : (w.after (once f.recorded)).device.calls.toList =
    w.device.calls.toList ++ w.turnCalls f.recorded
  machine : (w.after (once f.recorded)).session.machine =
    w.session.machine.run (w.operations f.recorded)
  quits : ∀ c, (w.pollReply f.recorded).result = .ok c → c.quit = true →
    (once f.recorded).run w =
      .ok () { w.polled f.recorded with session := (w.polled f.recorded).session.cancel }
  idles : (w.polled f.recorded).session.cancelled = true →
    .cycle ∉ w.labour f.recorded ∧ (w.steps f.recorded).any Step.halts = false
  labours : ∀ c, (w.pollReply f.recorded).result = .ok c → c.quit = false →
    (w.steps f.recorded).any Step.halts = false →
    let due := ((w.polled f.recorded).handOut c).2
    w.labour f.recorded =
      if c.rewind then (w.polled f.recorded).session.machine.retreat due.cycles
      else .replicate (if (w.polled f.recorded).session.cancelled then 0 else due.cycles) .cycle ++
        .replicate due.ticks .tick
  completes : ∀ c, (w.pollReply f.recorded).result = .ok c → c.quit = false →
    (w.steps f.recorded).any Step.halts = false →
    (w.shows f.recorded = true → (w.renderReply f.recorded).result.isOk = true) →
    (w.plays f.recorded = true → (w.beepReply f.recorded).result.isOk = true) →
    ∃ w', (once f.recorded).run w = .ok () w' ∧ w'.session = w.finished f.recorded c
  last : w.session.cancelled = false → ∀ w', (once f.recorded).run w = .ok () w' →
    w'.session.cancelled = true → ∀ n, (upTo f.recorded (n + 1)).run w = .ok true w'

theorem orderly (f : Frontend σ) (w : World (Recorded σ)) : Orderly f w where
  calls := w.calls_once f
  machine := w.machine_once f.recorded
  quits _ := once_of_quit
  idles h :=
    have hno := World.cycle_notMem_labour h
    ⟨hno, Machine.any_halts_of_no_cycle hno⟩
  labours _ := World.labour_of_goesOn
  completes c hc hq hh hshows hplays := by
    have hr : (w.steps f.recorded).any Step.touches = true →
        (w.renderReply f.recorded).result.isOk = true := by
      intro ht
      exact hshows (by simp [World.shows, hh, ht])
    refine Smooth.run_once ⟨by rw [hc]; rfl, hh, hr, ?_⟩ hc hq
    rw [← (World.plays_of_shown hh hr).2]
    exact hplays
  last hw w' hrun hc n := by
    rw [run_upTo_succ, hw, hrun]
    exact upTo_of_cancelled _ n hc

/-! ### The course of a run -/

/-- A session that is cancelled behind some turns was cancelled in the last of them, which ended
well or failed at a call. -/
theorem upTo_ends_of_cancelled {n : Nat} (h : (w.after (upTo f n)).session.cancelled = true) :
    (∃ w', (upTo f n).run w = .ok true w') ∨
    ∃ k v fault w', k < n ∧ (upTo f k).run w = .ok false v ∧ CallFails f v fault ∧
      (upTo f n).run w = .error fault w' := by
  induction n generalizing w with
  | zero =>
    have hw : w.session.cancelled = true := h
    exact .inl ⟨w, upTo_of_cancelled f 0 hw⟩
  | succ n ih =>
    cases hc : w.session.cancelled with
    | true => exact .inl ⟨w, upTo_of_cancelled f _ hc⟩
    | false =>
      unfold World.after at h
      rw [run_upTo_succ, hc, if_neg Bool.false_ne_true] at h ⊢
      cases honce : (once f).run w with
      | error fault w' =>
        rw [honce] at h
        -- the turn that fails is the first one
        have hnone : (upTo f 0).run w = .ok false w := congrArg (EStateM.Result.ok · w) hc
        exact .inr ⟨0, w, fault, w', n.succ_pos, hnone, callFails_of_cancelled honce h, rfl⟩
      | ok u w₁ =>
        rw [honce] at h
        obtain hok | ⟨k, v, fault, w', hk, hv, hfails, herror⟩ := ih h
        · exact .inl hok
        · refine .inr ⟨k + 1, v, fault, w', Nat.succ_lt_succ hk, ?_, hfails, herror⟩
          rw [run_upTo_succ, hc, if_neg Bool.false_ne_true, honce]
          exact hv

theorem untilCancelled_of_cancelled {n : Nat}
    (h : (w.after (untilCancelled f n)).session.cancelled = true) :
    (∃ w', (untilCancelled f n).run w = .ok true w') ∨
    ∃ k v fault w', k < n ∧ (upTo f k).run (w.after announce) = .ok false v ∧
      CallFails f v fault ∧ (untilCancelled f n).run w = .error fault w' := by
  obtain ⟨ended, hw⟩ := exists_after_untilCancelled f n w
  rw [hw] at h
  rw [run_untilCancelled]
  obtain ⟨w', hok⟩ | ⟨k, v, fault, w', hk, hv, hfails, herror⟩ := upTo_ends_of_cancelled h
  · rw [hok]
    exact .inl ⟨_, rfl⟩
  · rw [herror]
    exact .inr ⟨k, v, fault, w', hk, hv, hfails, rfl⟩

theorem run_untilCancelled_of_cancelled (f : Frontend σ) (n : Nat)
    (h : w.session.cancelled = true) :
    ∃ ended, (untilCancelled f n).run w = .ok true { w with journal := ended } := by
  have ha : (w.after announce).session.cancelled = true := h
  rw [run_untilCancelled, upTo_of_cancelled f n ha]
  exact ⟨_, rfl⟩

end Turn

/-! ### Handles -/

namespace Session

/-- All handles of a session share one flag, its own among them. -/
structure Shared (s : Session) : Prop where
  own : s.handle < s.handles.size
  flag : ∀ h < s.handles.size, s.handles.flag h = s.handles.flag s.handle

variable {s s' : Session} {h : Nat}

theorem shared_start (m : Machine) : (start m).Shared where
  own := Nat.zero_lt_one
  flag h hh := by
    obtain rfl : h = 0 := Nat.lt_one_iff.mp hh
    rfl

/-- The handles are as before, though the session may have been cancelled. -/
structure SameHandles (s s' : Session) : Prop where
  flags : s'.handles.flags = s.handles.flags
  handle : s'.handle = s.handle

theorem SameHandles.trans {s'' : Session} (h : s.SameHandles s') (h' : s'.SameHandles s'') :
    s.SameHandles s'' := ⟨h'.flags.trans h.flags, h'.handle.trans h.handle⟩

theorem sameHandles_heed (s : Session) (cancels : Bool) : s.SameHandles (s.heed cancels) := by
  cases cancels <;> exact ⟨rfl, rfl⟩

theorem Shared.congr (hs : s.Shared) (h : s.SameHandles s') : s'.Shared := by
  obtain ⟨own, flag⟩ := hs
  unfold Cancellation.size at own flag
  unfold Cancellation.flag at flag
  rw [← h.flags, ← h.handle] at own flag
  exact ⟨own, flag⟩

theorem Shared.copy (hs : s.Shared) (hh : h < s.handles.size) :
    ({ s with handles := s.handles.copy h } : Session).Shared ∧
      ({ s with handles := s.handles.copy h } : Session).cancelled = s.cancelled := by
  have hsize : (s.handles.copy h).size = s.handles.size + 1 := Array.size_push ..
  have hflag : ∀ k < s.handles.size, (s.handles.copy h).flag k = s.handles.flag k := by
    intro k hk
    unfold Cancellation.flag
    rw [Cancellation.copy, Array.getElem?_push_lt hk, Array.getElem?_eq_getElem hk]
  have hlast : (s.handles.copy h).flag s.handles.size = s.handles.flag h := by
    rw [Cancellation.flag, Cancellation.copy, Cancellation.size, Array.getElem?_push_size]
    rfl
  refine ⟨⟨by rw [hsize]; exact Nat.lt_succ_of_lt hs.own, fun k hk => ?_⟩, ?_⟩
  · rw [hflag _ hs.own]
    rcases Nat.lt_succ_iff_lt_or_eq.mp (hsize ▸ hk) with hk | rfl
    · exact (hflag k hk).trans (hs.flag k hk)
    · exact hlast.trans (hs.flag h hh)
  · show (s.handles.copy h).isRaised s.handle = s.handles.isRaised s.handle
    rw [Cancellation.isRaised, hflag _ hs.own]
    rfl

theorem Shared.cancel (hs : s.Shared) (hh : h < s.handles.size) :
    { s with handles := s.handles.cancel h } = s.cancel := by
  rw [Session.cancel, Cancellation.cancel, Cancellation.cancel, hs.flag h hh]

theorem Shared.statuses (hs : s.Shared) :
    s.handles.statuses = .replicate s.handles.size s.cancelled := by
  refine Array.ext_getElem? fun i => ?_
  rw [Cancellation.statuses, Array.getElem?_map, Array.getElem?_replicate]
  split
  · next hi =>
    have hflag := hs.flag i hi
    rw [Cancellation.flag, Array.getElem?_eq_getElem hi] at hflag
    rw [Array.getElem?_eq_getElem hi]
    exact congrArg (fun flag => some (s.handles.raised.contains flag)) hflag
  · next hi => rw [Array.getElem?_eq_none (Nat.not_lt.mp hi)]; rfl

end Session

namespace World

variable {f : Frontend σ} {w w₁ : World σ} {c : Control}

theorem sameHandles_pictured (w : World σ) (f : Frontend σ) (drawn : Bool) :
    w.session.SameHandles (w.pictured f drawn).session := by
  rw [session_pictured]
  exact w.session.sameHandles_heed _

theorem sameHandles_beeped (w : World σ) (f : Frontend σ) :
    w.session.SameHandles (w.beeped f).session := by
  have hsilenced : w.session.SameHandles w.silenced.session := by
    unfold silenced
    split <;> exact ⟨rfl, rfl⟩
  exact hsilenced.trans (w.silenced.session.sameHandles_heed _)

theorem sameHandles_presented (w : World σ) (f : Frontend σ) (shows plays : Bool) :
    w.session.SameHandles (w.presented f shows plays).session := by
  unfold presented
  cases plays with
  | false => exact w.sameHandles_pictured f shows
  | true => exact (w.sameHandles_pictured f shows).trans (sameHandles_beeped _ f)

theorem sameHandles_polled (w : World σ) (f : Frontend σ) :
    w.session.SameHandles (w.polled f).session := by
  obtain ⟨hflags, hhandle⟩ := w.session.sameHandles_heed (w.pollReply f).cancels
  exact ⟨hflags, hhandle⟩

theorem Laboured.sameHandles (h : w.Laboured f c w₁) : w.session.SameHandles w₁.session := by
  obtain ⟨hflags, hhandle⟩ := w.sameHandles_polled f
  rw [h.session]
  exact ⟨hflags, hhandle⟩

theorem sameHandles_once (w : World σ) (f : Frontend σ) :
    w.session.SameHandles (w.after (Turn.once f)).session := by
  have hbehind := w.behind_once f
  generalize w.after (Turn.once f) = v at hbehind ⊢
  cases hbehind with
  | polled => exact w.sameHandles_polled f
  | quit => exact (w.sameHandles_polled f).trans ((w.polled f).session.sameHandles_heed true)
  | @failed c w₁ hl => exact hl.sameHandles.trans (w₁.sameHandles_presented ..)
  | @rested c w₁ hl =>
    obtain ⟨hflags, hhandle⟩ :=
      hl.sameHandles.trans (w₁.sameHandles_presented f (w.shows f) (w.plays f))
    exact ⟨hflags, hhandle⟩

variable {w : World (Recorded σ)}

theorem shared_episode (h : w.session.Shared) (e : Episode σ) : (w.episode e).session.Shared := by
  cases e with
  | run f turns =>
    obtain ⟨ended, hw⟩ := Turn.exists_after_untilCancelled f.recorded turns w
    have hupTo : ((w.after Turn.announce).after (Turn.upTo f.recorded turns)).session.Shared :=
      Turn.upTo_induction (P := fun _ => True) (I := fun v => v.session.Shared)
        (fun v _ _ hv => hv.congr (v.sameHandles_once f.recorded))
        (Turn.every_of_forall (fun _ => trivial) turns _) h
    show (w.after (Turn.untilCancelled f.recorded turns)).session.Shared
    rw [hw]
    exact hupTo
  | copy handle =>
    simp only [episode]
    split
    · next hh => exact (h.copy hh).1
    · exact h
  | cancel handle =>
    simp only [episode]
    split
    · next hh =>
      show ({ w.session with handles := w.session.handles.cancel handle } : Session).Shared
      rw [h.cancel hh]
      exact h.congr (w.session.sameHandles_heed true)
    · exact h

theorem shared_live (h : w.session.Shared) (life : List (Episode σ)) :
    (w.live life).session.Shared := by
  induction life generalizing w with
  | nil => exact h
  | cons e life ih => exact ih (shared_episode h e)

theorem cancelled_episode_cancel (h : w.session.Shared) {handle : Nat}
    (hh : handle < w.session.handles.size) :
    (w.episode (.cancel handle)).session.cancelled = true := by
  simp only [episode, if_pos hh]
  show ({ w.session with handles := w.session.handles.cancel handle } : Session).cancelled = true
  rw [h.cancel hh]
  exact w.session.cancelled_cancel

/-- Once a session is cancelled nothing changes but that there may be more handles. -/
theorem episode_of_cancelled (h : w.session.Shared) (hc : w.session.cancelled = true)
    (e : Episode σ) :
    let w' := w.episode e
    w'.session.cancelled = true ∧
      w'.session = (w.withHandles w'.session.handles).session ∧ w'.device = w.device := by
  cases e with
  | run f turns =>
    obtain ⟨ended, hrun⟩ := Turn.run_untilCancelled_of_cancelled f.recorded turns hc
    have hw : w.episode (.run f turns) = { w with journal := ended } := after_of_ok hrun
    rw [hw]
    exact ⟨hc, rfl, rfl⟩
  | copy handle =>
    simp only [episode]
    split
    · next hh => exact ⟨(h.copy hh).2.trans hc, rfl, rfl⟩
    · exact ⟨hc, rfl, rfl⟩
  | cancel handle =>
    refine ⟨?_, ?_⟩
    · by_cases hh : handle < w.session.handles.size
      · exact cancelled_episode_cancel h hh
      · simp only [episode, if_neg hh]
        exact hc
    · simp only [episode]
      split <;> exact ⟨rfl, rfl⟩

theorem live_of_cancelled (h : w.session.Shared) (hc : w.session.cancelled = true)
    (life : List (Episode σ)) :
    let w' := w.live life
    w'.session.cancelled = true ∧
      w'.session = (w.withHandles w'.session.handles).session ∧ w'.device = w.device := by
  induction life generalizing w with
  | nil => exact ⟨hc, rfl, rfl⟩
  | cons e life ih =>
    obtain ⟨hc', hsession, hdevice⟩ := episode_of_cancelled h hc e
    obtain ⟨hlast, hsession', hdevice'⟩ := ih (shared_episode h e) hc'
    have hsame : ∀ handles, ((w.episode e).withHandles handles).session =
        (w.withHandles handles).session :=
      fun handles => congrArg (fun s : Session => { s with handles }) hsession
    exact ⟨hlast, hsession'.trans (hsame _), hdevice'.trans hdevice⟩

/-- **Cancelling is final.** Whatever has happened to a session and its handles, all handles report
the same, and through each of them the session is cancelled. Every turn of a run is orderly, and a
run behind which the session is cancelled ends well unless a call fails. Whatever happens to a
session that has been cancelled, all handles report it, the session and its frontend stay as they
are, and every run ends well before its first turn. -/
theorem cancelling_is_final (m : Machine) (journal : Journal) (device : σ)
    (life : List (Episode σ)) :
    let w := (new m journal device).live life
    w.session.handles.statuses = .replicate w.session.handles.size w.session.cancelled ∧
    (∀ handle < w.session.handles.size,
      (w.episode (.cancel handle)).session.cancelled = true) ∧
    (∀ (f : Frontend σ) (n : Nat),
      let w' := w.episode (.run f n)
      Turn.Every (Turn.Orderly f) f.recorded n (w.after Turn.announce) ∧
      (w'.session.cancelled = true →
        (Turn.untilCancelled f.recorded n).run w = .ok true w' ∨
        ∃ k v fault, k < n ∧
          (Turn.upTo f.recorded k).run (w.after Turn.announce) = .ok false v ∧
          Turn.CallFails f.recorded v fault ∧
          (Turn.untilCancelled f.recorded n).run w = .error fault w')) ∧
    (w.session.cancelled = true → ∀ later : List (Episode σ),
      let w' := w.live later
      w'.session.handles.statuses = .replicate w'.session.handles.size true ∧
      w'.session = (w.withHandles w'.session.handles).session ∧ w'.device = w.device ∧
      ∀ (f : Frontend σ) (n : Nat), ∃ ended,
        (Turn.untilCancelled f.recorded n).run w' = .ok true { w' with journal := ended }) := by
  intro w
  have hshared : w.session.Shared := shared_live (Session.shared_start m) life
  refine ⟨hshared.statuses, fun handle hh => cancelled_episode_cancel hshared hh, ?_, ?_⟩
  · intro f n w'
    refine ⟨Turn.every_of_forall (Turn.orderly f) n _, fun hc => ?_⟩
    obtain ⟨v, hok⟩ | ⟨k, v, fault, v', hk, hv, hfails, herror⟩ :=
      Turn.untilCancelled_of_cancelled hc
    · have hw' : w' = v := after_of_ok hok
      exact .inl (hw' ▸ hok)
    · have hw' : w' = v' := after_of_error herror
      exact .inr ⟨k, v, fault, hk, hv, hfails, hw' ▸ herror⟩
  · intro hc later w'
    obtain ⟨hc', hsession, hdevice⟩ := live_of_cancelled hshared hc later
    refine ⟨?_, hsession, hdevice, fun f n => ?_⟩
    · rw [← hc']
      exact (shared_live hshared later).statuses
    · exact Turn.run_untilCancelled_of_cancelled f.recorded n hc'

/-- A session is cancelled in its second turn, during the look at the keys. The cycles of that turn
are left out; its tick is made, which runs the sound timer out, and the tone is played. -/
theorem cancelling_is_final_in_poll :
    let m := (Machine.fresh { clockHz := 100 } (.cipher default)).perform
      (.load [0x60, 0x02, 0xF0, 0x18, 0x12, 0x00])
    let device : Playback Unit := { polls := [{ wait := 20000000 },
      { wait := 20000000, cancels := true }, {}], device := () }
    let f : Frontend (Playback Unit) := Script.frontend {} .silent
    ∃ w w', (new m {} device).live [.copy 0, .run f 5] = w ∧
      w.live [.copy 1, .run f 5, .cancel 2] = w' ∧
      w.session.machine.state.pc = 0x204 ∧ w.device.calls.size = 3 ∧ w.device.tones = 1 ∧
      w'.session = (w.withHandles w'.session.handles).session ∧ w'.device = w.device ∧
      w'.session.handles.statuses = #[true, true, true] := by
  intro m device f
  have hc : ((new m {} device).live [.copy 0, .run f 5]).session.cancelled = true := by
    decide +kernel
  have hsize : (((new m {} device).live [.copy 0, .run f 5]).live
      [.copy 1, .run f 5, .cancel 2]).session.handles.size = 3 := by decide +kernel
  obtain ⟨-, -, -, hfinal⟩ := cancelling_is_final m {} device [.copy 0, .run f 5]
  obtain ⟨hstatuses, hsession, hdevice, -⟩ := hfinal hc [.copy 1, .run f 5, .cancel 2]
  rw [hsize] at hstatuses
  exact ⟨_, _, rfl, rfl, by decide +kernel, by decide +kernel, by decide +kernel, hsession, hdevice,
    hstatuses⟩

end World

end ChipEight
