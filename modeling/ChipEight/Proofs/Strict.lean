import ChipEight.ByteStream.Seeded
import ChipEight.Proofs.Faults
import ChipEight.Proofs.Pixels

/-!
# Cycles that take nothing for granted

`Machine.strictCycle` is a cycle on fixed-width numbers and fixed-size arrays: where a sum or a
product does not fit, a difference is negative, an index is out of range or a byte of the picture is
neither 0 nor 1, it has no result. The stack has no check of its own against a pointer beyond its
slots, and the past drops one snapshot when it is exactly full. So only the bounds of `Bounds` make
it agree with `Machine.cycle`, and then there is one gap left: an empty sprite at address zero has
no last byte (`run_stays_in_bounds`).
-/

namespace ChipEight

/-- The sum of two words, if it is a word. -/
def sum? (a b : UInt16) : Option UInt16 := (fits? UInt16.size (a.toNat + b.toNat)).map UInt16.ofNat

theorem sum?_of_lt {a b : UInt16} (h : a.toNat + b.toNat < UInt16.size) :
    sum? a b = some (a + b) := by
  rw [sum?, fits?_of_lt h, Option.map_some]
  refine congrArg some (UInt16.toNat_inj.mp ?_)
  rw [UInt16.toNat_ofNat', UInt16.toNat_add]

namespace Snapshot

/-- Goes on to the next instruction, if the counter can. -/
def strictNext (s : Snapshot) : Option Snapshot := do
  return { s with pc := ← sum? s.pc 2 }

/-- Goes on, past the next instruction if `skip`, if the counter can. -/
def strictSkipIf (s : Snapshot) (skip : Bool) : Option Snapshot := do
  return { s with pc := ← sum? s.pc (if skip then 4 else 2) }

variable {s : Snapshot}

theorem strictNext_eq (h : s.pc.toNat ≤ 0xFFE) : s.strictNext = some s.next := by
  have hsum : s.pc.toNat + (2 : UInt16).toNat < UInt16.size := by
    show s.pc.toNat + 2 < 0x10000
    omega
  rw [strictNext, sum?_of_lt hsum]
  rfl

theorem strictSkipIf_eq (h : s.pc.toNat ≤ 0xFFE) (skip : Bool) :
    s.strictSkipIf skip = some (s.skipIf skip) := by
  have hsum : s.pc.toNat + (if skip then 4 else 2 : UInt16).toNat < UInt16.size := by
    cases skip
    · show s.pc.toNat + 2 < 0x10000
      omega
    · show s.pc.toNat + 4 < 0x10000
      omega
  rw [strictSkipIf, sum?_of_lt hsum]
  rfl

end Snapshot

namespace Context

/-- Leaves a snapshot behind and goes on. -/
def advance? (c : Context) (s : Snapshot) : Option (Except Fault Context) := do
  return .ok (c.withState (← s.strictNext))

/-- Reaches for `len` bytes at the index register and goes on with what the access yields. The
address of the last byte is worked out whether it is needed or not, and at most sixteen bytes can
be moved. -/
def reach? {α : Type} (c : Context) (len : Nat) (access : Except Fault α)
    (go : α → Option (Except Fault Context)) : Option (Except Fault Context) := do
  let stop ← fits? UInt64.size (c.state.index.toNat + len)
  let _ ← minus? stop 1
  let _ ← minus? 16 len
  match access with
  | .error fault => return .error fault
  | .ok a => go a

variable {c : Context}

theorem advance?_eq {s : Snapshot} (h : s.pc.toNat ≤ 0xFFE) :
    c.advance? s = some (.ok (c.withState s.next)) := by
  rw [advance?, Snapshot.strictNext_eq h]
  rfl

theorem reach?_eq {α : Type} {len : Nat} {access : Except Fault α}
    {go : α → Option (Except Fault Context)} {f : α → Context} (hlen : len ≤ 16)
    (h : 0 < c.state.index.toNat + len)
    (hgo : ∀ a, access = .ok a → go a = some (.ok (f a))) :
    c.reach? len access go = some (do return f (← access)) := by
  have hstop : c.state.index.toNat + len < UInt64.size := by
    have := c.state.index.toNat_lt
    rw [UInt64.size]
    omega
  unfold reach?
  rw [fits?_of_lt hstop, minus?_of_le hlen]
  show (minus? (c.state.index.toNat + len) 1).bind _ = _
  rw [minus?_of_le h, Option.bind_some]
  cases access with
  | error fault => rfl
  | ok a => exact hgo a rfl

theorem reach?_zero {α : Type} {access : Except Fault α}
    {go : α → Option (Except Fault Context)} (h : c.state.index = 0) :
    c.reach? 0 access go = none := by
  unfold reach?
  rw [h]
  rfl

end Context

namespace Instruction

/-- Carries an instruction out, if every number fits and every index is in range. -/
def strict (consume : Bool) (c : Context) (i : Instruction) : Option (Except Fault Context) :=
  let s := c.state
  match i with
  | clear => c.advance? s.clearScreen
  | ret =>
    if s.sp = 0 then some (.error (.stackUnderflow s.pc))
    else do
      let sp ← minus? s.sp.toNat 1
      let addr ← s.stack[sp]?
      return .ok (c.withState { s with pc := ← sum? addr 2, sp := UInt8.ofNat sp })
  | jump addr => some (.ok (c.withState (s.jump addr)))
  | call addr =>
    if h : s.sp.toNat < stackDepth then do
      let sp ← fits? UInt8.size (s.sp.toNat + 1)
      let stack := s.stack.set s.sp.toNat s.pc
      return .ok (c.withState ({ s with stack, sp := UInt8.ofNat sp }.jump addr))
    else some (.error (.stackOverflow s.pc))
  | skipEqual x operand => do
    return .ok (c.withState (← s.strictSkipIf (s.register x = c.value operand)))
  | skipUnequal x operand => do
    return .ok (c.withState (← s.strictSkipIf (s.register x ≠ c.value operand)))
  | load x operand => c.advance? (s.setRegister x (c.value operand))
  | addByte x kk => c.advance? (s.setRegister x (s.register x + kk))
  | alu op x y =>
    let (result, flag) := op.apply (s.register x) (s.register y)
    let s := s.setRegister x result
    c.advance? (flag.elim s s.setFlag)
  | loadIndex addr => c.advance? (s.setIndex (UInt16.ofNat addr))
  | jumpOffset addr => do
    let target ← fits? UInt16.size (addr + (s.register 0).toNat)
    return .ok (c.withState (s.jump target))
  | random x kk =>
    { c with random := c.random.tail }.advance? (s.setRegister x (c.random.head &&& kk))
  | draw x y n =>
    c.reach? n (s.readIndexed n) fun bytes => do
      let canvas ← s.screen.cells.draw (s.register x).toNat (s.register y).toNat bytes
      let screen ← canvas.frame.screen?
      c.advance? { s.setRegister flagRegister canvas.collision with screen, drawn := true }
  | skipKey x => skipOnKey x true
  | skipNoKey x => skipOnKey x false
  | readDelay x => c.advance? (s.setRegister x s.delay)
  | waitKey x =>
    match c.keys.lowest? with
    | some key =>
      { c with keys := c.keys.afterRead consume key }.advance?
        (s.setRegister x (UInt8.ofNat key))
    | none => some (.ok c)
  | setDelay x => c.advance? { s with delay := s.register x }
  | setSound x => c.advance? { s with sound := s.register x }
  | addIndex x => c.advance? (s.setIndex (s.index + (s.register x).toUInt16))
  | glyph x => do
    let addr ← fits? UInt16.size ((s.register x).toNat * Font.glyphHeight)
    c.advance? (s.setIndex (UInt16.ofNat addr))
  | decimal x => c.reach? 3 (s.writeIndexed (decimalDigits (s.register x))) c.advance?
  | store x => c.reach? (x + 1) (s.writeIndexed (s.v.toList.take (x + 1))) c.advance?
  | fetch x => c.reach? (x + 1) (s.readIndexed (x + 1)) fun bytes => c.advance? (s.setLeading bytes)
where
  skipOnKey (x : Register) (held : Bool) : Option (Except Fault Context) := do
    let key := c.namedKey x
    let down ← c.keys[key.val]?
    let state ← c.state.strictSkipIf (down = held)
    return .ok { c with state, keys := if down then c.keys.afterRead consume key else c.keys }

variable {consume : Bool} {c : Context}

/-- An empty sprite at address zero: its last address is below zero. -/
def IsHollow (s : Snapshot) (i : Instruction) : Prop :=
  ∃ x y, i = draw x y 0 ∧ s.index = 0

theorem strict_of_isHollow {i : Instruction} (h : i.IsHollow c.state) :
    i.strict consume c = none := by
  obtain ⟨x, y, rfl, hindex⟩ := h
  exact Context.reach?_zero hindex

theorem strict_ret (h : c.state.Bounded) :
    ret.strict consume c = some (ret.execute consume c) := by
  have hle := h.sp_le
  by_cases h0 : c.state.sp = 0
  · simp [strict, execute_eq, effect, Snapshot.pop, h0, bind, Except.bind]
  have hpos : 1 ≤ c.state.sp.toNat := Nat.pos_of_ne_zero fun h => h0 (UInt8.toNat_inj.mp h)
  have hslot : c.state.sp.toNat - 1 < stackDepth := by
    show c.state.sp.toNat - 1 < 16
    omega
  have hsum : c.state.stack[c.state.sp.toNat - 1].toNat + (2 : UInt16).toNat < UInt16.size := by
    have := h.slot_le _ hslot
    show c.state.stack[c.state.sp.toNat - 1].toNat + 2 < 0x10000
    omega
  have hsp : UInt8.ofNat (c.state.sp.toNat - 1) = c.state.sp - 1 := by
    apply UInt8.toNat_inj.mp
    rw [UInt8.toNat_ofNat', toNat_sub_one hpos]
    omega
  simp only [strict, if_neg h0, minus?_of_le hpos, bind, Option.bind_some,
    Vector.getElem?_eq_getElem hslot, sum?_of_lt hsum, hsp, execute_eq, effect, Snapshot.pop,
    pure]
  rw [dif_pos ⟨hpos, hle⟩]
  rfl

theorem strict_call (addr : Address) :
    (call addr).strict consume c = some ((call addr).execute consume c) := by
  by_cases h : c.state.sp.toNat < stackDepth
  · have h8 : c.state.sp.toNat + 1 < UInt8.size := by
      have h16 : c.state.sp.toNat < 16 := h
      rw [UInt8.size]
      omega
    have hsp : UInt8.ofNat (c.state.sp.toNat + 1) = c.state.sp + 1 := by
      apply UInt8.toNat_inj.mp
      rw [UInt8.toNat_ofNat', UInt8.toNat_add]
      rfl
    simp only [strict, execute_eq, effect, Snapshot.push, dif_pos h, bind, Option.bind_some, hsp,
      pure, fits?_of_lt h8]
    rfl
  · simp only [strict, execute_eq, effect, Snapshot.push, dif_neg h, bind, Except.bind]

theorem strict_draw (hpc : c.state.pc.toNat ≤ 0xFFE) {x y : Register} {n : Fin 16}
    (h : 0 < c.state.index.toNat + n) :
    (draw x y n).strict consume c = some ((draw x y n).execute consume c) := by
  rw [execute_eq]
  refine Context.reach?_eq (Nat.le_of_lt n.isLt) h fun bytes hbytes => ?_
  have hlen : bytes.length = n := Memory.length_of_readBlock hbytes
  have h16 : bytes.length ≤ 16 := by omega
  have hdraw := FrameBuffer.draw_cells c.state.screen (c.state.register x).toNat_lt
    (c.state.register y).toNat_lt h16
  simp only [hdraw, bind, Option.bind_some, FrameBuffer.canvas, FrameBuffer.screen?_cells]
  exact Context.advance?_eq hpc

theorem end_pos_of_not_hollow {s : Snapshot} {n : Fin 16} (h : ¬(n = 0 ∧ s.index = 0)) :
    0 < s.index.toNat + n :=
  Nat.pos_of_ne_zero fun h0 => h
    ⟨Fin.ext (Nat.eq_zero_of_add_eq_zero_left h0),
      UInt16.toNat_inj.mp (Nat.eq_zero_of_add_eq_zero_right h0)⟩

theorem strict_alu (hpc : c.state.pc.toNat ≤ 0xFFE) (op : Alu) (x y : Register) :
    (alu op x y).strict consume c = some ((alu op x y).execute consume c) := by
  simp only [strict, execute_eq, effect, Context.combine]
  obtain ⟨result, flag⟩ := op.apply (c.state.register x) (c.state.register y)
  cases flag <;> exact Context.advance?_eq hpc

theorem strict_skipOnKey (hpc : c.state.pc.toNat ≤ 0xFFE) (x : Register) (held : Bool) :
    strict.skipOnKey consume c x held = some (.ok (c.skipOnKey consume x held)) := by
  have hkey : c.keys[(c.namedKey x).val]? = some c.keys[c.namedKey x] :=
    Vector.getElem?_eq_getElem (c.namedKey x).isLt
  simp only [strict.skipOnKey, hkey, bind, Option.bind_some, Snapshot.strictSkipIf_eq hpc]
  rfl

theorem strict_waitKey (hpc : c.state.pc.toNat ≤ 0xFFE) (x : Register) :
    (waitKey x).strict consume c = some ((waitKey x).execute consume c) := by
  simp only [strict, execute_eq, effect, Context.awaitKey]
  cases c.keys.lowest? with
  | some key => exact Context.advance?_eq hpc
  | none => rfl

theorem strict_of_span? {i : Instruction} {len : Nat} (hlen : i.span? = some len)
    (hpc : c.state.pc.toNat ≤ 0xFFE) (hi : ¬i.IsHollow c.state) :
    i.strict consume c = some (i.execute consume c) := by
  cases i with
  | draw x y n =>
    refine strict_draw hpc (end_pos_of_not_hollow ?_)
    rintro ⟨rfl, hindex⟩
    exact hi ⟨x, y, rfl, hindex⟩
  | decimal x =>
    rw [execute_eq]
    refine Context.reach?_eq (by decide) (by omega) fun s hs => ?_
    obtain ⟨memory, _, rfl⟩ := Snapshot.writeIndexed_eq_ok hs
    exact Context.advance?_eq hpc
  | store x =>
    rw [execute_eq]
    refine Context.reach?_eq (by omega) (by omega) fun s hs => ?_
    obtain ⟨memory, _, rfl⟩ := Snapshot.writeIndexed_eq_ok hs
    exact Context.advance?_eq hpc
  | fetch x =>
    rw [execute_eq]
    refine Context.reach?_eq (by omega) (by omega) fun bytes _ => Context.advance?_eq ?_
    rw [Snapshot.pc_setLeading]
    exact hpc
  | _ => cases hlen

/-- Where a word can be fetched and the bounds hold, nothing but a hollow sprite is out of the
ordinary. -/
theorem strict_eq (h : c.state.Bounded) (hpc : c.state.pc.toNat ≤ 0xFFE) {i : Instruction}
    (hi : ¬i.IsHollow c.state) : i.strict consume c = some (i.execute consume c) := by
  cases i with
  | ret => exact strict_ret h
  | call addr => exact strict_call addr
  | draw | decimal | store | fetch => exact strict_of_span? rfl hpc hi
  | alu op x y => exact strict_alu hpc op x y
  | skipKey x =>
    rw [execute_eq]
    exact strict_skipOnKey hpc x true
  | skipNoKey x =>
    rw [execute_eq]
    exact strict_skipOnKey hpc x false
  | waitKey x => exact strict_waitKey hpc x
  | skipEqual x operand | skipUnequal x operand =>
    simp only [strict, execute_eq, effect, Snapshot.strictSkipIf_eq hpc]
    rfl
  | jump addr => rfl
  | jumpOffset addr =>
    have hlt : addr + (c.state.register 0).toNat < UInt16.size := by
      have := (c.state.register 0).toNat_lt
      rw [UInt16.size]
      omega
    simp only [strict, execute_eq, effect, fits?_of_lt hlt]
    rfl
  | glyph x =>
    have hlt : (c.state.register x).toNat * Font.glyphHeight < UInt16.size := by
      have := (c.state.register x).toNat_lt
      show (c.state.register x).toNat * 5 < 0x10000
      omega
    simp only [strict, execute_eq, effect, fits?_of_lt hlt]
    exact Context.advance?_eq hpc
  | _ =>
    rw [execute_eq]
    exact Context.advance?_eq hpc

end Instruction

namespace Machine

/-- The past with the present put in front; if it is exactly as long as the settings allow, its
oldest snapshot goes. -/
def saved (m : Machine) : List Snapshot :=
  if m.settings.history = 0 then m.history
  else if m.history.length = m.settings.history then m.state :: m.history.dropLast
  else m.state :: m.history

/-- Runs a cycle, if every number fits and every index is in range. -/
def strictCycle (m : Machine) : Option (Machine × Except Fault Cycle) := do
  let _ ← fits? UInt64.size (m.state.pc.toNat + 1)
  match m.fetch with
  | .error fault => return (m, .error fault)
  | .ok word =>
    match Instruction.decode? word with
    | none =>
      let state ← m.untouched.strictNext
      return ({ m with state, history := m.saved }, .error (.unknownOpcode word))
    | some i =>
      match ← i.strict m.settings.clearKeysOnRead m.context with
      | .error fault => return (m, .error fault)
      | .ok c =>
        let changed := { m.state with drawn := c.state.drawn } ≠ c.state
        let history := if changed then m.saved else m.history
        return (
          { m with state := c.state, history, keys := c.keys, random := c.random },
          .ok (if i.redraws then .redraw else .poll))

variable {m : Machine}

theorem saved_eq (h : m.history.length ≤ m.settings.history) : m.saved = m.remembered := by
  unfold saved remembered
  split
  · next h0 =>
    have hnil : m.history = [] := List.eq_nil_of_length_eq_zero (by omega)
    rw [h0, hnil, List.take_zero]
  · next h0 =>
    obtain ⟨k, hk⟩ := Nat.exists_eq_succ_of_ne_zero h0
    rw [hk, Nat.succ_eq_add_one, List.take_succ_cons]
    split
    · next hfull => rw [List.dropLast_eq_take, hfull, Nat.add_sub_cancel]
    · next hfull => rw [List.take_of_length_le (by omega)]

theorem commit_eq (hm : m.Bounded) (c : Context) :
    m.commit c = { m with
      state := c.state
      history := if { m.state with drawn := c.state.drawn } ≠ c.state then m.saved else m.history
      keys := c.keys
      random := c.random } := by
  rw [saved_eq hm.length_le, commit, ite_not]

theorem fits?_pc (m : Machine) :
    fits? UInt64.size (m.state.pc.toNat + 1) = some (m.state.pc.toNat + 1) := by
  have := m.state.pc.toNat_lt
  apply fits?_of_lt
  rw [UInt64.size]
  omega

theorem strictCycle_of_isHollow {i : Instruction} (hi : m.instruction? = some i)
    (h : i.IsHollow m.state) : m.strictCycle = none := by
  obtain ⟨w, hw, hd⟩ := instruction?_eq_some_iff.mp hi
  have hs : i.strict m.settings.clearKeysOnRead m.context = none :=
    Instruction.strict_of_isHollow h
  unfold strictCycle
  rw [fits?_pc, hw]
  simp only [bind, Option.bind_some, hd, hs, Option.bind_none]

theorem strictCycle_eq (hm : m.Bounded)
    (h : ∀ i, m.instruction? = some i → ¬i.IsHollow m.state) : m.strictCycle = some m.cycle := by
  unfold strictCycle
  rw [fits?_pc]
  by_cases hpc : 0xFFE < m.state.pc.toNat
  · rw [cycle_of_gt hpc, fetch_of_gt hpc]
    rfl
  have hle : m.state.pc.toNat ≤ 0xFFE := Nat.le_of_not_lt hpc
  obtain ⟨w, hw⟩ := fetch_eq_ok_iff.mpr hle
  rw [hw]
  cases hd : Instruction.decode? w with
  | none =>
    have hnext : m.untouched.strictNext = some m.untouched.next := Snapshot.strictNext_eq hle
    rw [cycle_of_unknown hw hd, passOver, ← saved_eq hm.length_le]
    simp only [bind, Option.bind_some, hd, hnext]
    rfl
  | some i =>
    have hi : m.instruction? = some i := instruction?_eq_some_iff.mpr ⟨w, hw, hd⟩
    have hs : i.strict m.settings.clearKeysOnRead m.context = some (m.outcome i) :=
      Instruction.strict_eq hm.untouched hle (h i hi)
    simp only [bind, Option.bind_some, hd, hs]
    cases ho : m.outcome i with
    | error f => rw [cycle_of_error hi ho]; rfl
    | ok c => rw [cycle_of_ok hi ho, commit_eq hm]; rfl

/-- **Every run stays in bounds.** Whatever is done to a new machine, the state and every snapshot
of the past have at most sixteen return addresses, the counter at most at `0x10FE`, a word behind
every return address and a picture of zeros and ones, and the past is no longer than the settings
allow. So every number of the next cycle fits and every index is in range, and the cycle is the
strict one, unless it draws an empty sprite at address zero. -/
theorem run_stays_in_bounds {settings : Settings} {source : RandomSource} {new : Machine}
    (h : create settings source = .ok new) (ops : List Operation) :
    (∀ s ∈ (new.run ops).state :: (new.run ops).history,
      s.sp.toNat ≤ 16 ∧ s.pc.toNat ≤ 0x10FE ∧
      (∀ (k : Nat) (hk : k < stackDepth), s.stack[k].toNat ≤ 0xFFE) ∧
      ∀ (y x : Nat) (hy : y < screenHeight) (hx : x < screenWidth),
        s.screen.cells[y][x] = 0 ∨ s.screen.cells[y][x] = 1) ∧
    (new.run ops).history.length ≤ settings.history ∧
    ((new.run ops).strictCycle = none ↔
      ∃ x y, (new.run ops).instruction? = some (.draw x y 0) ∧ (new.run ops).state.index = 0) ∧
    ∀ r, (new.run ops).strictCycle = some r → r = (new.run ops).cycle := by
  have hm : (new.run ops).Bounded := (Reachable.run (.create h) ops).bounded
  have hsettings : (new.run ops).settings = settings := by
    obtain ⟨_, rfl⟩ := create_eq_ok_iff.mp h
    exact settings_run _ ops
  have hlen := hm.length_le
  rw [hsettings] at hlen
  generalize new.run ops = m at hm hlen ⊢
  have hstate : ∀ s ∈ m.state :: m.history, s.Bounded := by
    intro s hs
    rcases List.mem_cons.mp hs with rfl | hs
    · exact hm.state
    · exact hm.past s hs
  refine ⟨fun s hs => ⟨(hstate s hs).sp_le, (hstate s hs).pc_le, (hstate s hs).slot_le, ?_⟩, hlen,
    ?_⟩
  · intro y x hy hx
    rw [Screen.getElem_cells s.screen y x hy hx]
    cases s.screen.pixel ⟨y, hy⟩ ⟨x, hx⟩
    · exact .inl rfl
    · exact .inr rfl
  by_cases hhollow : ∃ i, m.instruction? = some i ∧ i.IsHollow m.state
  · obtain ⟨_, hi, x, y, rfl, hindex⟩ := hhollow
    have hnone : m.strictCycle = none := strictCycle_of_isHollow hi ⟨x, y, rfl, hindex⟩
    rw [hnone]
    exact ⟨⟨fun _ => ⟨x, y, hi, hindex⟩, fun _ => rfl⟩, fun r hr => nomatch hr⟩
  · have hsome : m.strictCycle = some m.cycle :=
      strictCycle_eq hm fun i hi hh => hhollow ⟨i, hi, hh⟩
    rw [hsome]
    refine ⟨⟨nofun, ?_⟩, fun r hr => (Option.some.inj hr).symm⟩
    rintro ⟨x, y, hi, hindex⟩
    exact absurd ⟨_, hi, x, y, rfl, hindex⟩ hhollow

/-- Of two empty sprites the one at address zero has no last byte. -/
theorem run_stays_in_bounds_but_hollow :
    ((fresh {} (.cipher default)).run [.load [0xD0, 0x00]]).strictCycle = none ∧
    ((fresh {} (.cipher default)).run [.load [0xA0, 0x01, 0xD0, 0x00], .cycle]).strictCycle ≠
      none := by
  have h : create {} (.cipher default) = .ok (fresh {} (.cipher default)) :=
    create_eq_ok_iff.mpr ⟨rfl, rfl⟩
  refine ⟨(run_stays_in_bounds h [.load [0xD0, 0x00]]).2.2.1.mpr ⟨0, 0, ?_, ?_⟩, ?_⟩
  · decide +kernel
  · decide +kernel
  · rw [Ne, (run_stays_in_bounds h [.load [0xA0, 0x01, 0xD0, 0x00], .cycle]).2.2.1]
    rintro ⟨_, _, _, hindex⟩
    revert hindex
    decide +kernel

end Machine

end ChipEight
