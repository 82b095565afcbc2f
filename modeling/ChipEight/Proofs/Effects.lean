import ChipEight.Instruction.Execute

/-!
# What an instruction comes to

`Instruction.effect` says at once what an instruction makes of a context. Carried out step by step
and in place it comes to the same, and what is left behind by an instruction that fails is the
context before it: snapshot, keys and random bytes (`run_inPlace`).
-/

namespace ChipEight

variable {α : Type} {fault : Fault}

/-! ### Handlers -/

namespace Snapshot

/-- The snapshot with an address on the stack, unless every slot is in use. -/
def push (s : Snapshot) (addr : UInt16) : Except Fault Snapshot :=
  if h : s.sp.toNat < stackDepth then
    .ok { s with stack := s.stack.set s.sp.toNat addr, sp := s.sp + 1 }
  else .error (.stackOverflow s.pc)

theorem top_lt {s : Snapshot} (h : 0 < s.sp.toNat ∧ s.sp.toNat ≤ stackDepth) :
    s.sp.toNat - 1 < stackDepth := by omega

/-- The latest address on the stack and the snapshot without it, unless no slot is in use. -/
def pop (s : Snapshot) : Except Fault (UInt16 × Snapshot) :=
  if h : 0 < s.sp.toNat ∧ s.sp.toNat ≤ stackDepth then
    .ok (getElem s.stack (s.sp.toNat - 1) (top_lt h), { s with sp := s.sp - 1 })
  else .error (.stackUnderflow s.pc)

/-- The snapshot with bytes written from the index register on. -/
def writeIndexed (s : Snapshot) (bytes : List UInt8) : Except Fault Snapshot := do
  return { s with memory := ← s.memory.writeBlock s.index.toNat bytes }

end Snapshot

/-- How a program ends that leaves `s` behind when it fails. -/
def ending {σ : Type} (s : σ) : Except Fault σ → EStateM.Result Fault σ Unit
  | .ok s' => .ok () s'
  | .error fault => .error fault s

namespace Handler

variable {s : Snapshot}

theorem run_get_bind (s : Snapshot) (h : Snapshot → Handler α) :
    (get >>= h).run s = (h s).run s := rfl

theorem run_push (s : Snapshot) (addr : UInt16) : (push addr).run s = ending s (s.push addr) := by
  show (if s.sp.toNat < stackDepth then _ else _ : Handler Unit).run s = _
  unfold Snapshot.push
  by_cases h : s.sp.toNat < stackDepth
  · rw [if_pos h, dif_pos h]
    -- the index is below the depth, so the store need not check it again
    have hset : s.stack.setIfInBounds s.sp.toNat addr = s.stack.set s.sp.toNat addr :=
      Vector.ext fun k hk => by rw [Vector.getElem_setIfInBounds, Vector.getElem_set]
    show EStateM.Result.ok () { s with
      stack := s.stack.setIfInBounds s.sp.toNat addr, sp := s.sp + 1 } = _
    rw [hset]
    rfl
  · rw [if_neg h, dif_neg h]
    rfl

theorem run_pop (s : Snapshot) :
    pop.run s = match s.pop with
      | .ok (addr, s') => .ok addr s'
      | .error fault => .error fault s := by
  show (if h : 0 < s.sp.toNat ∧ s.sp.toNat ≤ stackDepth then _ else _ : Handler UInt16).run s = _
  unfold Snapshot.pop
  by_cases h : 0 < s.sp.toNat ∧ s.sp.toNat ≤ stackDepth
  · rw [dif_pos h, dif_pos h]
    rfl
  · rw [dif_neg h, dif_neg h]
    rfl

theorem run_readIndexed (s : Snapshot) (len : Nat) :
    (readIndexed len).run s = match s.readIndexed len with
      | .ok bytes => .ok bytes s
      | .error fault => .error fault s := by
  show (match s.readIndexed len with
    | .ok bytes => pure bytes
    | .error fault => throw fault : Handler (List UInt8)).run s = _
  cases s.readIndexed len <;> rfl

theorem run_poke (s : Snapshot) (addr : Nat) (bytes : List UInt8) :
    (poke addr bytes).run s = .ok () { s with memory := s.memory.overwrite addr bytes } := by
  induction bytes generalizing s addr with
  | nil => rfl
  | cons b bytes ih => exact ih { s with memory := s.memory.setIfInBounds addr b } (addr + 1)

theorem run_lend_poke (s : Snapshot) (addr : Nat) (bytes : List UInt8) :
    (do lend addr bytes.length; poke addr bytes : Handler Unit).run s =
      ending s ((s.memory.writeBlock addr bytes).map fun memory => { s with memory }) := by
  rw [EStateM.run_bind, lend, Memory.writeBlock]
  by_cases hend : addr + bytes.length ≤ memorySize
  · rw [if_pos hend, if_pos hend]
    exact run_poke s addr bytes
  · rw [if_neg hend, if_neg hend]
    rfl

theorem run_writeIndexed (s : Snapshot) (bytes : List UInt8) :
    (writeIndexed bytes).run s = ending s (s.writeIndexed bytes) := by
  refine (run_lend_poke s s.index.toNat bytes).trans ?_
  unfold Snapshot.writeIndexed
  cases s.memory.writeBlock s.index.toNat bytes <;> rfl

theorem run_ret (s : Snapshot) :
    ret.run s = ending s (s.pop.map fun (addr, s) => { s with pc := addr + 2 }) := by
  rw [ret, EStateM.run_bind, run_pop]
  cases s.pop <;> rfl

theorem run_call (s : Snapshot) (addr : Nat) :
    (call addr).run s = ending s ((s.push s.pc).map (·.jump addr)) := by
  show (do push s.pc; jump addr : Handler Unit).run s = _
  rw [EStateM.run_bind, run_push]
  cases s.push s.pc <;> rfl

theorem run_combine (s : Snapshot) (op : Alu) (x y : Register) :
    (combine op x y).run s =
      let (result, flag) := op.apply (s.register x) (s.register y)
      let s := s.setRegister x result
      .ok () (flag.elim s s.setFlag).next := by
  rw [combine, run_get_bind]
  obtain ⟨result, _ | flag⟩ := op.apply (s.register x) (s.register y) <;> rfl

theorem run_readIndexed_modify (s : Snapshot) (len : Nat) (f : List UInt8 → Snapshot → Snapshot) :
    (do
      let bytes ← readIndexed len
      modify (f bytes)
      next : Handler Unit).run s =
      ending s ((s.readIndexed len).map fun bytes => (f bytes s).next) := by
  rw [EStateM.run_bind, run_readIndexed]
  cases s.readIndexed len <;> rfl

theorem run_writeIndexed_next (s : Snapshot) (bytes : List UInt8) :
    (do writeIndexed bytes; next : Handler Unit).run s =
      ending s ((s.writeIndexed bytes).map Snapshot.next) := by
  rw [EStateM.run_bind, run_writeIndexed]
  cases s.writeIndexed bytes <;> rfl

theorem run_draw (s : Snapshot) (x y : Register) (n : Nat) :
    (draw x y n).run s = ending s ((s.readIndexed n).map fun bytes =>
      (s.drawSprite (s.register x).toNat (s.register y).toNat bytes).next) :=
  run_readIndexed_modify s n fun bytes s =>
    s.drawSprite (s.register x).toNat (s.register y).toNat bytes

theorem run_fetch (s : Snapshot) (x : Register) :
    (fetch x).run s = ending s ((s.readIndexed (x + 1)).map fun bytes =>
      (s.setLeading bytes).next) :=
  run_readIndexed_modify s (x + 1) fun bytes s => s.setLeading bytes

theorem run_decimal (s : Snapshot) (x : Register) :
    (decimal x).run s =
      ending s ((s.writeIndexed (decimalDigits (s.register x))).map Snapshot.next) := by
  rw [decimal, run_get_bind, run_writeIndexed_next]

theorem run_store (s : Snapshot) (x : Register) :
    (store x).run s =
      ending s ((s.writeIndexed (s.v.toList.take (x + 1))).map Snapshot.next) := by
  rw [store, run_get_bind, run_writeIndexed_next]

end Handler

/-! ### Instructions -/

namespace Context

/-- Sets a register and goes on. -/
def load (c : Context) (x : Register) (value : UInt8) : Context :=
  c.withState (c.state.setRegister x value).next

/-- Combines two registers into the first and goes on; a flag is written last. -/
def combine (c : Context) (op : Alu) (x y : Register) : Context :=
  let (result, flag) := op.apply (c.state.register x) (c.state.register y)
  let s := c.state.setRegister x result
  c.withState ((flag.elim s s.setFlag).next)

/-- Skips an instruction if the key that a register names is in the state `held`; a key seen down is
released if keys are consumed by reading. -/
def skipOnKey (c : Context) (consume : Bool) (x : Register) (held : Bool) : Context :=
  let key := c.namedKey x
  let down := c.keys[key]
  { c with
    state := c.state.skipIf (down = held)
    keys := if down then c.keys.afterRead consume key else c.keys }

/-- Reads the lowest key that is down and goes on; with no key down nothing happens. -/
def awaitKey (c : Context) (consume : Bool) (x : Register) : Context :=
  match c.keys.lowest? with
  | some key =>
    { c.load x (UInt8.ofNat key) with keys := c.keys.afterRead consume key }
  | none => c

/-- Sets a register to the next random byte, masked, and goes on. -/
def loadRandom (c : Context) (x : Register) (mask : UInt8) : Context :=
  { c.load x (c.random.head &&& mask) with random := c.random.tail }

theorem skipOnKey_eq (c : Context) (consume : Bool) (x : Register) (held : Bool) :
    c.skipOnKey consume x held = { c with
      state := c.state.skipIf (c.keys.get (c.namedKey x) = held)
      keys := if c.keys.get (c.namedKey x) then c.keys.afterRead consume (c.namedKey x)
        else c.keys } := rfl

end Context

namespace Instruction

/-- What an instruction makes of a context. -/
def effect (consume : Bool) (c : Context) (i : Instruction) : Except Fault Context :=
  let s := c.state
  match i with
  | clear => .ok (c.withState s.clearScreen.next)
  | ret => do
    let (addr, s) ← s.pop
    return c.withState { s with pc := addr + 2 }
  | jump addr => .ok (c.withState (s.jump addr))
  | call addr => do
    let s ← s.push s.pc
    return c.withState (s.jump addr)
  | skipEqual x operand => .ok (c.withState (s.skipIf (s.register x = c.value operand)))
  | skipUnequal x operand => .ok (c.withState (s.skipIf (s.register x ≠ c.value operand)))
  | load x operand => .ok (c.load x (c.value operand))
  | addByte x kk => .ok (c.load x (s.register x + kk))
  | alu op x y => .ok (c.combine op x y)
  | loadIndex addr => .ok (c.withState (s.setIndex (UInt16.ofNat addr)).next)
  | jumpOffset addr => .ok (c.withState (s.jump (addr + (s.register 0).toNat)))
  | random x kk => .ok (c.loadRandom x kk)
  | draw x y n => do
    let bytes ← s.readIndexed n
    return c.withState (s.drawSprite (s.register x).toNat (s.register y).toNat bytes).next
  | skipKey x => .ok (c.skipOnKey consume x true)
  | skipNoKey x => .ok (c.skipOnKey consume x false)
  | readDelay x => .ok (c.load x s.delay)
  | waitKey x => .ok (c.awaitKey consume x)
  | setDelay x => .ok (c.withState { s with delay := s.register x }.next)
  | setSound x => .ok (c.withState { s with sound := s.register x }.next)
  | addIndex x => .ok (c.withState (s.setIndex (s.index + (s.register x).toUInt16)).next)
  | glyph x =>
    let addr := (s.register x).toNat * Font.glyphHeight
    .ok (c.withState (s.setIndex (UInt16.ofNat addr)).next)
  | decimal x => do
    let s ← s.writeIndexed (decimalDigits (s.register x))
    return c.withState s.next
  | store x => do
    let s ← s.writeIndexed (s.v.toList.take (x + 1))
    return c.withState s.next
  | fetch x => do
    let bytes ← s.readIndexed (x + 1)
    return c.withState (s.setLeading bytes).next

variable {consume : Bool} {c c' : Context} {i : Instruction}

theorem run_handle {h : Handler Unit} {r : Except Fault Snapshot}
    (hr : h.run c.state = ending c.state r) :
    (Execution.handle h).run c = ending c (r.map c.withState) := by
  unfold EStateM.run at hr
  unfold EStateM.run Execution.handle EStateM.run
  rw [hr]
  cases r <;> rfl

theorem run_pressed (consume : Bool) (x : Register) (c : Context) :
    (Execution.pressed consume x).run c = .ok (c.keys.get (c.namedKey x))
      { c with keys := if c.keys.get (c.namedKey x) then c.keys.afterRead consume (c.namedKey x)
        else c.keys } := by
  show (do
    if c.keys.get (c.namedKey x) then set { c with keys := c.keys.afterRead consume (c.namedKey x) }
    return c.keys.get (c.namedKey x) : Execution Bool).run c = _
  cases c.keys.get (c.namedKey x) <;> rfl

theorem run_awaitKey (consume : Bool) (x : Register) (c : Context) :
    (Execution.awaitKey consume x).run c = .ok () (c.awaitKey consume x) := by
  show (match c.keys.lowest? with
    | some key => do
      modify fun c => { c with keys := c.keys.afterRead consume key }
      Execution.handle (.load x (UInt8.ofNat key))
    | none => pure () : Execution Unit).run c = _
  unfold Context.awaitKey
  cases c.keys.lowest? <;> rfl

/-- Step by step an instruction comes to its effect, and one that fails leaves the context before it
behind. -/
theorem run_inPlace (consume : Bool) (c : Context) (i : Instruction) :
    (i.inPlace consume).run c = ending c (i.effect consume c) := by
  cases i with
  | ret =>
    rw [inPlace, run_handle (Handler.run_ret c.state), effect]
    cases c.state.pop <;> rfl
  | call addr =>
    rw [inPlace, run_handle (Handler.run_call c.state addr), effect]
    cases c.state.push c.state.pc <;> rfl
  | alu op x y => exact run_handle (r := .ok (c.combine op x y).state) (Handler.run_combine ..)
  | skipKey x =>
    show (Execution.pressed consume x >>= fun down => Execution.handle (.skipIf down)).run c = _
    rw [EStateM.run_bind, run_pressed, effect, Context.skipOnKey_eq]
    cases c.keys.get (c.namedKey x) <;> rfl
  | skipNoKey x =>
    show (Execution.pressed consume x >>= fun down => Execution.handle (.skipIf !down)).run c = _
    rw [EStateM.run_bind, run_pressed, effect, Context.skipOnKey_eq]
    cases c.keys.get (c.namedKey x) <;> rfl
  | waitKey x => exact run_awaitKey consume x c
  | draw x y n =>
    rw [inPlace, run_handle (Handler.run_draw c.state x y n), effect]
    cases c.state.readIndexed n <;> rfl
  | fetch x =>
    rw [inPlace, run_handle (Handler.run_fetch c.state x), effect]
    cases c.state.readIndexed (x + 1) <;> rfl
  | decimal x =>
    rw [inPlace, run_handle (Handler.run_decimal c.state x), effect]
    cases c.state.writeIndexed (decimalDigits (c.state.register x)) <;> rfl
  | store x =>
    rw [inPlace, run_handle (Handler.run_store c.state x), effect]
    cases c.state.writeIndexed (c.state.v.toList.take (x + 1)) <;> rfl
  | _ => rfl

theorem execute_eq (consume : Bool) (c : Context) (i : Instruction) :
    i.execute consume c = i.effect consume c := by
  rw [execute, run_inPlace]
  cases i.effect consume c <;> rfl

theorem run_inPlace_eq_ok_iff :
    (i.inPlace consume).run c = .ok () c' ↔ i.execute consume c = .ok c' := by
  rw [run_inPlace, execute_eq]
  cases i.effect consume c <;> simp [ending]

theorem run_inPlace_eq_error_iff :
    (i.inPlace consume).run c = .error fault c' ↔ i.execute consume c = .error fault ∧ c' = c := by
  rw [run_inPlace, execute_eq]
  cases i.effect consume c <;> simp [ending, eq_comm]

end Instruction

end ChipEight
