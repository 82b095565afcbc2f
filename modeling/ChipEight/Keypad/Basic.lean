/-!
# The keypad

Sixteen keys, each up or down. An instruction that looks at a key can release it by doing so.
-/

namespace ChipEight

/-- The number of a key. -/
abbrev Key := Fin 16

/-- Which keys are down. -/
abbrev Keypad := Vector Bool 16

namespace Keypad

/-- All keys up. -/
def released : Keypad := Vector.replicate 16 false

/-- A key goes down; a number that is no key's is ignored. -/
def press (pad : Keypad) (key : Nat) : Keypad := pad.setIfInBounds key true

/-- A key goes up; a number that is no key's is ignored. -/
def release (pad : Keypad) (key : Nat) : Keypad := pad.setIfInBounds key false

/-- The lowest key that is down. -/
def lowest? (pad : Keypad) : Option Key := (List.finRange 16).find? (pad[·])

/-- The keypad after an instruction has seen `key` down: released if keys are consumed by reading,
else as it was. -/
def afterRead (pad : Keypad) (consume : Bool) (key : Key) : Keypad :=
  if consume then pad.release key else pad

theorem lowest?_eq_some_iff {pad : Keypad} {key : Key} :
    pad.lowest? = some key ↔ pad[key] = true ∧ ∀ k : Key, k < key → pad[k] = false := by
  rw [lowest?, List.find?_eq_some_iff_getElem]
  constructor
  · rintro ⟨hk, i, hi, rfl, hlt⟩
    refine ⟨by simpa using hk, fun k hk' => ?_⟩
    have hki : k.val < i := by simpa [Fin.lt_def] using hk'
    simpa using hlt k.val hki
  · rintro ⟨hk, hlt⟩
    refine ⟨by simpa using hk, key.val, by simp, by simp, fun j hj => ?_⟩
    have hj16 : j < 16 := by omega
    simpa using hlt ⟨j, hj16⟩ (by simpa [Fin.lt_def] using hj)

theorem lowest?_eq_none_iff {pad : Keypad} : pad.lowest? = none ↔ ∀ k : Key, pad[k] = false := by
  simp [lowest?, List.find?_eq_none]

theorem getElem_release (pad : Keypad) (key k : Key) :
    (pad.release key)[k] = (pad[k] && decide (k ≠ key)) := by
  by_cases h : key = k
  · subst h
    simp [release]
  · have hv : key.val ≠ k.val := fun e => h (Fin.ext e)
    simp [release, hv, Ne.symm h]

end Keypad

end ChipEight
