/-!
# Cancellation handles

A handle tells whether something has been cancelled. Handles that are copied from one another share
one flag, which is raised through any of them and never lowered. A `Cancellation` is a family of
handles, numbered in the order in which they were made.
-/

namespace ChipEight

/-- A family of handles: for each of them the flag that it shares, named by the handle that the flag
was made for, and the flags that are raised. -/
structure Cancellation where
  flags : Array Nat
  raised : List Nat
  deriving DecidableEq

namespace Cancellation

/-- A family of one handle, not cancelled. -/
def single : Cancellation := ⟨#[0], []⟩

/-- How many handles there are. -/
def size (c : Cancellation) : Nat := c.flags.size

/-- One more handle, with a flag of its own. -/
def fresh (c : Cancellation) : Cancellation := { c with flags := c.flags.push c.size }

/-- The flag of handle `h`. -/
def flag (c : Cancellation) (h : Nat) : Nat := c.flags[h]?.getD h

/-- One more handle, which shares the flag of handle `h`. -/
def copy (c : Cancellation) (h : Nat) : Cancellation := { c with flags := c.flags.push (c.flag h) }

/-- Raises the flag of handle `h`. -/
def cancel (c : Cancellation) (h : Nat) : Cancellation :=
  { c with raised := c.raised.insert (c.flag h) }

/-- Whether the flag of handle `h` is raised. -/
def isRaised (c : Cancellation) (h : Nat) : Bool := c.raised.contains (c.flag h)

/-- Whether the flag of each handle is raised. -/
def statuses (c : Cancellation) : Array Bool := c.flags.map (c.raised.contains ·)

variable {c : Cancellation} {h : Nat}

@[simp] theorem isRaised_cancel (c : Cancellation) (h : Nat) : (c.cancel h).isRaised h = true :=
  List.contains_iff_mem.mpr List.mem_insert_self

theorem cancel_of_isRaised (hr : c.isRaised h = true) : c.cancel h = c := by
  rw [cancel, List.insert_of_mem (List.contains_iff_mem.mp hr)]

end Cancellation

end ChipEight
