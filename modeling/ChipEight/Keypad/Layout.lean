import ChipEight.Keypad.Basic

/-!
# The keyboard layout

The keypad lies on the four left columns of a keyboard:

    1 2 3 C        1 2 3 4
    4 5 6 D   on   Q W E R
    7 8 9 E        A S D F
    A 0 B F        Z X C V
-/

namespace ChipEight.Keypad

/-- The keyboard key on which each key of the keypad lies, from key 0 on. -/
def layout : Vector String 16 :=
  #v["X", "Num1", "Num2", "Num3", "Q", "W", "E", "A", "S", "D", "Z", "C", "Num4", "R", "F", "V"]

/-- The key that lies on the keyboard key of a name, if one does. -/
def ofKeyboard? (name : String) : Option Key := (List.finRange 16).find? (layout.get · = name)

theorem ofKeyboard?_layout : ∀ key : Key, ofKeyboard? (layout.get key) = some key := by decide

end ChipEight.Keypad
