import ChipEight.Frontend.Basic

/-!
# The terminal

A frontend that writes text. A picture is the sequence that moves the cursor home and a line for
each row, so that it covers the picture before it; a tone is the bell character. There are no keys.
The text goes to a `Sink`, each picture and each bell with one write and one flush.
-/

namespace ChipEight

/-- Where text is written to: the text and the number of bytes so far, how many bytes can be written
at all if that is limited, and whether a flush fails. -/
structure Sink where
  text : String := ""
  written : Nat := 0
  limit : Option Nat := none
  flushFails : Bool := false

namespace Sink

/-- Whether a number of further bytes can be written. -/
def hasRoom (s : Sink) (bytes : Nat) : Bool := s.limit.all fun limit => s.written + bytes ≤ limit

/-- Writes a text and flushes it. A text that does not fit is not written at all; a text whose flush
fails has been written. -/
def put (s : Sink) (text : String) : Reply Sink Unit :=
  if s.hasRoom text.utf8ByteSize then
    { device := { s with text := s.text ++ text, written := s.written + text.utf8ByteSize }
      result := if s.flushFails then .error (.frontend "flush failed") else .ok () }
  else { device := s, result := .error (.frontend "sink full") }

end Sink

namespace Terminal

/-- Moves the cursor to the upper left corner. -/
def home : String := "\x1b[H"

/-- Rings the bell. -/
def bell : String := "\x07"

/-- A pixel as a character. -/
def pixelChar (lit : Bool) : Char := if lit then '█' else ' '

/-- A row of a picture as a line. -/
def line (row : BitVec screenWidth) : String :=
  String.ofList ((List.finRange screenWidth).map fun x => pixelChar (row.getMsbD x.val)) ++ "\n"

/-- A picture as text. -/
def frame (s : Screen) : String := home ++ String.join (s.toList.map line)

/-- The terminal as a frontend. -/
def frontend : Frontend Sink where
  poll _ keys device := { device, keys, result := .ok {} }
  render screen sink := sink.put (frame screen)
  beep sink := sink.put bell

end Terminal

end ChipEight
