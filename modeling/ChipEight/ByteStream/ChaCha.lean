/-!
# ChaCha with twelve rounds

The block function of the cipher: sixteen words, four of them fixed, eight from the key and two from
the number of the block, are stirred by six double rounds and added to what they were.
-/

namespace ChipEight.ChaCha

/-- The sixteen words that are stirred. -/
abbrev Block := Vector UInt32 16

/-- The eight words of a key. -/
abbrev CipherKey := Vector UInt32 8

/-- A word turned `k` bits towards the high end, for `k` from 1 to 31. -/
def rotateUp (w k : UInt32) : UInt32 := (w <<< k) ||| (w >>> (32 - k))

/-- Adds the word at `b` to the word at `a`, and mixes the sum into the word at `d`, turned. -/
def addMix (s : Block) (a b d : Fin 16) (k : UInt32) : Block :=
  let sum := s[a] + s[b]
  let mixed := rotateUp (s[d] ^^^ sum) k
  (s.set a sum).set d mixed

/-- Stirs four of the words. -/
def quarterRound (s : Block) (a b c d : Fin 16) : Block :=
  let s := addMix s a b d 16
  let s := addMix s c d b 12
  let s := addMix s a b d 8
  addMix s c d b 7

/-- Stirs the four columns, then the four diagonals. -/
def doubleRound (s : Block) : Block :=
  let s := quarterRound s 0 4 8 12
  let s := quarterRound s 1 5 9 13
  let s := quarterRound s 2 6 10 14
  let s := quarterRound s 3 7 11 15
  let s := quarterRound s 0 5 10 15
  let s := quarterRound s 1 6 11 12
  let s := quarterRound s 2 7 8 13
  quarterRound s 3 4 9 14

/-- The text "expand 32-byte k" as four words. -/
def constants : Vector UInt32 4 := #v[0x61707865, 0x3320646e, 0x79622d32, 0x6b206574]

/-- The words before stirring: the constants, the key, the number of the block with its low half
first, and two zeros. -/
def start (key : CipherKey) (number : UInt64) : Block :=
  constants ++ key ++ (#v[number.toUInt32, (number >>> 32).toUInt32, 0, 0] : Vector UInt32 4)

/-- The words of a block. -/
def block (key : CipherKey) (number : UInt64) : Block :=
  let s := start key number
  Vector.zipWith (· + ·) (Nat.repeat doubleRound 6 s) s

end ChipEight.ChaCha
