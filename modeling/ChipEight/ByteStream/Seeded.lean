import ChipEight.ByteStream.Basic
import ChipEight.ByteStream.ChaCha

/-!
# Random words from a cipher

The source that the program runs with. A seed of 64 bits is stretched to a cipher key by a linear
congruential sequence whose values are folded to words; without a seed the key is given. The words
are the output of the cipher under that key.
-/

namespace ChipEight.RandomSource

/-- The value behind `s` in the sequence that stretches a seed. -/
def stretch (s : UInt64) : UInt64 := s * 6364136223846793005 + 11634580027462260723

/-- A value of the sequence folded to a word: 32 of its bits, turned down by its top five. -/
def fold (s : UInt64) : UInt32 :=
  let word := (((s >>> 18) ^^^ s) >>> 27).toUInt32
  let turn := (s >>> 59).toUInt32
  (word >>> turn) ||| (word <<< (32 - turn))

/-- The cipher key of a seed. -/
def cipherKey (seed : UInt64) : ChaCha.CipherKey :=
  Vector.ofFn fun k => fold (Nat.repeat stretch (k + 1) seed)

/-- Word `k` of the output under a key: blocks follow one another. -/
def wordAt (key : ChaCha.CipherKey) (k : Nat) : UInt32 :=
  (ChaCha.block key (UInt64.ofNat (k / 16)))[k % 16]

/-- The output of the cipher; machines without a seed take `key`. -/
def cipher (key : ChaCha.CipherKey) : RandomSource where
  seeded seed :=
    let key := cipherKey seed
    fun k => wordAt key k
  unseeded := wordAt key

end ChipEight.RandomSource
