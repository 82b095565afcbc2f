/-!
# Streams of random bytes

A generator puts out words of 32 bits, and a random byte is the low byte of the next one. A stream
is a sequence of bytes, fixed from the start, with a count of those already taken. Which words come
out is not said here: a `RandomSource` has one sequence for each seed and one for machines without.
-/

namespace ChipEight

/-- An endless sequence of bytes and how far it has been read. -/
structure ByteStream where
  byteAt : Nat → UInt8
  taken : Nat := 0

namespace ByteStream

/-- The first byte that has not been taken. -/
def head (s : ByteStream) : UInt8 := s.byteAt s.taken

/-- The stream behind that byte. -/
def tail (s : ByteStream) : ByteStream := { s with taken := s.taken + 1 }

/-- The low bytes of the words of a generator. -/
def lowBytes (wordAt : Nat → UInt32) : ByteStream where
  byteAt k := (wordAt k).toUInt8

/-- The low bytes of `start`, `start + stride`, `start + 2 * stride` and so on. -/
def arithmetic (start stride : UInt64) : ByteStream where
  byteAt k := (start + UInt64.ofNat k * stride).toUInt8

end ByteStream

/-- The words that generators put out: under each seed, and for a machine that has none. -/
structure RandomSource where
  seeded : UInt64 → Nat → UInt32
  unseeded : Nat → UInt32

/-- The random bytes of a machine. -/
def RandomSource.bytes (source : RandomSource) (seed : Option UInt64) : ByteStream :=
  .lowBytes (seed.elim source.unseeded source.seeded)

end ChipEight
