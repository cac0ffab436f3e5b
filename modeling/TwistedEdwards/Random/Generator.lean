/-!
# The seeded generator

A generator of 64-bit words with a state of four words.  The state is filled from
one seed word by a second, smaller generator that steps by a fixed odd increment
and mixes what it finds.
-/

namespace TwistedEdwards

/-- The state of the generator. -/
structure Generator where
  s0 : UInt64
  s1 : UInt64
  s2 : UInt64
  s3 : UInt64
deriving DecidableEq

namespace Generator

/-- The increment of the seeding generator. -/
@[inline] def seedStep : UInt64 := 0x9e3779b97f4a7c15

/-- Mixes the bits of a word. -/
def mix (z : UInt64) : UInt64 :=
  let z := (z ^^^ (z >>> 30)) * 0xbf58476d1ce4e5b9
  let z := (z ^^^ (z >>> 27)) * 0x94d049bb133111eb
  z ^^^ (z >>> 31)

/-- The generator of a seed: the four words after the seed, mixed. -/
def ofSeed (seed : UInt64) : Generator :=
  ⟨mix (seed + seedStep), mix (seed + 2 * seedStep), mix (seed + 3 * seedStep),
    mix (seed + 4 * seedStep)⟩

/-- Rotates a word left by `k` bits, for `0 < k < 64`. -/
@[inline] def rotate (x k : UInt64) : UInt64 := x <<< k ||| x >>> (64 - k)

/-- The word that a state gives. -/
def output (g : Generator) : UInt64 := rotate (g.s1 * 5) 7 * 9

/-- The state after the next word. -/
def advance (g : Generator) : Generator :=
  let s2 := g.s2 ^^^ g.s0
  let s3 := g.s3 ^^^ g.s1
  ⟨g.s0 ^^^ s3, g.s1 ^^^ s2, s2 ^^^ (g.s1 <<< 17), rotate s3 45⟩

/-- A computation that draws from the generator. -/
abbrev Draw := StateM Generator

/-- The next word. -/
def next : Draw UInt64 := fun g => (g.output, g.advance)

end Generator

end TwistedEdwards
