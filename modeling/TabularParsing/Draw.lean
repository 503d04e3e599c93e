/-!
# Uniform draws

What needs chance takes a way to draw: for a bound, a value from zero up to but below it, and the
source as it is afterwards. A bound that leaves no such value yields nothing. One such way turns
64-bit words into doubles.
-/
namespace TabularParsing

/-- A value of `[0, bound)` and the remaining source, or none if the bound admits no draw. -/
abbrev Drawing (G W : Type) := (bound : W) → G → Option (W × G)

/-- Where 64-bit words come from: a list that ends in zeros, or a mixed counter. -/
inductive WordStream where
  | listed (words : List UInt64)
  | mixed (counter : UInt64)

def WordStream.next : WordStream → UInt64 × WordStream
  | listed [] => (0, listed [])
  | listed (w :: ws) => (w, listed ws)
  | mixed counter =>
    let s := counter + 0x9E3779B97F4A7C15
    let z := (s ^^^ (s >>> 30)) * 0xBF58476D1CE4E5B9
    let z := (z ^^^ (z >>> 27)) * 0x94D049BB133111EB
    (z ^^^ (z >>> 31), mixed s)

/-- A stream of words that counts the words taken from it. -/
structure WordSource where
  stream : WordStream
  used : Nat

def WordSource.next (g : WordSource) : UInt64 × WordSource :=
  let (w, stream) := g.stream.next
  (w, ⟨stream, g.used + 1⟩)

/-- The upper 52 bits of a word as a fraction of one. -/
def unitFraction (w : UInt64) : Float := (w >>> 12).toFloat / 4503599627370496.0

/-- Takes words until one scales to a value below the bound; after a thousand failures, zero. -/
def drawScaled (bound : Float) : Nat → WordSource → Float × WordSource
  | 0, g => (0.0, g)
  | n + 1, g =>
    let (w, g) := g.next
    let x := unitFraction w * bound
    if x < bound then (x, g) else drawScaled bound n g

/-- Draws a double below a positive finite bound. -/
def WordSource.drawFloat : Drawing WordSource Float := fun bound g =>
  if 0.0 < bound ∧ bound.isFinite then some (drawScaled bound 1000 g) else none

end TabularParsing
