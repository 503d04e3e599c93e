/-!
# Logarithmic scales

Scores add up where weights multiply. A weight that is not above zero scores `never`.
-/
namespace TabularParsing

structure LogScale (W L : Type) where
  /-- The score of what cannot happen. -/
  never : L
  log : W → L
  exp : L → W

/-- The logarithm of a weight, `never` unless the weight is above zero. -/
def LogScale.logWeight {W L : Type} [Zero W] [LT W] [DecidableLT W] (scale : LogScale W L)
    (w : W) : L :=
  if 0 < w then scale.log w else scale.never

/-- Natural logarithms of doubles, with minus infinity for what cannot happen. -/
def naturalScale : LogScale Float Float := ⟨-(1.0 / 0.0), Float.log, Float.exp⟩

end TabularParsing
