namespace QueuePair

abbrev Instant := Nat

structure Span where
  nanos : Nat
deriving DecidableEq, Repr

namespace Span

def perSecond : Nat := 1000000000

def ofParts (secs nanos : Nat) : Span :=
  ⟨secs * perSecond + nanos⟩

def ofMillis (ms : Nat) : Span :=
  ⟨ms * 1000000⟩

def secs (s : Span) : Nat :=
  s.nanos / perSecond

def subsecNanos (s : Span) : Nat :=
  s.nanos % perSecond

def max : Span :=
  ofParts 18446744073709551615 (perSecond - 1)

def fractionDigits (width n : Nat) : List Char :=
  let digits := Nat.toDigits 10 n
  let padded := List.replicate (width - digits.length) '0' ++ digits
  (padded.reverse.dropWhile (· = '0')).reverse

def textIn (n width : Nat) (unit : String) : String :=
  let scale := Nat.pow 10 width
  let rest := n % scale
  let fraction := if rest = 0 then "" else "." ++ String.ofList (fractionDigits width rest)
  toString (n / scale) ++ fraction ++ unit

/-- The text of a span: the largest unit that leaves a non-zero integer part, then the exact decimal
fraction without trailing zeros. -/
def text (s : Span) : String :=
  if s.nanos ≥ 1000000000 then textIn s.nanos 9 "s"
  else if s.nanos ≥ 1000000 then textIn s.nanos 6 "ms"
  else if s.nanos ≥ 1000 then textIn s.nanos 3 "µs"
  else textIn s.nanos 0 "ns"

end Span

end QueuePair
