/-
TreeRewriting/Text/Shortest.lean

Numbers as positional decimals, with the fewest digits that read back.

Design.  A positive finite number of binary64 is `m * 2 ^ q`.  The reals that
round to it form an interval, which holds its ends iff `m` is even.  Grids of
powers of ten are tried from coarse to fine; on each only the two multiples
next to the value matter, because if any multiple lies in the interval then so
does one of those.  The first grid with a hit gives the fewest digits, of two
hits the nearer wins, and an exact tie goes up.  All of it is done in `Nat`.

The text never uses an exponent and has no fraction when the value is whole.
-/
import TreeRewriting.Number

namespace TreeRewriting

/-- The reals that round to one positive number: the number and the two ends,
each over `2 ^ scale`, and whether the ends belong to it. -/
structure RoundingInterval where
  low : Nat
  value : Nat
  high : Nat
  scale : Nat
  closed : Bool

namespace RoundingInterval

/-- The interval of `m * 2 ^ q`.  Below a power of two the neighbour is half as
far away as above it, except at the least exponent. -/
def of (m : Nat) (q : Int) : RoundingInterval :=
  let below := if m = Nat.pow 2 52 ∧ q ≠ -1074 then 1 else 2
  let lift := (q - 2).toNat
  { low := (4 * m - below) * Nat.pow 2 lift
    value := 4 * m * Nat.pow 2 lift
    high := (4 * m + 2) * Nat.pow 2 lift
    scale := (2 - q).toNat
    closed := m % 2 == 0 }

/-- Whether `x / den` lies in the interval. -/
def holds (r : RoundingInterval) (x den : Nat) : Bool :=
  if r.closed then decide (r.low * den ≤ x * Nat.pow 2 r.scale ∧ x * Nat.pow 2 r.scale ≤ r.high * den)
  else decide (r.low * den < x * Nat.pow 2 r.scale ∧ x * Nat.pow 2 r.scale < r.high * den)

/-- The multiple of `10 ^ k` in the interval that is nearest to the value, if
there is one, as the number of times `10 ^ k` is taken. -/
def onGrid (r : RoundingInterval) (k : Int) : Option Nat :=
  let step := Nat.pow 10 k.toNat
  let den := Nat.pow 10 (-k).toNat
  let down := r.value * den / (Nat.pow 2 r.scale * step)
  let up := down + 1
  match r.holds (down * step) den, r.holds (up * step) den with
  | true, true =>
    let above := up * step * Nat.pow 2 r.scale - r.value * den
    let under := r.value * den - down * step * Nat.pow 2 r.scale
    some (if under < above then down else up)
  | true, false => some down
  | false, true => some up
  | false, false => none

/-- The first hit on the grids `10 ^ k`, `10 ^ (k - 1)`, … with `n + 1` of them
tried; the last resort is the value itself, whose decimal is finite. -/
def firstHit (r : RoundingInterval) : Nat → Int → Nat × Int
  | n, k =>
    match r.onGrid k with
    | some digits => (digits, k)
    | none =>
      match n with
      | 0 => (r.value * Nat.pow 5 r.scale, -(r.scale : Int))
      | n + 1 => firstHit r n (k - 1)

end RoundingInterval

/-! ### Decimal text -/

/-- The decimal of fewest digits that rounds to `m * 2 ^ q`, as `d` and `k` with
value `d * 10 ^ k`.  Seventeen digits always suffice, and the first grid tried is
at most three places above the leading digit. -/
def shortestDecimal (m : Nat) (q : Int) : Nat × Int :=
  let top := ((Nat.log2 m : Int) + q + 1) * 30103 / 100000 + 1
  (RoundingInterval.of m q).firstHit 20 top

/-- The text of `d * 10 ^ k` without an exponent. -/
def positional (d : Nat) (k : Int) : List Char :=
  if 0 ≤ k then Nat.toDigits 10 d ++ List.replicate k.toNat '0'
  else
    let places := (-k).toNat
    let digits := Nat.toDigits 10 d
    let padded := List.replicate (places + 1 - digits.length) '0' ++ digits
    let whole := padded.length - places
    padded.take whole ++ '.' :: padded.drop whole

/-- The text of a number: the shortest positional decimal that reads back, with
words for what is not finite and a sign on negative zero. -/
def numberText (x : Number) : String :=
  let bits := x.bits.toNat
  let exponent : Nat := bits / Nat.pow 2 52 % Nat.pow 2 11
  let fraction : Nat := bits % Nat.pow 2 52
  let sign := if bits / Nat.pow 2 63 = 1 then ['-'] else []
  if exponent = 2047 then
    if fraction = 0 then String.ofList (sign ++ ['i', 'n', 'f']) else "NaN"
  else if exponent = 0 ∧ fraction = 0 then String.ofList (sign ++ ['0'])
  else
    let (m, q) : Nat × Int :=
      if exponent = 0 then (fraction, -1074)
      else (fraction + Nat.pow 2 52, (exponent : Int) - 1075)
    let (d, k) := shortestDecimal m q
    String.ofList (sign ++ positional d k)

end TreeRewriting
