import Dice.Seed

/-!
# Dice.Source.Bounds

Draws with whatever a caller gives for their bounds.

* `DrawError` : why such a draw comes to no integer;
* `endsOf` : the two ends of a draw with up to two bounds;
* `Grid` : an array of numbers, and two of them place by place;
* `Source.requestsOf` : the ranges that are asked of a source;
* `Source.next` : the integer that it answers.

A script looks at no bounds. A twister takes arrays for bounds and draws once for each of their
places. Only an array of one draw counts as an integer; any other is refused when it is drawn.
-/

namespace Dice

/-- The source has no answer, a bound is no number, an array holds something else or has rows that
differ, two arrays do not fit, or there is not one draw but some other number of them. -/
inductive DrawError where
  | source (e : SourceError)
  | bound (e : Seed.SeedError)
  | notNumeric (className : String)
  | ragged (shape : List Nat)
  | misfit (low high : List Nat)
  | notSingle

namespace DrawError

def message : DrawError → String
  | .source e => e.message
  | .bound e => e.message
  | .notNumeric className =>
    "'<' not supported between instances of " ++ Text.quoted className ++ " and 'int'"
  | .ragged shape =>
    "setting an array element with a sequence. The requested array has an inhomogeneous shape " ++
      "after " ++ toString shape.length ++ " dimensions. The detected shape was " ++
      Text.tuple (shape.map toString) ++ " + inhomogeneous part."
  | .misfit low high =>
    let shown (shape : List Nat) : String :=
      ((Text.tuple (shape.map toString)).replace " " "") ++ " "
    "operands could not be broadcast together with shapes " ++ shown low ++ shown high
  | .notSingle => "only size-1 arrays can be converted to Python scalars"

end DrawError

/-- Without bounds a draw is from zero to a fixed end, with one bound from zero to it. -/
def endsOf : List Datum → Except SourceError (Datum × Datum)
  | [] => .ok (.int 0, .int defaultHigh)
  | [high] => .ok (.int 0, high)
  | [low, high] => .ok (low, high)
  | bounds => .error (.tooManyBounds bounds.length)

/-! ## Arrays -/

/-- The lengths of the rows, those of the outermost first, and all numbers in order. -/
structure Grid where
  shape : List Nat
  numbers : List Int

namespace Grid

/-- The lengths that two shapes begin with. -/
def sharedShape : List Nat → List Nat → List Nat
  | m :: shape, n :: shape' => if m = n then m :: sharedShape shape shape' else []
  | _, _ => []

mutual

/-- Rows are followed inwards as long as all of them have the same length. -/
def shapeOf : Datum → List Nat
  | .list items => items.length :: shapeOfAll items
  | _ => []
termination_by structural d => d

def shapeOfAll : List Datum → List Nat
  | [] => []
  | [d] => shapeOf d
  | d :: ds => sharedShape (shapeOf d) (shapeOfAll ds)
termination_by structural ds => ds

end

/-- What the rows down to some depth hold. -/
def itemsAt : Nat → Datum → List Datum
  | depth + 1, .list items => items.flatMap (itemsAt depth)
  | _, d => [d]

/-- Beside an array a text is no number, whatever it says. -/
def numberOf (d : Datum) : Except DrawError Int :=
  match d with
  | .int _ | .bool _ | .float _ => (Seed.integerOf d).mapError .bound
  | _ => .error (.notNumeric d.className)

def ofDatum (d : Datum) : Except DrawError Grid :=
  let shape := shapeOf d
  let items := itemsAt shape.length d
  if items.any Datum.isList then .error (.ragged shape)
  else (items.mapM numberOf).map (Grid.mk shape)

/-- The lengths of two shapes are compared from the innermost on. A length of one fits any other. -/
def commonShape : List Nat → List Nat → Option (List Nat)
  | m :: shape, n :: shape' =>
    if m = n ∨ n = 1 then (commonShape shape shape').map (m :: ·)
    else if m = 1 then (commonShape shape shape').map (n :: ·)
    else none
  | [], shape | shape, [] => some shape

/-- Where a shape has a single row and the wider one has more, the row is repeated. -/
def spread : List Nat → List Nat → List Int → List Int
  | m :: shape, n :: wide, numbers =>
    if m = n then
      let size := shape.foldl (· * ·) 1
      (List.range n).flatMap fun i => spread shape wide ((numbers.drop (i * size)).take size)
    else (List.replicate n (spread shape wide numbers)).flatten
  | _, _, numbers => numbers

/-- A shape that is too short has single rows around it. -/
def widen (g : Grid) (wide : List Nat) : List Int :=
  spread (List.replicate (wide.length - g.shape.length) 1 ++ g.shape) wide g.numbers

/-- The ranges with these ends, place by place. -/
def ranges? (low high : Grid) : Option (List Request) :=
  (commonShape low.shape.reverse high.shape.reverse).map fun shape =>
    List.zipWith Request.mk (low.widen shape.reverse) (high.widen shape.reverse)

end Grid

namespace Source

/-! ## Ranges -/

/-- All bounds are checked before any word is used. -/
def gridRanges (low high : Grid) : Except DrawError (List Request) :=
  if low.numbers.any (· < -halfRange) then .error (.source .lowOutOfRange)
  else if high.numbers.any (halfRange < ·) then .error (.source .highOutOfRange)
  else
    match low.ranges? high with
    | none => .error (.misfit low.shape high.shape)
    | some ranges =>
      if ranges.any fun r => r.high ≤ r.low then
        .error (.source (if low.numbers.all (· = 0) then .emptyFromZero else .empty))
      else .ok ranges

def arrayRanges (low high : Datum) : Except DrawError (List Request) :=
  match Grid.ofDatum low, Grid.ofDatum high with
  | .error e, _ | _, .error e => .error e
  | .ok low, .ok high => gridRanges low high

/-- Two ends that are no arrays give one range, which is checked when it is asked for. -/
def rangesOf (low high : Datum) : Except DrawError (List Request) :=
  if low.isList || high.isList then arrayRanges low high
  else
    match Seed.integerOf low, Seed.integerOf high with
    | .error e, _ | _, .error e => .error (.bound e)
    | .ok low, .ok high => .ok [⟨low, high⟩]

/-- A twister draws from zero to the lower end if there is nothing for the upper one. -/
def requestsOf (s : Source) (bounds : List Datum) : Except DrawError (List Request) :=
  match s, endsOf bounds with
  | _, .error e => .error (.source e)
  | .script _ _, .ok _ => .ok [⟨0, defaultHigh⟩]
  | .twister _ _, .ok (low, .null) => rangesOf (.int 0) low
  | .twister _ _, .ok (low, high) => rangesOf low high

/-! ## Draws -/

def answerAll : List Request → Source → Except SourceError (List Int) × Source
  | [], s => (.ok [], s)
  | r :: requests, s =>
    match s.answer r with
    | (.error e, s) => (.error e, s)
    | (.ok n, s) =>
      let rest := answerAll requests s
      (rest.1.map (n :: ·), rest.2)

def next (s : Source) (bounds : List Datum) : Except DrawError Int × Source :=
  match s.requestsOf bounds with
  | .error e => (.error e, s)
  | .ok requests =>
    match answerAll requests s with
    | (.error e, s) => (.error (.source e), s)
    | (.ok [n], s) => (.ok n, s)
    | (.ok _, s) => (.error .notSingle, s)

end Source

end Dice
