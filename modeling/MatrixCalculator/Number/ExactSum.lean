namespace MatrixCalculator.ExactSum

def twoSum (x y : Float) : Float × Float :=
  let (big, small) := if x.abs < y.abs then (y, x) else (x, y)
  let high := big + small
  (high, small - (high - big))

/-- Adds `x` into the parts: the leading part of the new sum, and the non-zero rests below it. -/
def absorb : Float → List Float → Float × List Float
  | x, [] => (x, [])
  | x, y :: parts =>
    let (high, low) := twoSum x y
    let (top, rests) := absorb high parts
    (top, if low == 0 then rests else low :: rests)

/-- The sum so far. Infinite and undefined summands are added apart, the infinite ones also among
themselves. -/
structure State where
  parts : List Float
  special : Float
  infinite : Float

def start : State := ⟨[], 0, 0⟩

def push (s : State) (x : Float) : Option State :=
  let (top, rests) := absorb x s.parts
  if top == 0 then some { s with parts := rests }
  else if top.isFinite then some { s with parts := rests ++ [top] }
  else if x.isFinite then none
  else some ⟨[], s.special + x, if x.isInf then s.infinite + x else s.infinite⟩

def collapse : Float → List Float → Float × Float × List Float
  | high, [] => (high, 0, [])
  | high, y :: below =>
    let sum := high + y
    let low := y - (sum - high)
    if low == 0 then collapse sum below else (sum, low, below)

/-- The parts, greatest first, as one double. A rest of exactly half a unit is rounded by the sign
of the part below it. -/
def round : List Float → Float
  | [] => 0
  | top :: parts =>
    let (high, low, below) := collapse top parts
    match below with
    | next :: _ =>
      if (low < 0 && next < 0) || (0 < low && 0 < next) then
        let twice := low * 2
        let moved := high + twice
        if twice == moved - high then moved else high
      else high
    | [] => high

def sum? (xs : List Float) : Option Float := do
  let s ← xs.foldlM push start
  if s.special != 0 then (if s.infinite.isNaN then none else some s.special)
  else some (round s.parts.reverse)

end MatrixCalculator.ExactSum
