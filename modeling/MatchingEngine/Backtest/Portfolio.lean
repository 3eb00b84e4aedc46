import MatchingEngine.Book.OrderBook

/-!
# Portfolios

`backtest/portfolio.cpp`: the position of a strategy, its average cost, and the profit on what has
been closed.  A fill opens a position, adds to one, or closes one in part, in full or past zero; in
each case the position moves by the signed quantity (`position_onFill`).

All amounts are integers here.
-/

set_option autoImplicit false

namespace MatchingEngine

namespace Backtest

/-- Buys count positive, sells negative. -/
def signed : Side → Int → Int
  | .Buy, qty => qty
  | .Sell, qty => -qty

structure Portfolio where
  position : Int
  avgCost : Int
  realizedPnl : Int
  grossVolume : Int
  deriving DecidableEq

namespace Portfolio

def empty : Portfolio := { position := 0, avgCost := 0, realizedPnl := 0, grossVolume := 0 }

/-- `on_fill`.  The division rounds towards zero. -/
def onFill (p : Portfolio) (side : Side) (price qty : Int) : Portfolio :=
  let signedQty := signed side qty
  let p := { p with grossVolume := p.grossVolume + qty }
  -- opening from flat
  if p.position = 0 then { p with position := signedQty, avgCost := price }
  -- the same direction
  else if (0 < p.position ∧ 0 < signedQty) ∨ (p.position < 0 ∧ signedQty < 0) then
    let absOld : Int := p.position.natAbs
    let absAdd : Int := signedQty.natAbs
    { p with
      avgCost := (p.avgCost * absOld + price * absAdd).tdiv (absOld + absAdd)
      position := p.position + signedQty }
  else
    let absPos : Int := p.position.natAbs
    let absFill : Int := signedQty.natAbs
    let closed := min absPos absFill
    let pnlPerUnit := if 0 < p.position then price - p.avgCost else p.avgCost - price
    let p := { p with realizedPnl := p.realizedPnl + pnlPerUnit * closed }
    if absFill < absPos then { p with position := p.position + signedQty }
    else if absFill = absPos then { p with position := 0, avgCost := 0 }
    -- flipped past zero: what is left opens a new position
    else { p with position := signedQty + p.position, avgCost := price }

def unrealizedPnl (p : Portfolio) (mark : Int) : Int :=
  if p.position = 0 then 0
  else if 0 < p.position then (mark - p.avgCost) * p.position
  else (p.avgCost - mark) * -p.position

def totalPnl (p : Portfolio) (mark : Int) : Int := p.realizedPnl + p.unrealizedPnl mark

/-- **A fill moves the position** by its signed quantity. -/
theorem position_onFill (p : Portfolio) (side : Side) (price qty : Int) :
    (p.onFill side price qty).position = p.position + signed side qty := by
  dsimp only [onFill]
  by_cases hflat : p.position = 0
  · rw [if_pos hflat, hflat, Int.zero_add]
  rw [if_neg hflat]
  split
  · rfl
  -- the two point in different directions, so that equal amounts cancel
  rename_i hsame
  generalize (if 0 < p.position then price - p.avgCost else p.avgCost - price) = pnlPerUnit
  split_ifs with hless heq
  · rfl
  · dsimp only
    omega
  · exact Int.add_comm _ _

end Portfolio

end Backtest

end MatchingEngine
