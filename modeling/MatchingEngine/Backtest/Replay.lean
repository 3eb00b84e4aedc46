import Mathlib.Logic.Function.Basic
import MatchingEngine.Backtest.Portfolio
import MatchingEngine.Book.Engine
import MatchingEngine.Util.Program

/-!
# The backtester

A transcription of `backtest/strategy.cpp` and of `Replay::run`.  A replay feeds a list of ticks to
an engine and lets the strategies act after each of them.  Every order a strategy places is entered
in a routing table, from which it is read off whose portfolio a fill belongs to.

A strategy's callback is a `Program`: it places and cancels orders, looks at the top of the book and
at its own account, and remembers what it likes; `σ` is the type of what it remembers.  Strategies
are known by their position in the list, so that no two of them share an account.  They take their
fills as `Strategy::on_fill` has it.

A `Record` goes along with a replay.  Nothing reads it; it is there to say what has happened: which
orders are whose, what has been traded, and whether a placement has met with an order that the
routing table has lost (`Arena.undisturbed`).

Waiting in real time is left out.
-/

set_option autoImplicit false

namespace MatchingEngine

namespace Backtest

/-! ## What a strategy sees -/

structure Tick where
  tsNs : Nat
  symbol : Nat
  event : UInt8
  side : UInt8
  price : Int
  qty : Int
  extId : Nat

/-- `static_cast<Side>`.  The book takes every byte but `0` for a sell. -/
def Tick.toSide (t : Tick) : Side := if t.side = 0 then .Buy else .Sell

structure BookTop where
  bidPx : Int
  bidQty : Int
  askPx : Int
  askQty : Int
  mid : Int
  deriving DecidableEq

def BookTop.none : BookTop := { bidPx := 0, bidQty := 0, askPx := 0, askQty := 0, mid := 0 }

/-- A quantity that is only read if there is a price. -/
def qtyIf (b : OrderBook) (side : Side) (price : Int) : Option Int :=
  if price ≠ 0 then b.qtyAt side price else some 0

def snapshotTop (b : OrderBook) (lastTradePx : Int) : Option BookTop := do
  let bidPx := b.bestBid
  let askPx := if b.bestAsk = OrderBook.priceMax then 0 else b.bestAsk
  let bidQty ← qtyIf b .Buy bidPx
  let askQty ← qtyIf b .Sell askPx
  let mid :=
    if bidPx ≠ 0 ∧ askPx ≠ 0 then ((bidPx + askPx).bmod (2 ^ 64)).tdiv 2
    else if bidPx ≠ 0 then bidPx
    else if askPx ≠ 0 then askPx
    else lastTradePx
  return { bidPx, bidQty, askPx, askQty, mid }

/-- The portfolio of a strategy and its counters. -/
structure Account where
  portfolio : Portfolio
  ordersSubmitted : Nat
  ordersFilled : Nat
  ordersCanceled : Nat

def Account.new : Account :=
  { portfolio := .empty, ordersSubmitted := 0, ordersFilled := 0, ordersCanceled := 0 }

/-- `on_fill`, with the counter that goes with it. -/
def Account.fill (a : Account) (side : Side) (t : Trade) : Account :=
  { a with portfolio := a.portfolio.onFill side t.price t.qty, ordersFilled := a.ordersFilled + 1 }

/-- What a callback may do. -/
inductive Action where
  | placeLimit (side : Side) (price qty : Int)
  | cancel (id : Nat)
  | top
  | account

abbrev Action.Answer : Action → Type
  | .placeLimit .. => Nat
  | .cancel _ => Bool
  | .top => BookTop
  | .account => Account

abbrev Callback := Program Action Action.Answer

/-- A strategy with memory `σ`. -/
structure Strategy (σ : Type) where
  onStart : σ → Callback σ
  onTick : σ → Tick → Callback σ
  onEnd : σ → Callback σ

/-! ## The engine and the routing table -/

/-- What has happened.  The code does not keep this. -/
structure Record where
  /-- The orders of the strategies, and whose they are. -/
  issued : SortedMap Nat Nat (· < ·)
  /-- All trades, each with the side of its taker. -/
  tape : List (Side × Trade)
  /-- The number of placements. -/
  placed : Nat
  /-- No placement has met with an order that is not in the routing table any more. -/
  clean : Bool

/-- What the strategies and the replay share. -/
structure Arena where
  engine : Engine
  routing : SortedMap Nat Nat (· < ·)
  accounts : Nat → Account
  top : BookTop
  record : Record

namespace Arena

/-- Every order of a strategy that rests on the other side and crosses the limit is in the routing
table. -/
def undisturbed (a : Arena) (side : Side) (price : Int) : Bool :=
  a.record.issued.entries.all fun e ↦
    match a.engine.book.orderOf e.1 with
    | none => true
    | some x => !(x.side == side.opposite && side.crosses x.price price) ||
        (a.routing.find? e.1).isSome

/-- Enter a placement in the record. -/
def note (a : Arena) (side : Side) (price : Int) (trades : List Trade)
    (issued : SortedMap Nat Nat (· < ·)) : Record :=
  { issued, tape := a.record.tape ++ trades.map fun t ↦ (side, t), placed := a.record.placed + 1
    clean := a.record.clean && a.undisturbed side price }

/-- Change what is kept of a strategy. -/
def update (a : Arena) (i : Nat) (f : Account → Account) : Arena :=
  { a with accounts := Function.update a.accounts i (f (a.accounts i)) }

/-- The loop over the trades in `StrategyContext::place_limit`: one trade of the strategy `i`. -/
def deliver (i : Nat) (side : Side) (a : Arena) (t : Trade) : Arena :=
  let a := a.update i (·.fill side t)
  match a.routing.find? t.makerId with
  | some j => a.update j (·.fill side.opposite t)
  | none => a

/-- `StrategyContext::place_limit` of the strategy `i`. -/
def placeLimit (a : Arena) (i : Nat) (side : Side) (price qty : Int) : Option (Arena × Nat) := do
  let (engine, id) ← a.engine.placeLimit side price qty
  let record := a.note side price engine.lastTrades (a.record.issued.insert id i)
  let a := { a with engine, record, routing := a.routing.insert id i }
  let a := a.update i fun x ↦ { x with ordersSubmitted := x.ordersSubmitted + 1 }
  return (engine.lastTrades.foldl (deliver i side) a, id)

/-- `StrategyContext::cancel` of the strategy `i`. -/
def cancel (a : Arena) (i : Nat) (id : Nat) : Option (Arena × Bool) := do
  let (engine, ok) ← a.engine.cancel id
  let a := { a with engine }
  if ok then
    let a := a.update i fun x ↦ { x with ordersCanceled := x.ordersCanceled + 1 }
    return ({ a with routing := a.routing.erase id }, true)
  else return (a, false)

/-- What the strategy `i` gets for its requests. -/
def act (i : Nat) : (e : Action) → Arena → Option (Arena × e.Answer)
  | .placeLimit side price qty, a => a.placeLimit i side price qty
  | .cancel id, a => a.cancel i id
  | .top, a => some (a, a.top)
  | .account, a => some (a, a.accounts i)

/-- The loop over the trades of an exogenous order: a maker that has been filled leaves the routing
table. -/
def routeMaker (side : Side) (a : Arena) (t : Trade) : Arena :=
  match a.routing.find? t.makerId with
  | some j =>
    let a := a.update j (·.fill side.opposite t)
    { a with routing := a.routing.erase t.makerId }
  | none => a

end Arena

/-! ## The replay -/

structure ReplayStats where
  ticksConsumed : Nat
  exogenousAdds : Nat
  exogenousCancels : Nat
  tradePrints : Nat
  engineTrades : Nat

structure Replay (σ : Type) where
  arena : Arena
  /-- What the strategies remember. -/
  memory : Nat → σ
  stats : ReplayStats
  /-- From the ids in the tick file to those of the engine. -/
  extToEng : SortedMap Nat Nat (· < ·)
  lastTradePx : Int

namespace Replay

variable {σ : Type}

/-- An empty portfolio for everyone, and an engine that may have been used before. -/
def start (engine : Engine) (memory : Nat → σ) : Replay σ :=
  { arena :=
      { engine, routing := .empty, accounts := fun _ ↦ .new, top := .none
        record := { issued := .empty, tape := [], placed := 0, clean := true } }
    memory
    stats := { ticksConsumed := 0, exogenousAdds := 0, exogenousCancels := 0, tradePrints := 0
               engineTrades := 0 }
    extToEng := .empty
    lastTradePx := 0 }

/-- Let every strategy act, from number `i` on. -/
def callbacks (callback : Strategy σ → σ → Callback σ) :
    List (Strategy σ) → Nat → Replay σ → Option (Replay σ)
  | [], _, r => some r
  | s :: strategies, i, r => do
    let (arena, x) ← Program.exec (Arena.act i) (callback s (r.memory i)) r.arena
    callbacks callback strategies (i + 1)
      { r with arena, memory := Function.update r.memory i x }

/-- An `Add` tick. -/
def add (r : Replay σ) (t : Tick) : Option (Replay σ) := do
  let (engine, engId) ← r.arena.engine.placeLimit t.toSide t.price t.qty
  let record := r.arena.note t.toSide t.price engine.lastTrades r.arena.record.issued
  let arena := { r.arena with engine, record }
  return { r with
    arena := engine.lastTrades.foldl (Arena.routeMaker t.toSide) arena
    extToEng := if t.extId ≠ 0 then r.extToEng.insert t.extId engId else r.extToEng
    lastTradePx := engine.lastTrades.foldl (fun _ tr ↦ tr.price) r.lastTradePx
    stats := { r.stats with
      exogenousAdds := r.stats.exogenousAdds + 1
      engineTrades := r.stats.engineTrades + engine.lastTrades.length } }

/-- A `Cancel` tick. -/
def cancel (r : Replay σ) (t : Tick) : Option (Replay σ) := do
  let r := { r with stats.exogenousCancels := r.stats.exogenousCancels + 1 }
  match r.extToEng.find? t.extId with
  | none => return r
  | some id =>
    let (engine, _) ← r.arena.engine.cancel id
    return { r with arena.engine := engine, extToEng := r.extToEng.erase t.extId }

/-- A `Trade` tick. -/
def print (r : Replay σ) (t : Tick) : Replay σ :=
  { r with stats.tradePrints := r.stats.tradePrints + 1, lastTradePx := t.price }

/-- The `switch` over the event.  Other bytes than these three do nothing. -/
def apply (r : Replay σ) (t : Tick) : Option (Replay σ) :=
  if t.event = 0 then r.add t
  else if t.event = 1 then r.cancel t
  else if t.event = 2 then some (r.print t)
  else some r

/-- One tick: apply it, and let the strategies act on the new top of the book. -/
def tick (strategies : List (Strategy σ)) (r : Replay σ) (t : Tick) : Option (Replay σ) := do
  let r ← apply { r with stats.ticksConsumed := r.stats.ticksConsumed + 1 } t
  let top ← snapshotTop r.arena.engine.book r.lastTradePx
  callbacks (fun s x ↦ s.onTick x t) strategies 0 { r with arena.top := top }

def ticks (strategies : List (Strategy σ)) : List Tick → Replay σ → Option (Replay σ)
  | [], r => some r
  | t :: ts, r => do
    let r ← tick strategies r t
    ticks strategies ts r

/-- `Replay::run`. -/
def run (strategies : List (Strategy σ)) (ts : List Tick) (r : Replay σ) : Option (Replay σ) := do
  let r ← callbacks (fun s x ↦ s.onStart x) strategies 0 r
  let r ← ticks strategies ts r
  callbacks (fun s x ↦ s.onEnd x) strategies 0 r

end Replay

end Backtest

end MatchingEngine
