import MatchingEngine.Book.OrderBook
import MatchingEngine.Fix.Builder
import MatchingEngine.Fix.Libc
import MatchingEngine.Util.Program

/-!
# The FIX gateway

A transcription of `fix/gateway.h` and `fix/gateway.cpp` from `session_loop` inwards: one session,
its receive loop, the handlers and the messages they send.  The socket, the acceptor and the
threads are left out.

A session shares the engine, the feed and the counter of execution ids with the other sessions, so
its code is a `Program` that makes a `Request` where it takes the lock, sends, or publishes, and
goes on with whatever answer it gets.  The answer to a placement is the outcome of the whole
critical section: the id, the trades, and the top of the book right afterwards.  What the engine
answers is the subject of `Fix.Orders`; the results about sessions hold for all answers.

Numbers with a fraction are as in `Fix.Libc`, a parameter of all that reads or writes them.
-/

set_option autoImplicit false

namespace MatchingEngine

namespace Fix

open Decimal Framing

structure GatewayConfig where
  compId : Bytes
  /-- Is there a feed to publish to? -/
  hasFeed : Bool

/-! ## Messages sent -/

inductive ExecType where
  | new
  | partialFill
  | fill
  | canceled
  | rejected
  deriving DecidableEq

def ExecType.code : ExecType → UInt8
  | .new => '0'.toUInt8
  | .partialFill => '1'.toUInt8
  | .fill => '2'.toUInt8
  | .canceled => '4'.toUInt8
  | .rejected => '8'.toUInt8

inductive OrdStatus where
  | new
  | partialFill
  | filled
  | canceled
  | rejected
  deriving DecidableEq

def OrdStatus.code : OrdStatus → UInt8
  | .new => '0'.toUInt8
  | .partialFill => '1'.toUInt8
  | .filled => '2'.toUInt8
  | .canceled => '4'.toUInt8
  | .rejected => '8'.toUInt8

/-- The arguments of `send_exec_report`. -/
structure ExecReport where
  clOrdId : Bytes
  orderId : Nat
  execType : ExecType
  ordStatus : OrdStatus
  side : UInt8
  symbol : Bytes
  orderQty : ℚ
  cumQty : ℚ
  leavesQty : ℚ
  lastQty : ℚ
  lastPx : ℚ
  avgPx : ℚ
  deriving DecidableEq

/-- The arguments of `send_md_snapshot`. -/
structure MdSnapshot where
  mdReqId : Bytes
  symbol : Bytes
  bidPx : ℚ
  bidSz : ℚ
  askPx : ℚ
  askSz : ℚ
  deriving DecidableEq

/-- What a message says, besides its header. -/
inductive Body where
  | logonAck
  | logout (text : Bytes)
  | execReport (execId : Nat) (report : ExecReport)
  | mdSnapshot (snapshot : MdSnapshot)
  deriving DecidableEq

namespace Body

def msgType : Body → UInt8
  | .logonAck => 'A'.toUInt8
  | .logout _ => '5'.toUInt8
  | .execReport .. => '8'.toUInt8
  | .mdSnapshot _ => 'W'.toUInt8

/-- The calls of the builder between `begin` and `finalize`. -/
def calls : Body → List AddCall
  | .logonAck => [.int Tag.EncryptMethod 0, .int Tag.HeartBtInt 30]
  | .logout text => if text.isEmpty then [] else [.str Tag.Text text]
  | .execReport execId r =>
    [.str Tag.OrderID (toChars r.orderId), .str Tag.ClOrdID r.clOrdId,
      .str Tag.ExecID (ascii ['E'] ++ toChars execId), .char Tag.ExecType r.execType.code,
      .char Tag.OrdStatus r.ordStatus.code, .str Tag.Symbol r.symbol, .char Tag.SideTag r.side,
      .double Tag.OrderQty r.orderQty 0, .double Tag.CumQty r.cumQty 0,
      .double Tag.LeavesQty r.leavesQty 0, .double Tag.LastQty r.lastQty 0,
      .double Tag.LastPx r.lastPx 2, .double Tag.AvgPx r.avgPx 4]
  | .mdSnapshot q =>
    (if q.mdReqId.isEmpty then [] else [.str Tag.MDReqID q.mdReqId]) ++
    [.str Tag.Symbol q.symbol, .int Tag.NoMDEntries 2,
      .char Tag.MDEntryType '0'.toUInt8, .double Tag.MDEntryPx q.bidPx 2,
      .double Tag.MDEntrySize q.bidSz 0,
      .char Tag.MDEntryType '1'.toUInt8, .double Tag.MDEntryPx q.askPx 2,
      .double Tag.MDEntrySize q.askSz 0]

end Body

/-- A message as it is sent. -/
structure Outbound where
  sender : Bytes
  target : Bytes
  seq : Nat
  body : Body
  deriving DecidableEq

/-- The bytes that go out.  A builder forgets what it has built before. -/
def Outbound.bytes (libc : Libc) (o : Outbound) : Bytes :=
  (Builder.new.build libc.snprintf o.body.msgType o.sender o.target o.seq o.body.calls).finalize.buf

/-! ## Requests -/

/-- The top of the book: the best prices, as the book returns them, and the quantities there. -/
structure Top where
  bidPx : Int
  bidSz : Int
  askPx : Int
  askSz : Int
  deriving DecidableEq

/-- What the critical section of `on_new_order` finds out. -/
structure Executed where
  orderId : Nat
  trades : List Trade
  top : Top

/-- What a session asks of the world it shares with others. -/
inductive Request where
  /-- The critical section of `on_new_order`. -/
  | placeLimit (side : Side) (price qty : Int)
  /-- The critical section of `on_cancel`. -/
  | cancel (id : Nat)
  /-- The critical section of `on_md_request`. -/
  | top
  /-- `next_exec_id_.fetch_add(1)` -/
  | nextExecId
  /-- Send a message.  The answer tells whether all of it was sent. -/
  | send (message : Outbound)
  | publishL1 (symbol : Bytes) (bidPx bidSz askPx askSz : ℚ)
  deriving DecidableEq

abbrev Request.Answer : Request → Type
  | .placeLimit .. => Executed
  | .cancel _ => Bool
  | .top => Top
  | .nextExecId => Nat
  | .send _ => Bool
  | .publishL1 .. => Unit

abbrev Handler := Program Request Request.Answer

def request (e : Request) : Handler e.Answer := Program.perform e

/-! ## Sessions -/

/-- The state of a session that its handlers use. -/
structure Session where
  /-- The counterparty. -/
  senderComp : Bytes
  outSeq : Nat
  loggedOn : Bool
  running : Bool

def Session.new : Session := { senderComp := [], outSeq := 1, loggedOn := false, running := true }

section Handlers

variable (libc : Libc) (cfg : GatewayConfig)

/-- `send_raw`: a session ends when it cannot send. -/
def sendRaw (s : Session) (message : Outbound) : Handler Session := do
  let sent : Bool ← request (.send message)
  return if sent then s else { s with running := false }

/-- Number a message and send it. -/
def sendBody (s : Session) (body : Body) : Handler Session :=
  sendRaw { s with outSeq := (s.outSeq + 1) % 2 ^ 32 }
    { sender := cfg.compId, target := s.senderComp, seq := s.outSeq, body }

def sendLogonAck (s : Session) : Handler Session := sendBody cfg s .logonAck

def sendLogout (s : Session) (text : Bytes) : Handler Session := sendBody cfg s (.logout text)

def sendExecReport (s : Session) (report : ExecReport) : Handler Session := do
  let execId : Nat ← request .nextExecId
  sendBody cfg s (.execReport execId report)

def sendMdSnapshot (s : Session) (snapshot : MdSnapshot) : Handler Session :=
  sendBody cfg s (.mdSnapshot snapshot)

/-! ## Logon and logout -/

def onLogon (s : Session) (m : Message) : Handler Session :=
  sendLogonAck cfg { s with senderComp := m.get Tag.SenderCompID, loggedOn := true }

def onLogout (s : Session) : Handler Session := do
  let s ← sendLogout cfg s (ascii ['b', 'y', 'e'])
  return { s with running := false }

/-! ## New orders -/

/-- The side as the message has it: the first byte of tag 54, or `1`. -/
def sideChar (m : Message) : UInt8 := (m.get Tag.SideTag).headD '1'.toUInt8

/-- What `on_new_order` reads out of a message. -/
structure NewOrder where
  clOrdId : Bytes
  symbol : Bytes
  sideC : UInt8
  orderQty : ℚ
  price : ℚ

def NewOrder.of (m : Message) : NewOrder :=
  { clOrdId := m.get Tag.ClOrdID
    symbol := m.get Tag.Symbol
    sideC := sideChar m
    orderQty := m.getDouble libc.strtod Tag.OrderQty 0
    price := m.getDouble libc.strtod Tag.PriceTag 0 }

namespace NewOrder

variable (o : NewOrder)

/-- "Reject garbage before it hits the engine." -/
def Rejected : Prop :=
  o.orderQty ≤ 0 ∨ o.price ≤ 0 ∨ (o.sideC ≠ '1'.toUInt8 ∧ o.sideC ≠ '2'.toUInt8)

instance : Decidable o.Rejected := inferInstanceAs (Decidable (_ ∨ _))

def side : Side := if o.sideC = '1'.toUInt8 then .Buy else .Sell

/-- The price in ticks of a hundredth. -/
def pxTicks : Int := libc.toInt64 (libc.round (libc.round (o.price * 100) + 1 / 2))

def qty : Int := libc.toInt64 o.orderQty

def rejection : ExecReport :=
  { clOrdId := o.clOrdId, orderId := 0, execType := .rejected, ordStatus := .rejected
    side := o.sideC, symbol := o.symbol, orderQty := o.orderQty, cumQty := 0, leavesQty := 0
    lastQty := 0, lastPx := 0, avgPx := 0 }

/-- The loop that makes one report of each trade.  `cum` and `notional` are the sums so far. -/
def fillReports (qty : Int) (orderId : Nat) : Int → ℚ → List Trade → List ExecReport
  | _, _, [] => []
  | cum, notional, t :: ts =>
    let cum := cum + t.qty
    let px := libc.round (libc.toDouble t.price / 100)
    let notional := libc.round (notional + libc.round (px * libc.toDouble t.qty))
    let avg := libc.round (notional / libc.toDouble cum)
    let lv := qty - cum
    let finalFill := ts.isEmpty && lv == 0
    { clOrdId := o.clOrdId, orderId
      execType := if finalFill then .fill else .partialFill
      ordStatus := if finalFill then .filled else .partialFill
      side := o.sideC, symbol := o.symbol, orderQty := libc.toDouble qty
      cumQty := libc.toDouble cum, leavesQty := libc.toDouble lv, lastQty := libc.toDouble t.qty
      lastPx := px, avgPx := avg } ::
      fillReports qty orderId cum notional ts

/-- The reports on an order the engine has taken: one of each trade, and one of what is left. -/
def reports (qty : Int) (orderId : Nat) (trades : List Trade) : List ExecReport :=
  let filled := (trades.map Trade.qty).sum
  let leaves := qty - filled
  if trades.isEmpty then
    [{ clOrdId := o.clOrdId, orderId, execType := .new, ordStatus := .new, side := o.sideC
       symbol := o.symbol, orderQty := libc.toDouble qty, cumQty := 0
       leavesQty := libc.toDouble leaves, lastQty := 0, lastPx := 0, avgPx := 0 }]
  else
    fillReports libc o qty orderId 0 0 trades ++
    if 0 < leaves then
      [{ clOrdId := o.clOrdId, orderId, execType := .new, ordStatus := .partialFill, side := o.sideC
         symbol := o.symbol, orderQty := libc.toDouble qty, cumQty := libc.toDouble filled
         leavesQty := libc.toDouble leaves, lastQty := 0, lastPx := 0, avgPx := 0 }]
    else []

end NewOrder

/-- An ask price as it goes out: nothing is asked at the largest price. -/
def askOut (px : Int) : ℚ :=
  if px < OrderBook.priceMax then libc.round (libc.toDouble px / 100) else 0

def publish (symbol : Bytes) (top : Top) : Handler Unit :=
  if cfg.hasFeed then
    request (.publishL1 symbol (libc.round (libc.toDouble top.bidPx / 100))
      (libc.toDouble top.bidSz) (askOut libc top.askPx) (libc.toDouble top.askSz))
  else return ()

def onNewOrder (s : Session) (m : Message) : Handler Session := do
  let o := NewOrder.of libc m
  if o.Rejected then sendExecReport cfg s o.rejection
  else
    let x : Executed ← request (.placeLimit o.side (o.pxTicks libc) (o.qty libc))
    let s ← (o.reports libc (o.qty libc) x.orderId x.trades).foldlM (sendExecReport cfg) s
    publish libc cfg o.symbol x.top
    return s

/-! ## Cancels and market data -/

/-- The id a cancel names.  `static_cast<OrderId>` takes it modulo `2 ^ 64`. -/
def cancelledId (m : Message) : Nat := ((m.getInt Tag.OrderID 0) % 2 ^ 64).toNat

def onCancel (s : Session) (m : Message) : Handler Session := do
  let oid := cancelledId m
  let ok : Bool ← request (.cancel oid)
  sendExecReport cfg s
    { clOrdId := m.get Tag.ClOrdID, orderId := oid
      execType := if ok then .canceled else .rejected
      ordStatus := if ok then .canceled else .rejected
      side := sideChar m, symbol := m.get Tag.Symbol, orderQty := 0, cumQty := 0, leavesQty := 0
      lastQty := 0, lastPx := 0, avgPx := 0 }

def onMdRequest (s : Session) (m : Message) : Handler Session := do
  let top : Top ← request .top
  sendMdSnapshot cfg s
    { mdReqId := m.get Tag.MDReqID, symbol := m.get Tag.Symbol
      bidPx := libc.round (libc.toDouble top.bidPx / 100), bidSz := libc.toDouble top.bidSz
      askPx := askOut libc top.askPx, askSz := libc.toDouble top.askSz }

/-! ## The receive loop -/

def handleMessage (s : Session) (m : Message) : Handler Session := do
  let mt := m.msgType
  if s.loggedOn = false ∧ mt ≠ 'A'.toUInt8 then
    let s ← sendLogout cfg s
      (ascii ['n', 'o', 't', ' ', 'l', 'o', 'g', 'g', 'e', 'd', ' ', 'o', 'n'])
    return { s with running := false }
  else if mt = 'A'.toUInt8 then onLogon cfg s m
  else if mt = '5'.toUInt8 then onLogout cfg s
  else if mt = '0'.toUInt8 then return s
  else if mt = 'D'.toUInt8 then onNewOrder libc cfg s m
  else if mt = 'F'.toUInt8 then onCancel cfg s m
  else if mt = 'V'.toUInt8 then onMdRequest libc cfg s m
  else return s

/-- The inner loop of `session_loop`: handle the complete frames in `rx_buf`, the second
argument. -/
def drainFrames (s : Session) (rxBuf : Bytes) : Handler (Session × Bytes) :=
  match _h : splitFrame rxBuf with
  | .incomplete => return (s, rxBuf)
  | .malformed => do
    let s ← sendLogout cfg s
      (ascii ['m', 'a', 'l', 'f', 'o', 'r', 'm', 'e', 'd', ' ', 'F', 'I', 'X', ' ', 'f', 'r',
        'a', 'm', 'e'])
    return ({ s with running := false }, rxBuf)
  | .ok frame consumed =>
    match parseFrame frame with
    | none => do
      let s ← sendLogout cfg s (ascii ['p', 'a', 'r', 's', 'e', ' ', 'f', 'a', 'i', 'l', 'e', 'd'])
      return ({ s with running := false }, rxBuf)
    | some m => do
      -- `running` is not looked at before the next frame
      let s ← handleMessage libc cfg s m
      drainFrames s (rxBuf.drop consumed)
termination_by rxBuf.length
decreasing_by
  have := splitFrame_bounds _h
  rw [List.length_drop]
  omega

/-- `session_loop`: receive one chunk after the other, as long as the session is running. -/
def sessionLoop : List Bytes → Session → Bytes → Handler Session
  | [], s, _ => return s
  | chunk :: chunks, s, rxBuf =>
    if s.running then do
      let (s, rxBuf) ← drainFrames libc cfg s (rxBuf ++ chunk)
      sessionLoop chunks s rxBuf
    else return s

end Handlers

end Fix

end MatchingEngine
