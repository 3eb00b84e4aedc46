import Mathlib.Logic.Function.Basic
import MatchingEngine.Fix.Handlers
import MatchingEngine.Fix.Orders
import MatchingEngine.Util.Threads

/-!
# The threads of the gateway

The rest of `fix/gateway.cpp`: `start`, `stop`, `acceptor_loop`, and the loop of `session_loop`
around the handlers of `Fix.Gateway`.  One thread calls `start` and `stop`, one accepts connections,
and each session has one of its own.  Every access to what they share is a step: a flag that is
loaded or stored, a system call on a descriptor read from its variable, what is done under a lock, a
thread that is started or joined.  A step is atomic, and the threads take their steps in any order.

The kernel gives out numbers.  A number that has been closed may be given out again, and then stands
for something else; `Kernel.table` says what.  A call that blocks returns when the event says so,
for a peer may do anything at any time, and by itself only when its socket has been shut down.

Three things are assumed of the rest of the process: it does not call `start` while the gateway
runs, it opens and closes no descriptors of its own while the gateway uses some, and it ignores
`SIGPIPE`.

The log of what the sessions have asked for and the chunks they have received are kept for the
statements about runs.  No step looks at them.
-/

set_option autoImplicit false

namespace MatchingEngine

namespace Fix

open Program

/-! ## The kernel -/

/-- What a descriptor can stand for.  Connections are counted in the order in which they are
accepted. -/
inductive File where
  | listener
  | connection (i : Nat)
  deriving DecidableEq

/-- The descriptors of the gateway, and the sockets that have been shut down.  Nothing else in the
process opens or closes a descriptor meanwhile: a number that is free here is free in the
process. -/
structure Kernel where
  table : Nat → Option File
  shut : File → Bool

namespace Kernel

/-- What a variable of the program stands for.  The number -1 is `none`. -/
def fileAt (k : Kernel) (fd : Option Nat) : Option File := fd.bind k.table

def openAt (k : Kernel) (n : Nat) (f : File) : Kernel :=
  { table := Function.update k.table n (some f), shut := Function.update k.shut f false }

def shutdown (k : Kernel) (fd : Option Nat) : Kernel :=
  match k.fileAt fd with
  | some f => { k with shut := Function.update k.shut f true }
  | none => k

def close (k : Kernel) (fd : Option Nat) : Kernel :=
  match fd with
  | some n => { k with table := Function.update k.table n none }
  | none => k

end Kernel

/-- `if (fd >= 0) { shutdown(fd, SHUT_RDWR); close(fd); fd = -1; }`, which `stop` does to the
listener and to every session, and `session_loop` to its own. -/
inductive Closing where
  | test
  | shutdown
  | close
  | clear
  deriving DecidableEq

/-- One step, with what is left to do, the kernel, and the variable. -/
def Closing.step : Closing → Kernel → Option Nat → Option Closing × Kernel × Option Nat
  | .test, k, fd => (if fd.isSome then some .shutdown else none, k, fd)
  | .shutdown, k, fd => (some .close, k.shutdown fd, fd)
  | .close, k, fd => (some .clear, k.close fd, fd)
  | .clear, k, _ => (none, k, none)

/-! ## Where the threads are -/

/-- A session's thread, in `session_loop`. -/
inductive Worker where
  /-- The session exists, its thread does not. -/
  | unborn
  /-- `s->running.load()` -/
  | loadOwn (s : Session) (rxBuf : Bytes)
  /-- `running_.load()` -/
  | loadGateway (s : Session) (rxBuf : Bytes)
  /-- About to call `recv`. -/
  | recv (s : Session) (rxBuf : Bytes)
  /-- In `recv`, on a connection. -/
  | receiving (s : Session) (rxBuf : Bytes) (i : Nat)
  /-- Draining frames. -/
  | handling (p : Handler (Session × Bytes))
  /-- After the loop. -/
  | closing (c : Closing)
  | done

/-- The thread of `acceptor_loop`. -/
inductive Acceptor where
  /-- `running_.load()` -/
  | load
  /-- About to call `accept`. -/
  | accept
  /-- In `accept`. -/
  | accepting
  /-- `accept` has failed, with `EINTR` or otherwise. -/
  | failed (eintr : Bool)
  /-- A connection is there, `accepted_` has not been advanced. -/
  | accepted (fd : Nat)
  /-- About to put the session into `sessions_`. -/
  | push (fd : Nat)
  /-- About to start the thread of the session. -/
  | spawn (i : Nat)
  /-- The thread has ended, or has not been started. -/
  | done
  deriving DecidableEq

/-- The thread that calls `start` and `stop`. -/
inductive Main where
  /-- In neither of them. -/
  | ready
  | listener (c : Closing)
  | joinAcceptor
  | swap
  /-- The sessions of `snapshot` that are left. -/
  | sessions (left : List Nat)
  | closing (c : Closing) (i : Nat) (left : List Nat)
  | join (i : Nat) (left : List Nat)
  deriving DecidableEq

/-! ## The gateway -/

/-- A session as the threads share it. -/
structure Connection where
  fd : Option Nat
  /-- Has `stop` left `running` as it was?  What the session itself stores there is in its
  `Session`; nobody ever stores `true`. -/
  running : Bool
  worker : Worker
  /-- The chunks received. -/
  received : List Bytes

/-- A session that has just been put into `sessions_`. -/
def Connection.new (fd : Nat) : Connection :=
  { fd := some fd, running := true, worker := .unborn, received := [] }

structure Gateway where
  running : Bool
  listenFd : Option Nat
  acceptor : Acceptor
  main : Main
  /-- All sessions there have been. -/
  connections : List Connection
  /-- `sessions_` -/
  sessions : List Nat
  kernel : Kernel
  exchange : Exchange
  /-- What has been asked for, by which session, and the answers. -/
  log : List (Nat × ((e : Request) × e.Answer))

/-- What the kernel, the network or a peer adds to a step. -/
inductive Outcome where
  | nothing
  /-- `accept` returns a descriptor. -/
  | connection (fd : Nat)
  /-- `accept` fails. -/
  | error (eintr : Bool)
  /-- `recv` returns bytes. -/
  | chunk (bytes : Bytes)
  /-- `recv` returns 0 or -1. -/
  | hangup
  /-- All of a message has been sent. -/
  | sent
  /-- `send` has failed. -/
  | refused
  deriving DecidableEq

/-- How the calls in `start` go. -/
inductive Setup where
  | noSocket
  /-- The address cannot be read, or `bind` or `listen` fails. -/
  | refused (fd : Nat)
  | listening (fd : Nat)
  deriving DecidableEq

inductive Event where
  | start (setup : Setup)
  /-- `stop` is called, or goes on. -/
  | stop
  | acceptor (o : Outcome)
  | worker (i : Nat) (o : Outcome)
  deriving DecidableEq

/-- Does this happen by itself? -/
def Event.own : Event → Bool
  | .start _ => false
  | .stop => true
  | .acceptor o => o == .nothing
  | .worker _ o => o == .nothing

namespace Gateway

/-- A gateway that has not been started. -/
def new (exchange : Exchange) : Gateway :=
  { running := false, listenFd := none, acceptor := .done, main := .ready, connections := []
    sessions := [], kernel := ⟨fun _ ↦ none, fun _ ↦ false⟩, exchange, log := [] }

def put (g : Gateway) (i : Nat) (c : Connection) : Gateway :=
  { g with connections := g.connections.set i c }

/-! ## Starting and stopping -/

/-- `start`.  Nothing in it keeps it from being called on a gateway that is running, where it would
overwrite the descriptor of the listener and assign over the thread that accepts; `step` assumes
that it is not. -/
def start (g : Gateway) : Setup → Option (Gateway × Bool)
  | .noSocket => some ({ g with listenFd := none }, false)
  | .refused n =>
    if g.kernel.table n = none then
      some ({ g with listenFd := none, kernel := (g.kernel.openAt n .listener).close (some n) },
        false)
    else none
  | .listening n =>
    if g.kernel.table n = none then
      some ({ g with listenFd := some n, kernel := g.kernel.openAt n .listener, running := true,
                     acceptor := .load }, true)
    else none

/-- `stop` -/
def stepMain (g : Gateway) : Option Gateway :=
  match g.main with
  | .ready =>
    some { g with running := false, main := if g.running then .listener .test else .ready }
  | .listener c =>
    let (next, kernel, fd) := c.step g.kernel g.listenFd
    some { g with kernel, listenFd := fd, main := next.elim .joinAcceptor .listener }
  | .joinAcceptor => if g.acceptor = .done then some { g with main := .swap } else none
  | .swap => some { g with sessions := [], main := .sessions g.sessions }
  | .sessions [] => some { g with main := .ready }
  | .sessions (i :: left) => do
    let c ← g.connections[i]?
    some { g.put i { c with running := false } with main := .closing .test i left }
  | .closing cl i left => do
    let c ← g.connections[i]?
    let (next, kernel, fd) := cl.step g.kernel c.fd
    some { g.put i { c with fd } with
      kernel, main := next.elim (.join i left) fun cl ↦ .closing cl i left }
  | .join i left => do
    let c ← g.connections[i]?
    match c.worker with
    -- a thread that has not been started is not joinable
    | .unborn => some { g with main := .sessions left }
    | .done => some { g with main := .sessions left }
    | _ => none

/-! ## Accepting -/

/-- `acceptor_loop` -/
def stepAcceptor (g : Gateway) (o : Outcome) : Option Gateway :=
  match g.acceptor, o with
  | .load, .nothing => some { g with acceptor := if g.running then .accept else .done }
  | .accept, .nothing =>
    some { g with acceptor :=
      if g.kernel.fileAt g.listenFd = some .listener then .accepting else .failed false }
  | .accepting, .connection n =>
    if g.kernel.table n = none then
      some { g with kernel := g.kernel.openAt n (.connection g.connections.length)
                    acceptor := .accepted n }
    else none
  | .accepting, .error eintr => some { g with acceptor := .failed eintr }
  | .accepting, .nothing =>
    if g.kernel.shut .listener then some { g with acceptor := .failed false } else none
  | .failed eintr, .nothing =>
    some { g with acceptor := if g.running && eintr then .load else .done }
  -- `accepted_` is counted up, which no thread reads
  | .accepted n, .nothing => some { g with acceptor := .push n }
  | .push n, .nothing =>
    some { g with
      connections := g.connections ++ [Connection.new n]
      sessions := g.sessions ++ [g.connections.length]
      acceptor := .spawn g.connections.length }
  | .spawn i, .nothing => do
    let c ← g.connections[i]?
    some { g.put i { c with worker := .loadOwn .new [] } with acceptor := .load }
  | _, _ => none

/-! ## Sessions -/

/-- How a request is answered, on a descriptor that stands for `file`.  All but `send` return by
themselves.  A `send` to a peer that is gone, or on a socket that has been shut down, fails: the
process is taken to ignore `SIGPIPE`, which the gateway itself does not arrange. -/
def answer (file : Option File) (shut : Bool) (o : Outcome) :
    (e : Request) → Exchange → Option (Exchange × e.Answer)
  | .send m, x =>
    match file, o with
    | some (.connection _), .sent => some ({ x with sent := x.sent ++ [m] }, true)
    | some (.connection _), .refused => some (x, false)
    | some (.connection _), .nothing => if shut then some (x, false) else none
    | some .listener, .nothing => some (x, false)
    | none, .nothing => some (x, false)
    | _, _ => none
  | e, x => if o = .nothing then serve e x else none

/-- The first request of a program is answered. -/
def serveRequest (g : Gateway) (i : Nat) (c : Connection) (o : Outcome) (e : Request)
    (k : e.Answer → Handler (Session × Bytes)) : Option Gateway := do
  let file := g.kernel.fileAt c.fd
  let (exchange, r) ← answer file (file.any g.kernel.shut) o e g.exchange
  some { g.put i { c with worker := .handling (k r) } with
    exchange, log := g.log ++ [(i, ⟨e, r⟩)] }

/-- `session_loop` -/
def stepWorker (libc : Libc) (cfg : GatewayConfig) (g : Gateway) (i : Nat) (o : Outcome)
    (c : Connection) : Option Gateway :=
  match c.worker, o with
  | .loadOwn s rxBuf, .nothing =>
    some (g.put i { c with worker :=
      if s.running && c.running then .loadGateway s rxBuf else .closing .test })
  | .loadGateway s rxBuf, .nothing =>
    some (g.put i { c with worker := if g.running then .recv s rxBuf else .closing .test })
  | .recv s rxBuf, .nothing =>
    some (g.put i { c with worker :=
      match g.kernel.fileAt c.fd with
      | some (.connection j) => .receiving s rxBuf j
      | _ => .closing .test })
  | .receiving s rxBuf _, .chunk bytes =>
    if bytes ≠ [] ∧ bytes.length ≤ 4096 then
      some (g.put i { c with worker := .handling (drainFrames libc cfg s (rxBuf ++ bytes))
                             received := c.received ++ [bytes] })
    else none
  | .receiving .., .hangup => some (g.put i { c with worker := .closing .test })
  | .receiving _ _ j, .nothing =>
    if g.kernel.shut (.connection j) then some (g.put i { c with worker := .closing .test })
    else none
  | .handling (.ret (s, rxBuf)), .nothing => some (g.put i { c with worker := .loadOwn s rxBuf })
  | .handling (.call e k), o => g.serveRequest i c o e k
  | .closing cl, .nothing =>
    let (next, kernel, fd) := cl.step g.kernel c.fd
    some { g.put i { c with fd, worker := next.elim .done .closing } with kernel }
  | _, _ => none

/-- One step of one thread.  `start` is called on a gateway that is not running. -/
def step (libc : Libc) (cfg : GatewayConfig) : Event → Gateway → Option Gateway
  | .start setup, g =>
    if g.main = .ready ∧ g.running = false then (g.start setup).map Prod.fst else none
  | .stop, g => g.stepMain
  | .acceptor o, g => g.stepAcceptor o
  | .worker i o, g => do
    let c ← g.connections[i]?
    g.stepWorker libc cfg i o c

/-- What a gateway may come to. -/
def Reached (libc : Libc) (cfg : GatewayConfig) (exchange : Exchange) (g : Gateway) : Prop :=
  ∃ events, Threads.run (step libc cfg) events (.new exchange) = some g

/-! ## What a step leaves alone -/

section Frames

variable {g g' : Gateway}

/-- A connection is put in the place of another that has the same of what is looked at. -/
theorem map_put {β : Type} {i : Nat} {c c' : Connection} (f : Connection → β)
    (hc : g.connections[i]? = some c) (hf : f c' = f c) :
    (g.put i c').connections.map f = g.connections.map f := by
  obtain ⟨hi, rfl⟩ := List.getElem?_eq_some_iff.mp hc
  refine List.ext_getElem? fun j ↦ ?_
  rw [put, List.getElem?_map, List.getElem?_map, List.getElem?_set]
  split
  · next hij =>
    subst hij
    rw [hc, Option.map_some, Option.map_some, hf]
  · rfl

/-- `stop` does nothing to the threads of the sessions. -/
theorem stepMain_workers (h : g.stepMain = some g') :
    g'.connections.map (fun c ↦ (c.worker, c.received))
      = g.connections.map fun c ↦ (c.worker, c.received) := by
  unfold stepMain at h
  split at h
  case h_3 =>
    split at h
    · obtain rfl := Option.some.inj h
      rfl
    · cases h
  case h_6 | h_7 =>
    obtain ⟨c, hc, he⟩ := Option.bind_eq_some_iff.mp h
    obtain rfl := Option.some.inj he
    exact map_put _ hc rfl
  case h_8 =>
    obtain ⟨c, -, he⟩ := Option.bind_eq_some_iff.mp h
    split at he
    · obtain rfl := Option.some.inj he
      rfl
    · obtain rfl := Option.some.inj he
      rfl
    · cases he
  all_goals
    obtain rfl := Option.some.inj h
    rfl

theorem start_exchange {setup : Setup} {ok : Bool} (h : g.start setup = some (g', ok)) :
    g'.exchange = g.exchange ∧ g'.log = g.log ∧ g'.connections = g.connections := by
  unfold start at h
  split at h
  · obtain ⟨rfl, -⟩ := Prod.mk.inj (Option.some.inj h)
    exact ⟨rfl, rfl, rfl⟩
  all_goals
    split at h
    · obtain ⟨rfl, -⟩ := Prod.mk.inj (Option.some.inj h)
      exact ⟨rfl, rfl, rfl⟩
    · cases h

theorem stepMain_exchange (h : g.stepMain = some g') :
    g'.exchange = g.exchange ∧ g'.log = g.log := by
  unfold stepMain at h
  split at h
  case h_3 =>
    split at h
    · obtain rfl := Option.some.inj h
      exact ⟨rfl, rfl⟩
    · cases h
  case h_6 | h_7 =>
    obtain ⟨c, -, he⟩ := Option.bind_eq_some_iff.mp h
    obtain rfl := Option.some.inj he
    exact ⟨rfl, rfl⟩
  case h_8 =>
    obtain ⟨c, -, he⟩ := Option.bind_eq_some_iff.mp h
    split at he
    · obtain rfl := Option.some.inj he
      exact ⟨rfl, rfl⟩
    · obtain rfl := Option.some.inj he
      exact ⟨rfl, rfl⟩
    · cases he
  all_goals
    obtain rfl := Option.some.inj h
    exact ⟨rfl, rfl⟩

theorem stepAcceptor_exchange {o : Outcome} (h : g.stepAcceptor o = some g') :
    g'.exchange = g.exchange ∧ g'.log = g.log := by
  unfold stepAcceptor at h
  split at h
  case h_3 | h_5 =>
    split at h
    · obtain rfl := Option.some.inj h
      exact ⟨rfl, rfl⟩
    · cases h
  case h_9 =>
    obtain ⟨c, -, he⟩ := Option.bind_eq_some_iff.mp h
    obtain rfl := Option.some.inj he
    exact ⟨rfl, rfl⟩
  case h_10 => cases h
  all_goals
    obtain rfl := Option.some.inj h
    exact ⟨rfl, rfl⟩

/-- A request is answered as by an exchange that nobody else uses, but a message may be lost. -/
def Answers (x : Exchange) (a : (e : Request) × e.Answer) (x' : Exchange) : Prop :=
  serve a.1 x = some (x', a.2) ∨ ∃ m, a = ⟨.send m, false⟩ ∧ x' = x

theorem answers_answer {file : Option File} {shut : Bool} {o : Outcome} {e : Request}
    {x x' : Exchange} {r : e.Answer} (h : answer file shut o e x = some (x', r)) :
    Answers x ⟨e, r⟩ x' := by
  have hserve : ∀ {e : Request} {r : e.Answer}, (if o = .nothing then serve e x else none)
      = some (x', r) → Answers x ⟨e, r⟩ x' := by
    intro e r he
    split at he
    · exact .inl he
    · cases he
  cases e with
  | send m =>
    have hlost : some (x, false) = some (x', r) → Answers x ⟨.send m, r⟩ x' := by
      intro he
      obtain ⟨rfl, rfl⟩ := Prod.mk.inj (Option.some.inj he)
      exact .inr ⟨m, rfl, rfl⟩
    dsimp only [answer] at h
    split at h
    · obtain ⟨rfl, rfl⟩ := Prod.mk.inj (Option.some.inj h)
      exact .inl rfl
    · exact hlost h
    · split at h
      · exact hlost h
      · cases h
    · exact hlost h
    · exact hlost h
    · cases h
  | placeLimit side price qty => exact hserve h
  | cancel id => exact hserve h
  | top => exact hserve h
  | nextExecId => exact hserve h
  | publishL1 symbol bidPx bidSz askPx askSz => exact hserve h

theorem stepWorker_exchange {libc : Libc} {cfg : GatewayConfig} {i : Nat} {o : Outcome}
    {c : Connection} (h : g.stepWorker libc cfg i o c = some g') :
    (g'.exchange = g.exchange ∧ g'.log = g.log) ∨
      ∃ a, Answers g.exchange a g'.exchange ∧ g'.log = g.log ++ [(i, a)] := by
  unfold Gateway.stepWorker at h
  split at h
  case h_4 | h_6 =>
    split at h
    · obtain rfl := Option.some.inj h
      exact .inl ⟨rfl, rfl⟩
    · cases h
  case h_8 e k _ =>
    obtain ⟨⟨exchange, r⟩, hanswer, he⟩ := Option.bind_eq_some_iff.mp h
    obtain rfl := Option.some.inj he
    exact .inr ⟨⟨e, r⟩, answers_answer hanswer, rfl⟩
  case h_10 => cases h
  all_goals
    obtain rfl := Option.some.inj h
    exact .inl ⟨rfl, rfl⟩

/-- **A step makes one request or none.** -/
theorem step_exchange {libc : Libc} {cfg : GatewayConfig} {event : Event}
    (h : g.step libc cfg event = some g') :
    (g'.exchange = g.exchange ∧ g'.log = g.log) ∨
      ∃ i a, Answers g.exchange a g'.exchange ∧ g'.log = g.log ++ [(i, a)] := by
  cases event with
  | start setup =>
    rw [step] at h
    split at h
    · obtain ⟨⟨g₁, ok⟩, hstart, rfl⟩ := Option.map_eq_some_iff.mp h
      obtain ⟨hexchange, hlog, -⟩ := start_exchange hstart
      exact .inl ⟨hexchange, hlog⟩
    · cases h
  | stop => exact .inl (stepMain_exchange h)
  | acceptor o => exact .inl (stepAcceptor_exchange h)
  | worker i o =>
    obtain ⟨c, -, h⟩ := Option.bind_eq_some_iff.mp h
    exact (stepWorker_exchange h).imp_right fun ha ↦ ⟨i, ha⟩

end Frames

end Gateway

end Fix

end MatchingEngine
