import Mathlib.Algebra.Order.Ring.Int
import MatchingEngine.Util.Program

/-!
# The drivers

A transcription of `core/software_driver.cpp`, `fpga/fpga_driver.cpp` and `dpdk/dpdk_driver.cpp`,
each as it is built when its hardware is supported, and of the factories.  A driver is a `Program`
that asks for what it needs from outside: files and mappings, the library for the network card, and
the gateway and the feed, which are objects on the heap.

A `lifetime` is what a user of the drivers sees: one is made by the factory, told to start, stop and
poll in any order, and deleted.  What comes of it is in `Core/Lifetimes.lean`.
-/

set_option autoImplicit false

namespace MatchingEngine

namespace Core

/-! ## What a driver asks for -/

abbrev Text := List Char

/-- What is known of a received packet: its buffer, and its length. -/
structure Mbuf where
  buffer : Nat
  pktLen : Nat

inductive Request where
  | openDevice (device : Text)
  | fstat (fd : Nat)
  | mmap (len fd : Nat)
  | munmap (addr len : Nat)
  | close (fd : Nat)
  | ealInit (argv : List Text)
  | poolCreate (size : Nat)
  | devConfigure (port mtu : Nat)
  | rxQueueSetup (port queue descriptors : Nat)
  | txQueueSetup (port queue descriptors : Nat)
  | devStart (port : Nat)
  | devStop (port : Nat)
  | ealCleanup
  | rxBurst (port queue count : Nat)
  | free (buffer : Nat)
  | newFeed (destHost : Text)
  | openFeed (feed : Nat)
  | closeFeed (feed : Nat)
  | deleteFeed (feed : Nat)
  | newGateway (bindHost : Text) (bindPort : Nat) (compId : Text) (feed : Option Nat)
  | startGateway (gateway : Nat)
  | stopGateway (gateway : Nat)
  | deleteGateway (gateway : Nat)
  /-- `orders_received` and `exec_reports_sent` -/
  | counters (gateway : Nat)

/-- There is no descriptor, size or address if the call has failed. -/
abbrev Request.Answer : Request → Type
  | .openDevice _ => Option Nat
  | .fstat _ => Option Nat
  | .mmap .. => Option Nat
  | .munmap .. => Unit
  | .close _ => Unit
  | .ealInit _ => Bool
  | .poolCreate _ => Bool
  | .devConfigure .. => Bool
  | .rxQueueSetup .. => Unit
  | .txQueueSetup .. => Unit
  | .devStart _ => Bool
  | .devStop _ => Unit
  | .ealCleanup => Unit
  | .rxBurst .. => List Mbuf
  | .free _ => Unit
  | .newFeed _ => Nat
  | .openFeed _ => Bool
  | .closeFeed _ => Unit
  | .deleteFeed _ => Unit
  | .newGateway .. => Nat
  | .startGateway _ => Bool
  | .stopGateway _ => Unit
  | .deleteGateway _ => Unit
  | .counters _ => Nat × Nat

abbrev Action := Program Request Request.Answer

def ask (e : Request) : Action e.Answer := Program.perform e

/-- `if` without `else`. -/
def onlyIf (b : Bool) (p : Action Unit) : Action Unit := if b then p else pure ()

/-- The same, for a pointer or a number that may not be there. -/
def onlySome {α : Type} : Option α → (α → Action Unit) → Action Unit
  | none, _ => pure ()
  | some a, f => f a

structure DriverStats where
  rxMessages : Nat
  txMessages : Nat
  rxBytes : Nat

def DriverStats.zero : DriverStats := { rxMessages := 0, txMessages := 0, rxBytes := 0 }

structure DriverFactoryConfig where
  bindHost : Text
  bindPort : Nat
  compId : Text
  dpdkEalArgs : Text
  dpdkPortId : Nat
  dpdkQueueId : Nat
  fpgaDevice : Text

/-- `IKernelDriver`.  There is nothing to do for `flush_tx`. -/
structure KernelDriver (δ : Type) where
  start : δ → Action (δ × Bool)
  stop : δ → Action δ
  poll : δ → Nat → Action (δ × Nat)
  /-- The destructor. -/
  destroy : δ → Action Unit

/-! ## The FPGA driver -/

structure FpgaDriver where
  device : Text
  running : Bool
  fd : Option Nat
  barMmio : Option Nat
  barLen : Nat

namespace FpgaDriver

def new (device : Text) : FpgaDriver :=
  { device, running := false, fd := none, barMmio := none, barLen := 0 }

def start (d : FpgaDriver) : Action (FpgaDriver × Bool) := do
  if d.running then return (d, true)
  match ← ask (.openDevice d.device) with
  | none => return ({ d with fd := none, running := false }, false)
  | some fd => do
    match ← ask (.fstat fd) with
    | none | some 0 => do
      ask (.close fd)
      return ({ d with fd := none, running := false }, false)
    | some (size + 1) => do
      let barLen := size + 1
      match ← ask (.mmap barLen fd) with
      | none => do
        ask (.close fd)
        return ({ d with barLen, barMmio := none, fd := none, running := false }, false)
      | some addr =>
        return ({ d with barLen, barMmio := some addr, fd := some fd, running := true }, true)

def stop (d : FpgaDriver) : Action FpgaDriver := do
  if d.running then
    onlySome d.barMmio fun addr ↦ ask (.munmap addr d.barLen)
    onlySome d.fd fun fd ↦ ask (.close fd)
    return { d with running := false, barMmio := none, fd := none }
  else return d

def driver : KernelDriver FpgaDriver where
  start := start
  stop := stop
  poll d _ := pure (d, 0)
  destroy d := do
    let _ ← stop d
    return ()

end FpgaDriver

/-! ## The DPDK driver -/

structure DpdkConfig where
  ealArgs : Text
  portId : Nat
  queueId : Nat
  nbRxDesc : Nat
  nbTxDesc : Nat
  mbufPoolSz : Nat
  mtu : Nat

def DpdkConfig.default : DpdkConfig :=
  { ealArgs := ['-', 'l', ' ', '0', '-', '3', ' ', '-', '-', 'p', 'r', 'o', 'c', '-', 't', 'y', 'p',
      'e', '=', 'p', 'r', 'i', 'm', 'a', 'r', 'y']
    portId := 0, queueId := 0, nbRxDesc := 1024, nbTxDesc := 1024, mbufPoolSz := 8191, mtu := 1500 }

/-- `DpdkDriver::Native`, without the pointer to the pool, which is only passed on. -/
structure Native where
  ealInited : Bool
  portStarted : Bool

structure DpdkDriver where
  cfg : DpdkConfig
  stats : DriverStats
  running : Bool
  native : Option Native

namespace DpdkDriver

def new (cfg : DpdkConfig) : DpdkDriver :=
  { cfg, stats := .zero, running := false, native := none }

/-- What `operator>>` skips. -/
def isSpace (c : Char) : Bool := c == ' ' || ('\t' ≤ c && c ≤ '\r')

def splitArgs (s : Text) : List Text := (s.splitOnP isSpace).filter (· ≠ [])

def start (d : DpdkDriver) : Action (DpdkDriver × Bool) := do
  if d.running then return (d, true)
  -- whatever was in `native_` is forgotten
  let d := { d with native := some { ealInited := false, portStarted := false } }
  if ← ask (.ealInit (['h', 'f', 't'] :: splitArgs d.cfg.ealArgs)) then
    let d := { d with native := some { ealInited := true, portStarted := false } }
    if ← ask (.poolCreate d.cfg.mbufPoolSz) then
      if ← ask (.devConfigure d.cfg.portId d.cfg.mtu) then
        ask (.rxQueueSetup d.cfg.portId d.cfg.queueId d.cfg.nbRxDesc)
        ask (.txQueueSetup d.cfg.portId d.cfg.queueId d.cfg.nbTxDesc)
        if ← ask (.devStart d.cfg.portId) then
          return ({ d with
            native := some { ealInited := true, portStarted := true }, running := true }, true)
        else return ({ d with running := false }, false)
      else return ({ d with running := false }, false)
    else return ({ d with running := false }, false)
  else return ({ d with running := false }, false)

def stop (d : DpdkDriver) : Action DpdkDriver := do
  if d.running then
    onlySome d.native fun native ↦ do
      onlyIf native.portStarted (ask (.devStop d.cfg.portId))
      onlyIf native.ealInited (ask .ealCleanup)
    return { d with running := false, native := none }
  else return d

/-- `kBurst` -/
def burst : Nat := 32

/-- Count a packet and give its buffer back. -/
def receive (stats : DriverStats) (rx : Mbuf) : Action DriverStats := do
  ask (.free rx.buffer)
  return { stats with
    rxMessages := (stats.rxMessages + 1) % 2 ^ 64, rxBytes := (stats.rxBytes + rx.pktLen) % 2 ^ 64 }

/-- The loop in `poll`, with this much of the budget left. -/
def pollLoop (cfg : DpdkConfig) (left done : Nat) (stats : DriverStats) :
    Action (DriverStats × Nat) :=
  if left = 0 then pure (stats, done)
  else .call (.rxBurst cfg.portId cfg.queueId (min burst left)) fun rx ↦
    if _ : rx.length = 0 then pure (stats, done)
    else do
      let stats ← rx.foldlM receive stats
      pollLoop cfg (left - rx.length) (done + rx.length) stats
  termination_by left
  decreasing_by omega

def poll (d : DpdkDriver) (budget : Nat) : Action (DpdkDriver × Nat) := do
  if d.running then
    let (stats, done) ← pollLoop d.cfg budget 0 d.stats
    return ({ d with stats }, done)
  else return (d, 0)

def driver : KernelDriver DpdkDriver where
  start := start
  stop := stop
  poll := poll
  destroy d := do
    let _ ← stop d
    return ()

end DpdkDriver

/-! ## The software driver -/

structure SoftwareDriver where
  cfg : DriverFactoryConfig
  gateway : Option Nat
  feed : Option Nat
  stats : DriverStats
  running : Bool

namespace SoftwareDriver

def new (cfg : DriverFactoryConfig) : SoftwareDriver :=
  { cfg, gateway := none, feed := none, stats := .zero, running := false }

/-- `feed_` lets go of a feed. -/
def resetFeed (feed : Option Nat) : Action Unit := onlySome feed fun feed ↦ ask (.deleteFeed feed)

/-- `gateway_` lets go of a gateway. -/
def resetGateway (gateway : Option Nat) : Action Unit :=
  onlySome gateway fun gateway ↦ ask (.deleteGateway gateway)

def localhost : Text := ['1', '2', '7', '.', '0', '.', '0', '.', '1']

/-- The first half of `start`: the feed, if it can be opened.  A new object is there before the old
one is deleted. -/
def renewFeed (d : SoftwareDriver) : Action (Option Nat) := do
  let feed ← ask (.newFeed localhost)
  resetFeed d.feed
  if ← ask (.openFeed feed) then return some feed
  else
    resetFeed (some feed)
    return none

def start (d : SoftwareDriver) : Action (SoftwareDriver × Bool) := do
  if d.running then return (d, true)
  let feed ← d.renewFeed
  let gateway ← ask (.newGateway d.cfg.bindHost d.cfg.bindPort d.cfg.compId feed)
  resetGateway d.gateway
  let d := { d with feed, gateway := some gateway }
  if ← ask (.startGateway gateway) then return ({ d with running := true }, true)
  else return ({ d with running := false }, false)

def stop (d : SoftwareDriver) : Action SoftwareDriver := do
  if d.running then
    onlySome d.gateway fun gateway ↦ ask (.stopGateway gateway)
    resetGateway d.gateway
    onlySome d.feed fun feed ↦ ask (.closeFeed feed)
    resetFeed d.feed
    return { d with running := false, gateway := none, feed := none }
  else return d

def poll (d : SoftwareDriver) (_budget : Nat) : Action (SoftwareDriver × Nat) :=
  match d.gateway with
  | none => pure (d, 0)
  | some gateway => do
    let (rx, tx) ← ask (.counters gateway)
    let delta := if d.stats.rxMessages < rx then rx - d.stats.rxMessages else 0
    return ({ d with stats.rxMessages := rx, stats.txMessages := tx }, delta)

/-- The members are destroyed in the opposite order of their declaration. -/
def driver : KernelDriver SoftwareDriver where
  start := start
  stop := stop
  poll := poll
  destroy d := do
    let d ← stop d
    resetFeed d.feed
    resetGateway d.gateway

end SoftwareDriver

/-! ## The factories -/

/-- A driver of one of the three kinds. -/
inductive AnyDriver where
  | fpga (d : FpgaDriver)
  | dpdk (d : DpdkDriver)
  | software (d : SoftwareDriver)

/-- The virtual functions. -/
def AnyDriver.driver : KernelDriver AnyDriver where
  start
    | .fpga d => do
      let (d, ok) ← FpgaDriver.driver.start d
      return (.fpga d, ok)
    | .dpdk d => do
      let (d, ok) ← DpdkDriver.driver.start d
      return (.dpdk d, ok)
    | .software d => do
      let (d, ok) ← SoftwareDriver.driver.start d
      return (.software d, ok)
  stop
    | .fpga d => do
      let d ← FpgaDriver.driver.stop d
      return .fpga d
    | .dpdk d => do
      let d ← DpdkDriver.driver.stop d
      return .dpdk d
    | .software d => do
      let d ← SoftwareDriver.driver.stop d
      return .software d
  poll
    | .fpga d, budget => do
      let (d, n) ← FpgaDriver.driver.poll d budget
      return (.fpga d, n)
    | .dpdk d, budget => do
      let (d, n) ← DpdkDriver.driver.poll d budget
      return (.dpdk d, n)
    | .software d, budget => do
      let (d, n) ← SoftwareDriver.driver.poll d budget
      return (.software d, n)
  destroy
    | .fpga d => FpgaDriver.driver.destroy d
    | .dpdk d => DpdkDriver.driver.destroy d
    | .software d => SoftwareDriver.driver.destroy d

/-- The end of both hardware factories: a driver that does not start is deleted. -/
def started {δ : Type} (k : KernelDriver δ) (d : δ) : Action (Option δ) := do
  let (d, ok) ← k.start d
  if ok then return some d
  else
    k.destroy d
    return none

def defaultDevice : Text :=
  ['/', 'd', 'e', 'v', '/', 'h', 'f', 't', '_', 'f', 'p', 'g', 'a', '0']

/-- `native` says whether the program was built for the card. -/
def makeFpgaDriver (native : Bool) (cfg : DriverFactoryConfig) : Action (Option FpgaDriver) :=
  if native then
    started FpgaDriver.driver (.new (if cfg.fpgaDevice ≠ [] then cfg.fpgaDevice else defaultDevice))
  else pure none

def makeDpdkDriver (native : Bool) (cfg : DriverFactoryConfig) : Action (Option DpdkDriver) :=
  if native then
    started DpdkDriver.driver (.new { DpdkConfig.default with
      ealArgs := if cfg.dpdkEalArgs ≠ [] then cfg.dpdkEalArgs else DpdkConfig.default.ealArgs
      portId := cfg.dpdkPortId
      queueId := cfg.dpdkQueueId })
  else pure none

def makeSoftwareDriver (cfg : DriverFactoryConfig) : SoftwareDriver := .new cfg

/-- The hardware drivers are handed over started, the software driver is not. -/
def makeBestAvailableDriver (fpga dpdk : Bool) (cfg : DriverFactoryConfig) : Action AnyDriver := do
  match ← makeFpgaDriver fpga cfg with
  | some d => return .fpga d
  | none => do
    match ← makeDpdkDriver dpdk cfg with
    | some d => return .dpdk d
    | none => return .software (makeSoftwareDriver cfg)

/-! ## Lifetimes -/

inductive Call where
  | start
  | stop
  | poll (budget : Nat)

section Lifetime

variable {δ : Type}

def KernelDriver.perform (k : KernelDriver δ) (d : δ) : Call → Action δ
  | .start => do
    let (d, _) ← k.start d
    return d
  | .stop => k.stop d
  | .poll budget => do
    let (d, _) ← k.poll d budget
    return d

/-- Some calls, and the destructor. -/
def KernelDriver.lifetime (k : KernelDriver δ) (calls : List Call) (d : δ) : Action Unit := do
  let d ← calls.foldlM k.perform d
  k.destroy d

end Lifetime

/-- From the factory to the destructor. -/
def lifetime (fpga dpdk : Bool) (cfg : DriverFactoryConfig) (calls : List Call) : Action Unit := do
  let d ← makeBestAvailableDriver fpga dpdk cfg
  AnyDriver.driver.lifetime calls d

end Core

end MatchingEngine
