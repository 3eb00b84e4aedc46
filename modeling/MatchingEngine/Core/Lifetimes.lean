import MatchingEngine.Core.Drivers

/-!
# Lifetimes of drivers

Everything that a driver can ask for has rules (`Held.Permits`): a descriptor is closed once, by the
one who has opened it; the port of a card is stopped if it was started, and before the library is
shut down; a buffer is given back once; and a feed is not closed or freed while a gateway is running
that has a pointer to it.  `Held.after` keeps the books of what is held, and has no result if the
environment does not keep its side of the rules, for instance if it gives out a descriptor that is
in use.

Each kind of driver has an invariant that says what it holds (`Holds`), which all calls keep.  So
the rules are kept from the factory to the destructor, whatever the environment answers, and in the
end everything has been given back, with one exception (`lifetime_obeys`).  If `DpdkDriver::start`
fails after `rte_eal_init`, then `running_` is false, and neither `stop` nor the destructor shuts
the library down.
-/

set_option autoImplicit false

namespace MatchingEngine

namespace Core

open Program

/-! ## The rules -/

/-- What is known of a gateway on the heap. -/
structure Endpoint where
  gateway : Nat
  feed : Option Nat
  running : Bool

/-- What has been taken and not been given back. -/
structure Held where
  fds : List Nat
  mappings : List (Nat × Nat)
  eal : Bool
  ports : List Nat
  buffers : List Nat
  feeds : List Nat
  gateways : List Endpoint
  /-- Something has failed after `rte_eal_init` had succeeded. -/
  setupFailed : Bool

namespace Held

def nothing : Held :=
  { fds := [], mappings := [], eal := false, ports := [], buffers := [], feeds := [], gateways := []
    setupFailed := false }

/-- No gateway that is running has a pointer to the feed. -/
def Unused (h : Held) (feed : Nat) : Prop :=
  ∀ x ∈ h.gateways, x.running = true → x.feed ≠ some feed

/-- What may be asked for. -/
def Permits (h : Held) : Request → Prop
  | .openDevice _ => True
  | .fstat fd => fd ∈ h.fds
  | .mmap len fd => 0 < len ∧ fd ∈ h.fds
  | .munmap addr len => (addr, len) ∈ h.mappings
  | .close fd => fd ∈ h.fds
  | .ealInit argv => argv ≠ []
  | .poolCreate _ => h.eal = true
  | .devConfigure port _ => h.eal = true ∧ port ∉ h.ports
  | .rxQueueSetup port .. => h.eal = true ∧ port ∉ h.ports
  | .txQueueSetup port .. => h.eal = true ∧ port ∉ h.ports
  | .devStart port => h.eal = true ∧ port ∉ h.ports
  | .devStop port => port ∈ h.ports
  | .ealCleanup => h.eal = true ∧ h.ports = [] ∧ h.buffers = []
  -- the array for the packets has room for one burst
  | .rxBurst port _ count => port ∈ h.ports ∧ count ≤ DpdkDriver.burst
  | .free buffer => buffer ∈ h.buffers
  | .newFeed _ => True
  | .openFeed feed => feed ∈ h.feeds
  | .closeFeed feed => feed ∈ h.feeds ∧ h.Unused feed
  | .deleteFeed feed => feed ∈ h.feeds ∧ h.Unused feed
  | .newGateway _ _ _ feed => ∀ f ∈ feed, f ∈ h.feeds
  | .startGateway gateway => ∃ x ∈ h.gateways, x.gateway = gateway ∧ ∀ f ∈ x.feed, f ∈ h.feeds
  | .stopGateway gateway => ∃ x ∈ h.gateways, x.gateway = gateway
  | .deleteGateway gateway => ∃ x ∈ h.gateways, x.gateway = gateway
  | .counters gateway => ∃ x ∈ h.gateways, x.gateway = gateway

/-- Set whether a gateway is running. -/
def setRunning (h : Held) (gateway : Nat) (running : Bool) : Held :=
  { h with gateways := h.gateways.map fun x ↦
      if x.gateway = gateway then { x with running } else x }

/-- What is held after an answer.  What is given out must not be in use, and there are not more
packets than were asked for. -/
def after (h : Held) : (e : Request) → e.Answer → Option Held
  | .openDevice _, none => some h
  | .openDevice _, some fd => if fd ∈ h.fds then none else some { h with fds := fd :: h.fds }
  | .mmap _ _, none => some h
  | .mmap len _, some addr =>
    if addr ∈ h.mappings.map Prod.fst then none
    else some { h with mappings := (addr, len) :: h.mappings }
  | .munmap addr len, _ => some { h with mappings := h.mappings.erase (addr, len) }
  | .close fd, _ => some { h with fds := h.fds.erase fd }
  | .ealInit _, ok => some { h with eal := h.eal || ok }
  | .poolCreate _, ok => some { h with setupFailed := h.setupFailed || !ok }
  | .devConfigure .., ok => some { h with setupFailed := h.setupFailed || !ok }
  | .devStart port, ok =>
    if ok then some { h with ports := port :: h.ports } else some { h with setupFailed := true }
  | .devStop port, _ => some { h with ports := h.ports.erase port }
  | .ealCleanup, _ => some { h with eal := false }
  | .rxBurst _ _ count, rx =>
    if rx.length ≤ count ∧ (rx.map Mbuf.buffer ++ h.buffers).Nodup then
      some { h with buffers := rx.map Mbuf.buffer ++ h.buffers }
    else none
  | .free buffer, _ => some { h with buffers := h.buffers.erase buffer }
  | .newFeed _, feed => if feed ∈ h.feeds then none else some { h with feeds := feed :: h.feeds }
  | .deleteFeed feed, _ => some { h with feeds := h.feeds.erase feed }
  | .newGateway _ _ _ feed, gateway =>
    if gateway ∈ h.gateways.map Endpoint.gateway then none
    else some { h with gateways := { gateway, feed, running := false } :: h.gateways }
  | .startGateway gateway, ok => some (h.setRunning gateway ok)
  | .stopGateway gateway, _ => some (h.setRunning gateway false)
  | .deleteGateway gateway, _ =>
    some { h with gateways := h.gateways.filter (·.gateway ≠ gateway) }
  | _, _ => some h

/-- Everything was given back, except perhaps for the library of the network card after a
failure. -/
structure Idle (h : Held) : Prop where
  fds : h.fds = []
  mappings : h.mappings = []
  ports : h.ports = []
  buffers : h.buffers = []
  feeds : h.feeds = []
  gateways : h.gateways = []
  eal : h.eal = true → h.setupFailed = true

end Held

/-- The program keeps to the rules and ends as it should. -/
abbrev Obeys {α : Type} (p : Action α) (h : Held) (post : α → Held → Prop) : Prop :=
  Meets Held.Permits Held.after post p h

theorem obeys_onlySome {α : Type} {o : Option α} {f : α → Action Unit} {h : Held}
    {post : Unit → Held → Prop} (hnone : o = none → post () h)
    (hsome : ∀ a, o = some a → Obeys (f a) h post) : Obeys (onlySome o f) h post := by
  cases o with
  | none => exact hnone rfl
  | some a => exact hsome a rfl

/-- What a driver does with what it holds, whatever is called. -/
structure KernelDriver.Obedient {δ : Type} (k : KernelDriver δ) (Holds : δ → Held → Prop) :
    Prop where
  start : ∀ d h, Holds d h → Obeys (k.start d) h fun x h' ↦ Holds x.1 h'
  stop : ∀ d h, Holds d h → Obeys (k.stop d) h Holds
  poll : ∀ d h budget, Holds d h → Obeys (k.poll d budget) h fun x h' ↦ Holds x.1 h'
  destroy : ∀ d h, Holds d h → Obeys (k.destroy d) h fun _ h' ↦ h'.Idle

/-! ## The FPGA driver keeps them -/

namespace FpgaDriver

/-- The driver holds what it has the numbers of, and nothing unless it is running. -/
structure Holds (d : FpgaDriver) (h : Held) : Prop where
  fds : h.fds = d.fd.toList
  mappings : h.mappings = (d.barMmio.map fun addr ↦ (addr, d.barLen)).toList
  stopped : d.running = false → d.fd = none ∧ d.barMmio = none
  rest : Held.Idle { h with fds := [], mappings := [] }

variable {d : FpgaDriver} {h : Held}

theorem holds_of_idle (hfd : d.fd = none) (hbar : d.barMmio = none) (hidle : h.Idle) : d.Holds h :=
  ⟨by rw [hfd, hidle.fds]; rfl, by rw [hbar, hidle.mappings]; rfl, fun _ ↦ ⟨hfd, hbar⟩,
    { hidle with fds := rfl, mappings := rfl }⟩

theorem Holds.idle (hd : d.Holds h) (hstopped : d.running = false) : h.Idle := by
  obtain ⟨hfd, hbar⟩ := hd.stopped hstopped
  exact { hd.rest with
    fds := by rw [hd.fds, hfd]; rfl
    mappings := by rw [hd.mappings, hbar]; rfl }

/-- The device is closed again. -/
theorem obeys_close {fd : Nat} (hidle : h.Idle) {α : Type} {a : α} {post : α → Held → Prop}
    (hpost : ∀ h', h'.Idle → post a h') :
    Obeys (ask (.close fd) >>= fun _ ↦ pure a) { h with fds := [fd] } post := by
  refine ⟨List.mem_singleton_self fd, fun _ h' he ↦ ?_⟩
  obtain rfl := Option.some.inj he
  exact hpost _ { hidle with fds := List.erase_cons_head fd [] }

theorem obeys_start (hd : d.Holds h) : Obeys (start d) h fun x h' ↦ x.1.Holds h' := by
  unfold start
  split
  · exact hd
  rename_i hstopped
  have hidle := hd.idle (by simpa using hstopped)
  obtain ⟨-, hbar⟩ := hd.stopped (by simpa using hstopped)
  refine ⟨trivial, fun r h₁ he₁ ↦ ?_⟩
  cases r with
  | none =>
    obtain rfl := Option.some.inj he₁
    exact holds_of_idle rfl hbar hidle
  | some fd =>
    obtain rfl : { h with fds := [fd] } = h₁ := by simpa [Held.after, hidle.fds] using he₁
    refine ⟨List.mem_singleton_self fd, fun size h₂ he₂ ↦ ?_⟩
    obtain rfl := Option.some.inj he₂
    rcases size with - | - | size
    · exact obeys_close hidle fun _ ↦ holds_of_idle rfl hbar
    · exact obeys_close hidle fun _ ↦ holds_of_idle rfl hbar
    refine ⟨⟨Nat.succ_pos size, List.mem_singleton_self fd⟩, fun addr h₃ he₃ ↦ ?_⟩
    cases addr with
    | none =>
      obtain rfl := Option.some.inj he₃
      exact obeys_close hidle fun _ ↦ holds_of_idle rfl rfl
    | some addr =>
      obtain rfl : { h with fds := [fd], mappings := [(addr, size + 1)] } = h₃ := by
        simpa [Held.after, hidle.mappings] using he₃
      exact ⟨rfl, rfl, (fun he ↦ by cases he), { hidle with fds := rfl, mappings := rfl }⟩

theorem obeys_unmap (hd : d.Holds h) :
    Obeys (onlySome d.barMmio fun addr ↦ ask (.munmap addr d.barLen)) h
      fun _ h' ↦ h' = { h with mappings := [] } := by
  have hmappings := hd.mappings
  refine obeys_onlySome (fun hnone ↦ ?_) fun addr hsome ↦ ?_
  · rw [hnone] at hmappings
    exact congrArg (fun l ↦ { h with mappings := l }) hmappings
  · rw [hsome] at hmappings
    have hmem : (addr, d.barLen) ∈ h.mappings := by
      rw [hmappings]
      exact List.mem_singleton_self _
    refine ⟨hmem, fun _ h' he ↦ ?_⟩
    rw [← Option.some.inj he, hmappings]
    exact congrArg (fun l ↦ { h with mappings := l }) (List.erase_cons_head _ [])

theorem obeys_closeFd (hfds : h.fds = d.fd.toList) :
    Obeys (onlySome d.fd fun fd ↦ ask (.close fd)) h fun _ h' ↦ h' = { h with fds := [] } := by
  refine obeys_onlySome (fun hnone ↦ ?_) fun fd hsome ↦ ?_
  · rw [hnone] at hfds
    exact congrArg (fun l ↦ { h with fds := l }) hfds
  · rw [hsome] at hfds
    have hmem : fd ∈ h.fds := by
      rw [hfds]
      exact List.mem_singleton_self _
    refine ⟨hmem, fun _ h' he ↦ ?_⟩
    rw [← Option.some.inj he, hfds]
    exact congrArg (fun l ↦ { h with fds := l }) (List.erase_cons_head _ [])

theorem obeys_stop (hd : d.Holds h) : Obeys (stop d) h fun d' h' ↦ d'.Holds h' ∧ h'.Idle := by
  unfold stop
  split
  · refine (obeys_unmap hd).bind fun _ h₁ he₁ ↦ ?_
    obtain rfl := he₁
    refine (obeys_closeFd (h := { h with mappings := [] }) hd.fds).bind fun _ h₂ he₂ ↦ ?_
    have hidle : h₂.Idle := he₂ ▸ hd.rest
    exact ⟨holds_of_idle rfl rfl hidle, hidle⟩
  · rename_i hstopped
    exact ⟨hd, hd.idle (by simpa using hstopped)⟩

theorem obedient : driver.Obedient Holds where
  start _ _ hd := obeys_start hd
  stop _ _ hd := (obeys_stop hd).mono fun _ _ h ↦ h.1
  poll _ _ _ hd := hd
  destroy _ _ hd := (obeys_stop hd).bind fun _ _ h ↦ h.2

end FpgaDriver

/-! ## The DPDK driver keeps them -/

namespace DpdkDriver

/-- The library and the port, if the driver is running. -/
structure Running (d : DpdkDriver) (h : Held) : Prop where
  native : d.native = some { ealInited := true, portStarted := true }
  ports : h.ports = [d.cfg.portId]
  eal : h.eal = true
  rest : Held.Idle { h with ports := [], eal := false }

structure Holds (d : DpdkDriver) (h : Held) : Prop where
  running : d.running = true → d.Running h
  stopped : d.running = false → h.Idle

variable {d : DpdkDriver} {h : Held}

theorem holds_of_idle (hstopped : d.running = false) (hidle : h.Idle) : d.Holds h :=
  ⟨(fun he ↦ by rw [hstopped] at he; cases he), fun _ ↦ hidle⟩

theorem obeys_start (hd : d.Holds h) : Obeys (start d) h fun x h' ↦ x.1.Holds h' := by
  unfold start
  split
  · exact hd
  rename_i hstopped
  have hidle := hd.stopped (by simpa using hstopped)
  have hport : d.cfg.portId ∉ h.ports := by
    rw [hidle.ports]
    exact List.not_mem_nil
  -- after a failure the library stays as it is
  have hfailed : Held.Idle { h with eal := true, setupFailed := true } :=
    { hidle with eal := fun _ ↦ rfl }
  refine ⟨List.cons_ne_nil _ _, fun ok h₁ he₁ ↦ ?_⟩
  cases ok with
  | false =>
    obtain rfl : h = h₁ := by simpa [Held.after] using he₁
    exact holds_of_idle rfl hidle
  | true =>
    obtain rfl : { h with eal := true } = h₁ := by simpa [Held.after] using he₁
    refine ⟨rfl, fun ok h₂ he₂ ↦ ?_⟩
    cases ok with
    | false =>
      obtain rfl : { h with eal := true, setupFailed := true } = h₂ := by
        simpa [Held.after] using he₂
      exact holds_of_idle rfl hfailed
    | true =>
      obtain rfl : { h with eal := true } = h₂ := by simpa [Held.after] using he₂
      refine ⟨⟨rfl, hport⟩, fun ok h₃ he₃ ↦ ?_⟩
      cases ok with
      | false =>
        obtain rfl : { h with eal := true, setupFailed := true } = h₃ := by
          simpa [Held.after] using he₃
        exact holds_of_idle rfl hfailed
      | true =>
        obtain rfl : { h with eal := true } = h₃ := by simpa [Held.after] using he₃
        refine ⟨⟨rfl, hport⟩, fun _ h₄ he₄ ↦ ?_⟩
        obtain rfl := Option.some.inj he₄
        refine ⟨⟨rfl, hport⟩, fun _ h₅ he₅ ↦ ?_⟩
        obtain rfl := Option.some.inj he₅
        refine ⟨⟨rfl, hport⟩, fun ok h₆ he₆ ↦ ?_⟩
        cases ok with
        | false =>
          obtain rfl := Option.some.inj he₆
          exact holds_of_idle rfl hfailed
        | true =>
          obtain rfl := Option.some.inj he₆
          refine ⟨fun _ ↦ ⟨rfl, ?_, rfl, { hidle with ports := rfl, eal := fun he ↦ by cases he }⟩,
            fun he ↦ by cases he⟩
          exact congrArg (d.cfg.portId :: ·) hidle.ports

theorem obeys_stop (hd : d.Holds h) : Obeys (stop d) h fun d' h' ↦ d'.Holds h' ∧ h'.Idle := by
  unfold stop
  split
  · rename_i hrunning
    obtain ⟨hnative, hports, heal, hrest⟩ := hd.running hrunning
    rw [hnative]
    have hmem : d.cfg.portId ∈ h.ports := by rw [hports]; exact List.mem_singleton_self _
    refine ⟨hmem, fun _ h₁ he₁ ↦ ?_⟩
    obtain rfl : { h with ports := [] } = h₁ := by simpa [Held.after, hports] using he₁
    refine ⟨⟨heal, rfl, hrest.buffers⟩, fun _ h₂ he₂ ↦ ?_⟩
    obtain rfl := Option.some.inj he₂
    exact ⟨holds_of_idle rfl hrest, hrest⟩
  · rename_i hstopped
    exact ⟨hd, hd.stopped (by simpa using hstopped)⟩

/-- Every buffer of a burst is given back. -/
theorem obeys_receive {rx : List Mbuf} {stats : DriverStats}
    (hbuffers : h.buffers = rx.map Mbuf.buffer) :
    Obeys (rx.foldlM receive stats) h fun _ h' ↦ h' = { h with buffers := [] } := by
  induction rx generalizing h stats with
  | nil =>
    rw [← show h.buffers = [] from hbuffers]
    rfl
  | cons x rx ih =>
    have hmem : x.buffer ∈ h.buffers := by rw [hbuffers]; exact List.mem_cons_self
    rw [List.foldlM_cons]
    refine ⟨hmem, fun _ h₁ he₁ ↦ ?_⟩
    obtain rfl : { h with buffers := rx.map Mbuf.buffer } = h₁ := by
      simpa [Held.after, hbuffers] using he₁
    exact ih (h := { h with buffers := rx.map Mbuf.buffer }) rfl

/-- **The loop ends**, asks for no more than it has room for, and gives every buffer back. -/
theorem obeys_pollLoop {cfg : DpdkConfig} {left done : Nat} {stats : DriverStats}
    (hport : cfg.portId ∈ h.ports) (hbuffers : h.buffers = []) :
    Obeys (pollLoop cfg left done stats) h fun x h' ↦ h' = h ∧ x.2 ≤ done + left := by
  induction left using Nat.strongRecOn generalizing done stats with
  | ind left ih =>
    rw [pollLoop]
    split
    · exact ⟨rfl, Nat.le_add_right _ _⟩
    refine ⟨⟨hport, Nat.min_le_left _ _⟩, fun rx h₁ he₁ ↦ ?_⟩
    rw [Held.after] at he₁
    split at he₁
    · rename_i hrx
      obtain rfl := Option.some.inj he₁
      beta_reduce
      split
      · rename_i hempty
        obtain rfl := List.length_eq_zero_iff.mp hempty
        exact ⟨rfl, Nat.le_add_right _ _⟩
      · rename_i hsome
        have hle : rx.length ≤ left := Nat.le_trans hrx.1 (Nat.min_le_right burst left)
        refine (obeys_receive (by rw [hbuffers, List.append_nil])).bind fun stats h₂ he₂ ↦ ?_
        obtain rfl : h = h₂ := by rw [he₂, ← hbuffers]
        refine (ih (left - rx.length) (by omega)).mono fun x h' hx ↦ ⟨hx.1, ?_⟩
        have := hx.2
        omega
    · cases he₁

theorem obeys_poll (hd : d.Holds h) (budget : Nat) :
    Obeys (poll d budget) h fun x h' ↦ x.1.Holds h' ∧ x.2 ≤ budget := by
  unfold poll
  split
  · rename_i hrunning
    have hr := hd.running hrunning
    have hport : d.cfg.portId ∈ h.ports := by rw [hr.ports]; exact List.mem_singleton_self _
    refine (obeys_pollLoop hport hr.rest.buffers).bind fun x h' hx ↦ ?_
    rw [hx.1]
    exact ⟨⟨fun _ ↦ ⟨hr.native, hr.ports, hr.eal, hr.rest⟩, hd.stopped⟩, by have := hx.2; omega⟩
  · exact ⟨hd, Nat.zero_le _⟩

theorem obedient : driver.Obedient Holds where
  start _ _ hd := obeys_start hd
  stop _ _ hd := (obeys_stop hd).mono fun _ _ h ↦ h.1
  poll _ _ budget hd := (obeys_poll hd budget).mono fun _ _ h ↦ h.1
  destroy _ _ hd := (obeys_stop hd).bind fun _ _ h ↦ h.2

end DpdkDriver

/-! ## The software driver keeps them -/

namespace SoftwareDriver

/-- The driver holds the feed and the gateway it has pointers to.  The gateway is running if the
driver is, and has a pointer to this feed then.  After a `start` that failed, it may be an old
pointer. -/
structure Holds (d : SoftwareDriver) (h : Held) : Prop where
  feeds : h.feeds = d.feed.toList
  gateways : ∃ feed, h.gateways = (d.gateway.map fun gateway ↦
    { gateway, feed, running := d.running : Endpoint }).toList ∧ (d.running = true → feed = d.feed)
  rest : Held.Idle { h with feeds := [], gateways := [] }

variable {d : SoftwareDriver} {h : Held}

/-- No gateway is running. -/
def Quiet (h : Held) : Prop := ∀ x ∈ h.gateways, x.running = false

theorem Quiet.unused (hq : Quiet h) (feed : Nat) : h.Unused feed := by
  intro x hx hrunning
  rw [hq x hx] at hrunning
  cases hrunning

theorem Holds.quiet (hd : d.Holds h) (hstopped : d.running = false) : Quiet h := by
  obtain ⟨feed, hgateways, -⟩ := hd.gateways
  intro x hx
  rw [hgateways, Option.mem_toList, Option.map_eq_some_iff] at hx
  obtain ⟨gateway, -, rfl⟩ := hx
  exact hstopped

/-- A feed is deleted while no gateway is running. -/
theorem obeys_resetFeed {feed : Option Nat} {l : List Nat} (hq : Quiet h)
    (hfeeds : h.feeds = l ++ feed.toList) (hnew : ∀ f ∈ feed, f ∉ l) :
    Obeys (resetFeed feed) h fun _ h' ↦ h' = { h with feeds := l } := by
  refine obeys_onlySome (fun hnone ↦ ?_) fun f hsome ↦ ?_
  · rw [hnone, Option.toList_none, List.append_nil] at hfeeds
    rw [← hfeeds]
  · rw [hsome, Option.toList_some] at hfeeds
    have hmem : f ∈ h.feeds := by simp [hfeeds]
    have herase : h.feeds.erase f = l := by
      rw [hfeeds, List.erase_append_right _ (hnew f hsome), List.erase_cons_head, List.append_nil]
    refine ⟨⟨hmem, hq.unused f⟩, fun _ h' he ↦ ?_⟩
    obtain rfl := Option.some.inj he
    exact congrArg (fun l ↦ { h with feeds := l }) herase

theorem obeys_resetGateway {gateway feed : Option Nat} {running : Bool} {l : List Endpoint}
    (hgateways : h.gateways = l ++ (gateway.map fun gateway ↦
      { gateway, feed, running : Endpoint }).toList)
    (hnew : ∀ g ∈ gateway, ∀ x ∈ l, x.gateway ≠ g) :
    Obeys (resetGateway gateway) h fun _ h' ↦ h' = { h with gateways := l } := by
  refine obeys_onlySome (fun hnone ↦ ?_) fun g hsome ↦ ?_
  · rw [hnone, Option.map_none, Option.toList_none, List.append_nil] at hgateways
    rw [← hgateways]
  · rw [hsome, Option.map_some, Option.toList_some] at hgateways
    have hmem : ∃ x ∈ h.gateways, x.gateway = g := by simp [hgateways]
    have hfilter : h.gateways.filter (·.gateway ≠ g) = l := by
      have hkept : l.filter (·.gateway ≠ g) = l :=
        List.filter_eq_self.mpr fun x hx ↦ by simpa using hnew g hsome x hx
      rw [hgateways, List.filter_append, hkept]
      simp
    refine ⟨hmem, fun _ h' he ↦ ?_⟩
    obtain rfl := Option.some.inj he
    exact congrArg (fun l ↦ { h with gateways := l }) hfilter

theorem obeys_renewFeed (hd : d.Holds h) (hq : Quiet h) :
    Obeys d.renewFeed h fun feed h' ↦ h' = { h with feeds := feed.toList } := by
  refine ⟨trivial, fun feed h₁ he₁ ↦ ?_⟩
  rw [Held.after] at he₁
  split at he₁
  · cases he₁
  rename_i hnew
  obtain rfl := Option.some.inj he₁
  have hold : ∀ f ∈ d.feed, f ∉ [feed] := by
    intro f hmem hf
    obtain rfl := List.mem_singleton.mp hf
    rw [hd.feeds] at hnew
    exact hnew (Option.mem_toList.mpr hmem)
  refine (obeys_resetFeed (h := { h with feeds := feed :: h.feeds }) hq
    (congrArg (feed :: ·) hd.feeds) hold).bind fun _ h₂ he₂ ↦ ?_
  obtain rfl := he₂
  refine ⟨List.mem_singleton_self feed, fun opened h₃ he₃ ↦ ?_⟩
  obtain rfl := Option.some.inj he₃
  cases opened with
  | false =>
    refine (obeys_resetFeed (h := { h with feeds := [feed] }) (l := []) hq rfl
      fun _ _ ↦ List.not_mem_nil).bind fun _ h₄ he₄ ↦ he₄
  | true => rfl

theorem obeys_start (hd : d.Holds h) : Obeys (start d) h fun x h' ↦ x.1.Holds h' := by
  unfold start
  split
  · exact hd
  rename_i hstopped
  have hoff : d.running = false := by simpa using hstopped
  obtain ⟨pointer, hgateways, -⟩ := hd.gateways
  refine (obeys_renewFeed hd (hd.quiet hoff)).bind fun feed h₀ he₀ ↦ ?_
  obtain rfl := he₀
  refine ⟨fun f hf ↦ Option.mem_toList.mpr hf, fun gateway h₁ he₁ ↦ ?_⟩
  rw [Held.after] at he₁
  split at he₁
  · cases he₁
  rename_i hnew
  obtain rfl := Option.some.inj he₁
  have hold : ∀ g ∈ d.gateway, ∀ x ∈ [({ gateway, feed, running := false } : Endpoint)],
      x.gateway ≠ g := by
    intro g hg x hx
    rw [List.mem_singleton.mp hx]
    rintro rfl
    refine hnew (List.mem_map.mpr ⟨{ gateway, feed := pointer, running := d.running }, ?_, rfl⟩)
    rw [hgateways, show d.gateway = some gateway from hg]
    exact List.mem_singleton_self _
  refine (obeys_resetGateway (h := { h with
      feeds := feed.toList, gateways := { gateway, feed, running := false } :: h.gateways })
    (congrArg (_ :: ·) hgateways) hold).bind fun _ h₂ he₂ ↦ ?_
  obtain rfl := he₂
  refine ⟨⟨_, List.mem_singleton_self _, rfl, fun f hf ↦ Option.mem_toList.mpr hf⟩,
    fun ok h₃ he₃ ↦ ?_⟩
  obtain rfl := Option.some.inj he₃
  have hset : ∀ ok, d.Holds h → Holds { d with feed, gateway := some gateway, running := ok }
      (Held.setRunning { h with
        feeds := feed.toList, gateways := [{ gateway, feed, running := false }] } gateway ok) :=
    fun ok hd ↦ ⟨rfl, ⟨feed, by simp [Held.setRunning], fun _ ↦ rfl⟩, hd.rest⟩
  cases ok with
  | false => exact hset false hd
  | true => exact hset true hd

theorem obeys_stop (hd : d.Holds h) :
    Obeys (stop d) h fun d' h' ↦ d'.Holds h' ∧ d'.running = false := by
  unfold stop
  split
  · obtain ⟨feed, hgateways, -⟩ := hd.gateways
    have hstop : Obeys (onlySome d.gateway fun gateway ↦ ask (.stopGateway gateway)) h
        fun _ h' ↦ h' = { h with gateways := (d.gateway.map fun gateway ↦
          { gateway, feed, running := false : Endpoint }).toList } := by
      refine obeys_onlySome (fun hnone ↦ ?_) fun gateway hsome ↦ ?_
      · rw [hnone] at hgateways ⊢
        exact congrArg (fun l ↦ { h with gateways := l }) hgateways
      · have hmem : ∃ x ∈ h.gateways, x.gateway = gateway := by simp [hgateways, hsome]
        refine ⟨hmem, fun _ h' he ↦ ?_⟩
        obtain rfl := Option.some.inj he
        simp [Held.setRunning, hgateways, hsome, Meets]
    refine hstop.bind fun _ h₁ he₁ ↦ ?_
    obtain rfl := he₁
    refine (obeys_resetGateway (l := []) rfl fun _ _ _ hx ↦ by cases hx).bind fun _ h₂ he₂ ↦ ?_
    obtain rfl := he₂
    have hq : Quiet { h with gateways := [] } := fun x hx ↦ by cases hx
    have hclose : Obeys (onlySome d.feed fun feed ↦ ask (.closeFeed feed)) { h with gateways := [] }
        fun _ h' ↦ h' = { h with gateways := [] } := by
      refine obeys_onlySome (fun _ ↦ rfl) fun f hsome ↦ ?_
      have hmem : f ∈ h.feeds := by simp [hd.feeds, hsome]
      exact ⟨⟨hmem, hq.unused f⟩, fun _ h' he ↦ (Option.some.inj he).symm⟩
    refine hclose.bind fun _ h₃ he₃ ↦ ?_
    obtain rfl := he₃
    refine (obeys_resetFeed (l := []) hq hd.feeds fun _ _ ↦ List.not_mem_nil).bind fun _ h₄ he₄ ↦ ?_
    obtain rfl := he₄
    exact ⟨⟨rfl, ⟨none, rfl, fun he ↦ by cases he⟩, hd.rest⟩, rfl⟩
  · rename_i hstopped
    exact ⟨hd, by simpa using hstopped⟩

theorem obeys_destroy (hd : d.Holds h) : Obeys (driver.destroy d) h fun _ h' ↦ h'.Idle := by
  refine (obeys_stop hd).bind fun d h hd ↦ ?_
  obtain ⟨hd, hstopped⟩ := hd
  obtain ⟨feed, hgateways, -⟩ := hd.gateways
  refine (obeys_resetFeed (l := []) (hd.quiet hstopped) hd.feeds fun _ _ ↦ List.not_mem_nil).bind
    fun _ h₁ he₁ ↦ ?_
  obtain rfl := he₁
  refine (obeys_resetGateway (h := { h with feeds := [] }) (l := []) hgateways
    fun _ _ _ hx ↦ by cases hx).mono fun _ h₂ he₂ ↦ ?_
  rw [he₂]
  exact hd.rest

theorem obeys_poll (hd : d.Holds h) (budget : Nat) :
    Obeys (poll d budget) h fun x h' ↦ x.1.Holds h' := by
  unfold poll
  split
  · exact hd
  · rename_i gateway hsome
    obtain ⟨feed, hgateways, hfeed⟩ := hd.gateways
    have hmem : ∃ x ∈ h.gateways, x.gateway = gateway := by simp [hgateways, hsome]
    refine ⟨hmem, fun counters h' he ↦ ?_⟩
    obtain rfl := Option.some.inj he
    exact ⟨hd.feeds, ⟨feed, hgateways, hfeed⟩, hd.rest⟩

theorem obedient : driver.Obedient Holds where
  start _ _ hd := obeys_start hd
  stop _ _ hd := (obeys_stop hd).mono fun _ _ h ↦ h.1
  poll _ _ budget hd := obeys_poll hd budget
  destroy _ _ hd := obeys_destroy hd

end SoftwareDriver

/-! ## Whole lifetimes -/

/-- What a driver of any kind holds. -/
def AnyDriver.Holds : AnyDriver → Held → Prop
  | .fpga d, h => d.Holds h
  | .dpdk d, h => d.Holds h
  | .software d, h => d.Holds h

theorem AnyDriver.obedient : AnyDriver.driver.Obedient AnyDriver.Holds where
  start d h hd := by
    cases d with
    | fpga d => exact (FpgaDriver.obedient.start d h hd).bind fun _ _ h ↦ h
    | dpdk d => exact (DpdkDriver.obedient.start d h hd).bind fun _ _ h ↦ h
    | software d => exact (SoftwareDriver.obedient.start d h hd).bind fun _ _ h ↦ h
  stop d h hd := by
    cases d with
    | fpga d => exact (FpgaDriver.obedient.stop d h hd).bind fun _ _ h ↦ h
    | dpdk d => exact (DpdkDriver.obedient.stop d h hd).bind fun _ _ h ↦ h
    | software d => exact (SoftwareDriver.obedient.stop d h hd).bind fun _ _ h ↦ h
  poll d h budget hd := by
    cases d with
    | fpga d => exact (FpgaDriver.obedient.poll d h budget hd).bind fun _ _ h ↦ h
    | dpdk d => exact (DpdkDriver.obedient.poll d h budget hd).bind fun _ _ h ↦ h
    | software d => exact (SoftwareDriver.obedient.poll d h budget hd).bind fun _ _ h ↦ h
  destroy d h hd := by
    cases d with
    | fpga d => exact FpgaDriver.obedient.destroy d h hd
    | dpdk d => exact DpdkDriver.obedient.destroy d h hd
    | software d => exact SoftwareDriver.obedient.destroy d h hd

section Lifetime

variable {δ : Type} {k : KernelDriver δ} {Holds : δ → Held → Prop} {d : δ} {h : Held}

/-- What a factory hands over, if anything, holds what it should. -/
def HandsOver (Holds : δ → Held → Prop) : Option δ → Held → Prop
  | none, h => h.Idle
  | some d, h => Holds d h

theorem KernelDriver.Obedient.started (hk : k.Obedient Holds) (hd : Holds d h) :
    Obeys (started k d) h (HandsOver Holds) := by
  refine (hk.start d h hd).bind fun x h' hx ↦ ?_
  obtain ⟨d', ok⟩ := x
  cases ok with
  | true => exact hx
  | false => exact (hk.destroy d' h' hx).bind fun _ _ hidle ↦ hidle

theorem KernelDriver.Obedient.lifetime (hk : k.Obedient Holds) (hd : Holds d h)
    (calls : List Call) :
    Obeys (k.lifetime calls d) h fun _ h' ↦ h'.Idle := by
  refine (meets_foldlM calls (fun c d h hd ↦ ?_) hd).bind hk.destroy
  cases c with
  | start => exact (hk.start d h hd).bind fun _ _ h ↦ h
  | stop => exact hk.stop d h hd
  | poll budget => exact (hk.poll d h budget hd).bind fun _ _ h ↦ h

end Lifetime

theorem obeys_makeFpgaDriver {native : Bool} {cfg : DriverFactoryConfig} {h : Held}
    (hidle : h.Idle) :
    Obeys (makeFpgaDriver native cfg) h (HandsOver FpgaDriver.Holds) := by
  unfold makeFpgaDriver
  split
  · exact FpgaDriver.obedient.started (FpgaDriver.holds_of_idle rfl rfl hidle)
  · exact hidle

theorem obeys_makeDpdkDriver {native : Bool} {cfg : DriverFactoryConfig} {h : Held}
    (hidle : h.Idle) :
    Obeys (makeDpdkDriver native cfg) h (HandsOver DpdkDriver.Holds) := by
  unfold makeDpdkDriver
  split
  · exact DpdkDriver.obedient.started (DpdkDriver.holds_of_idle rfl hidle)
  · exact hidle

theorem obeys_makeBestAvailableDriver {fpga dpdk : Bool} {cfg : DriverFactoryConfig} {h : Held}
    (hidle : h.Idle) : Obeys (makeBestAvailableDriver fpga dpdk cfg) h AnyDriver.Holds := by
  refine (obeys_makeFpgaDriver hidle).bind fun d h hd ↦ ?_
  cases d with
  | some d => exact hd
  | none =>
    refine (obeys_makeDpdkDriver hd).bind fun d h hd ↦ ?_
    cases d with
    | some d => exact hd
    | none =>
      exact ⟨hd.feeds, ⟨none, hd.gateways, fun _ ↦ rfl⟩, { hd with feeds := rfl, gateways := rfl }⟩

/-- **From the factory to the destructor the rules are kept.**  Whichever hardware there is,
whatever fails, and in whatever order the driver is told to start, stop and poll, it never closes,
unmaps, stops or frees what it does not hold, no feed goes while a running gateway has a pointer to
it, and in the end everything has been given back, except that the library of the network card is
still initialised if something failed after its initialisation. -/
theorem lifetime_obeys (fpga dpdk : Bool) (cfg : DriverFactoryConfig) (calls : List Call) :
    Obeys (lifetime fpga dpdk cfg calls) .nothing fun _ h ↦ h.Idle := by
  have hidle : Held.nothing.Idle := ⟨rfl, rfl, rfl, rfl, rfl, rfl, fun he ↦ by cases he⟩
  exact (obeys_makeBestAvailableDriver hidle).bind fun d h hd ↦ AnyDriver.obedient.lifetime hd calls

end Core

end MatchingEngine
