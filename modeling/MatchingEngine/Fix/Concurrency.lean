import MatchingEngine.Fix.Descriptors
import MatchingEngine.Util.Traces

/-!
# What the threads do is what the sessions do

`Fix.Gateway` has a session as a program over the chunks that it receives, and what has been proved
of sessions has been proved of its runs, for all answers.  `Fix.Threads` has the threads, which are
started and stopped and take turns.  Here the second is compared with the first: whatever the order
of the steps, each thread has done part of a run of the program, on the chunks it has received and
with the answers it was given; all of a run, if it is not in the middle of a message.  And the
answers are those of one exchange that serves one request after the other (`sessions_serializable`).

So what a session asks of the engine depends on its own bytes, and on nothing that other sessions do
(`requests_isolated`).
-/

set_option autoImplicit false

namespace MatchingEngine

namespace Fix

open Program

/-! ## One thread -/

namespace Worker

/-- Is the thread in the middle of a chunk? -/
def busy : Worker → Bool
  | .handling _ => true
  | _ => false

section Rest

variable (libc : Libc) (cfg : GatewayConfig)

/-- What the thread has left to do, if it receives these chunks and is not stopped. -/
def rest (more : List Bytes) : Worker → Option (Handler Session)
  | .unborn => some (sessionLoop libc cfg more .new [])
  | .loadOwn s rxBuf => some (sessionLoop libc cfg more s rxBuf)
  | .loadGateway s rxBuf => some (sessionLoop libc cfg more s rxBuf)
  | .recv s rxBuf => some (sessionLoop libc cfg more s rxBuf)
  | .receiving s rxBuf _ => some (sessionLoop libc cfg more s rxBuf)
  | .handling p => some (p >>= fun x ↦ sessionLoop libc cfg more x.1 x.2)
  | .closing _ => none
  | .done => none

/-- The session has been found running. -/
def checked : Worker → Bool
  | .loadGateway s _ => s.running
  | .recv s _ => s.running
  | .receiving s _ _ => s.running
  | _ => true

/-- A thread that has received these chunks, and made these requests, is where the program is. -/
structure At (received : List Bytes) (t : Events) (w : Worker) : Prop where
  checked : w.checked = true
  rest : ∀ more p, w.rest libc cfg more = some p →
    Goes (sessionLoop libc cfg (received ++ more) .new []) t p
  ended : w.rest libc cfg [] = none → ∃ s, Goes (sessionLoop libc cfg received .new []) t (.ret s)

end Rest

section At

variable {libc : Libc} {cfg : GatewayConfig} {received : List Bytes} {t : Events} {w w' : Worker}

theorem at_unborn (libc : Libc) (cfg : GatewayConfig) : At libc cfg [] [] .unborn where
  checked := rfl
  rest more p hp := by
    obtain rfl := Option.some.inj hp
    exact .refl
  ended := nofun

/-- The thread has the same to do. -/
theorem At.of_rest (h : At libc cfg received t w) (hchecked : w'.checked = true)
    (hrest : ∀ more, w'.rest libc cfg more = w.rest libc cfg more) : At libc cfg received t w' where
  checked := hchecked
  rest more p hp := h.rest more p (hrest more ▸ hp)
  ended hp := h.ended (hrest [] ▸ hp)

/-- Between two chunks all that has been received has been handled. -/
theorem At.goes_ret (h : At libc cfg received t w) {s : Session} {rxBuf : Bytes}
    (hw : w.rest libc cfg [] = some (sessionLoop libc cfg [] s rxBuf)) :
    Goes (sessionLoop libc cfg received .new []) t (.ret s) := by
  have hgoes := h.rest [] _ hw
  rwa [List.append_nil] at hgoes

/-- Between two chunks a thread may be stopped. -/
theorem At.close (h : At libc cfg received t w) {s : Session} {rxBuf : Bytes}
    (hw : w.rest libc cfg [] = some (sessionLoop libc cfg [] s rxBuf)) (c : Closing) :
    At libc cfg received t (.closing c) where
  checked := rfl
  rest := nofun
  ended _ := ⟨s, h.goes_ret hw⟩

/-- A chunk arrives. -/
theorem At.chunk {s : Session} {rxBuf : Bytes} {j : Nat}
    (h : At libc cfg received t (.receiving s rxBuf j)) (bytes : Bytes) :
    At libc cfg (received ++ [bytes]) t (.handling (drainFrames libc cfg s (rxBuf ++ bytes))) where
  checked := rfl
  rest more p hp := by
    obtain rfl := Option.some.inj hp
    have hgoes := h.rest (bytes :: more) _ rfl
    rw [sessionLoop, if_pos (show s.running = true from h.checked)] at hgoes
    rw [List.append_assoc]
    exact hgoes
  ended := nofun

/-- A request is answered. -/
theorem At.answered {e : Request} {k : e.Answer → Handler (Session × Bytes)}
    (h : At libc cfg received t (.handling (.call e k))) (r : e.Answer) :
    At libc cfg received (t ++ [⟨e, r⟩]) (.handling (k r)) where
  checked := rfl
  rest more p hp := by
    obtain rfl := Option.some.inj hp
    exact (h.rest more _ rfl).snoc r
  ended := nofun

/-- Where a thread has got to. -/
theorem At.goes (h : At libc cfg received t w) :
    ∃ p, Goes (sessionLoop libc cfg received .new []) t p ∧ (w.busy = false → ∃ s, p = .ret s) := by
  have hret : (∃ s, Goes (sessionLoop libc cfg received .new []) t (.ret s)) →
      ∃ p, Goes (sessionLoop libc cfg received .new []) t p ∧ (w.busy = false → ∃ s, p = .ret s) :=
    fun ⟨s, hgoes⟩ ↦ ⟨.ret s, hgoes, fun _ ↦ ⟨s, rfl⟩⟩
  cases w with
  | handling p =>
    have hgoes := h.rest [] _ rfl
    rw [List.append_nil] at hgoes
    exact ⟨_, hgoes, nofun⟩
  | closing c => exact hret (h.ended rfl)
  | done => exact hret (h.ended rfl)
  | _ => exact hret ⟨_, h.goes_ret rfl⟩

end At

end Worker

/-! ## All threads -/

namespace Gateway

/-- What a session has asked for, with the answers. -/
def trace (g : Gateway) (i : Nat) : Events := ofTag g.log i

/-- Every thread is where its program is. -/
structure Traced (libc : Libc) (cfg : GatewayConfig) (g : Gateway) : Prop where
  tags : ∀ x ∈ g.log, x.1 < g.connections.length
  each : ∀ (i : Nat) (c : Connection), g.connections[i]? = some c →
    c.worker.At libc cfg c.received (g.trace i)

section Steps

variable {libc : Libc} {cfg : GatewayConfig} {g g' : Gateway} {i : Nat} {c : Connection}

theorem traced_new (libc : Libc) (cfg : GatewayConfig) (exchange : Exchange) :
    Traced libc cfg (.new exchange) :=
  ⟨by simp [Gateway.new], by simp [Gateway.new]⟩

/-- A step that no thread of a session takes part in. -/
theorem Traced.of_workers (h : Traced libc cfg g) (hlog : g'.log = g.log)
    (hworkers : g'.connections.map (fun c ↦ (c.worker, c.received))
      = g.connections.map fun c ↦ (c.worker, c.received)) : Traced libc cfg g' := by
  have hlength : g'.connections.length = g.connections.length := by
    simpa using congrArg List.length hworkers
  refine ⟨by rw [hlog, hlength]; exact h.tags, fun i c' hc' ↦ ?_⟩
  have hi := congrArg (·[i]?) hworkers
  simp only [List.getElem?_map, hc', Option.map_some] at hi
  obtain ⟨c, hc, he⟩ := Option.map_eq_some_iff.mp hi.symm
  obtain ⟨hworker, hreceived⟩ := Prod.mk.inj he
  rw [← hworker, ← hreceived, trace, hlog]
  exact h.each i c hc

/-- A thread goes on without a request. -/
theorem Traced.put (h : Traced libc cfg g) (hlog : g'.log = g.log) {c' : Connection}
    (hconnections : g'.connections = (g.put i c').connections)
    (hc' : c'.worker.At libc cfg c'.received (g.trace i)) : Traced libc cfg g' := by
  refine ⟨?_, ?_⟩
  · rw [hlog, hconnections, Gateway.put, List.length_set]
    exact h.tags
  · rw [hconnections]
    refine each_put (fun j d _ hd ↦ ?_) ?_
    · rw [trace, hlog]
      exact h.each j d hd
    · rw [trace, hlog]
      exact hc'

/-- A request is answered. -/
theorem Traced.serveRequest (h : Traced libc cfg g) (hc : g.connections[i]? = some c) {o : Outcome}
    {e : Request} {k : e.Answer → Handler (Session × Bytes)} (hw : c.worker = .handling (.call e k))
    (hs : g.serveRequest i c o e k = some g') : Traced libc cfg g' := by
  obtain ⟨⟨exchange, r⟩, -, he⟩ := Option.bind_eq_some_iff.mp hs
  obtain rfl := Option.some.inj he
  refine ⟨?_, each_put (fun j d hj hd ↦ ?_) ?_⟩
  · show ∀ x ∈ g.log ++ [(i, ⟨e, r⟩)], x.1 < (g.connections.set i _).length
    rw [List.length_set]
    refine List.forall_mem_append.mpr ⟨h.tags, fun x hx ↦ ?_⟩
    rw [List.mem_singleton.mp hx]
    exact (List.getElem?_eq_some_iff.mp hc).1
  · show d.worker.At libc cfg d.received (ofTag (g.log ++ [(i, ⟨e, r⟩)]) j)
    rw [ofTag_concat_of_ne hj.symm]
    exact h.each j d hd
  · show Worker.At libc cfg c.received (ofTag (g.log ++ [(i, ⟨e, r⟩)]) i) (.handling (k r))
    rw [ofTag_concat_self]
    have hat := h.each i c hc
    rw [hw] at hat
    exact hat.answered r

theorem Traced.stepWorker {o : Outcome} (h : Traced libc cfg g) (hc : g.connections[i]? = some c)
    (hs : g.stepWorker libc cfg i o c = some g') : Traced libc cfg g' := by
  have hat := h.each i c hc
  unfold Gateway.stepWorker at hs
  split at hs
  case h_1 s rxBuf hw =>
    rw [hw] at hat
    obtain rfl := Option.some.inj hs
    refine h.put rfl rfl ?_
    dsimp only
    split
    · next hrunning => exact hat.of_rest (Bool.and_eq_true_iff.mp hrunning).1 fun _ ↦ rfl
    · exact hat.close rfl _
  case h_2 s rxBuf hw =>
    rw [hw] at hat
    obtain rfl := Option.some.inj hs
    refine h.put rfl rfl ?_
    dsimp only
    split
    · exact hat.of_rest hat.checked fun _ ↦ rfl
    · exact hat.close rfl _
  case h_3 s rxBuf hw =>
    rw [hw] at hat
    obtain rfl := Option.some.inj hs
    refine h.put rfl rfl ?_
    dsimp only
    split
    · exact hat.of_rest hat.checked fun _ ↦ rfl
    · exact hat.close rfl _
  case h_4 s rxBuf j bytes hw =>
    rw [hw] at hat
    split at hs
    · obtain rfl := Option.some.inj hs
      exact h.put rfl rfl (hat.chunk bytes)
    · cases hs
  case h_5 hw =>
    rw [hw] at hat
    obtain rfl := Option.some.inj hs
    exact h.put rfl rfl (hat.close rfl _)
  case h_6 hw =>
    rw [hw] at hat
    split at hs
    · obtain rfl := Option.some.inj hs
      exact h.put rfl rfl (hat.close rfl _)
    · cases hs
  case h_7 hw =>
    rw [hw] at hat
    obtain rfl := Option.some.inj hs
    exact h.put rfl rfl (hat.of_rest rfl fun _ ↦ rfl)
  case h_8 hw => exact h.serveRequest hc hw hs
  case h_9 cl hw =>
    rw [hw] at hat
    obtain rfl := Option.some.inj hs
    refine h.put rfl rfl ?_
    show Worker.At libc cfg c.received (g.trace i) ((cl.step g.kernel c.fd).1.elim .done .closing)
    cases (cl.step g.kernel c.fd).1 with
    | none => exact hat.of_rest rfl fun _ ↦ rfl
    | some cl' => exact hat.of_rest rfl fun _ ↦ rfl
  case h_10 => cases hs

theorem Traced.stepAcceptor {o : Outcome} (h : Traced libc cfg g) (hsound : g.Sound)
    (hs : g.stepAcceptor o = some g') : Traced libc cfg g' := by
  unfold Gateway.stepAcceptor at hs
  split at hs
  case h_3 | h_5 =>
    split at hs
    · obtain rfl := Option.some.inj hs
      exact h.of_workers rfl rfl
    · cases hs
  case h_8 n _ =>
    obtain rfl := Option.some.inj hs
    refine ⟨fun x hx ↦ ?_, each_concat h.each ?_⟩
    · rw [List.length_append]
      exact Nat.lt_add_right _ (h.tags x hx)
    · show Worker.At libc cfg [] (ofTag g.log g.connections.length) .unborn
      rw [ofTag_eq_nil fun x hx ↦ (h.tags x hx).ne]
      exact Worker.at_unborn libc cfg
  case h_9 i ha =>
    obtain ⟨c, hc, he⟩ := Option.bind_eq_some_iff.mp hs
    obtain rfl := Option.some.inj he
    obtain ⟨d, hd, hw⟩ := hsound.spawning i ha
    rw [hc, Option.some_inj] at hd
    subst hd
    have hat := h.each i c hc
    rw [hw] at hat
    exact h.put rfl rfl (hat.of_rest rfl fun _ ↦ rfl)
  case h_10 => cases hs
  all_goals
    obtain rfl := Option.some.inj hs
    exact h.of_workers rfl rfl

theorem Traced.step {event : Event} (h : Traced libc cfg g) (hsound : g.Sound)
    (hs : g.step libc cfg event = some g') : Traced libc cfg g' := by
  cases event with
  | start setup =>
    rw [Gateway.step] at hs
    split at hs
    · obtain ⟨⟨g₁, ok⟩, hstart, rfl⟩ := Option.map_eq_some_iff.mp hs
      obtain ⟨-, hlog, hconnections⟩ := start_exchange hstart
      exact h.of_workers hlog (by rw [hconnections])
    · cases hs
  | stop => exact h.of_workers (stepMain_exchange hs).2 (stepMain_workers hs)
  | acceptor o => exact h.stepAcceptor hsound hs
  | worker i o =>
    obtain ⟨c, hc, hs⟩ := Option.bind_eq_some_iff.mp hs
    exact h.stepWorker hc hs

theorem Reached.traced {exchange : Exchange} (h : g.Reached libc cfg exchange) :
    Traced libc cfg g := by
  obtain ⟨events, hrun⟩ := h
  exact (Threads.run_keeps (I := fun g ↦ g.Sound ∧ Traced libc cfg g)
    (fun _ _ _ hg hs ↦ ⟨hg.1.step hs, hg.2.step hg.1 hs⟩)
    ⟨sound_new exchange, traced_new libc cfg exchange⟩ hrun).2

end Steps

/-! ## One exchange for all -/

/-- One exchange answers all these requests, one after the other. -/
inductive Replays (x : Exchange) : Events → Exchange → Prop
  | refl : Replays x [] x
  | snoc {t : Events} {x₁ x₂ : Exchange} {a : (e : Request) × e.Answer} (h : Replays x t x₁)
      (ha : Answers x₁ a x₂) : Replays x (t ++ [a]) x₂

/-- A request that changes the book, as a call on it, with what the call returns. -/
def bookCall? : (e : Request) × e.Answer → Option (Call × Reply)
  | ⟨.placeLimit side price qty, x⟩ =>
    some (.placeLimit side price qty, .placed x.orderId x.trades)
  | ⟨.cancel id, ok⟩ => some (.cancel id, .cancelled ok)
  | _ => none

/-- The calls on the book, with what they return. -/
def bookCalls (t : Events) : List (Call × Reply) := t.filterMap bookCall?

section Replays

variable {libc : Libc} {cfg : GatewayConfig} {g : Gateway} {x x' : Exchange} {t : Events}

theorem Answers.run {a : (e : Request) × e.Answer} (h : Answers x a x') :
    x.engine.book.run ((bookCall? a).toList.map Prod.fst)
      = some (x'.engine.book, (bookCall? a).toList.map Prod.snd) := by
  obtain ⟨e, r⟩ := a
  rcases h with h | ⟨m, he, rfl⟩
  · cases e with
    | placeLimit side price qty =>
      simp only [serve, Engine.placeLimit, Option.bind_eq_bind, Option.pure_def, Option.bind_assoc,
        Option.bind_some, Option.bind_eq_some_iff] at h
      obtain ⟨⟨b, id, trades⟩, hplace, top, -, he⟩ := h
      obtain ⟨rfl, rfl⟩ := Prod.mk.inj (Option.some.inj he)
      simp [bookCall?, OrderBook.run, OrderBook.perform, hplace]
    | cancel id =>
      simp only [serve, Engine.cancel, Option.bind_eq_bind, Option.pure_def, Option.bind_assoc,
        Option.bind_some, Option.bind_eq_some_iff] at h
      obtain ⟨⟨b, ok⟩, hcancel, he⟩ := h
      obtain ⟨rfl, rfl⟩ := Prod.mk.inj (Option.some.inj he)
      simp [bookCall?, OrderBook.run, OrderBook.perform, hcancel]
    | top =>
      obtain ⟨top, -, he⟩ := Option.bind_eq_some_iff.mp h
      obtain ⟨rfl, -⟩ := Prod.mk.inj (Option.some.inj he)
      rfl
    | nextExecId =>
      obtain ⟨rfl, -⟩ := Prod.mk.inj (Option.some.inj h)
      rfl
    | send m =>
      obtain ⟨rfl, -⟩ := Prod.mk.inj (Option.some.inj h)
      rfl
    | publishL1 symbol bidPx bidSz askPx askSz =>
      obtain ⟨rfl, -⟩ := Prod.mk.inj (Option.some.inj h)
      rfl
  · obtain ⟨rfl, -⟩ := Sigma.mk.inj he
    rfl

/-- The book takes the calls in the order of the log. -/
theorem Replays.run (h : Replays x t x') :
    x.engine.book.run ((bookCalls t).map Prod.fst)
      = some (x'.engine.book, (bookCalls t).map Prod.snd) := by
  induction h with
  | refl => rfl
  | snoc _ ha ih =>
    rw [bookCalls, List.filterMap_append, List.map_append, List.map_append,
      List.filterMap_eq_flatMap_toList bookCall? [_], List.flatMap_singleton]
    exact OrderBook.run_append ih ha.run

theorem Reached.replays (h : g.Reached libc cfg x) : Replays x (g.log.map Prod.snd) g.exchange := by
  obtain ⟨events, hrun⟩ := h
  refine Threads.run_keeps (I := fun g : Gateway ↦ Replays x (g.log.map Prod.snd) g.exchange)
    (fun _ g g' hg hs ↦ ?_) .refl hrun
  rcases step_exchange hs with ⟨hexchange, hlog⟩ | ⟨i, a, ha, hlog⟩
  · rw [hexchange, hlog]
    exact hg
  · rw [hlog, List.map_append]
    exact hg.snoc ha

end Replays

/-- **The threads are serializable.**  Whatever they do and in whatever order, the requests can be
made one after the other, in the order of the log, to one exchange; the answers are the same, and so
is what becomes of the exchange and its book.  And each session has made those of a run of its
program, or of part of a run if it is handling a chunk. -/
theorem sessions_serializable (libc : Libc) (cfg : GatewayConfig) (exchange : Exchange)
    (g : Gateway) (h : g.Reached libc cfg exchange) :
    Replays exchange (g.log.map Prod.snd) g.exchange ∧
    exchange.engine.book.run ((bookCalls (g.log.map Prod.snd)).map Prod.fst)
      = some (g.exchange.engine.book, (bookCalls (g.log.map Prod.snd)).map Prod.snd) ∧
    ∀ (i : Nat) (c : Connection), g.connections[i]? = some c →
      ∃ p, Goes (sessionLoop libc cfg c.received .new []) (g.trace i) p ∧
        (c.worker.busy = false → ∃ s, p = .ret s) :=
  ⟨h.replays, h.replays.run, fun i c hc ↦ (h.traced.each i c hc).goes⟩

/-- What a session asks of the engine is what its stream asks for, as far as it has been handled. -/
theorem Traced.engineRequests {libc : Libc} {cfg : GatewayConfig} {g : Gateway}
    (h : Traced libc cfg g) {i : Nat} {c : Connection} (hc : g.connections[i]? = some c)
    (ho : Orderly libc .waiting [] c.received) (hsent : AllSent (g.trace i)) :
    engineRequests (g.trace i)
        <+: (Phase.waiting.run libc (splitter.drain c.received.flatten).frames).2 ∧
      (c.worker.busy = false → engineRequests (g.trace i)
        = (Phase.waiting.run libc (splitter.drain c.received.flatten).frames).2) := by
  have hruns : ∀ {t s}, Runs (sessionLoop libc cfg c.received .new []) t s → AllSent t →
      Fix.engineRequests t
        = (Phase.waiting.run libc (splitter.drain c.received.flatten).frames).2 :=
    fun hrun hall ↦ engineRequests_of_orderly ho rfl rfl hrun hall
  obtain ⟨p, hgoes, hret⟩ := (h.each i c hc).goes
  constructor
  · -- what is left of the run may be answered in any way
    have hall : AllSent (g.trace i ++ (p.answered idleAnswer).1) := fun o ok hmem ↦
      (List.mem_append.mp hmem).elim (hsent o ok) (allSent_answered p o ok)
    rw [← hruns (hgoes.runs_append (runs_answered idleAnswer p)) hall, engineRequests_append]
    exact List.prefix_append _ _
  · intro hbusy
    obtain ⟨s, rfl⟩ := hret hbusy
    exact hruns hgoes.runs hsent

/-- **Sessions are isolated.**  Two sessions of two gateways that have received the same bytes, cut
in whatever way, ask the same of their engines: nothing that other sessions do, no answer, and
nothing else about the gateways has a part in it. -/
theorem requests_isolated (libc : Libc) (cfg cfg' : GatewayConfig) (exchange exchange' : Exchange)
    (g g' : Gateway) (h : g.Reached libc cfg exchange)
    (h' : g'.Reached libc cfg' exchange') (i i' : Nat)
    (c c' : Connection) (hc : g.connections[i]? = some c) (hc' : g'.connections[i']? = some c')
    (hbytes : c.received.flatten = c'.received.flatten)
    (ho : Orderly libc .waiting [] c.received) (ho' : Orderly libc .waiting [] c'.received)
    (hsent : AllSent (g.trace i)) (hsent' : AllSent (g'.trace i')) :
    (engineRequests (g.trace i) <+: engineRequests (g'.trace i') ∨
      engineRequests (g'.trace i') <+: engineRequests (g.trace i)) ∧
    (c.worker.busy = false → c'.worker.busy = false →
      engineRequests (g.trace i) = engineRequests (g'.trace i')) := by
  obtain ⟨hle, heq⟩ := h.traced.engineRequests hc ho hsent
  obtain ⟨hle', heq'⟩ := h'.traced.engineRequests hc' ho' hsent'
  rw [← hbytes] at hle' heq'
  exact ⟨List.prefix_or_prefix_of_prefix hle hle', fun hb hb' ↦ (heq hb).trans (heq' hb').symm⟩

/-! ## One session, and two that trade -/

/-- A session logs on, places an order and is told that it rests. -/
def oneOrder : List Event :=
  oneSession ++ [.worker 0 (.chunk (clientFrame 'A' [] ++ lateOrder)), .worker 0 .sent,
    .worker 0 .nothing, .worker 0 .nothing, .worker 0 .sent, .worker 0 .nothing]

/-- Was this sent, if it is a message? -/
def delivered : (e : Request) × e.Answer → Bool
  | ⟨.send _, ok⟩ => ok
  | _ => true

theorem allSent_of_delivered {t : Events} (h : t.all delivered = true) : AllSent t :=
  fun _ _ hmem ↦ List.all_eq_true.mp h _ hmem

/-- An order to sell 5 at 7. -/
def lateSale : Bytes :=
  clientFrame 'D' [.str Tag.SideTag (ascii ['2']), .str Tag.OrderQty (ascii ['5']),
    .str Tag.PriceTag (ascii ['7'])]

/-- A session buys 5 at 7; a second one connects and sells it as much.  They take turns: the first
publishes after the second has traded. -/
def crossing : List Event :=
  oneSession ++ [.worker 0 (.chunk (clientFrame 'A' [] ++ lateOrder)), .worker 0 .sent,
    .worker 0 .nothing, .acceptor (.connection 5)] ++ List.replicate 3 (.acceptor .nothing) ++
    List.replicate 3 (.worker 1 .nothing) ++ [.worker 1 (.chunk (clientFrame 'A' [] ++ lateSale)),
    .worker 1 .sent, .worker 1 .nothing, .worker 1 .nothing, .worker 0 .nothing, .worker 1 .sent,
    .worker 0 .sent, .worker 1 .nothing, .worker 0 .nothing, .worker 0 .nothing, .worker 1 .nothing]

/-- What the second session sends there reaches another gateway in two pieces. -/
def cutSale : List Event :=
  oneSession ++ [.worker 0 (.chunk (clientFrame 'A' [] ++ lateSale.take 20)), .worker 0 .sent] ++
    List.replicate 4 (.worker 0 .nothing) ++ [.worker 0 (.chunk (lateSale.drop 20)),
    .worker 0 .nothing, .worker 0 .nothing, .worker 0 .sent, .worker 0 .nothing]

theorem sessions_serializable_crossing :
    ∃ g, Threads.run (step textLibc ⟨[], true⟩) crossing (.new (.of (.new 2))) = some g ∧
      g.log.map Prod.fst = [0, 0, 1, 1, 1, 0, 1, 0, 1, 0] ∧
      Replays (.of (.new 2)) (g.log.map Prod.snd) g.exchange := by
  have hread : (Threads.run (step textLibc ⟨[], true⟩) crossing (.new (.of (.new 2)))).map
      (fun g ↦ g.log.map Prod.fst) = some [0, 0, 1, 1, 1, 0, 1, 0, 1, 0] := by
    decide +kernel
  obtain ⟨g, hrun, hturns⟩ := Option.map_eq_some_iff.mp hread
  exact ⟨g, hrun, hturns,
    (sessions_serializable textLibc ⟨[], true⟩ (.of (.new 2)) g ⟨crossing, hrun⟩).1⟩

/-- What a session has received, with everything sent to it, and how much it has asked for. -/
theorem received_of_run (cfg : GatewayConfig) (N : Nat) (events : List Event) (i n : Nat)
    (chunks : List Bytes)
    (hread : (Threads.run (step textLibc cfg) events (.new (.of (.new N)))).map
      (fun g ↦ (g.connections[i]?.map fun c ↦ (c.received, c.worker.busy),
        (g.trace i).all delivered, (engineRequests (g.trace i)).length))
      = some (some (chunks, false), true, n)) :
    ∃ (g : Gateway) (c : Connection),
      Threads.run (step textLibc cfg) events (.new (.of (.new N))) = some g ∧
      g.connections[i]? = some c ∧ c.received = chunks ∧ c.worker.busy = false ∧
      AllSent (g.trace i) ∧ (engineRequests (g.trace i)).length = n := by
  obtain ⟨g, hrun, hg⟩ := Option.map_eq_some_iff.mp hread
  obtain ⟨hconnection, hg⟩ := Prod.mk.inj hg
  obtain ⟨hdelivered, hlength⟩ := Prod.mk.inj hg
  obtain ⟨c, hc, he⟩ := Option.map_eq_some_iff.mp hconnection
  obtain ⟨hreceived, hbusy⟩ := Prod.mk.inj he
  exact ⟨g, c, hrun, hc, hreceived, hbusy, allSent_of_delivered hdelivered, hlength⟩

theorem requests_isolated_cut :
    ∃ g g' : Gateway,
      Threads.run (step textLibc ⟨[], true⟩) crossing (.new (.of (.new 2))) = some g ∧
      Threads.run (step textLibc ⟨ascii ['E'], false⟩) cutSale (.new (.of (.new 3))) = some g' ∧
      (engineRequests (g.trace 1)).length = 1 ∧
      engineRequests (g.trace 1) = engineRequests (g'.trace 0) := by
  obtain ⟨g, c, hrun, hc, hreceived, hbusy, hsent, hlength⟩ := received_of_run
    ⟨[], true⟩ 2 crossing 1 1 [clientFrame 'A' [] ++ lateSale] (by decide +kernel)
  obtain ⟨g', c', hrun', hc', hreceived', hbusy', hsent', -⟩ := received_of_run
    ⟨ascii ['E'], false⟩ 3 cutSale 0 1 [clientFrame 'A' [] ++ lateSale.take 20, lateSale.drop 20]
    (by decide +kernel)
  have ho : Orderly textLibc .waiting [] [clientFrame 'A' [] ++ lateSale] := by decide +kernel
  have ho' : Orderly textLibc .waiting []
      [clientFrame 'A' [] ++ lateSale.take 20, lateSale.drop 20] := by decide +kernel
  exact ⟨g, g', hrun, hrun', hlength, (requests_isolated textLibc _ _ _ _ g g' ⟨crossing, hrun⟩
    ⟨cutSale, hrun'⟩ 1 0 c c' hc hc' (by simp [hreceived, hreceived']) (hreceived ▸ ho)
    (hreceived' ▸ ho') hsent hsent').2 hbusy hbusy'⟩

end Gateway

end Fix

end MatchingEngine
