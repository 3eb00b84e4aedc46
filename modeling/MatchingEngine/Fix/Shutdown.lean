import MatchingEngine.Book.Executions
import MatchingEngine.Fix.Descriptors

/-!
# `stop` returns

`stop` joins the acceptor, and then one session after the other.  It would wait for ever if one of
these threads blocked, or went on for ever.  That they do neither does not depend on the peers: the
listener and every connection are shut down before the thread on it is joined, and a thread that has
something left to do when `running_` is down does it once.

The proof is the one of `Threads.inevitable_of_threads`.  Each thread has a rank, and with
`running_` down every step replaces a thread by others of lower rank; the acceptor may still start
one session.  What a handler has left to do is bounded by no number, since an order may trade any
number of times, so that a rank has the rest of the handler in it.
-/

set_option autoImplicit false

namespace MatchingEngine

namespace Fix

open Program Threads Relation

/-! ## Ranks -/

/-- How far a thread is from its end: a phase, a number, and what is left of a handler. -/
abbrev Rank := Nat × Nat × Handler (Session × Bytes)

def Rank.Below : Rank → Rank → Prop := Prod.Lex (· < ·) (Prod.Lex (· < ·) Rest)

theorem Rank.below_wellFounded : WellFounded Rank.Below :=
  WellFounded.prod_lex wellFounded_lt (WellFounded.prod_lex wellFounded_lt rest_wellFounded)

/-- The rank of a thread that is in no handler. -/
def Rank.of (phase left : Nat) : Rank := (phase, left, .ret (.new, []))

theorem Rank.below_of_phase {r r' : Rank} (h : r.1 < r'.1) : r.Below r' := .left _ _ h

theorem Rank.below_of_left {phase m n : Nat} (h : m < n) : (of phase m).Below (of phase n) :=
  .right _ (.left _ _ h)

def Closing.phase : Closing → Nat
  | .test => 4
  | .shutdown => 3
  | .close => 2
  | .clear => 1

def Worker.rank : Worker → Rank
  | .recv _ _ => .of 9 0
  | .receiving _ _ _ => .of 8 0
  | .handling p => (7, 0, p)
  | .unborn => .of 6 0
  | .loadOwn _ _ => .of 6 0
  | .loadGateway _ _ => .of 5 0
  | .closing c => .of c.phase 0
  | .done => .of 0 0

def Acceptor.rank : Acceptor → Rank
  | .accept => .of 17 0
  | .accepting => .of 16 0
  | .accepted _ => .of 15 0
  | .push _ => .of 14 0
  | .spawn _ => .of 13 0
  | .failed _ => .of 12 0
  | .load => .of 11 0
  | .done => .of 10 0

/-- To close and join a session takes less than seven steps. -/
def Main.rank : Main → Rank
  | .listener c => .of (23 + c.phase) 0
  | .joinAcceptor => .of 23 0
  | .swap => .of 22 0
  | .sessions left => .of 21 (7 * left.length)
  | .closing c _ left => .of 21 (7 * left.length + 2 + c.phase)
  | .join _ left => .of 21 (7 * left.length + 2)
  | .ready => .of 20 0

/-- A step of closing is one step less to do. -/
theorem Closing.phase_step {c c' : Closing} {k : Kernel} {fd : Option Nat}
    (h : (c.step k fd).1 = some c') : c'.phase < c.phase := by
  cases c with
  | test =>
    rw [Closing.step] at h
    split at h
    · obtain rfl := Option.some.inj h
      decide
    · cases h
  | shutdown =>
    obtain rfl := Option.some.inj h
    decide
  | close =>
    obtain rfl := Option.some.inj h
    decide
  | clear => cases h

theorem Closing.phase_pos (c : Closing) : 0 < c.phase := by cases c <;> decide

namespace Gateway

def threads (g : Gateway) : Multiset Rank :=
  g.main.rank ::ₘ g.acceptor.rank ::ₘ ↑(g.connections.map fun c ↦ c.worker.rank)

section Steps

variable {g g' : Gateway} {i : Nat} {c : Connection}

/-! ## Every step goes down -/

/-- `stop` goes on, and does nothing to the other threads. -/
theorem cutExpand_main (hacceptor : g'.acceptor = g.acceptor)
    (hconnections : g'.connections.map (fun c ↦ c.worker.rank)
      = g.connections.map fun c ↦ c.worker.rank) (hmain : g'.main.rank.Below g.main.rank) :
    CutExpand Rank.Below g'.threads g.threads := by
  rw [threads, threads, hacceptor, hconnections, ← Multiset.singleton_add]
  exact cutExpand_cons (by simpa using hmain)

/-- The acceptor goes on, and leaves a number of threads in its place. -/
theorem cutExpand_acceptor (started : List Connection) (hmain : g'.main = g.main)
    (hconnections : g'.connections.map (fun c ↦ c.worker.rank)
      = (g.connections ++ started).map fun c ↦ c.worker.rank)
    (hacceptor : g'.acceptor.rank.Below g.acceptor.rank)
    (hstarted : ∀ c ∈ started, c.worker.rank.Below g.acceptor.rank) :
    CutExpand Rank.Below g'.threads g.threads := by
  rw [threads, threads, hmain, hconnections]
  refine CutExpand.cons _ ?_
  rw [List.map_append, ← Multiset.coe_add, ← Multiset.singleton_add, add_left_comm,
    add_comm]
  refine cutExpand_cons fun r hr ↦ ?_
  rcases Multiset.mem_add.mp hr with hr | hr
  · rw [Multiset.mem_singleton.mp hr]
    exact hacceptor
  · obtain ⟨c, hc, rfl⟩ := List.mem_map.mp (Multiset.mem_coe.mp hr)
    exact hstarted c hc

/-- A session goes on. -/
theorem cutExpand_worker {c' : Connection} (hc : g.connections[i]? = some c)
    (hmain : g'.main = g.main) (hacceptor : g'.acceptor = g.acceptor)
    (hconnections : g'.connections = g.connections.set i c')
    (hw : c'.worker.rank.Below c.worker.rank) : CutExpand Rank.Below g'.threads g.threads := by
  rw [threads, threads, hmain, hacceptor, hconnections, List.map_set]
  refine CutExpand.cons _ (CutExpand.cons _ (cutExpand_set ?_ hw))
  rw [List.getElem?_map, hc, Option.map_some]

theorem stepMain_below (hm : g.main ≠ .ready) (hs : g.stepMain = some g') :
    CutExpand Rank.Below g'.threads g.threads := by
  unfold Gateway.stepMain at hs
  split at hs
  case h_1 hready => exact absurd hready hm
  case h_2 cl hm =>
    obtain rfl := Option.some.inj hs
    refine cutExpand_main rfl rfl ?_
    rw [hm]
    show ((cl.step g.kernel g.listenFd).1.elim Main.joinAcceptor Main.listener).rank.Below _
    cases hcl : (cl.step g.kernel g.listenFd).1 with
    | none => exact .left _ _ (Nat.lt_add_of_pos_right cl.phase_pos)
    | some cl' => exact .left _ _ (Nat.add_lt_add_left (Closing.phase_step hcl) 23)
  case h_3 hm =>
    split at hs
    · obtain rfl := Option.some.inj hs
      refine cutExpand_main rfl rfl ?_
      rw [hm]
      exact .left _ _ (by decide)
    · cases hs
  case h_4 hm =>
    obtain rfl := Option.some.inj hs
    refine cutExpand_main rfl rfl ?_
    rw [hm]
    exact .left _ _ (by decide)
  case h_5 hm =>
    obtain rfl := Option.some.inj hs
    refine cutExpand_main rfl rfl ?_
    rw [hm]
    exact .left _ _ (by decide)
  case h_6 i left hm =>
    obtain ⟨c, hc, he⟩ := Option.bind_eq_some_iff.mp hs
    obtain rfl := Option.some.inj he
    refine cutExpand_main rfl (map_put _ hc rfl) ?_
    rw [hm]
    exact Rank.below_of_left (by rw [List.length_cons, Closing.phase]; omega)
  case h_7 cl i left hm =>
    obtain ⟨c, hc, he⟩ := Option.bind_eq_some_iff.mp hs
    obtain rfl := Option.some.inj he
    refine cutExpand_main rfl (map_put _ hc rfl) ?_
    rw [hm]
    show ((cl.step g.kernel c.fd).1.elim (Main.join i left)
      fun cl ↦ .closing cl i left).rank.Below _
    cases hcl : (cl.step g.kernel c.fd).1 with
    | none => exact Rank.below_of_left (Nat.lt_add_of_pos_right cl.phase_pos)
    | some cl' => exact Rank.below_of_left (Nat.add_lt_add_left (Closing.phase_step hcl) _)
  case h_8 i left hm =>
    obtain ⟨c, hc, he⟩ := Option.bind_eq_some_iff.mp hs
    have hbelow : CutExpand Rank.Below ({ g with main := .sessions left }).threads g.threads := by
      refine cutExpand_main rfl rfl ?_
      rw [hm]
      exact Rank.below_of_left (by omega)
    split at he
    · exact Option.some.inj he ▸ hbelow
    · exact Option.some.inj he ▸ hbelow
    · cases he

theorem stepAcceptor_below {o : Outcome} (h : g.Sound) (hr : g.running = false)
    (hs : g.stepAcceptor o = some g') : CutExpand Rank.Below g'.threads g.threads := by
  have hmove : ∀ {a : Acceptor}, a.rank.1 < g.acceptor.rank.1 →
      CutExpand Rank.Below ({ g with acceptor := a }).threads g.threads := fun ha ↦
    cutExpand_acceptor [] rfl (by rw [List.append_nil]) (Rank.below_of_phase ha) nofun
  unfold Gateway.stepAcceptor at hs
  split at hs
  case h_1 ha =>
    obtain rfl := Option.some.inj hs
    rw [hr]
    exact hmove (by simp [ha, Acceptor.rank, Rank.of])
  case h_2 ha =>
    obtain rfl := Option.some.inj hs
    refine hmove ?_
    split <;> simp [ha, Acceptor.rank, Rank.of]
  case h_3 ha =>
    split at hs
    · obtain rfl := Option.some.inj hs
      exact cutExpand_acceptor [] rfl (by rw [List.append_nil])
        (Rank.below_of_phase (by simp [ha, Acceptor.rank, Rank.of])) nofun
    · cases hs
  case h_4 ha =>
    obtain rfl := Option.some.inj hs
    exact hmove (by simp [ha, Acceptor.rank, Rank.of])
  case h_5 ha =>
    split at hs
    · obtain rfl := Option.some.inj hs
      exact hmove (by simp [ha, Acceptor.rank, Rank.of])
    · cases hs
  case h_6 ha =>
    obtain rfl := Option.some.inj hs
    rw [hr]
    exact hmove (by simp [ha, Acceptor.rank, Rank.of])
  case h_7 ha =>
    obtain rfl := Option.some.inj hs
    exact cutExpand_acceptor [] rfl (by rw [List.append_nil])
      (Rank.below_of_phase (by simp [ha, Acceptor.rank, Rank.of])) nofun
  case h_8 n ha =>
    obtain rfl := Option.some.inj hs
    refine cutExpand_acceptor [.new n] rfl rfl
      (Rank.below_of_phase (by simp [ha, Acceptor.rank, Rank.of])) fun c hc ↦ ?_
    rw [List.mem_singleton.mp hc]
    exact Rank.below_of_phase (by simp [ha, Connection.new, Worker.rank, Acceptor.rank, Rank.of])
  case h_9 i ha =>
    obtain ⟨c, hc, he⟩ := Option.bind_eq_some_iff.mp hs
    obtain rfl := Option.some.inj he
    have hw : c.worker = .unborn := by
      obtain ⟨d, hd, hw⟩ := h.spawning i ha
      rw [hc, Option.some_inj] at hd
      exact hd ▸ hw
    exact cutExpand_acceptor [] rfl
      (by rw [List.append_nil]; exact map_put _ hc (by rw [hw]; rfl))
      (Rank.below_of_phase (by simp [ha, Acceptor.rank, Rank.of])) nofun
  case h_10 => cases hs

theorem stepWorker_below {libc : Libc} {cfg : GatewayConfig} {o : Outcome} (hr : g.running = false)
    (hc : g.connections[i]? = some c) (hs : g.stepWorker libc cfg i o c = some g') :
    CutExpand Rank.Below g'.threads g.threads := by
  have hmove : ∀ {c' : Connection}, c'.worker.rank.1 < c.worker.rank.1 →
      CutExpand Rank.Below (g.put i c').threads g.threads := fun hw ↦
    cutExpand_worker hc rfl rfl rfl (Rank.below_of_phase hw)
  unfold Gateway.stepWorker at hs
  split at hs
  case h_1 hw =>
    obtain rfl := Option.some.inj hs
    refine hmove ?_
    dsimp only
    split <;> simp [hw, Worker.rank, Rank.of, Closing.phase]
  case h_2 hw =>
    obtain rfl := Option.some.inj hs
    rw [hr]
    exact hmove (by simp [hw, Worker.rank, Rank.of, Closing.phase])
  case h_3 hw =>
    obtain rfl := Option.some.inj hs
    refine hmove ?_
    dsimp only
    split <;> simp [hw, Worker.rank, Rank.of, Closing.phase]
  case h_4 hw =>
    split at hs
    · obtain rfl := Option.some.inj hs
      exact hmove (by rw [hw]; exact Nat.lt_succ_self 7)
    · cases hs
  case h_5 hw =>
    obtain rfl := Option.some.inj hs
    exact hmove (by simp [hw, Worker.rank, Rank.of, Closing.phase])
  case h_6 hw =>
    split at hs
    · obtain rfl := Option.some.inj hs
      exact hmove (by simp [hw, Worker.rank, Rank.of, Closing.phase])
    · cases hs
  case h_7 hw =>
    obtain rfl := Option.some.inj hs
    exact hmove (by rw [hw]; exact Nat.lt_succ_self 6)
  case h_8 e k hw =>
    obtain ⟨⟨exchange, r⟩, -, he⟩ := Option.bind_eq_some_iff.mp hs
    obtain rfl := Option.some.inj he
    refine cutExpand_worker hc rfl rfl rfl ?_
    rw [hw]
    exact .right _ (.right _ (.answered e k r))
  case h_9 cl hw =>
    obtain rfl := Option.some.inj hs
    refine cutExpand_worker hc rfl rfl rfl (Rank.below_of_phase ?_)
    rw [hw]
    show ((cl.step g.kernel c.fd).1.elim Worker.done Worker.closing).rank.1 < _
    cases hcl : (cl.step g.kernel c.fd).1 with
    | none => exact cl.phase_pos
    | some cl' => exact Closing.phase_step hcl
  case h_10 => cases hs

/-! ## No thread is stuck -/

/-- **The engine always answers.** -/
theorem exists_serve {N : Nat} {x : Exchange} (h : ∃ q, x.engine.Usable N q) (e : Request) :
    ∃ x' r, serve e x = some (x', r) ∧ ∃ q, x'.engine.Usable N q := by
  obtain ⟨q, hq⟩ := h
  cases e with
  | placeLimit side price qty =>
    obtain ⟨engine, hplace, hq', -⟩ := hq.placeLimit_eq side price qty
    obtain ⟨top, htop⟩ := Usable.topOf hq'
    refine ⟨{ x with engine }, ⟨q.nextId, engine.lastTrades, top⟩, ?_, _, hq'⟩
    simp only [serve, hplace, htop, Option.bind_eq_bind, Option.bind_some, Option.pure_def]
  | cancel id =>
    obtain ⟨b, hb, hr⟩ := hq.represents.cancel hq.valid id
    refine ⟨{ x with engine.book := b }, (q.cancel id).2, ?_, _, hr, hq.valid.cancel id⟩
    simp only [serve, Engine.cancel, hb, Option.bind_eq_bind, Option.bind_some, Option.pure_def]
  | top =>
    obtain ⟨top, htop⟩ := Usable.topOf hq
    refine ⟨x, top, ?_, q, hq⟩
    simp only [serve, htop, Option.bind_eq_bind, Option.bind_some, Option.pure_def]
  | nextExecId => exact ⟨_, _, rfl, q, hq⟩
  | send o => exact ⟨_, _, rfl, q, hq⟩
  | publishL1 symbol bidPx bidSz askPx askSz => exact ⟨_, _, rfl, q, hq⟩

/-- A request changes nothing that the engine needs. -/
theorem usable_answers {N : Nat} {x x' : Exchange} {a : (e : Request) × e.Answer}
    (h : ∃ q, x.engine.Usable N q) (ha : Answers x a x') : ∃ q, x'.engine.Usable N q := by
  rcases ha with hserve | ⟨m, rfl, rfl⟩
  · obtain ⟨x₁, r₁, h₁, hq⟩ := exists_serve h a.1
    obtain ⟨rfl, -⟩ := Prod.mk.inj (Option.some.inj (h₁.symm.trans hserve))
    exact hq
  · exact h

theorem usable_step {libc : Libc} {cfg : GatewayConfig} {N : Nat} {event : Event}
    (h : ∃ q, g.exchange.engine.Usable N q) (hs : g.step libc cfg event = some g') :
    ∃ q, g'.exchange.engine.Usable N q := by
  rcases step_exchange hs with ⟨hx, -⟩ | ⟨i, a, ha, -⟩
  · rwa [hx]
  · exact usable_answers h ha

/-- The acceptor can go on, once its listener is shut down. -/
theorem acceptor_goes (h : g.Sound) (hm : g.main = .joinAcceptor) (ha : g.acceptor ≠ .done) :
    (g.stepAcceptor .nothing).isSome := by
  unfold stepAcceptor
  cases hacc : g.acceptor with
  | accepting => simp [h.woken (by rw [hm]; rfl) (.inl hacc)]
  | spawn i =>
    obtain ⟨c, hc, -⟩ := h.spawning i hacc
    simp [hc]
  | done => exact absurd hacc ha
  | _ => rfl

/-- The thread of a session can go on, once its connection is shut down. -/
theorem worker_goes {libc : Libc} {cfg : GatewayConfig} {N : Nat} (h : g.Sound)
    (hx : ∃ q, g.exchange.engine.Usable N q) (hc : g.connections[i]? = some c)
    (hm : g.main.awaits i = true) (hunborn : c.worker ≠ .unborn) (hdone : c.worker ≠ .done) :
    (g.stepWorker libc cfg i .nothing c).isSome := by
  have hi := h.each i c hc
  unfold stepWorker
  cases hw : c.worker with
  | unborn => exact absurd hw hunborn
  | done => exact absurd hw hdone
  | receiving s rxBuf j =>
    obtain rfl := hi.own s rxBuf j hw
    simp [hi.shut (by rw [hw]; rfl) hm]
  | handling p =>
    cases p with
    | ret a => rfl
    | call e k =>
      have hanswer : ∃ x r, answer (g.kernel.fileAt c.fd) ((g.kernel.fileAt c.fd).any g.kernel.shut)
          .nothing e g.exchange = some (x, r) := by
        cases e with
        | send m =>
          cases hfile : g.kernel.fileAt c.fd with
          | none => exact ⟨_, _, rfl⟩
          | some f =>
            cases f with
            | listener => exact ⟨_, _, rfl⟩
            | connection j =>
              obtain ⟨n, hfd, hn⟩ := Option.bind_eq_some_iff.mp hfile
              obtain rfl : j = i := by
                rcases hi.valid n hfd (by rw [hw]; rfl) with ht | ⟨-, ht, -⟩
                · rw [hn, Option.some_inj] at ht
                  exact File.connection.inj ht
                · rw [hn] at ht
                  cases ht
              refine ⟨g.exchange, false, ?_⟩
              simp [answer, hi.shut (by rw [hw]; rfl) hm]
        | _ =>
          obtain ⟨x, r, he, -⟩ := exists_serve hx _
          exact ⟨x, r, he⟩
      obtain ⟨x, r, he⟩ := hanswer
      simp [serveRequest, he]
  | _ => rfl

/-- **As long as `stop` has not returned, something can go on** without help from outside. -/
theorem progress (libc : Libc) (cfg : GatewayConfig) {N : Nat} (h : g.Sound)
    (hx : ∃ q, g.exchange.engine.Usable N q) (hm : g.main ≠ .ready) :
    ∃ event, event.own = true ∧ (g.step libc cfg event).isSome := by
  have hconnection : ∀ i ∈ g.main.left, ∃ c, g.connections[i]? = some c := fun i hi ↦
    ⟨_, List.getElem?_eq_getElem (h.known i (.inr hi))⟩
  cases hmain : g.main with
  | ready => exact absurd hmain hm
  | listener cl => exact ⟨.stop, rfl, by rw [step, stepMain, hmain]; rfl⟩
  | joinAcceptor =>
    by_cases ha : g.acceptor = .done
    · exact ⟨.stop, rfl, by rw [step, stepMain, hmain]; simp [ha]⟩
    · exact ⟨.acceptor .nothing, rfl, acceptor_goes h hmain ha⟩
  | swap => exact ⟨.stop, rfl, by rw [step, stepMain, hmain]; rfl⟩
  | sessions left =>
    refine ⟨.stop, rfl, ?_⟩
    rw [step, stepMain, hmain]
    cases left with
    | nil => rfl
    | cons i left =>
      obtain ⟨c, hc⟩ := hconnection i (by rw [hmain]; exact List.mem_cons_self)
      simp [hc]
  | closing cl i left =>
    obtain ⟨c, hc⟩ := hconnection i (by rw [hmain]; exact List.mem_cons_self)
    exact ⟨.stop, rfl, by rw [step, stepMain, hmain]; simp [hc]⟩
  | join i left =>
    obtain ⟨c, hc⟩ := hconnection i (by rw [hmain]; exact List.mem_cons_self)
    have hunborn : c.worker ≠ .unborn := by
      intro hw
      have := (h.each i c hc).unborn hw
      rw [h.joined (.inr (by rw [hmain]; rfl))] at this
      cases this
    by_cases hdone : c.worker = .done
    · refine ⟨.stop, rfl, ?_⟩
      rw [step, stepMain, hmain]
      simp [hc, hdone]
    · refine ⟨.worker i .nothing, rfl, ?_⟩
      rw [step, hc]
      exact worker_goes h hx hc (by rw [hmain]; exact beq_self_eq_true i) hunborn hdone

end Steps

/-- **`stop` returns**, whatever the peers do and in whatever order the threads take their steps: as
long as it has not returned some thread can go on, and there is no way to go on for ever. -/
theorem stop_returns (libc : Libc) (cfg : GatewayConfig) (N : Nat) (calls : List Call)
    (exchange : Exchange) (hx : exchange.engine.Reached N calls) (g : Gateway)
    (h : g.Reached libc cfg exchange) :
    Inevitable (step libc cfg) Event.own (fun g ↦ g.main = .ready) g := by
  have hg : g.Sound ∧ ∃ q, g.exchange.engine.Usable N q := by
    refine ⟨h.sound, ?_⟩
    obtain ⟨events, hrun⟩ := h
    exact run_keeps (I := fun g : Gateway ↦ ∃ q, g.exchange.engine.Usable N q)
      (fun _ _ _ hq hs ↦ usable_step hq hs) ⟨_, hx.usable⟩ hrun
  refine inevitable_of_threads Rank.below_wellFounded threads
    (I := fun g ↦ g.Sound ∧ ∃ q, g.exchange.engine.Usable N q) ?_ ?_ hg
  · intro event g g' hg hm hs
    refine ⟨⟨hg.1.step hs, usable_step hg.2 hs⟩, ?_⟩
    have hr := hg.1.stopping hm
    cases event with
    | start setup =>
      rw [step, if_neg fun hready ↦ hm hready.1] at hs
      cases hs
    | stop => exact stepMain_below hm hs
    | acceptor o => exact stepAcceptor_below hg.1 hr hs
    | worker i o =>
      obtain ⟨c, hc, hs⟩ := Option.bind_eq_some_iff.mp hs
      exact stepWorker_below hr hc hs
  · exact fun g hg hm ↦ progress libc cfg hg.1 hg.2 hm

/-- With a thread that waits on a connection that has been closed. -/
theorem stop_returns_closed_by_stop :
    ∃ g, Threads.run (step textLibc ⟨[], false⟩) closedByStop (.new (.of (.new 2))) = some g ∧
      g.main ≠ .ready ∧
      Inevitable (step textLibc ⟨[], false⟩) Event.own (fun g ↦ g.main = .ready) g := by
  have hread : (Threads.run (step textLibc ⟨[], false⟩) closedByStop (.new (.of (.new 2)))).map
      (fun g ↦ g.main) = some (.closing .clear 0 []) := by
    decide +kernel
  obtain ⟨g, hrun, hg⟩ := Option.map_eq_some_iff.mp hread
  exact ⟨g, hrun, by simp [hg],
    stop_returns textLibc ⟨[], false⟩ 2 [] (.of (.new 2)) ⟨[], rfl⟩ g ⟨closedByStop, hrun⟩⟩

end Gateway

end Fix

end MatchingEngine
