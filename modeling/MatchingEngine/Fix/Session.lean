import MatchingEngine.Fix.Handlers

/-!
# Sessions from beginning to end

What a client's byte stream makes a session do, over all ways of cutting the stream into chunks and
all answers of the engine.

The abstract session is a `Phase`, and reads frames: it waits for a Logon, is active, and has ended
for good after a Logout, after anything else than a Logon at the beginning, and after a frame that
does not parse.  In this description the end is the end, and there are no chunks.

The code differs from it in one place.  The loop over the frames in `rx_buf` does not look at
`running`, so that after the end it goes on with the frames that have already arrived.
`Orderly` says when this does no harm: among them is nothing that trades.  Under this condition
the code follows the phases (`session_orderly`), and without it it does not
(`exists_order_after_logout`).
-/

set_option autoImplicit false

namespace MatchingEngine

namespace Fix

open Framing Program

/-! ## The abstract session -/

inductive Phase where
  | waiting
  | active
  | ended
  deriving DecidableEq

namespace Phase

variable (libc : Libc)

/-- A frame arrives. -/
def step : Phase → Bytes → Phase × List Request
  | .ended, _ => (.ended, [])
  | .waiting, frame =>
    match parseFrame frame with
    | none => (.ended, [])
    | some m => if m.msgType = 'A'.toUInt8 then (.active, []) else (.ended, [])
  | .active, frame =>
    match parseFrame frame with
    | none => (.ended, [])
    | some m => if m.msgType = '5'.toUInt8 then (.ended, []) else (.active, m.asks libc)

def run : Phase → List Bytes → Phase × List Request
  | phase, [] => (phase, [])
  | phase, frame :: frames =>
    let (phase, rs) := phase.step libc frame
    let (phase, rs') := phase.run frames
    (phase, rs ++ rs')

end Phase

/-- No frame here trades, for a session that goes on after its end.  A Logon opens it again, and it
stops at a frame that does not parse. -/
def quiet : Bool → List Bytes → Bool
  | _, [] => true
  | loggedOn, frame :: frames =>
    match parseFrame frame with
    | none => true
    | some m =>
      if loggedOn then !m.trades && quiet true frames else quiet (m.msgType == 'A'.toUInt8) frames

/-- If the session ends within these frames, the frames after that are quiet. -/
def orderlyFrames (libc : Libc) : Phase → List Bytes → Bool
  | _, [] => true
  | phase, frame :: frames =>
    if (phase.step libc frame).1 = .ended then
      (parseFrame frame).isNone || quiet (phase == .active) frames
    else orderlyFrames libc (phase.step libc frame).1 frames

/-- When the session ends, nothing that trades follows among the frames that have arrived. -/
def Orderly (libc : Libc) : Phase → Bytes → List Bytes → Prop
  | _, _, [] => True
  | phase, rxBuf, chunk :: chunks =>
    let d := splitter.drain (rxBuf ++ chunk)
    orderlyFrames libc phase d.frames = true ∧
      ((phase.run libc d.frames).1 ≠ .ended → d.status = .incomplete →
        Orderly libc (phase.run libc d.frames).1 d.rest chunks)

instance decidableOrderly (libc : Libc) :
    (phase : Phase) → (rxBuf : Bytes) → (chunks : List Bytes) →
      Decidable (Orderly libc phase rxBuf chunks)
  | _, _, [] => isTrue trivial
  | phase, rxBuf, chunk :: chunks =>
    have := decidableOrderly libc (phase.run libc (splitter.drain (rxBuf ++ chunk)).frames).1
      (splitter.drain (rxBuf ++ chunk)).rest chunks
    inferInstanceAs (Decidable (_ ∧ (_ → _ → _)))

/-! ## The frames in the buffer -/

section Drain

variable {libc : Libc} {cfg : GatewayConfig} {s s' s₁ : Session} {t t₁ t₂ : Events}
  {frame rxBuf rxBuf' rest : Bytes} {frames : List Bytes} {status : Status}

/-- A run of the loop over the frames in `rx_buf`: the session before it, the frames, how the buffer
goes on after them, what is observed, and the session and the buffer afterwards. -/
inductive Drains (libc : Libc) :
    Session → List Bytes → Status → Bytes → Events → Session → Bytes → Prop
  | incomplete {s : Session} {rest : Bytes} : Drains libc s [] .incomplete rest [] s rest
  | malformed {s s' : Session} {rest : Bytes} {t : Events} :
    Silent t → s'.running = false → Drains libc s [] .malformed rest t s' rest
  | unparsed {s s' : Session} {frame rest rxBuf : Bytes} {frames : List Bytes} {status : Status}
      {t : Events} :
    parseFrame frame = none → Silent t → s'.running = false →
    Drains libc s (frame :: frames) status rest t s' rxBuf
  | message {s s₁ s' : Session} {m : Message} {frame rest rxBuf : Bytes} {frames : List Bytes}
      {status : Status} {t₁ t₂ : Events} :
    parseFrame frame = some m → Handled libc s m t₁ s₁ →
    Drains libc s₁ frames status rest t₂ s' rxBuf →
    Drains libc s (frame :: frames) status rest (t₁ ++ t₂) s' rxBuf

theorem drainFrames_incomplete (h : splitFrame rxBuf = .incomplete) :
    drainFrames libc cfg s rxBuf = pure (s, rxBuf) := by
  rw [drainFrames]
  split <;> simp_all

theorem drainFrames_malformed (h : splitFrame rxBuf = .malformed) :
    drainFrames libc cfg s rxBuf = (do
      let s ← sendLogout cfg s
        (ascii ['m', 'a', 'l', 'f', 'o', 'r', 'm', 'e', 'd', ' ', 'F', 'I', 'X', ' ', 'f', 'r',
          'a', 'm', 'e'])
      return ({ s with running := false }, rxBuf)) := by
  rw [drainFrames]
  split <;> simp_all

theorem drainFrames_ok {n : Nat} (h : splitFrame rxBuf = .ok frame n) :
    drainFrames libc cfg s rxBuf = (match parseFrame frame with
      | none => do
        let s ← sendLogout cfg s
          (ascii ['p', 'a', 'r', 's', 'e', ' ', 'f', 'a', 'i', 'l', 'e', 'd'])
        return ({ s with running := false }, rxBuf)
      | some m => do
        let s ← handleMessage libc cfg s m
        drainFrames libc cfg s (rxBuf.drop n)) := by
  rw [drainFrames]
  split
  case h_1 he => simp [h] at he
  case h_2 he => simp [h] at he
  case h_3 f k he =>
    obtain ⟨rfl, rfl⟩ : frame = f ∧ n = k := by simpa [h] using he
    cases parseFrame frame <;> rfl

theorem silent_sendLogout {text : Bytes} (h : Runs (sendLogout cfg s text) t s') : Silent t := by
  obtain ⟨o, ok, hbody, rfl, -⟩ := runs_sendBody h
  simp [Silent, Request.engine, Request.application, hbody]

theorem drains_drainFrames (h : Runs (drainFrames libc cfg s rxBuf) t (s', rxBuf')) :
    Drains libc s (splitter.drain rxBuf).frames (splitter.drain rxBuf).status
      (splitter.drain rxBuf).rest t s' rxBuf' := by
  induction rxBuf using Splitter.drain_induction (s := splitter) generalizing s t with
  | incomplete b hsplit =>
    rw [Splitter.drain_incomplete hsplit]
    rw [drainFrames_incomplete hsplit] at h
    obtain ⟨rfl, he⟩ := h
    obtain ⟨rfl, rfl⟩ := Prod.mk.inj he
    exact .incomplete
  | malformed b hsplit =>
    rw [Splitter.drain_malformed hsplit]
    rw [drainFrames_malformed hsplit] at h
    obtain ⟨t, s₁, _, rfl, hlogout, rfl, he⟩ := runs_bind.mp h
    obtain ⟨rfl, rfl⟩ := Prod.mk.inj he
    rw [List.append_nil]
    exact .malformed (silent_sendLogout hlogout) rfl
  | ok b f n hsplit ih =>
    rw [Splitter.drain_ok hsplit]
    rw [drainFrames_ok hsplit] at h
    cases hparse : parseFrame f with
    | none =>
      rw [hparse] at h
      obtain ⟨t, s₁, _, rfl, hlogout, rfl, he⟩ := runs_bind.mp h
      obtain ⟨rfl, rfl⟩ := Prod.mk.inj he
      rw [List.append_nil]
      exact .unparsed hparse (silent_sendLogout hlogout) rfl
    | some m =>
      rw [hparse] at h
      obtain ⟨t₁, s₁, t₂, rfl, hhandle, h⟩ := runs_bind.mp h
      exact .message hparse (handled_handleMessage hhandle) (ih h)

/-- The phase of a session that is running. -/
def Session.phase (s : Session) : Phase := if s.loggedOn then .active else .waiting

theorem Session.phase_ne_ended (s : Session) : s.phase ≠ .ended := by
  rw [Session.phase]
  split <;> simp

theorem Session.phase_beq_active (s : Session) : (s.phase == .active) = s.loggedOn := by
  rw [Session.phase]
  cases s.loggedOn <;> rfl

theorem Phase.run_ended (frames : List Bytes) : Phase.ended.run libc frames = (.ended, []) := by
  induction frames with
  | nil => rfl
  | cons frame frames ih =>
    rw [Phase.run]
    simp only [Phase.step, ih, List.append_nil]

theorem Phase.run_cons (phase : Phase) (frame : Bytes) (frames : List Bytes) :
    phase.run libc (frame :: frames) = (((phase.step libc frame).1.run libc frames).1,
      (phase.step libc frame).2 ++ ((phase.step libc frame).1.run libc frames).2) := rfl

theorem Phase.step_of_unparsed (h : parseFrame frame = none) (phase : Phase) :
    phase.step libc frame = (.ended, []) := by
  cases phase <;> simp [Phase.step, h]

variable {m : Message}

/-- How the phases follow a message. -/
theorem Session.step_phase (h : parseFrame frame = some m) :
    s.phase.step libc frame = if m.ends s.loggedOn then (.ended, [])
      else (.active, if s.loggedOn then m.asks libc else []) := by
  rw [Session.phase, Message.ends]
  cases s.loggedOn with
  | true => by_cases hmt : m.msgType = '5'.toUInt8 <;> simp [Phase.step, h, hmt]
  | false => by_cases hmt : m.msgType = 'A'.toUInt8 <;> simp [Phase.step, h, hmt]

theorem Handled.phase_eq (h : Handled libc s m t s') (hends : m.ends s.loggedOn = false) :
    s'.phase = .active := by
  rw [Session.phase, h.loggedOn]
  rw [Message.ends] at hends
  cases hon : s.loggedOn with
  | true => simp
  | false =>
    rw [hon] at hends
    simpa using hends

/-- A message that ends the session does not trade, and leaves `logged_on` as it is. -/
theorem Handled.of_ends (h : Handled libc s m t s') (hends : m.ends s.loggedOn = true) :
    Silent t ∧ s'.loggedOn = s.loggedOn := by
  rw [Message.ends] at hends
  have hlogged := h.loggedOn
  cases hon : s.loggedOn with
  | true =>
    rw [hon] at hends hlogged
    refine ⟨h.silent ?_, by simpa using hlogged⟩
    have hmt : m.msgType = '5'.toUInt8 := by simpa using hends
    rw [Message.trades, hmt, hon]
    decide
  | false =>
    rw [hon] at hends hlogged
    exact ⟨h.silent (by simp [hon]), by simpa using hlogged.trans (by simpa using hends)⟩

namespace Drains

theorem stopped (h : Drains libc s frames status rest t s' rxBuf) (hs : s.running = false) :
    s'.running = false := by
  induction h with
  | incomplete => exact hs
  | malformed _ hstop => exact hstop
  | unparsed _ _ hstop => exact hstop
  | message _ hm _ ih => exact ih (hm.stopped hs)

theorem silent (h : Drains libc s frames status rest t s' rxBuf)
    (hquiet : quiet s.loggedOn frames = true) : Silent t := by
  induction h with
  | incomplete => simp [Silent]
  | malformed hsilent _ => exact hsilent
  | unparsed _ hsilent _ => exact hsilent
  | @message s s₁ s' m frame _ _ frames _ _ _ hparse hm _ ih =>
    rw [quiet, hparse] at hquiet
    have hlogged := hm.loggedOn
    cases hon : s.loggedOn with
    | true =>
      have hq : m.trades = false ∧ quiet true frames = true := by simpa [hon] using hquiet
      rw [hon, Bool.true_or] at hlogged
      exact (hm.silent (by simp [hq.1])).append (ih (hlogged ▸ hq.2))
    | false =>
      have hq : quiet (m.msgType == 'A'.toUInt8) frames = true := by simpa [hon] using hquiet
      rw [hon, Bool.false_or] at hlogged
      exact (hm.silent (by simp [hon])).append (ih (hlogged ▸ hq))

/-- A session that ends among these frames is not running afterwards. -/
theorem ended (h : Drains libc s frames status rest t s' rxBuf)
    (hend : (s.phase.run libc frames).1 = .ended ∨ status = .malformed) : s'.running = false := by
  induction h with
  | @incomplete s rest =>
    rcases hend with hend | hend
    · exact absurd hend s.phase_ne_ended
    · simp at hend
  | malformed _ hstop => exact hstop
  | unparsed _ _ hstop => exact hstop
  | @message s s₁ s' m frame _ _ frames _ _ _ hparse hm hrest ih =>
    rw [Phase.run_cons, Session.step_phase hparse] at hend
    cases hends : m.ends s.loggedOn with
    | true => exact hrest.stopped (hm.ended hends)
    | false =>
      rw [hends] at hend
      exact ih (by rw [hm.phase_eq hends]; exact hend)

/-- Otherwise it goes on, with what is left in the buffer. -/
theorem continues (h : Drains libc s frames status rest t s' rxBuf)
    (hphase : (s.phase.run libc frames).1 ≠ .ended) (hstatus : status = .incomplete) :
    Ongoing t ∧ rxBuf = rest ∧ s'.phase = (s.phase.run libc frames).1 ∧
      (AllSent t → s'.running = s.running) := by
  induction h with
  | incomplete => exact ⟨by simp [Ongoing], rfl, rfl, fun _ ↦ rfl⟩
  | malformed _ _ => simp at hstatus
  | unparsed hparse _ _ =>
    rw [Phase.run_cons, Phase.step_of_unparsed hparse, Phase.run_ended] at hphase
    exact absurd rfl hphase
  | @message s s₁ s' m frame _ _ frames _ _ _ hparse hm hrest ih =>
    rw [Phase.run_cons, Session.step_phase hparse] at hphase ⊢
    cases hends : m.ends s.loggedOn with
    | true =>
      rw [hends, if_pos rfl, Phase.run_ended] at hphase
      exact absurd rfl hphase
    | false =>
      rw [hends] at hphase
      obtain ⟨hongoing, hrunning⟩ := hm.ongoing hends
      have hactive := hm.phase_eq hends
      obtain ⟨hongoing', hbuf, hphase', hrunning'⟩ := ih (by rw [hactive]; exact hphase) hstatus
      refine ⟨hongoing.append hongoing', hbuf, hphase'.trans (by rw [hactive]; rfl), fun hsent ↦ ?_⟩
      exact (hrunning' hsent.right).trans (hrunning hsent.left)

/-- What an orderly sequence of frames makes the code do. -/
theorem orderly (h : Drains libc s frames status rest t s' rxBuf)
    (ho : orderlyFrames libc s.phase frames = true) :
    EndsForGood t ∧ engineRequests t = (s.phase.run libc frames).2 := by
  have hnone : ∀ {t : Events}, Silent t → engineRequests t = [] :=
    fun hs ↦ engineRequests_eq_nil fun e he ↦ (hs e he).1
  induction h with
  | incomplete => exact ⟨Silent.endsForGood (by simp [Silent]), rfl⟩
  | malformed hsilent _ => exact ⟨hsilent.endsForGood, hnone hsilent⟩
  | unparsed hparse hsilent _ =>
    rw [Phase.run_cons, Phase.step_of_unparsed hparse, Phase.run_ended]
    exact ⟨hsilent.endsForGood, hnone hsilent⟩
  | @message s s₁ s' m frame _ _ frames _ _ _ hparse hm hrest ih =>
    rw [orderlyFrames, Session.step_phase hparse] at ho
    rw [Phase.run_cons, Session.step_phase hparse]
    cases hends : m.ends s.loggedOn with
    | true =>
      -- the loop goes on, but with nothing that trades
      obtain ⟨hsilent, hlogged⟩ := hm.of_ends hends
      have hq : quiet s.loggedOn frames = true := by
        simpa [hends, hparse, s.phase_beq_active] using ho
      have hall := hsilent.append (hrest.silent (hlogged ▸ hq))
      refine ⟨hall.endsForGood, ?_⟩
      rw [if_pos rfl, Phase.run_ended]
      exact hnone hall
    | false =>
      rw [hends] at ho
      have hactive := hm.phase_eq hends
      obtain ⟨hend, hreq⟩ := ih (by rw [hactive]; simpa using ho)
      refine ⟨hend.append (hm.ongoing hends).1, ?_⟩
      rw [engineRequests_append, hm.requests, hreq, hactive]
      rfl

end Drains

end Drain

/-! ## Whole sessions -/

section Whole

variable {libc : Libc} {cfg : GatewayConfig} {s s' : Session} {t : Events} {chunk rxBuf : Bytes}
  {chunks : List Bytes}

theorem runs_sessionLoop_stopped (hs : s.running = false)
    (h : Runs (sessionLoop libc cfg chunks s rxBuf) t s') : t = [] ∧ s' = s := by
  cases chunks with
  | nil => exact h
  | cons chunk chunks =>
    rw [sessionLoop, if_neg (by simp [hs])] at h
    exact h

theorem runs_sessionLoop_cons (hs : s.running = true)
    (h : Runs (sessionLoop libc cfg (chunk :: chunks) s rxBuf) t s') :
    ∃ t₁ s₁ rxBuf₁ t₂, t = t₁ ++ t₂ ∧
      Drains libc s (splitter.drain (rxBuf ++ chunk)).frames
        (splitter.drain (rxBuf ++ chunk)).status
          (splitter.drain (rxBuf ++ chunk)).rest t₁ s₁ rxBuf₁ ∧
      Runs (sessionLoop libc cfg chunks s₁ rxBuf₁) t₂ s' := by
  rw [sessionLoop, if_pos hs] at h
  obtain ⟨t₁, ⟨s₁, rxBuf₁⟩, t₂, rfl, hdrain, hrest⟩ := runs_bind.mp h
  exact ⟨t₁, s₁, rxBuf₁, t₂, rfl, drains_drainFrames hdrain, hrest⟩

/-- **An orderly session ends for good.** -/
theorem endsForGood_of_orderly (ho : Orderly libc s.phase rxBuf chunks)
    (h : Runs (sessionLoop libc cfg chunks s rxBuf) t s') : EndsForGood t := by
  induction chunks generalizing s rxBuf t with
  | nil =>
    obtain ⟨rfl, -⟩ := h
    exact Silent.endsForGood (by simp [Silent])
  | cons chunk chunks ih =>
    obtain ⟨ho, hnext⟩ := ho
    cases hs : s.running with
    | false =>
      rw [(runs_sessionLoop_stopped hs h).1]
      exact Silent.endsForGood (by simp [Silent])
    | true =>
      obtain ⟨t₁, s₁, rxBuf₁, t₂, rfl, hdrain, hrest⟩ := runs_sessionLoop_cons hs h
      by_cases hend : (s.phase.run libc (splitter.drain (rxBuf ++ chunk)).frames).1 = .ended ∨
          (splitter.drain (rxBuf ++ chunk)).status = .malformed
      · rw [(runs_sessionLoop_stopped (hdrain.ended hend) hrest).1, List.append_nil]
        exact (hdrain.orderly ho).1
      · rw [not_or] at hend
        have hstatus : (splitter.drain (rxBuf ++ chunk)).status = .incomplete := by
          cases hst : (splitter.drain (rxBuf ++ chunk)).status with
          | incomplete => rfl
          | malformed => exact absurd hst hend.2
        obtain ⟨hongoing, rfl, hphase, -⟩ := hdrain.continues hend.1 hstatus
        exact (ih (hphase ▸ hnext hend.1 hstatus) hrest).append hongoing

theorem Phase.run_append (phase : Phase) (fs gs : List Bytes) :
    phase.run libc (fs ++ gs) = (((phase.run libc fs).1.run libc gs).1,
      (phase.run libc fs).2 ++ ((phase.run libc fs).1.run libc gs).2) := by
  induction fs generalizing phase with
  | nil => rfl
  | cons f fs ih =>
    rw [List.cons_append, Phase.run_cons, ih, Phase.run_cons, List.append_assoc]

/-- **What an orderly session asks of the engine** is a matter of the stream alone. -/
theorem engineRequests_of_orderly (ho : Orderly libc s.phase rxBuf chunks)
    (hbuf : splitFrame rxBuf = .incomplete) (hs : s.running = true)
    (h : Runs (sessionLoop libc cfg chunks s rxBuf) t s') (hsent : AllSent t) :
    engineRequests t
      = (s.phase.run libc (splitter.drain (rxBuf ++ chunks.flatten)).frames).2 := by
  induction chunks generalizing s rxBuf t with
  | nil =>
    obtain ⟨rfl, -⟩ := h
    rw [List.flatten_nil, List.append_nil, Splitter.drain_incomplete hbuf]
    rfl
  | cons chunk chunks ih =>
    obtain ⟨ho, hnext⟩ := ho
    obtain ⟨t₁, s₁, rxBuf₁, t₂, rfl, hdrain, hrest⟩ := runs_sessionLoop_cons hs h
    have hreq := (hdrain.orderly ho).2
    rw [List.flatten_cons, ← List.append_assoc]
    generalize hb : rxBuf ++ chunk = b at *
    by_cases hend : (s.phase.run libc (splitter.drain b).frames).1 = .ended
    · obtain ⟨more, hmore⟩ := Splitter.exists_frames_drain_append (s := splitter) b chunks.flatten
      rw [(runs_sessionLoop_stopped (hdrain.ended (.inl hend)) hrest).1,
        List.append_nil, hreq, hmore, Phase.run_append, hend, Phase.run_ended, List.append_nil]
    · cases hstatus : (splitter.drain b).status with
      | malformed =>
        rw [(runs_sessionLoop_stopped (hdrain.ended (.inr hstatus)) hrest).1, List.append_nil, hreq,
          Splitter.drain_append_of_malformed hstatus]
      | incomplete =>
        obtain ⟨-, rfl, hphase, hrunning⟩ := hdrain.continues hend hstatus
        have htail := ih (hphase ▸ hnext hend hstatus) (Splitter.split_rest_drain hstatus)
          ((hrunning hsent.left).trans hs) hrest hsent.right
        rw [engineRequests_append, hreq, htail, hphase,
          Splitter.drain_append_of_incomplete hstatus, Phase.run_append]

/-- **An orderly session** ends for good, whatever the engine answers, and two ways of cutting the
same stream into chunks make the same requests to the engine. -/
theorem session_orderly (libc : Libc) (cfg : GatewayConfig) (chunks : List Bytes)
    (ho : Orderly libc .waiting [] chunks) :
    (∀ t s, Runs (sessionLoop libc cfg chunks .new []) t s → EndsForGood t) ∧
    ∀ chunks', chunks'.flatten = chunks.flatten → Orderly libc .waiting [] chunks' →
      ∀ t s t' s', Runs (sessionLoop libc cfg chunks .new []) t s →
        Runs (sessionLoop libc cfg chunks' .new []) t' s' → AllSent t → AllSent t' →
        engineRequests t = engineRequests t' := by
  refine ⟨fun t s h ↦ endsForGood_of_orderly ho h, ?_⟩
  intro chunks' hflatten ho' t s t' s' h h' hsent hsent'
  rw [engineRequests_of_orderly ho rfl rfl h hsent, engineRequests_of_orderly ho' rfl rfl h' hsent',
    hflatten]

end Whole

/-! ## A session that is not orderly -/

/-- A message of a client. -/
def clientFrame (msgType : Char) (calls : List AddCall) : Bytes :=
  (Builder.new.build textLibc.snprintf msgType.toUInt8 (ascii ['C']) (ascii ['E']) 1
    calls).finalize.buf

/-- A Logon and a Logout. -/
def comeAndGo : Bytes := clientFrame 'A' [] ++ clientFrame '5' []

/-- An order to buy 5 at 7. -/
def lateOrder : Bytes :=
  clientFrame 'D' [.str Tag.SideTag (ascii ['1']), .str Tag.OrderQty (ascii ['5']),
    .str Tag.PriceTag (ascii ['7'])]

/-- With the order in a chunk of its own, the session is orderly. -/
theorem session_orderly_two_chunks :
    Orderly textLibc .waiting [] [comeAndGo, lateOrder] ∧
      ∀ t s, Runs (sessionLoop textLibc ⟨ascii ['E'], false⟩ [comeAndGo, lateOrder] .new []) t s →
        EndsForGood t :=
  have ho : Orderly textLibc .waiting [] [comeAndGo, lateOrder] := by decide +kernel
  ⟨ho, (session_orderly textLibc ⟨ascii ['E'], false⟩ [comeAndGo, lateOrder] ho).1⟩

/-- Everything is sent, and the engine has nothing. -/
def idleAnswer : (e : Request) → e.Answer
  | .placeLimit .. => ⟨1, [], ⟨0, 0, OrderBook.priceMax, 0⟩⟩
  | .cancel _ => false
  | .top => ⟨0, 0, OrderBook.priceMax, 0⟩
  | .nextExecId => 1
  | .send _ => true
  | .publishL1 .. => ()

theorem allSent_answered {α : Type} (p : Handler α) : AllSent (p.answered idleAnswer).1 :=
  fun _ _ h ↦ snd_of_mem_answered idleAnswer h

theorem not_endsForGood {t : Events} (i : Nat)
    (hlogout : ((t.drop i).take 1).any (fun e ↦ e.1.logout) = true)
    (hengine : (t.drop (i + 1)).any (fun e ↦ e.1.engine) = true) : ¬EndsForGood t := by
  intro h
  obtain ⟨e, he, hlogout⟩ := List.any_eq_true.mp hlogout
  obtain ⟨e', he', hengine⟩ := List.any_eq_true.mp hengine
  have hdrop : t.drop i = e :: t.drop (i + 1) := by
    cases ht : t.drop i with
    | nil => simp [ht] at he
    | cons x xs =>
      obtain rfl : e = x := by simpa [ht] using he
      rw [← List.drop_drop, ht]
      rfl
  have hsilent := h (t.take i) e (t.drop (i + 1)) (by rw [← hdrop, List.take_append_drop]) hlogout
  rw [(hsilent e' he').1] at hengine
  exact Bool.noConfusion hengine

/-- **An order reaches the engine after the Logout**, if it arrives in the same chunk; in a chunk of
its own it does not. -/
theorem exists_order_after_logout :
    ∃ (libc : Libc) (cfg : GatewayConfig) (a b : Bytes) (t t' : Events) (s s' : Session),
      Runs (sessionLoop libc cfg [a ++ b] .new []) t s ∧
      Runs (sessionLoop libc cfg [a, b] .new []) t' s' ∧ AllSent t ∧ AllSent t' ∧
      ¬EndsForGood t ∧ engineRequests t ≠ engineRequests t' := by
  refine ⟨textLibc, ⟨ascii ['E'], false⟩, comeAndGo, lateOrder, _, _, _, _,
    runs_answered idleAnswer _, runs_answered idleAnswer _, allSent_answered _, allSent_answered _,
    not_endsForGood 1 ?_ ?_, ?_⟩
  · decide +kernel
  · decide +kernel
  · decide +kernel

end Fix

end MatchingEngine
