import MatchingEngine.Fix.Gateway

/-!
# What the handlers do

One message makes a session ask something of the engine, report, and perhaps end.  `Handled` says
which of these it does, in terms of the message alone and for all answers, and
`handled_handleMessage` proves it of `handle_message`.  What follows for a session as a whole is
in `Fix.Session`.
-/

set_option autoImplicit false

namespace MatchingEngine

namespace Fix

open Program

/-- The requests and answers of a session. -/
abbrev Events := Trace Request Request.Answer

/-! ## What is observed -/

namespace Request

/-- Does this request reach the engine? -/
def engine : Request → Bool
  | .placeLimit .. => true
  | .cancel _ => true
  | .top => true
  | _ => false

/-- Does this request send an application message? -/
def application : Request → Bool
  | .send o =>
    match o.body with
    | .execReport .. => true
    | .mdSnapshot _ => true
    | _ => false
  | _ => false

/-- Does this request send a Logout? -/
def logout : Request → Bool
  | .send o =>
    match o.body with
    | .logout _ => true
    | _ => false
  | _ => false

end Request

/-- The requests that reached the engine. -/
def engineRequests (t : Events) : List Request := (t.map Sigma.fst).filter Request.engine

/-- Nothing here reached the engine or was an application message. -/
def Silent (t : Events) : Prop := ∀ e ∈ t, e.1.engine = false ∧ e.1.application = false

/-- The session has not been ended. -/
def Ongoing (t : Events) : Prop := ∀ e ∈ t, e.1.logout = false

/-- Everything was sent. -/
def AllSent (t : Events) : Prop :=
  ∀ o ok, (⟨.send o, ok⟩ : (e : Request) × e.Answer) ∈ t → ok = true

/-- Once a Logout has been sent, nothing reaches the engine and no application message is sent. -/
def EndsForGood (t : Events) : Prop :=
  ∀ t₁ e t₂, t = t₁ ++ e :: t₂ → e.1.logout = true → Silent t₂

/-! ## What a message asks for -/

/-- Is this one of the messages that reach the engine? -/
def Message.trades (m : Message) : Bool :=
  m.msgType == 'D'.toUInt8 || m.msgType == 'F'.toUInt8 || m.msgType == 'V'.toUInt8

/-- What a message asks of the engine. -/
def Message.asks (libc : Libc) (m : Message) : List Request :=
  if m.msgType = 'D'.toUInt8 then
    let o := NewOrder.of libc m
    if o.Rejected then [] else [.placeLimit o.side (o.pxTicks libc) (o.qty libc)]
  else if m.msgType = 'F'.toUInt8 then [.cancel (cancelledId m)]
  else if m.msgType = 'V'.toUInt8 then [.top]
  else []

/-! ## Traces -/

section Traces

variable {t t₁ t₂ : Events}

theorem Silent.append (h₁ : Silent t₁) (h₂ : Silent t₂) : Silent (t₁ ++ t₂) :=
  List.forall_mem_append.mpr ⟨h₁, h₂⟩

theorem Ongoing.append (h₁ : Ongoing t₁) (h₂ : Ongoing t₂) : Ongoing (t₁ ++ t₂) :=
  List.forall_mem_append.mpr ⟨h₁, h₂⟩

theorem AllSent.left (h : AllSent (t₁ ++ t₂)) : AllSent t₁ :=
  fun o ok hmem ↦ h o ok (List.mem_append_left t₂ hmem)

theorem AllSent.right (h : AllSent (t₁ ++ t₂)) : AllSent t₂ :=
  fun o ok hmem ↦ h o ok (List.mem_append_right t₁ hmem)

theorem AllSent.tail {e : (e : Request) × e.Answer} (h : AllSent (e :: t)) : AllSent t :=
  fun o ok hmem ↦ h o ok (List.mem_cons_of_mem e hmem)

theorem engineRequests_append (t₁ t₂ : Events) :
    engineRequests (t₁ ++ t₂) = engineRequests t₁ ++ engineRequests t₂ := by
  rw [engineRequests, List.map_append, List.filter_append]
  rfl

theorem engineRequests_eq_nil (h : ∀ e ∈ t, e.1.engine = false) : engineRequests t = [] := by
  rw [engineRequests, List.filter_eq_nil_iff]
  intro r hr
  obtain ⟨e, he, rfl⟩ := List.mem_map.mp hr
  rw [h e he]
  exact Bool.false_ne_true

theorem Silent.endsForGood (h : Silent t) : EndsForGood t := by
  rintro t₁ e t₂ rfl -
  exact fun e' he' ↦ h e' (List.mem_append_right t₁ (List.mem_cons_of_mem e he'))

/-- What comes before the end does not matter. -/
theorem EndsForGood.append (h₂ : EndsForGood t₂) (h₁ : Ongoing t₁) : EndsForGood (t₁ ++ t₂) := by
  intro u e v he hlogout
  rcases List.append_eq_append_iff.mp he with ⟨w, rfl, hw⟩ | ⟨w, hw, hv⟩
  · exact h₂ w e v hw hlogout
  · cases w with
    | nil =>
      rw [List.nil_append] at hv
      exact h₂ [] e v hv.symm hlogout
    | cons e' w =>
      obtain ⟨rfl, rfl⟩ : e = e' ∧ v = w ++ t₂ := by simpa using hv
      have hmem : e ∈ t₁ := by rw [hw]; simp
      rw [h₁ e hmem] at hlogout
      exact Bool.noConfusion hlogout

end Traces

/-! ## Handlers -/

section Handlers

variable {libc : Libc} {cfg : GatewayConfig} {s s' s'' : Session} {m : Message} {t t' : Events}

/-- A part of a handler that only sends application messages and publishes. -/
structure Reporting (s : Session) (t : Events) (s' : Session) : Prop where
  loggedOn : s'.loggedOn = s.loggedOn
  engine : ∀ e ∈ t, e.1.engine = false
  ongoing : Ongoing t
  running : AllSent t → s'.running = s.running
  stopped : s.running = false → s'.running = false

theorem Reporting.refl (s : Session) : Reporting s [] s := by
  constructor <;> simp [Ongoing]

theorem Reporting.trans (h : Reporting s t s') (h' : Reporting s' t' s'') :
    Reporting s (t ++ t') s'' where
  loggedOn := h'.loggedOn.trans h.loggedOn
  engine := List.forall_mem_append.mpr ⟨h.engine, h'.engine⟩
  ongoing := h.ongoing.append h'.ongoing
  running hsent := (h'.running hsent.right).trans (h.running hsent.left)
  stopped hs := h'.stopped (h.stopped hs)

/-- Sending makes one request, and ends the session if it fails. -/
theorem runs_sendBody {body : Body} (h : Runs (sendBody cfg s body) t s') :
    ∃ o ok, o.body = body ∧ t = [⟨.send o, ok⟩] ∧ s'.loggedOn = s.loggedOn ∧
      (ok = true → s'.running = s.running) ∧ (s.running = false → s'.running = false) := by
  obtain ⟨ok, _, rfl, rfl, rfl⟩ := h
  refine ⟨_, ok, rfl, rfl, ?_⟩
  cases ok <;> simp

theorem reporting_sendBody {body : Body} (hbody : ∀ text, body ≠ .logout text)
    (h : Runs (sendBody cfg s body) t s') : Reporting s t s' := by
  obtain ⟨o, ok, rfl, rfl, hlogged, hrunning, hstopped⟩ := runs_sendBody h
  refine ⟨hlogged, ?_, ?_, fun hsent ↦ hrunning (hsent o ok List.mem_cons_self), hstopped⟩
  · simp [Request.engine]
  · intro e he
    obtain rfl := List.mem_singleton.mp he
    cases hb : o.body with
    | logout text => exact absurd hb (hbody text)
    | _ => simp [Request.logout, hb]

theorem reporting_sendExecReport {report : ExecReport}
    (h : Runs (sendExecReport cfg s report) t s') : Reporting s t s' := by
  obtain ⟨execId, t, rfl, h⟩ := h
  have hsend := reporting_sendBody (by simp) h
  exact ⟨hsend.loggedOn, List.forall_mem_cons.mpr ⟨rfl, hsend.engine⟩,
    List.forall_mem_cons.mpr ⟨rfl, hsend.ongoing⟩,
    fun hsent ↦ hsend.running hsent.tail,
    hsend.stopped⟩

theorem reporting_publish {symbol : Bytes} {top : Top} {u : Unit}
    (h : Runs (publish libc cfg symbol top) t u) (s : Session) : Reporting s t s := by
  cases hfeed : cfg.hasFeed with
  | true =>
    rw [publish, if_pos hfeed] at h
    obtain rfl := runs_perform.mp h
    constructor <;> simp [Ongoing, Request.engine, Request.logout]
  | false =>
    rw [publish, if_neg (by simp [hfeed])] at h
    obtain ⟨rfl, -⟩ := h
    exact Reporting.refl s

/-- Does this message end the session? -/
def Message.ends (loggedOn : Bool) (m : Message) : Bool :=
  if loggedOn then m.msgType == '5'.toUInt8 else m.msgType != 'A'.toUInt8

/-- What handling a message comes to, in the terms of the abstract session. -/
structure Handled (libc : Libc) (s : Session) (m : Message) (t : Events) (s' : Session) : Prop where
  loggedOn : s'.loggedOn = (s.loggedOn || m.msgType == 'A'.toUInt8)
  requests : engineRequests t = if s.loggedOn then m.asks libc else []
  silent : (s.loggedOn && m.trades) = false → Silent t
  stopped : s.running = false → s'.running = false
  ended : m.ends s.loggedOn = true → s'.running = false
  ongoing : m.ends s.loggedOn = false → Ongoing t ∧ (AllSent t → s'.running = s.running)

theorem Message.trades_iff : m.trades = true ↔
    m.msgType = 'D'.toUInt8 ∨ m.msgType = 'F'.toUInt8 ∨ m.msgType = 'V'.toUInt8 := by
  simp only [Message.trades, Bool.or_eq_true, beq_iff_eq, or_assoc]

theorem Message.asks_of_trades_eq_false (h : m.trades = false) : m.asks libc = [] := by
  have hnot : ¬(m.msgType = 'D'.toUInt8 ∨ m.msgType = 'F'.toUInt8 ∨ m.msgType = 'V'.toUInt8) :=
    fun hc ↦ by rw [Message.trades_iff.mpr hc] at h; exact Bool.noConfusion h
  rw [not_or, not_or] at hnot
  rw [Message.asks, if_neg hnot.1, if_neg hnot.2.1, if_neg hnot.2.2]

/-- A message that trades: it asks the engine, and reports. -/
theorem handled_of_reporting (asked : Events) (hlogged : s.loggedOn = true)
    (htrades : m.trades = true) (hengine : ∀ e ∈ asked, e.1.engine = true)
    (hasks : asked.map Sigma.fst = m.asks libc) (h : Reporting s t s') :
    Handled libc s m (asked ++ t) s' := by
  have hfive : m.msgType ≠ '5'.toUInt8 := by
    rcases Message.trades_iff.mp htrades with ht | ht | ht <;> rw [ht] <;> decide
  have hongoing : Ongoing asked := by
    rintro ⟨e, r⟩ he
    have := hengine _ he
    cases e with
    | send o => exact absurd this (by simp [Request.engine])
    | _ => rfl
  refine ⟨?_, ?_, ?_, h.stopped, ?_, fun _ ↦ ⟨hongoing.append h.ongoing, ?_⟩⟩
  · rw [h.loggedOn, hlogged, Bool.true_or]
  · have hall : (asked.map Sigma.fst).filter Request.engine = asked.map Sigma.fst := by
      rw [List.filter_eq_self]
      intro r hr
      obtain ⟨e, he, rfl⟩ := List.mem_map.mp hr
      exact hengine e he
    rw [engineRequests_append, engineRequests_eq_nil h.engine, List.append_nil,
      engineRequests, hall, if_pos hlogged, hasks]
  · simp [hlogged, htrades]
  · simp [Message.ends, hlogged, hfive]
  · exact fun hsent ↦ h.running hsent.right

/-- A message that is answered with a Logout. -/
theorem handled_of_logout {text : Bytes} (hends : m.ends s.loggedOn = true)
    (htrades : (s.loggedOn && m.trades) = false)
    (hlogged : s.loggedOn = (s.loggedOn || m.msgType == 'A'.toUInt8))
    (h : Runs (sendLogout cfg s text) t s') :
    Handled libc s m t { s' with running := false } := by
  obtain ⟨o, ok, hbody, rfl, hs, -, -⟩ := runs_sendBody h
  have hsilent : Silent [⟨.send o, ok⟩] := by
    simp [Silent, Request.engine, Request.application, hbody]
  refine ⟨hs.trans hlogged, ?_, fun _ ↦ hsilent, fun _ ↦ rfl, fun _ ↦ rfl, ?_⟩
  · rw [engineRequests_eq_nil fun e he ↦ (hsilent e he).1]
    split
    · rename_i hon
      rw [hon, Bool.true_and] at htrades
      exact (Message.asks_of_trades_eq_false htrades).symm
    · rfl
  · simp [hends]

theorem handled_onLogon (hmt : m.msgType = 'A'.toUInt8) (h : Runs (onLogon cfg s m) t s') :
    Handled libc s m t s' := by
  have hr := reporting_sendBody (by simp) h
  have hnot : m.trades = false := by rw [Message.trades, hmt]; decide
  refine ⟨by rw [hr.loggedOn, hmt]; simp, ?_, ?_, hr.stopped, ?_, fun _ ↦ ⟨hr.ongoing, hr.running⟩⟩
  · rw [engineRequests_eq_nil hr.engine, Message.asks_of_trades_eq_false hnot, ite_self]
  · obtain ⟨o, ok, hbody, rfl, -⟩ := runs_sendBody h
    simp [Silent, Request.engine, Request.application, hbody]
  · rw [Message.ends, hmt]
    split <;> simp +decide

theorem handled_onLogout (hon : s.loggedOn = true) (hmt : m.msgType = '5'.toUInt8)
    (h : Runs (onLogout cfg s) t s') : Handled libc s m t s' := by
  obtain ⟨t, s', _, rfl, hlogout, rfl, rfl⟩ := runs_bind.mp h
  rw [List.append_nil]
  refine handled_of_logout (by simp [Message.ends, hon, hmt]) ?_ (by simp [hon]) hlogout
  rw [Message.trades, hmt, hon]
  decide

theorem handled_onNewOrder (hon : s.loggedOn = true) (hmt : m.msgType = 'D'.toUInt8)
    (h : Runs (onNewOrder libc cfg s m) t s') : Handled libc s m t s' := by
  have htrades : m.trades = true := Message.trades_iff.mpr (.inl hmt)
  rw [onNewOrder] at h
  split at h
  case isTrue hrejected =>
    refine handled_of_reporting [] hon htrades (by simp) ?_ (reporting_sendExecReport h)
    rw [Message.asks, if_pos hmt]
    dsimp only
    rw [if_pos hrejected]
    rfl
  case isFalse haccepted =>
    obtain ⟨_, x, _, rfl, hplace, hrest⟩ := runs_bind.mp h
    obtain rfl := runs_perform.mp hplace
    obtain ⟨t₁, s₁, _, rfl, hreports, hlast⟩ := runs_bind.mp hrest
    obtain ⟨t₂, u, _, rfl, hpublish, rfl, rfl⟩ := runs_bind.mp hlast
    have hr : Reporting s t₁ s' :=
      runs_foldlM Reporting.refl Reporting.trans (fun _ _ ↦ reporting_sendExecReport) hreports
    rw [List.append_nil]
    refine handled_of_reporting [⟨.placeLimit _ _ _, x⟩] hon htrades (by simp [Request.engine]) ?_
      (hr.trans (reporting_publish hpublish s'))
    rw [Message.asks, if_pos hmt]
    dsimp only
    rw [if_neg haccepted]
    rfl

theorem handled_onCancel (hon : s.loggedOn = true) (hmt : m.msgType = 'F'.toUInt8)
    (h : Runs (onCancel cfg s m) t s') : Handled libc s m t s' := by
  have htrades : m.trades = true := Message.trades_iff.mpr (.inr (.inl hmt))
  obtain ⟨ok, _, rfl, h⟩ := h
  refine handled_of_reporting [⟨.cancel (cancelledId m), ok⟩] hon htrades
    (by simp [Request.engine]) ?_ (reporting_sendExecReport h)
  rw [Message.asks, hmt, if_neg (by decide), if_pos rfl]
  rfl

theorem handled_onMdRequest (hon : s.loggedOn = true) (hmt : m.msgType = 'V'.toUInt8)
    (h : Runs (onMdRequest libc cfg s m) t s') : Handled libc s m t s' := by
  have htrades : m.trades = true := Message.trades_iff.mpr (.inr (.inr hmt))
  obtain ⟨top, _, rfl, h⟩ := h
  refine handled_of_reporting [⟨.top, top⟩] hon htrades (by simp [Request.engine]) ?_
    (reporting_sendBody (by simp) h)
  rw [Message.asks, hmt, if_neg (by decide), if_neg (by decide), if_pos rfl]
  rfl

/-- A message that nothing is done about. -/
theorem handled_ignored (hon : s.loggedOn = true) (htrades : m.trades = false)
    (hmt : m.msgType ≠ '5'.toUInt8) : Handled libc s m [] s := by
  refine ⟨by simp [hon], ?_, by simp [Silent], id, by simp [Message.ends, hon, hmt],
    by simp [Ongoing]⟩
  rw [if_pos hon, Message.asks_of_trades_eq_false htrades]
  rfl

/-- **Handling a message**, whatever the answers. -/
theorem handled_handleMessage (h : Runs (handleMessage libc cfg s m) t s') :
    Handled libc s m t s' := by
  rw [handleMessage] at h
  by_cases hfirst : s.loggedOn = false ∧ m.msgType ≠ 'A'.toUInt8
  · rw [if_pos hfirst] at h
    obtain ⟨t, s', _, rfl, hlogout, rfl, rfl⟩ := runs_bind.mp h
    rw [List.append_nil]
    exact handled_of_logout (by simp [Message.ends, hfirst]) (by simp [hfirst])
      (by simp [hfirst]) hlogout
  rw [if_neg hfirst] at h
  by_cases hA : m.msgType = 'A'.toUInt8
  · rw [if_pos hA] at h
    exact handled_onLogon hA h
  have hon : s.loggedOn = true := by
    by_contra hoff
    exact hfirst ⟨by simpa using hoff, hA⟩
  rw [if_neg hA] at h
  by_cases h5 : m.msgType = '5'.toUInt8
  · rw [if_pos h5] at h
    exact handled_onLogout hon h5 h
  rw [if_neg h5] at h
  by_cases h0 : m.msgType = '0'.toUInt8
  · rw [if_pos h0] at h
    obtain ⟨rfl, rfl⟩ := h
    exact handled_ignored hon (by rw [Message.trades, h0]; decide) h5
  rw [if_neg h0] at h
  by_cases hD : m.msgType = 'D'.toUInt8
  · rw [if_pos hD] at h
    exact handled_onNewOrder hon hD h
  rw [if_neg hD] at h
  by_cases hF : m.msgType = 'F'.toUInt8
  · rw [if_pos hF] at h
    exact handled_onCancel hon hF h
  rw [if_neg hF] at h
  by_cases hV : m.msgType = 'V'.toUInt8
  · rw [if_pos hV] at h
    exact handled_onMdRequest hon hV h
  · rw [if_neg hV] at h
    obtain ⟨rfl, rfl⟩ := h
    exact handled_ignored hon (by simp [Message.trades, hD, hF, hV]) h5

end Handlers

end Fix

end MatchingEngine
