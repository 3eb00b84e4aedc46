import MatchingEngine.Fix.Concurrency
import MatchingEngine.Fix.Outgoing

/-!
# What a session owes

A session that has placed an order has to report every trade and to publish the top of the book, and
a session that has drawn an execution id has to send a report with it.  It does so after it has let
go of the lock, while others go on.  `Duty` is what a session has taken on and not yet done, and the
handlers never take on anything else before they have done it all (`discharges_sessionLoop`).

So nothing is lost between the threads and nothing is done twice, whatever their order: every
execution id is on one report (`execIds_once`), every top read under the lock is published once
(`tops_published_once`), and every trade is reported once, by the session that placed the order that
came second (`fills_reported_once`).  The session of the order that was in the book is not told.
-/

set_option autoImplicit false

namespace MatchingEngine

namespace Fix

open Program

/-! ## Duties -/

/-- A trade as a report tells of it. -/
structure Fill where
  orderId : Nat
  lastQty : ℚ
  lastPx : ℚ
  deriving DecidableEq

/-- The trade that a report tells of. -/
def ExecReport.fill? (r : ExecReport) : Option Fill :=
  if r.execType = .fill ∨ r.execType = .partialFill then some ⟨r.orderId, r.lastQty, r.lastPx⟩
  else none

/-- The trades of a placement. -/
def fillsOf (libc : Libc) : Reply → List Fill
  | .placed id trades =>
    trades.map fun t ↦ ⟨id, libc.toDouble t.qty, libc.round (libc.toDouble t.price / 100)⟩
  | .cancelled _ => []

/-- An update without its symbol. -/
def L1.numbers (l : L1) : L1 := { l with symbol := [] }

/-- What a session has taken on and not yet done. -/
structure Duty where
  /-- The execution id it has drawn. -/
  execId : Option Nat
  /-- The trades it has to report. -/
  fills : List Fill
  /-- The top it has to publish. -/
  top : Option L1

namespace Duty

def free : Duty := ⟨none, [], none⟩

/-- What a session may ask for. -/
def Allows : Duty → Request → Prop
  | d, .nextExecId => d.execId = none
  | d, .send o =>
    match o.body with
    | .execReport id r => d.execId = some id ∧ ∀ f, r.fill? = some f → d.fills.head? = some f
    | _ => d = free
  | d, .publishL1 _ bidPx bidSz askPx askSz =>
    d.execId = none ∧ d.fills = [] ∧ d.top = some ⟨[], bidPx, bidSz, askPx, askSz⟩
  | d, .placeLimit .. => d = free
  | d, .cancel _ => d = free
  | d, .top => d = free

/-- A placement is taken on. -/
def placed (libc : Libc) (cfg : GatewayConfig) (x : Executed) : Duty :=
  ⟨none, fillsOf libc (.placed x.orderId x.trades),
    if cfg.hasFeed then some (L1.ofTop libc [] x.top) else none⟩

def next (libc : Libc) (cfg : GatewayConfig) : Duty → (e : Request) → e.Answer → Duty
  | _, .placeLimit .., x => placed libc cfg x
  | d, .nextExecId, id => { d with execId := some id }
  | d, .send o, _ =>
    match o.body with
    | .execReport _ r =>
      { d with execId := none, fills := if r.fill?.isSome then d.fills.tail else d.fills }
    | _ => d
  | d, .publishL1 .., _ => { d with top := none }
  | d, .cancel _, _ => d
  | d, .top, _ => d

end Duty

abbrev Discharges {α : Type} (libc : Libc) (cfg : GatewayConfig) (d d' : Duty) (p : Handler α) :
    Prop :=
  Conforms Duty.Allows (Duty.next libc cfg) (fun d'' _ ↦ d'' = d') d p

/-! ## The handlers -/

section Handlers

variable {libc : Libc} {cfg : GatewayConfig} {s : Session} {m : Message}

/-- One part of a handler after the other. -/
theorem Discharges.bind {α β : Type} {d₁ d₂ d₃ : Duty} {p : Handler α} {f : α → Handler β}
    (hp : Discharges libc cfg d₁ d₂ p) (hf : ∀ a, Discharges libc cfg d₂ d₃ (f a)) :
    Discharges libc cfg d₁ d₃ (p >>= f) := by
  refine Conforms.bind hp ?_
  rintro _ a rfl
  exact hf a

theorem discharges_sendExecReport {report : ExecReport} {fills : List Fill} {top : Option L1}
    (hfill : ∀ f, report.fill? = some f → fills.head? = some f) :
    Discharges libc cfg ⟨none, fills, top⟩
      ⟨none, if report.fill?.isSome then fills.tail else fills, top⟩
        (sendExecReport cfg s report) :=
  ⟨rfl, fun _ ↦ ⟨⟨rfl, hfill⟩, fun _ ↦ rfl⟩⟩

/-- A report that tells of no trade. -/
theorem discharges_sendExecReport_free {report : ExecReport} (h : report.fill? = none) :
    Discharges libc cfg .free .free (sendExecReport cfg s report) := by
  have hsend : Discharges libc cfg ⟨none, [], none⟩
      ⟨none, if report.fill?.isSome then [] else [], none⟩ (sendExecReport cfg s report) :=
    discharges_sendExecReport (by simp [h])
  rwa [ite_self] at hsend

/-- Messages that are not about executions. -/
theorem discharges_sendBody {body : Body} (h : ∀ id r, body ≠ .execReport id r) :
    Discharges libc cfg .free .free (sendBody cfg s body) := by
  cases body with
  | execReport id r => exact absurd rfl (h id r)
  | _ => exact ⟨rfl, fun _ ↦ rfl⟩

/-- The reports on an order tell of what is first on the list. -/
theorem discharges_reports {reports : List ExecReport} {fills more : List Fill} {top : Option L1}
    (h : fills = reports.filterMap ExecReport.fill? ++ more) :
    Discharges libc cfg ⟨none, fills, top⟩ ⟨none, more, top⟩
      (reports.foldlM (sendExecReport cfg) s) := by
  induction reports generalizing fills s with
  | nil =>
    rw [h]
    exact rfl
  | cons report reports ih =>
    rw [List.foldlM_cons]
    rw [List.filterMap_cons] at h
    cases hfill : report.fill? with
    | none =>
      rw [hfill] at h
      refine (discharges_sendExecReport (by simp [hfill])).bind fun s ↦ ?_
      rw [hfill]
      exact ih h
    | some f =>
      rw [hfill] at h
      refine (discharges_sendExecReport fun f' hf' ↦ ?_).bind fun s ↦ ?_
      · rw [h, ← hf', hfill]
        rfl
      · rw [hfill]
        exact ih (by rw [h]; rfl)

theorem NewOrder.filterMap_fill?_fillReports (o : NewOrder) (qty : Int) (orderId : Nat)
    (trades : List Trade) (cum : Int) (notional : ℚ) :
    (o.fillReports libc qty orderId cum notional trades).filterMap ExecReport.fill?
      = fillsOf libc (.placed orderId trades) := by
  induction trades generalizing cum notional with
  | nil => rfl
  | cons t ts ih =>
    rw [NewOrder.fillReports, List.filterMap_cons_some, ih]
    · rfl
    · rw [ExecReport.fill?, if_pos]
      dsimp only
      split
      · exact .inl rfl
      · exact .inr rfl

/-- **The reports tell of the trades**, in their order. -/
theorem NewOrder.filterMap_fill?_reports (o : NewOrder) (qty : Int) (orderId : Nat)
    (trades : List Trade) :
    (o.reports libc qty orderId trades).filterMap ExecReport.fill?
      = fillsOf libc (.placed orderId trades) := by
  rw [NewOrder.reports]
  cases trades with
  | nil => rfl
  | cons t ts =>
    dsimp only [List.isEmpty_cons]
    rw [if_neg Bool.false_ne_true, List.filterMap_append, filterMap_fill?_fillReports]
    split <;> exact List.append_nil _

theorem discharges_publish (symbol : Bytes) (x : Executed) :
    Discharges libc cfg
      ⟨none, [], if cfg.hasFeed then some (L1.ofTop libc [] x.top) else none⟩ .free
        (publish libc cfg symbol x.top) := by
  rw [publish]
  split
  · exact ⟨⟨rfl, rfl, rfl⟩, fun _ ↦ rfl⟩
  · exact rfl

theorem discharges_onNewOrder : Discharges libc cfg .free .free (onNewOrder libc cfg s m) := by
  rw [onNewOrder]
  split
  · exact discharges_sendExecReport_free rfl
  · refine ⟨rfl, fun x ↦ ?_⟩
    have hfills : fillsOf libc (.placed x.orderId x.trades) = ((NewOrder.of libc m).reports libc
        ((NewOrder.of libc m).qty libc) x.orderId x.trades).filterMap ExecReport.fill? ++ [] := by
      rw [NewOrder.filterMap_fill?_reports, List.append_nil]
    exact (discharges_reports hfills).bind fun s ↦ (discharges_publish _ x).bind fun _ ↦ rfl

theorem discharges_onCancel : Discharges libc cfg .free .free (onCancel cfg s m) := by
  refine ⟨rfl, fun ok ↦ discharges_sendExecReport_free ?_⟩
  cases ok <;> rfl

theorem discharges_onMdRequest : Discharges libc cfg .free .free (onMdRequest libc cfg s m) :=
  ⟨rfl, fun _ ↦ discharges_sendBody (by simp)⟩

theorem discharges_farewell {β : Type} (text : Bytes) (out : Session → β) :
    Discharges libc cfg .free .free
      (do let s ← sendLogout cfg s text; return out { s with running := false }) :=
  (discharges_sendBody (by simp)).bind fun _ ↦ rfl

/-- **A message** is dealt with in full. -/
theorem discharges_handleMessage :
    Discharges libc cfg .free .free (handleMessage libc cfg s m) := by
  rw [handleMessage]
  split
  · exact discharges_farewell _ id
  split
  · exact discharges_sendBody (by simp)
  split
  · exact discharges_farewell _ id
  split
  · exact rfl
  split
  · exact discharges_onNewOrder
  split
  · exact discharges_onCancel
  split
  · exact discharges_onMdRequest
  · exact rfl

theorem discharges_drainFrames {rxBuf : Bytes} :
    Discharges libc cfg .free .free (drainFrames libc cfg s rxBuf) := by
  induction rxBuf using Framing.Splitter.drain_induction (s := splitter) generalizing s with
  | incomplete b hsplit =>
    rw [drainFrames_incomplete hsplit]
    exact rfl
  | malformed b hsplit =>
    rw [drainFrames_malformed hsplit]
    exact discharges_farewell _ fun s ↦ (s, b)
  | ok b f n hsplit ih =>
    rw [drainFrames_ok hsplit]
    split
    · exact discharges_farewell _ fun s ↦ (s, b)
    · exact discharges_handleMessage.bind fun s ↦ ih

/-- **A whole session** owes nothing in the end. -/
theorem discharges_sessionLoop {chunks : List Bytes} {rxBuf : Bytes} :
    Discharges libc cfg .free .free (sessionLoop libc cfg chunks s rxBuf) := by
  induction chunks generalizing s rxBuf with
  | nil => exact rfl
  | cons chunk chunks ih =>
    rw [sessionLoop]
    split
    · exact discharges_drainFrames.bind fun _ ↦ ih
    · exact rfl

end Handlers

/-! ## Accounts -/

/-- The execution id that a request draws. -/
def drawn : (e : Request) × e.Answer → List Nat
  | ⟨.nextExecId, id⟩ => [id]
  | _ => []

/-- The execution id that is sent. -/
def Outbound.execId? (o : Outbound) : Option Nat :=
  match o.body with
  | .execReport id _ => some id
  | _ => none

/-- The execution id that a request reports. -/
def reportedId (a : (e : Request) × e.Answer) : List Nat :=
  (a.1.message?.bind Outbound.execId?).toList

/-- The trades that a request makes. -/
def madeFills (libc : Libc) (a : (e : Request) × e.Answer) : List Fill :=
  (Gateway.bookCall? a).toList.flatMap fun x ↦ fillsOf libc x.2

/-- The trade that a request reports, whether or not the message is sent. -/
def reportedFill (a : (e : Request) × e.Answer) : List Fill :=
  ((a.1.message?.bind Outbound.report?).bind ExecReport.fill?).toList

/-- The top that a request reads to have it published. -/
def readTop (libc : Libc) (cfg : GatewayConfig) : (e : Request) × e.Answer → List L1
  | ⟨.placeLimit .., x⟩ => if cfg.hasFeed then [L1.ofTop libc [] x.top] else []
  | _ => []

/-- The top that a request publishes. -/
def publishedTop : (e : Request) × e.Answer → List L1
  | ⟨.publishL1 _ bidPx bidSz askPx askSz, _⟩ => [⟨[], bidPx, bidSz, askPx, askSz⟩]
  | _ => []

section Accounts

variable {libc : Libc} {cfg : GatewayConfig}

theorem execId_balance (d : Duty) (e : Request) (r : e.Answer) (h : d.Allows e) :
    d.execId.toList ++ drawn ⟨e, r⟩ = reportedId ⟨e, r⟩ ++ (d.next libc cfg e r).execId.toList := by
  cases e with
  | nextExecId =>
    rw [show d.execId = none from h]
    rfl
  | send o =>
    obtain ⟨_, _, _, body⟩ := o
    cases body with
    | execReport id report =>
      rw [show d.execId = some id from h.1]
      rfl
    | _ => exact List.append_nil _
  | placeLimit side price qty =>
    rw [show d = .free from h]
    rfl
  | _ => exact List.append_nil _

theorem fills_balance (d : Duty) (e : Request) (r : e.Answer) (h : d.Allows e) :
    d.fills ++ madeFills libc ⟨e, r⟩ = reportedFill ⟨e, r⟩ ++ (d.next libc cfg e r).fills := by
  cases e with
  | send o =>
    obtain ⟨_, _, _, body⟩ := o
    cases body with
    | execReport id report =>
      show d.fills ++ []
        = report.fill?.toList ++ if report.fill?.isSome then d.fills.tail else d.fills
      rw [List.append_nil]
      cases hfill : report.fill? with
      | none => rfl
      | some f =>
        obtain ⟨rest, hrest⟩ := List.head?_eq_some_iff.mp (h.2 f hfill)
        rw [hrest]
        rfl
    | _ => exact List.append_nil _
  | placeLimit side price qty =>
    rw [show d = .free from h]
    exact List.append_nil _
  | _ => exact List.append_nil _

theorem top_balance (d : Duty) (e : Request) (r : e.Answer) (h : d.Allows e) :
    d.top.toList ++ readTop libc cfg ⟨e, r⟩
      = publishedTop ⟨e, r⟩ ++ (d.next libc cfg e r).top.toList := by
  cases e with
  | send o =>
    obtain ⟨_, _, _, body⟩ := o
    cases body <;> exact List.append_nil _
  | placeLimit side price qty =>
    rw [show d = .free from h]
    show (if cfg.hasFeed then [_] else []) = (if cfg.hasFeed then some _ else none).toList
    split <;> rfl
  | publishL1 symbol bidPx bidSz askPx askSz =>
    rw [show d.top = _ from h.2.2]
    rfl
  | _ => exact List.append_nil _

end Accounts

/-! ## All sessions -/

namespace Gateway

/-- What a session owes. -/
def duty (libc : Libc) (cfg : GatewayConfig) (g : Gateway) (i : Nat) : Duty :=
  after (Duty.next libc cfg) .free (g.trace i)

section Balance

variable {libc : Libc} {cfg : GatewayConfig} {g : Gateway} {i : Nat} {c : Connection} {β : Type}
  {made settled : (e : Request) × e.Answer → List β} {owed : Duty → List β}

/-- Only a session that is handling a chunk owes anything. -/
theorem Traced.duty_eq_free (h : Traced libc cfg g) (hc : g.connections[i]? = some c)
    (hbusy : c.worker.busy = false) : g.duty libc cfg i = .free := by
  obtain ⟨p, hgoes, hret⟩ := (h.each i c hc).goes
  obtain ⟨s, rfl⟩ := hret hbusy
  exact discharges_sessionLoop.after hgoes

/-- The account of one session. -/
theorem Traced.balance (h : Traced libc cfg g)
    (hstep : ∀ d e r, d.Allows e →
      owed d ++ made ⟨e, r⟩ = settled ⟨e, r⟩ ++ owed (d.next libc cfg e r))
    (hfree : owed .free = []) (hc : g.connections[i]? = some c) :
    (g.trace i).flatMap made = (g.trace i).flatMap settled ++ owed (g.duty libc cfg i) := by
  obtain ⟨p, hgoes, -⟩ := (h.each i c hc).goes
  have hbalance := Conforms.balance hstep discharges_sessionLoop hgoes
  rwa [hfree, List.nil_append] at hbalance

/-- **The account of all sessions**, in whatever order they have come. -/
theorem Traced.perm (h : Traced libc cfg g)
    (hstep : ∀ d e r, d.Allows e →
      owed d ++ made ⟨e, r⟩ = settled ⟨e, r⟩ ++ owed (d.next libc cfg e r))
    (hfree : owed .free = []) :
    (g.log.flatMap fun x ↦ made x.2).Perm ((g.log.flatMap fun x ↦ settled x.2) ++
      (List.range g.connections.length).flatMap fun i ↦ owed (g.duty libc cfg i)) := by
  have heach : ∀ i ∈ List.range g.connections.length, (ofTag g.log i).flatMap made
      = (ofTag g.log i).flatMap settled ++ owed (g.duty libc cfg i) := fun i hi ↦
    h.balance hstep hfree (List.getElem?_eq_getElem (List.mem_range.mp hi))
  refine (perm_flatMap_ofTag made h.tags).trans ?_
  rw [List.flatMap_congr heach]
  exact (List.flatMap_append_perm _ _ _).symm.trans
    ((perm_flatMap_ofTag settled h.tags).symm.append_right _)

end Balance

/-! ## What the exchange has to do with it -/

section Exchange

variable {x x' : Exchange} {a : (e : Request) × e.Answer} {t : Events}

/-- A request draws the next id or none, and publishes what it says. -/
theorem Answers.frame (h : Answers x a x') :
    ((drawn a = [] ∧ x'.nextExecId = x.nextExecId) ∨
      (drawn a = [x.nextExecId] ∧ x'.nextExecId = (x.nextExecId + 1) % 2 ^ 64)) ∧
    x'.published.map L1.numbers = x.published.map L1.numbers ++ publishedTop a := by
  obtain ⟨e, r⟩ := a
  rcases h with h | ⟨m, he, rfl⟩
  · cases e with
    | placeLimit side price qty =>
      simp only [serve, Option.bind_eq_bind, Option.pure_def, Option.bind_eq_some_iff] at h
      obtain ⟨_, -, _, -, he⟩ := h
      obtain ⟨rfl, -⟩ := Prod.mk.inj (Option.some.inj he)
      exact ⟨.inl ⟨rfl, rfl⟩, (List.append_nil _).symm⟩
    | cancel id =>
      simp only [serve, Option.bind_eq_bind, Option.pure_def, Option.bind_eq_some_iff] at h
      obtain ⟨_, -, he⟩ := h
      obtain ⟨rfl, -⟩ := Prod.mk.inj (Option.some.inj he)
      exact ⟨.inl ⟨rfl, rfl⟩, (List.append_nil _).symm⟩
    | top =>
      obtain ⟨_, -, he⟩ := Option.bind_eq_some_iff.mp h
      obtain ⟨rfl, -⟩ := Prod.mk.inj (Option.some.inj he)
      exact ⟨.inl ⟨rfl, rfl⟩, (List.append_nil _).symm⟩
    | nextExecId =>
      obtain ⟨rfl, rfl⟩ := Prod.mk.inj (Option.some.inj h)
      exact ⟨.inr ⟨rfl, rfl⟩, (List.append_nil _).symm⟩
    | send m =>
      obtain ⟨rfl, -⟩ := Prod.mk.inj (Option.some.inj h)
      exact ⟨.inl ⟨rfl, rfl⟩, (List.append_nil _).symm⟩
    | publishL1 symbol bidPx bidSz askPx askSz =>
      obtain ⟨rfl, -⟩ := Prod.mk.inj (Option.some.inj h)
      exact ⟨.inl ⟨rfl, rfl⟩, List.map_append⟩
  · obtain ⟨rfl, -⟩ := Sigma.mk.inj he
    exact ⟨.inl ⟨rfl, rfl⟩, (List.append_nil _).symm⟩

/-- The ids are drawn in order, as long as there are any. -/
theorem Replays.drawn_eq (h : Replays x t x')
    (hcount : x.nextExecId + (t.flatMap drawn).length ≤ 2 ^ 64) :
    t.flatMap drawn = List.range' x.nextExecId (t.flatMap drawn).length ∧
      (x.nextExecId + (t.flatMap drawn).length < 2 ^ 64 →
        x'.nextExecId = x.nextExecId + (t.flatMap drawn).length) := by
  induction h with
  | refl => exact ⟨rfl, fun _ ↦ rfl⟩
  | @snoc t x₁ x₂ a _ ha ih =>
    rw [List.flatMap_append, List.flatMap_singleton] at hcount ⊢
    rcases ha.frame.1 with ⟨hnone, hnext⟩ | ⟨hone, hnext⟩
    · rw [hnone, List.append_nil] at hcount ⊢
      rw [hnext]
      exact ih hcount
    · rw [hone, List.length_append, List.length_singleton] at hcount ⊢
      obtain ⟨hdrawn, hlt⟩ := ih (by omega)
      have hx₁ := hlt (by omega)
      refine ⟨?_, fun h ↦ ?_⟩
      · rw [List.range'_concat, ← hdrawn, hx₁, Nat.one_mul]
      · rw [hnext, hx₁, Nat.mod_eq_of_lt (by omega), Nat.add_assoc]

theorem Replays.published (h : Replays x t x') :
    x'.published.map L1.numbers = x.published.map L1.numbers ++ t.flatMap publishedTop := by
  induction h with
  | refl => exact (List.append_nil _).symm
  | snoc _ ha ih =>
    rw [ha.frame.2, ih, List.flatMap_append, List.flatMap_singleton, List.append_assoc]

end Exchange

theorem flatMap_madeFills (libc : Libc) (t : Events) :
    t.flatMap (madeFills libc) = ((bookCalls t).map Prod.snd).flatMap (fillsOf libc) := by
  rw [bookCalls, List.filterMap_eq_flatMap_toList, List.flatMap_map, List.flatMap_assoc]
  rfl

/-- **Every execution id is on one report.**  No id is on two, whichever sessions have drawn them;
and those that have been drawn are on reports, but for the one that a session which is handling a
chunk may be about to send. -/
theorem execIds_once (libc : Libc) (cfg : GatewayConfig) (exchange : Exchange) (g : Gateway)
    (h : g.Reached libc cfg exchange)
    (hcount : exchange.nextExecId + (g.log.flatMap fun x ↦ drawn x.2).length ≤ 2 ^ 64) :
    (g.log.flatMap fun x ↦ reportedId x.2).Nodup ∧
    ∃ held : Nat → Option Nat,
      (∀ (i : Nat) (c : Connection), g.connections[i]? = some c → c.worker.busy = false →
        held i = none) ∧
      ((g.log.flatMap fun x ↦ reportedId x.2) ++
        (List.range g.connections.length).filterMap held).Perm
          (List.range' exchange.nextExecId (g.log.flatMap fun x ↦ drawn x.2).length) := by
  have hperm := h.traced.perm execId_balance rfl
  have hdrawn : (g.log.flatMap fun x ↦ drawn x.2)
      = List.range' exchange.nextExecId (g.log.flatMap fun x ↦ drawn x.2).length := by
    rw [← List.flatMap_map Prod.snd drawn] at hcount ⊢
    exact (h.replays.drawn_eq hcount).1
  rw [hdrawn, ← List.filterMap_eq_flatMap_toList] at hperm
  refine ⟨?_, fun i ↦ (g.duty libc cfg i).execId, fun i c hc hbusy ↦ ?_, hperm.symm⟩
  · exact (List.nodup_append.mp (hperm.nodup List.nodup_range')).1
  · exact congrArg Duty.execId (h.traced.duty_eq_free hc hbusy)

/-- **Every top is published once.**  What has been published is what placements have read under the
lock, but for what sessions that are handling a chunk have yet to publish; the order may be
another. -/
theorem tops_published_once (libc : Libc) (cfg : GatewayConfig) (exchange : Exchange) (g : Gateway)
    (h : g.Reached libc cfg exchange) :
    ∃ owed : Nat → Option L1,
      (∀ (i : Nat) (c : Connection), g.connections[i]? = some c → c.worker.busy = false →
        owed i = none) ∧
      (g.exchange.published.map L1.numbers ++
        (List.range g.connections.length).filterMap owed).Perm
          (exchange.published.map L1.numbers ++ g.log.flatMap fun x ↦ readTop libc cfg x.2) := by
  have hperm := h.traced.perm top_balance rfl
  rw [← List.filterMap_eq_flatMap_toList] at hperm
  refine ⟨fun i ↦ (g.duty libc cfg i).top, fun i c hc hbusy ↦ ?_, ?_⟩
  · exact congrArg Duty.top (h.traced.duty_eq_free hc hbusy)
  · rw [h.replays.published, List.flatMap_map, List.append_assoc]
    exact hperm.symm.append_left _

/-- **Every trade is reported once**, by the session that placed the order, and in the order in
which the book has made them: the report is handed to `send_raw`, which may fail.  What is not
reported yet is owed by sessions that are handling a chunk. -/
theorem fills_reported_once (libc : Libc) (cfg : GatewayConfig) (exchange : Exchange) (g : Gateway)
    (h : g.Reached libc cfg exchange) :
    (∀ (i : Nat) (c : Connection), g.connections[i]? = some c →
      ∃ owed, ((bookCalls (g.trace i)).map Prod.snd).flatMap (fillsOf libc)
          = (g.trace i).flatMap reportedFill ++ owed ∧ (c.worker.busy = false → owed = [])) ∧
    exchange.engine.book.run ((bookCalls (g.log.map Prod.snd)).map Prod.fst)
      = some (g.exchange.engine.book, (bookCalls (g.log.map Prod.snd)).map Prod.snd) ∧
    ∃ owed, (((bookCalls (g.log.map Prod.snd)).map Prod.snd).flatMap (fillsOf libc)).Perm
        ((g.log.flatMap fun x ↦ reportedFill x.2) ++ owed) ∧
      ((∀ c ∈ g.connections, c.worker.busy = false) → owed = []) := by
  refine ⟨fun i c hc ↦ ⟨(g.duty libc cfg i).fills, ?_, fun hbusy ↦ ?_⟩, h.replays.run,
    (List.range g.connections.length).flatMap fun i ↦ (g.duty libc cfg i).fills, ?_, fun hbusy ↦ ?_⟩
  · rw [← flatMap_madeFills]
    exact h.traced.balance fills_balance rfl hc
  · exact congrArg Duty.fills (h.traced.duty_eq_free hc hbusy)
  · rw [← flatMap_madeFills, List.flatMap_map]
    exact h.traced.perm fills_balance rfl
  · refine List.flatMap_eq_nil_iff.mpr fun i hi ↦ ?_
    have hc := List.getElem?_eq_getElem (List.mem_range.mp hi)
    exact congrArg Duty.fills (h.traced.duty_eq_free hc (hbusy _ (List.getElem_mem _)))

/-! ## Two sessions that trade -/

theorem execIds_once_crossing :
    ∃ g, Threads.run (step textLibc ⟨[], true⟩) crossing (.new (.of (.new 2))) = some g ∧
      (g.log.flatMap fun x ↦ drawn x.2).length = 2 ∧
      (g.log.flatMap fun x ↦ reportedId x.2).Nodup := by
  have hread : (Threads.run (step textLibc ⟨[], true⟩) crossing (.new (.of (.new 2)))).map
      (fun g ↦ (g.log.flatMap fun x ↦ drawn x.2).length) = some 2 := by
    decide +kernel
  obtain ⟨g, hrun, hlength⟩ := Option.map_eq_some_iff.mp hread
  exact ⟨g, hrun, hlength, (execIds_once textLibc ⟨[], true⟩ (.of (.new 2)) g ⟨crossing, hrun⟩
    (by rw [hlength]; decide)).1⟩

theorem tops_published_once_crossing :
    ∃ (g : Gateway) (owed : Nat → Option L1),
      Threads.run (step textLibc ⟨[], true⟩) crossing (.new (.of (.new 2))) = some g ∧
      g.exchange.published.length = 2 ∧
      (g.exchange.published.map L1.numbers ++
        (List.range g.connections.length).filterMap owed).Perm
          (g.log.flatMap fun x ↦ readTop textLibc ⟨[], true⟩ x.2) := by
  have hread : (Threads.run (step textLibc ⟨[], true⟩) crossing (.new (.of (.new 2)))).map
      (fun g ↦ g.exchange.published.length) = some 2 := by
    decide +kernel
  obtain ⟨g, hrun, hlength⟩ := Option.map_eq_some_iff.mp hread
  obtain ⟨owed, -, hperm⟩ :=
    tops_published_once textLibc ⟨[], true⟩ (.of (.new 2)) g ⟨crossing, hrun⟩
  exact ⟨g, owed, hrun, hlength, hperm⟩

theorem fills_reported_once_crossing :
    ∃ (g : Gateway) (owed : List Fill),
      Threads.run (step textLibc ⟨[], true⟩) crossing (.new (.of (.new 2))) = some g ∧
      (g.log.flatMap fun x ↦ reportedFill x.2) = [⟨2, 5, 7⟩] ∧ owed = [] ∧
      (((bookCalls (g.log.map Prod.snd)).map Prod.snd).flatMap (fillsOf textLibc)).Perm
        ((g.log.flatMap fun x ↦ reportedFill x.2) ++ owed) := by
  have hread : (Threads.run (step textLibc ⟨[], true⟩) crossing (.new (.of (.new 2)))).map
      (fun g ↦ (g.connections.all (fun c ↦ !c.worker.busy), g.log.flatMap fun x ↦ reportedFill x.2))
        = some (true, [⟨2, 5, 7⟩]) := by
    decide +kernel
  obtain ⟨g, hrun, hg⟩ := Option.map_eq_some_iff.mp hread
  obtain ⟨hbusy, hfills⟩ := Prod.mk.inj hg
  obtain ⟨-, -, owed, hperm, hidle⟩ :=
    fills_reported_once textLibc ⟨[], true⟩ (.of (.new 2)) g ⟨crossing, hrun⟩
  exact ⟨g, owed, hrun, hfills,
    hidle fun c hc ↦ by simpa using List.all_eq_true.mp hbusy c hc, hperm⟩

end Gateway

end Fix

end MatchingEngine
