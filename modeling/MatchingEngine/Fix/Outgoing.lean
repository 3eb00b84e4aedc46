import Mathlib.Algebra.Order.BigOperators.Group.List
import Mathlib.Data.List.Iterate
import MatchingEngine.Fix.Session

/-!
# What a session sends

The other direction of the stream.  A client that reads what the gateway sends uses the same
format, so the bytes should be frames for `split_frame` and `parse_frame`, numbered from one
(`WellFramed`).

What stands in the way is the length.  A reply repeats text of the client, which may be up to a
megabyte long, and `finalize` has room for six digits of the body length: a body of a million
bytes or more goes out with the wrong number in front of it.  `roomy` says that no reply comes near
this, in terms of what the client has sent; then the stream is well framed
(`wellFramed_of_roomy`), and in general it is not (`exists_not_wellFramed`).

A reply is long because of four texts: the two comp ids, and the two texts of the message it
answers.  Everything else in it, tags and numbers, takes no more than `overhead` bytes.
-/

set_option autoImplicit false

namespace MatchingEngine

namespace Fix

open Decimal Framing Program

/-! ## The bytes of a session -/

def Request.message? : Request → Option Outbound
  | .send o => some o
  | _ => none

/-- The messages handed to `send_raw`, in order. -/
def outbox (t : Events) : List Outbound := t.filterMap fun e ↦ e.1.message?

/-- The bytes that may have gone out.  A message that could not be sent is cut off somewhere. -/
def Wire (libc : Libc) : Events → Bytes → Prop
  | [], w => w = []
  | ⟨.send o, true⟩ :: t, w => ∃ w', w = o.bytes libc ++ w' ∧ Wire libc t w'
  | ⟨.send o, false⟩ :: t, w => ∃ part w', part <+: o.bytes libc ∧ w = part ++ w' ∧ Wire libc t w'
  | _ :: t, w => Wire libc t w

/-- These bytes are frames one after the other, each can be read, and they are numbered from one. -/
def WellFramed (w : Bytes) : Prop :=
  ∃ frames : List Bytes, w = frames.flatten ∧ (∀ f ∈ frames, splitFrame f = .ok f f.length) ∧
    ∀ (i : Nat) f, frames[i]? = some f → ∃ m, parseFrame f = some m ∧
    m.getInt Tag.MsgSeqNum 0 = i + 1

/-- Ids are `uint64_t`, which the model of a request does not say. -/
def Request.Typed : (e : Request) → e.Answer → Prop
  | .placeLimit .., x => x.orderId < 2 ^ 64
  | .nextExecId, id => id < 2 ^ 64
  | _, _ => True

def Typed (t : Events) : Prop := ∀ e ∈ t, e.1.Typed e.2

/-- The number texts of a message are complete, which they are when they fit the 64 bytes of
`add_double` with the terminating zero, and can be read back. -/
def Outbound.Printed (libc : Libc) (o : Outbound) : Prop :=
  ∀ tag v decimals, .double tag v decimals ∈ o.body.calls →
    (libc.snprintf decimals v).length < 64 ∧ SOH ∉ libc.snprintf decimals v

/-! ## What is repeated -/

/-- The counterparty after a message. -/
def counterparty (sender : Bytes) (m : Message) : Bytes :=
  if m.msgType = 'A'.toUInt8 then m.get Tag.SenderCompID else sender

/-- How much text of a message its replies repeat. -/
def Message.echoed (m : Message) : Nat :=
  if m.msgType = 'D'.toUInt8 ∨ m.msgType = 'F'.toUInt8 then
    (m.get Tag.ClOrdID).length + (m.get Tag.Symbol).length
  else if m.msgType = 'V'.toUInt8 then (m.get Tag.MDReqID).length + (m.get Tag.Symbol).length
  else 0

/-- What a body takes besides the texts it repeats. -/
def overhead : Nat := 520

/-- There is room for this much text in a message to this counterparty. -/
def fits (cfg : GatewayConfig) (sender : Bytes) (echoed : Nat) : Bool :=
  cfg.compId.length + sender.length + echoed + overhead ≤ 999999

/-- There is room in all replies to these frames, for a session with this counterparty. -/
def roomy (cfg : GatewayConfig) : Bytes → List Bytes → Bool
  | sender, [] => fits cfg sender 0
  | sender, frame :: frames =>
    match parseFrame frame with
    | none => fits cfg sender 0
    | some m =>
      fits cfg (counterparty sender m) m.echoed && roomy cfg (counterparty sender m) frames

theorem fits_zero {cfg : GatewayConfig} {sender : Bytes} {n : Nat} (h : fits cfg sender n = true) :
    fits cfg sender 0 = true := by
  simp only [fits, decide_eq_true_eq] at h ⊢
  omega

/-! ## A message -/

namespace AddCall

def tag : AddCall → Int
  | .str tag _ => tag
  | .int tag _ => tag
  | .char tag _ => tag
  | .double tag _ _ => tag

/-- How much a call adds to the body at most, for a tag of up to three digits. -/
def room : AddCall → Nat
  | .str _ v => v.length + 5
  | .int _ v => (toChars v).length + 5
  | .char _ _ => 6
  | .double _ _ _ => 68

theorem length_encode_field_le {snprintf : Int → ℚ → Bytes} {call : AddCall}
    (hnonneg : 0 ≤ call.tag) (htag : call.tag < 1000)
    (hsnprintf : ∀ tag v decimals, call = .double tag v decimals →
      (snprintf decimals v).length < 64) :
    (call.field snprintf).encode.length ≤ call.room := by
  have hlength : ∀ text : Bytes, (Field.encode ⟨call.tag, text⟩).length ≤ text.length + 5 := by
    intro text
    have hrender : (render call.tag.natAbs).length ≤ 3 :=
      (length_render_le_iff (by decide)).mpr (by omega)
    rw [Field.encode, toChars_of_nonneg hnonneg]
    simp only [List.length_append, List.length_cons, List.length_nil]
    omega
  cases call with
  | str tag v => exact hlength v
  | int tag v => exact hlength (toChars v)
  | char tag c => exact hlength [c]
  | double tag v decimals =>
    have := hlength (snprintf decimals v)
    have := hsnprintf tag v decimals rfl
    simp only [field, room, AddCall.tag] at *
    omega

end AddCall

/-- The tags in use have at most three digits. -/
theorem Body.tag_of_mem_calls {body : Body} {call : AddCall} (h : call ∈ body.calls) :
    0 ≤ call.tag ∧ call.tag < 1000 := by
  have key : ∀ call ∈ body.calls, 0 ≤ call.tag ∧ call.tag < 1000 := by
    cases body with
    | logonAck => decide
    | logout text =>
      intro call hcall
      rw [Body.calls] at hcall
      split at hcall
      · simp at hcall
      · rw [List.mem_singleton.mp hcall]
        exact (by decide : 0 ≤ Tag.Text ∧ Tag.Text < 1000)
    | execReport execId r => simp +decide [Body.calls, AddCall.tag]
    | mdSnapshot q => cases h : q.mdReqId <;> simp +decide [Body.calls, AddCall.tag, h]
  exact key call h

namespace Outbound

variable {libc : Libc} {o : Outbound}

/-- The fields of the body of a message. -/
def fields (libc : Libc) (o : Outbound) : List Field :=
  standardHeader o.body.msgType o.sender o.target o.seq ++
    o.body.calls.map (AddCall.field libc.snprintf)

theorem open_build (libc : Libc) (o : Outbound) :
    (Builder.new.build libc.snprintf o.body.msgType o.sender o.target o.seq o.body.calls).Open
      (o.fields libc) :=
  (Builder.new.open_begin o.body.msgType o.sender o.target o.seq).foldl libc.snprintf o.body.calls

/-- A message that can be read back, if its numbers can. -/
structure Writable (o : Outbound) : Prop where
  sender : SOH ∉ o.sender
  target : SOH ∉ o.target
  clean : ∀ call ∈ o.body.calls, call.Clean
  room : o.sender.length + o.target.length + (o.body.calls.map AddCall.room).sum + 31 ≤ 999999

theorem Writable.sound (h : o.Writable) (hprinted : o.Printed libc) :
    ∀ f ∈ o.fields libc, f.Sound := by
  have hmsgType : o.body.msgType ≠ SOH := by cases o.body <;> simp +decide [Body.msgType]
  rw [fields, List.forall_mem_append]
  refine ⟨sound_standardHeader hmsgType h.sender h.target o.seq, fun f hf ↦ ?_⟩
  obtain ⟨call, hcall, rfl⟩ := List.mem_map.mp hf
  exact (h.clean call hcall).sound fun tag v decimals he ↦ (hprinted tag v decimals (he ▸ hcall)).2

theorem Writable.length_le (h : o.Writable) (hprinted : o.Printed libc) (hseq : o.seq < 2 ^ 32) :
    ((o.fields libc).flatMap Field.encode).length ≤ 999999 := by
  have hbody : ((o.body.calls.map (AddCall.field libc.snprintf)).flatMap Field.encode).length
      ≤ (o.body.calls.map AddCall.room).sum := by
    rw [List.length_flatMap, List.map_map]
    refine List.sum_le_sum fun call hcall ↦ ?_
    obtain ⟨hnonneg, htag⟩ := Body.tag_of_mem_calls hcall
    exact AddCall.length_encode_field_le hnonneg htag fun tag v decimals he ↦
      (hprinted tag v decimals (he ▸ hcall)).1
  have hdigits : (toChars o.seq).length ≤ 10 := by
    rw [toChars_of_nonneg (Int.natCast_nonneg _)]
    exact (length_render_le_iff (by decide)).mpr (by omega)
  have hheader : ((standardHeader o.body.msgType o.sender o.target o.seq).flatMap
      Field.encode).length ≤ o.sender.length + o.target.length + 31 := by
    have htags : (toChars Tag.MsgType).length = 2 ∧ (toChars Tag.SenderCompID).length = 2 ∧
        (toChars Tag.TargetCompID).length = 2 ∧ (toChars Tag.MsgSeqNum).length = 2 := by decide
    simp only [standardHeader, List.flatMap_cons, List.flatMap_nil, Field.encode,
      List.length_append, List.length_cons, List.length_nil, htags]
    omega
  rw [fields, List.flatMap_append, List.length_append]
  have := h.room
  omega

end Outbound

theorem fromCharsInt64_toChars {n : Nat} (h : n < 2 ^ 63) :
    fromCharsInt64 (toChars n) = some n := by
  rw [toChars_of_nonneg (Int.natCast_nonneg n), Int.natAbs_natCast]
  obtain ⟨c, cs, hcs⟩ := List.exists_cons_of_ne_nil (render_ne_nil n)
  have hdigits : ∀ c ∈ render n, isDigit c = true := isDigit_of_mem_render
  have hminus : c ≠ 45 := by
    rintro rfl
    exact absurd (hdigits 45 (by rw [hcs]; exact List.mem_cons_self)) (by decide)
  have hall : (render n).takeWhile isDigit = render n := List.takeWhile_eq_self_iff.mpr hdigits
  rw [hcs] at hall ⊢
  simp only [fromCharsInt64]
  rw [if_neg hminus, hall, ← hcs, fromChars_eq_some.mpr ⟨render_ne_nil n, value_render n, h⟩]
  rfl

/-- **A message is a frame** and carries its number. -/
theorem Outbound.Writable.frame {libc : Libc} {o : Outbound} (h : o.Writable)
    (hprinted : o.Printed libc) (hseq : o.seq < 2 ^ 32) :
    splitFrame (o.bytes libc) = .ok (o.bytes libc) (o.bytes libc).length ∧
      ∃ m, parseFrame (o.bytes libc) = some m ∧ m.getInt Tag.MsgSeqNum 0 = o.seq := by
  have hopen := o.open_build libc
  have hlen := h.length_le hprinted hseq
  have hsplit := hopen.splitFrame_finalize hlen []
  rw [List.append_nil] at hsplit
  refine ⟨hsplit, _, hopen.parseFrame_finalize hlen (h.sound hprinted), ?_⟩
  generalize hm : (⟨_⟩ : Message) = m
  have hget : m.get Tag.MsgSeqNum = toChars o.seq := by
    rw [← hm]
    simp +decide [Message.get, Outbound.fields, standardHeader]
  have hne : (toChars o.seq).isEmpty = false := by
    rw [toChars_of_nonneg (Int.natCast_nonneg _), List.isEmpty_eq_false_iff]
    exact render_ne_nil _
  rw [Message.getInt, hget, hne, fromCharsInt64_toChars (by omega)]
  rfl

/-! ## The handlers -/

/-- How `out_seq` goes on. -/
def nextSeq (n : Nat) : Nat := (n + 1) % 2 ^ 32

theorem outbox_append (t₁ t₂ : Events) : outbox (t₁ ++ t₂) = outbox t₁ ++ outbox t₂ :=
  List.filterMap_append

theorem Typed.left {t₁ t₂ : Events} (h : Typed (t₁ ++ t₂)) : Typed t₁ :=
  (List.forall_mem_append.mp h).1

theorem Typed.right {t₁ t₂ : Events} (h : Typed (t₁ ++ t₂)) : Typed t₂ :=
  (List.forall_mem_append.mp h).2

theorem Typed.tail {e : (e : Request) × e.Answer} {t : Events} (h : Typed (e :: t)) : Typed t :=
  (List.forall_mem_cons.mp h).2

/-- What a part of a session sends: the messages are numbered on, and can be read back. -/
structure Posts (s : Session) (t : Events) (s' : Session) : Prop where
  seqs : (outbox t).map Outbound.seq = List.iterate nextSeq s.outSeq (outbox t).length
  outSeq : s'.outSeq = nextSeq^[(outbox t).length] s.outSeq
  writable : ∀ o ∈ outbox t, o.Writable

namespace Posts

variable {s s' s'' : Session} {t t' : Events}

theorem of_outbox_eq_nil (h : outbox t = []) (hseq : s'.outSeq = s.outSeq) : Posts s t s' := by
  refine ⟨?_, ?_, ?_⟩ <;> simp [h, hseq]

theorem trans (h : Posts s t s') (h' : Posts s' t' s'') : Posts s (t ++ t') s'' where
  seqs := by
    rw [outbox_append, List.map_append, List.length_append, List.iterate_add, h.seqs,
      h'.seqs, h.outSeq]
  outSeq := by
    rw [outbox_append, List.length_append, Nat.add_comm, Function.iterate_add_apply, ← h.outSeq,
      h'.outSeq]
  writable := by
    rw [outbox_append, List.forall_mem_append]
    exact ⟨h.writable, h'.writable⟩

end Posts

section Handlers

variable {libc : Libc} {cfg : GatewayConfig} {s s' : Session} {m : Message} {t : Events}

/-- A session that can send this much text of the client. -/
structure Ready (cfg : GatewayConfig) (s : Session) (echoed : Nat) : Prop where
  compId : SOH ∉ cfg.compId
  senderComp : SOH ∉ s.senderComp
  fits : fits cfg s.senderComp echoed = true

theorem posts_sendBody {body : Body} {echoed : Nat} (hs : Ready cfg s echoed)
    (hclean : ∀ call ∈ body.calls, call.Clean)
    (hroom : (body.calls.map AddCall.room).sum + 31 ≤ echoed + overhead)
    (h : Runs (sendBody cfg s body) t s') : Posts s t s' ∧ s'.senderComp = s.senderComp := by
  obtain ⟨ok, _, rfl, rfl, rfl⟩ := h
  have hbox : outbox [⟨.send ⟨cfg.compId, s.senderComp, s.outSeq, body⟩, ok⟩]
      = [⟨cfg.compId, s.senderComp, s.outSeq, body⟩] := rfl
  refine ⟨⟨?_, ?_, ?_⟩, by cases ok <;> rfl⟩
  · rw [hbox]
    rfl
  · rw [hbox]
    cases ok <;> rfl
  · rw [hbox, List.forall_mem_singleton]
    refine ⟨hs.compId, hs.senderComp, hclean, ?_⟩
    have := hs.fits
    simp only [Fix.fits, decide_eq_true_eq] at this
    dsimp only
    omega

theorem length_toChars_lt {n : Nat} (h : n < 2 ^ 64) : (toChars n).length ≤ 20 := by
  rw [toChars_of_nonneg (Int.natCast_nonneg n)]
  exact (length_render_le_iff (by decide)).mpr (by omega)

/-- An execution report repeats a client order id, a symbol and a side. -/
theorem posts_sendExecReport {report : ExecReport}
    (hs : Ready cfg s (report.clOrdId.length + report.symbol.length)) (hid : SOH ∉ report.clOrdId)
    (hsymbol : SOH ∉ report.symbol) (hside : report.side ≠ SOH) (horder : report.orderId < 2 ^ 64)
    (htyped : Typed t) (h : Runs (sendExecReport cfg s report) t s') :
    Posts s t s' ∧ s'.senderComp = s.senderComp := by
  obtain ⟨execId, t, rfl, h⟩ := h
  have hexec : execId < 2 ^ 64 := htyped ⟨.nextExecId, execId⟩ List.mem_cons_self
  have hclean : ∀ call ∈ (Body.execReport execId report).calls, call.Clean := by
    have htype : report.execType.code ≠ SOH := by cases report.execType <;> decide
    have hstatus : report.ordStatus.code ≠ SOH := by cases report.ordStatus <;> decide
    have hexecId : SOH ∉ ascii ['E'] ++ toChars execId := by
      rw [List.mem_append, not_or]
      exact ⟨by decide, soh_not_mem_toChars _⟩
    simp +decide
      [Body.calls, AddCall.Clean, soh_not_mem_toChars, hid, hsymbol, hside, htype, hstatus, hexecId]
  have hroom : ((Body.execReport execId report).calls.map AddCall.room).sum + 31
      ≤ report.clOrdId.length + report.symbol.length + overhead := by
    have := length_toChars_lt horder
    have := length_toChars_lt hexec
    have : (ascii ['E']).length = 1 := rfl
    simp only [Body.calls, AddCall.room, List.map_cons, List.map_nil, List.sum_cons, List.sum_nil,
      List.length_append, overhead]
    omega
  obtain ⟨hposts, hsender⟩ := posts_sendBody hs hclean hroom h
  exact ⟨(Posts.of_outbox_eq_nil (t := [⟨.nextExecId, execId⟩]) rfl rfl).trans hposts, hsender⟩

/-- A snapshot repeats the id of the request, if it has one, and a symbol. -/
theorem posts_sendMdSnapshot {q : MdSnapshot}
    (hs : Ready cfg s (q.mdReqId.length + q.symbol.length)) (hid : SOH ∉ q.mdReqId)
    (hsymbol : SOH ∉ q.symbol) (h : Runs (sendMdSnapshot cfg s q) t s') :
    Posts s t s' ∧ s'.senderComp = s.senderComp := by
  refine posts_sendBody hs ?_ ?_ h
  · rw [Body.calls, List.forall_mem_append]
    refine ⟨?_, by simp +decide [AddCall.Clean, hsymbol]⟩
    split
    · simp
    · simp +decide [AddCall.Clean, hid]
  · have hcount : (toChars 2).length = 1 := by decide
    rw [Body.calls, overhead]
    split
    · simp only [AddCall.room, List.nil_append, List.map_cons, List.map_nil, List.sum_cons,
        List.sum_nil, hcount]
      omega
    · simp only [AddCall.room, List.cons_append, List.nil_append, List.map_cons, List.map_nil,
        List.sum_cons, List.sum_nil, hcount]
      omega

theorem posts_sendLogout {text : Bytes} {echoed : Nat} (hs : Ready cfg s echoed)
    (htext : SOH ∉ text) (hlen : text.length ≤ 100) (h : Runs (sendLogout cfg s text) t s') :
    Posts s t s' ∧ s'.senderComp = s.senderComp := by
  refine posts_sendBody hs ?_ ?_ h
  · intro call hcall
    rw [Body.calls] at hcall
    split at hcall
    · simp at hcall
    · rw [List.mem_singleton.mp hcall]
      exact ⟨by decide, by decide, htext⟩
  · rw [Body.calls, overhead]
    split
    · simp only [List.map_nil, List.sum_nil]
      omega
    · simp only [List.map_cons, List.map_nil, List.sum_cons, List.sum_nil, AddCall.room]
      omega

/-- A Logout that ends the session, whatever is returned along with it. -/
theorem posts_farewell {β : Type} {text : Bytes} {echoed : Nat} (hs : Ready cfg s echoed)
    (htext : SOH ∉ text) (hlen : text.length ≤ 100) (out : Session → β) {b : β}
    (h : Runs (do let s ← sendLogout cfg s text; return out { s with running := false }) t b) :
    ∃ s', b = out s' ∧ Posts s t s' ∧ s'.senderComp = s.senderComp ∧ s'.running = false := by
  obtain ⟨t, s₁, _, rfl, hlogout, rfl, rfl⟩ := runs_bind.mp h
  obtain ⟨hposts, hsender⟩ := posts_sendLogout hs htext hlen hlogout
  rw [List.append_nil]
  exact ⟨_, rfl, ⟨hposts.seqs, hposts.outSeq, hposts.writable⟩, hsender, rfl⟩

theorem posts_onLogon (hparse : SOH ∉ m.get Tag.SenderCompID) (hcomp : SOH ∉ cfg.compId)
    (hfits : fits cfg (m.get Tag.SenderCompID) 0 = true) (h : Runs (onLogon cfg s m) t s') :
    Posts s t s' ∧ s'.senderComp = m.get Tag.SenderCompID := by
  obtain ⟨hposts, hsender⟩ := posts_sendBody (s := { s with
    senderComp := m.get Tag.SenderCompID, loggedOn := true }) ⟨hcomp, hparse, hfits⟩ (by
      simp +decide [Body.calls, AddCall.Clean]) (by decide) h
  exact ⟨⟨hposts.seqs, hposts.outSeq, hposts.writable⟩, hsender⟩

/-- All reports on an order are about that order. -/
theorem NewOrder.mem_reports {o : NewOrder} {qty : Int} {orderId : Nat} {trades : List Trade}
    {r : ExecReport} (h : r ∈ o.reports libc qty orderId trades) :
    r.clOrdId = o.clOrdId ∧ r.symbol = o.symbol ∧ r.side = o.sideC ∧ r.orderId = orderId := by
  have hfills : ∀ cum notional, ∀ r ∈ o.fillReports libc qty orderId cum notional trades,
      r.clOrdId = o.clOrdId ∧ r.symbol = o.symbol ∧ r.side = o.sideC ∧ r.orderId = orderId := by
    clear h
    induction trades with
    | nil => simp [fillReports]
    | cons t ts ih =>
      intro cum notional
      rw [fillReports, List.forall_mem_cons]
      exact ⟨⟨rfl, rfl, rfl, rfl⟩, ih _ _⟩
  rw [reports] at h
  split at h
  · rw [List.mem_singleton.mp h]
    exact ⟨rfl, rfl, rfl, rfl⟩
  · rcases List.mem_append.mp h with h | h
    · exact hfills 0 0 r h
    split at h
    · rw [List.mem_singleton.mp h]
      exact ⟨rfl, rfl, rfl, rfl⟩
    · simp at h

theorem sideChar_ne_soh (hclean : SOH ∉ m.get Tag.SideTag) : sideChar m ≠ SOH := by
  rw [sideChar]
  cases h : m.get Tag.SideTag with
  | nil => decide
  | cons c cs =>
    rintro rfl
    rw [h] at hclean
    exact hclean List.mem_cons_self

/-- The texts a message repeats are its own, so that they do not end early. -/
def Message.Clean (m : Message) : Prop := ∀ tag, SOH ∉ m.get tag

/-- The reports on an order. -/
theorem posts_sendExecReports {reports : List ExecReport} (hm : m.Clean)
    (hs : Ready cfg s ((m.get Tag.ClOrdID).length + (m.get Tag.Symbol).length))
    (hreports : ∀ r ∈ reports, r.clOrdId = m.get Tag.ClOrdID ∧ r.symbol = m.get Tag.Symbol ∧
      r.side = sideChar m ∧ r.orderId < 2 ^ 64)
    (htyped : Typed t) (h : Runs (reports.foldlM (sendExecReport cfg) s) t s') :
    Posts s t s' ∧ s'.senderComp = s.senderComp := by
  refine runs_foldlM (P := fun s t s' ↦ Ready cfg s ((m.get Tag.ClOrdID).length +
    (m.get Tag.Symbol).length) → Typed t → Posts s t s' ∧ s'.senderComp = s.senderComp)
    ?_ ?_ ?_ h hs htyped
  · exact fun s _ _ ↦ ⟨.of_outbox_eq_nil rfl rfl, rfl⟩
  · intro s₁ t₁ s₂ t₂ s₃ h₁ h₂ hs ht
    obtain ⟨hp, he⟩ := h₁ hs ht.left
    obtain ⟨hp', he'⟩ := h₂ ⟨hs.compId, he ▸ hs.senderComp, he ▸ hs.fits⟩ ht.right
    exact ⟨hp.trans hp', he'.trans he⟩
  · intro r hr s t s' hrun hs ht
    obtain ⟨hclOrdId, hsymbol, hside, horder⟩ := hreports r hr
    refine posts_sendExecReport ?_ (hclOrdId ▸ hm _) (hsymbol ▸ hm _) ?_ horder ht hrun
    · rw [hclOrdId, hsymbol]
      exact hs
    · rw [hside]
      exact sideChar_ne_soh (hm Tag.SideTag)

theorem outbox_publish {symbol : Bytes} {top : Top} {u : Unit}
    (h : Runs (publish libc cfg symbol top) t u) : outbox t = [] := by
  rw [publish] at h
  split at h
  · obtain rfl := runs_perform.mp h
    rfl
  · obtain ⟨rfl, -⟩ := h
    rfl

theorem posts_onNewOrder (hm : m.Clean)
    (hs : Ready cfg s ((m.get Tag.ClOrdID).length + (m.get Tag.Symbol).length)) (htyped : Typed t)
    (h : Runs (onNewOrder libc cfg s m) t s') : Posts s t s' ∧ s'.senderComp = s.senderComp := by
  rw [onNewOrder] at h
  split at h
  case isTrue hrejected =>
    exact posts_sendExecReport hs (hm _) (hm _) (sideChar_ne_soh (hm _)) (by decide : 0 < 2 ^ 64)
      htyped h
  case isFalse haccepted =>
    obtain ⟨_, x, _, rfl, hplace, hrest⟩ := runs_bind.mp h
    obtain rfl := runs_perform.mp hplace
    obtain ⟨t₁, s₁, _, rfl, hreports, hlast⟩ := runs_bind.mp hrest
    obtain ⟨t₂, u, _, rfl, hpublish, rfl, rfl⟩ := runs_bind.mp hlast
    have hid : x.orderId < 2 ^ 64 := htyped ⟨.placeLimit _ _ _, x⟩ List.mem_cons_self
    obtain ⟨hposts, hsender⟩ := posts_sendExecReports hm hs (fun r hr ↦ by
      obtain ⟨hclOrdId, hsymbol, hside, horder⟩ := NewOrder.mem_reports hr
      exact ⟨hclOrdId, hsymbol, hside, horder ▸ hid⟩) htyped.right.left hreports
    refine ⟨?_, hsender⟩
    rw [List.append_nil]
    have hplaced : ∀ side price qty, Posts s [⟨.placeLimit side price qty, x⟩] s :=
      fun _ _ _ ↦ .of_outbox_eq_nil rfl rfl
    exact (hplaced _ _ _).trans (hposts.trans (.of_outbox_eq_nil (outbox_publish hpublish) rfl))

theorem posts_onCancel (hm : m.Clean)
    (hs : Ready cfg s ((m.get Tag.ClOrdID).length + (m.get Tag.Symbol).length)) (htyped : Typed t)
    (h : Runs (onCancel cfg s m) t s') : Posts s t s' ∧ s'.senderComp = s.senderComp := by
  obtain ⟨ok, t, rfl, h⟩ := h
  have hid : cancelledId m < 2 ^ 64 := by
    rw [cancelledId]
    omega
  obtain ⟨hposts, hsender⟩ := posts_sendExecReport hs (hm _) (hm _) (sideChar_ne_soh (hm _)) hid
    htyped.tail h
  exact ⟨(Posts.of_outbox_eq_nil (t := [⟨.cancel _, ok⟩]) rfl rfl).trans hposts, hsender⟩

theorem posts_onMdRequest (hm : m.Clean)
    (hs : Ready cfg s ((m.get Tag.MDReqID).length + (m.get Tag.Symbol).length))
    (h : Runs (onMdRequest libc cfg s m) t s') : Posts s t s' ∧ s'.senderComp = s.senderComp := by
  obtain ⟨top, t, rfl, h⟩ := h
  obtain ⟨hposts, hsender⟩ := posts_sendMdSnapshot hs (hm _) (hm _) h
  exact ⟨(Posts.of_outbox_eq_nil (t := [⟨.top, top⟩]) rfl rfl).trans hposts, hsender⟩

/-- **What handling a message sends.** -/
theorem posts_handleMessage (hm : m.Clean) (hcomp : SOH ∉ cfg.compId) (hsender : SOH ∉ s.senderComp)
    (hfits : fits cfg (counterparty s.senderComp m) m.echoed = true) (htyped : Typed t)
    (h : Runs (handleMessage libc cfg s m) t s') :
    Posts s t s' ∧ s'.senderComp = counterparty s.senderComp m := by
  by_cases hA : m.msgType = 'A'.toUInt8
  · rw [handleMessage, if_neg (by simp [hA]), if_pos hA] at h
    rw [counterparty, if_pos hA] at hfits ⊢
    exact posts_onLogon (hm _) hcomp (fits_zero hfits) h
  rw [counterparty, if_neg hA] at hfits ⊢
  have hs : Ready cfg s m.echoed := ⟨hcomp, hsender, hfits⟩
  rw [handleMessage] at h
  split at h
  · obtain ⟨_, rfl, hposts, he, -⟩ := posts_farewell hs (by decide) (by decide) id h
    exact ⟨hposts, he⟩
  split at h
  · obtain ⟨_, rfl, hposts, he, -⟩ := posts_farewell hs (by decide) (by decide) id h
    exact ⟨hposts, he⟩
  split at h
  · obtain ⟨rfl, rfl⟩ := h
    exact ⟨.of_outbox_eq_nil rfl rfl, rfl⟩
  rw [Message.echoed] at hs
  split at h
  · rename_i hD
    rw [if_pos (.inl hD)] at hs
    exact posts_onNewOrder hm hs htyped h
  split at h
  · rename_i hF
    rw [if_pos (.inr hF)] at hs
    exact posts_onCancel hm hs htyped h
  rename_i hD hF
  split at h
  · rename_i hV
    rw [if_neg (by simp [hD, hF]), if_pos hV] at hs
    exact posts_onMdRequest hm hs h
  · obtain ⟨rfl, rfl⟩ := h
    exact ⟨.of_outbox_eq_nil rfl rfl, rfl⟩

end Handlers

/-! ## The receive loop -/

section Loop

variable {libc : Libc} {cfg : GatewayConfig} {s s' : Session} {t : Events} {rxBuf rxBuf' : Bytes}
  {chunks : List Bytes}

/-- The frames in `rx_buf`.  `more` is what follows them in the stream; it matters if the session
goes on. -/
theorem posts_drainFrames (hs : Ready cfg s 0) (more : List Bytes)
    (hroomy : roomy cfg s.senderComp ((splitter.drain rxBuf).frames ++ more) = true)
    (htyped : Typed t) (h : Runs (drainFrames libc cfg s rxBuf) t (s', rxBuf')) :
    Posts s t s' ∧ (s'.running = true → (splitter.drain rxBuf).status = .incomplete ∧
      rxBuf' = (splitter.drain rxBuf).rest ∧ Ready cfg s' 0 ∧
      roomy cfg s'.senderComp more = true) := by
  induction rxBuf using Splitter.drain_induction (s := splitter) generalizing s t with
  | incomplete b hsplit =>
    rw [Splitter.drain_incomplete hsplit] at hroomy ⊢
    rw [drainFrames_incomplete hsplit] at h
    obtain ⟨rfl, he⟩ := h
    obtain ⟨rfl, rfl⟩ := Prod.mk.inj he
    exact ⟨.of_outbox_eq_nil rfl rfl, fun _ ↦ ⟨rfl, rfl, hs, hroomy⟩⟩
  | malformed b hsplit =>
    rw [drainFrames_malformed hsplit] at h
    obtain ⟨s₁, he, hposts, -, hstopped⟩ := posts_farewell hs (by decide) (by decide) (·, b) h
    obtain ⟨rfl, rfl⟩ := Prod.mk.inj he
    exact ⟨hposts, by simp [hstopped]⟩
  | ok b f n hsplit ih =>
    rw [Splitter.drain_ok hsplit] at hroomy ⊢
    rw [drainFrames_ok hsplit] at h
    rw [List.cons_append, roomy] at hroomy
    cases hparse : parseFrame f with
    | none =>
      rw [hparse] at h
      obtain ⟨s₁, he, hposts, -, hstopped⟩ := posts_farewell hs (by decide) (by decide) (·, b) h
      obtain ⟨rfl, rfl⟩ := Prod.mk.inj he
      exact ⟨hposts, by simp [hstopped]⟩
    | some m =>
      rw [hparse] at h hroomy
      obtain ⟨hfits, hroomy⟩ := Bool.and_eq_true_iff.mp hroomy
      obtain ⟨t₁, s₁, t₂, rfl, hhandle, h⟩ := runs_bind.mp h
      have hm : m.Clean := fun tag ↦ Message.soh_not_mem_get hparse tag
      obtain ⟨hposts, hsender⟩ :=
        posts_handleMessage hm hs.compId hs.senderComp hfits htyped.left hhandle
      have hs₁ : Ready cfg s₁ 0 := by
        refine ⟨hs.compId, ?_, hsender ▸ fits_zero hfits⟩
        rw [hsender, counterparty]
        split
        · exact hm _
        · exact hs.senderComp
      obtain ⟨hrest, hgoes⟩ := ih hs₁ (hsender ▸ hroomy) htyped.right h
      exact ⟨hposts.trans hrest, hgoes⟩

theorem posts_sessionLoop (hs : Ready cfg s 0)
    (hroomy : roomy cfg s.senderComp (splitter.drain (rxBuf ++ chunks.flatten)).frames = true)
    (htyped : Typed t) (h : Runs (sessionLoop libc cfg chunks s rxBuf) t s') : Posts s t s' := by
  induction chunks generalizing s rxBuf t with
  | nil =>
    obtain ⟨rfl, rfl⟩ := h
    exact .of_outbox_eq_nil rfl rfl
  | cons chunk chunks ih =>
    rw [sessionLoop] at h
    split at h
    case isFalse =>
      obtain ⟨rfl, rfl⟩ := h
      exact .of_outbox_eq_nil rfl rfl
    case isTrue =>
      obtain ⟨t₁, ⟨s₁, rxBuf₁⟩, t₂, rfl, hdrain, hrest⟩ := runs_bind.mp h
      rw [List.flatten_cons, ← List.append_assoc] at hroomy
      generalize rxBuf ++ chunk = b at *
      obtain ⟨more, hmore, hgoes⟩ : ∃ more, (splitter.drain (b ++ chunks.flatten)).frames
          = (splitter.drain b).frames ++ more ∧ ((splitter.drain b).status = .incomplete →
            more = (splitter.drain ((splitter.drain b).rest ++ chunks.flatten)).frames) := by
        obtain ⟨more, hmore⟩ := Splitter.exists_frames_drain_append (s := splitter) b chunks.flatten
        refine ⟨more, hmore, fun hstatus ↦ ?_⟩
        rw [Splitter.drain_append_of_incomplete hstatus] at hmore
        exact (List.append_cancel_left hmore).symm
      rw [hmore] at hroomy
      obtain ⟨hposts, hnext⟩ := posts_drainFrames hs more hroomy htyped.left hdrain
      cases hrunning : s₁.running with
      | false =>
        obtain ⟨rfl, rfl⟩ := runs_sessionLoop_stopped hrunning hrest
        exact hposts.trans (.of_outbox_eq_nil rfl rfl)
      | true =>
        obtain ⟨hstatus, rfl, hs₁, hroomy₁⟩ := hnext hrunning
        exact hposts.trans (ih hs₁ (hgoes hstatus ▸ hroomy₁) htyped.right hrest)

end Loop

/-! ## Whole sessions -/

section Whole

variable {libc : Libc} {t : Events} {w : Bytes}

/-- If all was sent, then the messages as they are. -/
theorem Wire.eq_flatMap (h : Wire libc t w) (hsent : AllSent t) :
    w = (outbox t).flatMap (Outbound.bytes libc) := by
  induction t generalizing w with
  | nil => exact h
  | cons e t ih =>
    have hrest : AllSent t := hsent.tail
    obtain ⟨e, r⟩ := e
    cases e with
    | send o =>
      obtain rfl : r = true := hsent o r List.mem_cons_self
      obtain ⟨w', rfl, hw'⟩ := h
      rw [ih hw' hrest]
      rfl
    | _ => exact ih h hrest

theorem wire_of_allSent (hsent : AllSent t) :
    Wire libc t ((outbox t).flatMap (Outbound.bytes libc)) := by
  induction t with
  | nil => rfl
  | cons e t ih =>
    have hrest := ih (hsent.tail)
    obtain ⟨e, r⟩ := e
    cases e with
    | send o =>
      obtain rfl : r = true := hsent o r List.mem_cons_self
      exact ⟨_, rfl, hrest⟩
    | _ => exact hrest

/-- The numbers do not wrap as long as they fit. -/
theorem iterate_nextSeq {n k : Nat} (h : n + k ≤ 2 ^ 32) :
    List.iterate nextSeq n k = List.range' n k := by
  induction k generalizing n with
  | zero => rfl
  | succ k ih =>
    rw [List.iterate, List.range'_succ]
    cases k with
    | zero => rfl
    | succ k =>
      have hnext : nextSeq n = n + 1 := by
        rw [nextSeq]
        omega
      rw [hnext, ih (by omega)]

theorem fits_nil_of_roomy {cfg : GatewayConfig} {sender : Bytes} {frames : List Bytes}
    (h : roomy cfg sender frames = true) : fits cfg [] 0 = true := by
  have hshorter : ∀ {sender n}, fits cfg sender n = true → fits cfg [] 0 = true := by
    intro sender n h
    simp only [fits, decide_eq_true_eq, List.length_nil] at h ⊢
    omega
  cases frames with
  | nil => exact hshorter h
  | cons frame frames =>
    rw [roomy] at h
    split at h
    · exact hshorter h
    · exact hshorter (Bool.and_eq_true_iff.mp h).1

/-- **What a session sends is well framed**, whatever the stream and however it is cut, if there is
room in all replies and nothing fails to be sent. -/
theorem wellFramed_of_roomy (libc : Libc) (cfg : GatewayConfig) (hcomp : SOH ∉ cfg.compId)
    (chunks : List Bytes) (hroomy : roomy cfg [] (splitter.drain chunks.flatten).frames = true)
    (t : Events) (s : Session) (h : Runs (sessionLoop libc cfg chunks .new []) t s)
    (htyped : Typed t) (hsent : AllSent t) (hcount : (outbox t).length < 2 ^ 32)
    (hprinted : ∀ o ∈ outbox t, o.Printed libc) (w : Bytes) (hw : Wire libc t w) :
    WellFramed w := by
  have hposts : Posts .new t s := by
    refine posts_sessionLoop ⟨hcomp, by simp [Session.new], fits_nil_of_roomy hroomy⟩ ?_ htyped h
    exact hroomy
  have hseqs : (outbox t).map Outbound.seq = List.range' 1 (outbox t).length :=
    hposts.seqs.trans (iterate_nextSeq (n := 1) (by omega))
  have hseq : ∀ (i : Nat) o, (outbox t)[i]? = some o → o.seq = i + 1 := by
    intro i o ho
    have hi := congrArg (·[i]?) hseqs
    have hlt := (List.getElem?_eq_some_iff.mp ho).1
    simp only [List.getElem?_map, ho, Option.map_some, List.getElem?_range' hlt,
      Option.some_inj] at hi
    omega
  have hframe : ∀ (i : Nat) o, (outbox t)[i]? = some o →
      splitFrame (o.bytes libc) = .ok (o.bytes libc) (o.bytes libc).length ∧
        ∃ m, parseFrame (o.bytes libc) = some m ∧ m.getInt Tag.MsgSeqNum 0 = i + 1 := by
    intro i o ho
    have hlt := (List.getElem?_eq_some_iff.mp ho).1
    have hmem := List.mem_of_getElem? ho
    have hnumber := hseq i o ho
    obtain ⟨hsplit, m, hparse, hget⟩ :=
      (hposts.writable o hmem).frame (hprinted o hmem) (by omega)
    exact ⟨hsplit, m, hparse, by rw [hget, hnumber]; rfl⟩
  refine ⟨(outbox t).map (Outbound.bytes libc), ?_, ?_, ?_⟩
  · rw [hw.eq_flatMap hsent, List.flatMap_def]
  · intro f hf
    obtain ⟨o, ho, rfl⟩ := List.mem_map.mp hf
    obtain ⟨i, hi⟩ := List.mem_iff_getElem?.mp ho
    exact (hframe i o hi).1
  · intro i f hf
    rw [List.getElem?_map, Option.map_eq_some_iff] at hf
    obtain ⟨o, ho, rfl⟩ := hf
    exact (hframe i o ho).2

end Whole

theorem typed_answered {α : Type} (p : Handler α) : Typed (p.answered idleAnswer).1 := by
  intro e he
  have hanswer := snd_of_mem_answered idleAnswer he
  obtain ⟨e, r⟩ := e
  obtain rfl : r = idleAnswer e := hanswer
  cases e <;> simp [Request.Typed, idleAnswer]

/-- A number with few digits, and not many decimals. -/
def AddCall.short : AddCall → Bool
  | .double _ v decimals => -10 ^ 20 ≤ v && v ≤ 10 ^ 20 && decimals ≤ 4
  | _ => true

/-- Short numbers are printed in full. -/
theorem printed_of_short {o : Outbound} (h : o.body.calls.all AddCall.short = true) :
    o.Printed textLibc := by
  intro tag v decimals hmem
  have hshort := List.all_eq_true.mp h _ hmem
  simp only [AddCall.short, Bool.and_eq_true, decide_eq_true_eq] at hshort
  obtain ⟨⟨hlow, hhigh⟩, hdecimals⟩ := hshort
  have hlength : (printFixed decimals.toNat v).length ≤ 20 + 3 + decimals.toNat :=
    length_printFixed_le (abs_le.mpr ⟨hlow, hhigh⟩)
  refine ⟨lt_of_le_of_lt hlength (by omega), textLibc_sohFree _ _⟩

/-- A Logon, an order and a Logout. -/
def orderAndGo : Bytes :=
  clientFrame 'A' [] ++ clientFrame 'D' [.str Tag.ClOrdID (ascii ['o', '1']),
    .str Tag.Symbol (ascii ['A', 'B', 'C']), .char Tag.SideTag '1'.toUInt8,
    .double Tag.OrderQty 5 0, .double Tag.PriceTag (725 / 100) 2] ++ clientFrame '5' []

/-- They are cut in the middle of the order, which is echoed in a report. -/
theorem wellFramed_orderAndGo :
    let session := sessionLoop textLibc ⟨ascii ['E'], true⟩
      [orderAndGo.take 70, orderAndGo.drop 70] .new []
    let t := (session.answered idleAnswer).1
    Runs session t (session.answered idleAnswer).2 ∧ AllSent t ∧
      (outbox t).map (fun o ↦ o.body.msgType) = ascii ['A', '8', '5'] ∧
      WellFramed ((outbox t).flatMap (Outbound.bytes textLibc)) := by
  intro session t
  have hruns := runs_answered idleAnswer session
  have hsent := allSent_answered session
  have htypes : (outbox t).map (fun o ↦ o.body.msgType) = ascii ['A', '8', '5'] := by
    decide +kernel
  have hcount : (outbox t).length = 3 := by
    rw [← List.length_map (fun o ↦ o.body.msgType), htypes]
    rfl
  have hshort : (outbox t).all (fun o ↦ o.body.calls.all AddCall.short) = true := by
    decide +kernel
  refine ⟨hruns, hsent, htypes, ?_⟩
  exact wellFramed_of_roomy textLibc ⟨ascii ['E'], true⟩ (by decide) _ (by decide +kernel) _ _ hruns
    (typed_answered session) hsent (by rw [hcount]; decide)
    (fun o ho ↦ printed_of_short (List.all_eq_true.mp hshort o ho)) _ (wire_of_allSent hsent)

/-! ## A reply that is too long -/

/-- Bytes that start with a frame and go on with something else. -/
theorem not_wellFramed {f r : Bytes} (hf : splitFrame f = .ok f f.length) (hne : r ≠ [])
    (hr : ∀ g n, splitFrame r ≠ .ok g n) : ¬WellFramed (f ++ r) := by
  rintro ⟨frames, hflatten, hframes, -⟩
  have hwhole : ∀ {f}, splitFrame f = .ok f f.length → ∀ rest,
      splitFrame (f ++ rest) = .ok f f.length :=
    fun hf rest ↦ (splitFrame_append (by rw [hf]; simp) rest).trans hf
  cases frames with
  | nil => exact hne (List.append_eq_nil_iff.mp hflatten).2
  | cons g gs =>
    obtain ⟨hg, hgs⟩ := List.forall_mem_cons.mp hframes
    rw [List.flatten_cons] at hflatten
    have hsame := (hwhole hf r).symm.trans (hflatten ▸ hwhole hg gs.flatten)
    obtain ⟨rfl, -⟩ := Split.ok.inj hsame
    obtain rfl := List.append_cancel_left hflatten
    cases gs with
    | nil => exact hne rfl
    | cons g' gs =>
      exact hr g' g'.length (hwhole (hgs g' List.mem_cons_self) gs.flatten)

section ByteByByte

variable {libc : Libc} {cfg : GatewayConfig} {s s₁ s₂ : Session} {t₁ t₂ : Events} {frame : Bytes}
  {m : Message} {more : List Bytes}

/-- A frame that arrives byte by byte is handled when its last byte is there. -/
theorem runs_sessionLoop_bytes (hsplit : splitFrame frame = .ok frame frame.length)
    (hparse : parseFrame frame = some m) (hs : s.running = true)
    (hhandle : Runs (handleMessage libc cfg s m) t₁ s₁)
    (hrest : Runs (sessionLoop libc cfg more s₁ []) t₂ s₂) (q : Bytes) :
    ∀ p, frame = p ++ q → q ≠ [] →
      Runs (sessionLoop libc cfg (q.map (fun c ↦ [c]) ++ more) s p) (t₁ ++ t₂) s₂ := by
  induction q with
  | nil => exact fun p _ hq ↦ absurd rfl hq
  | cons c q ih =>
    intro p hframe _
    rw [List.map_cons, List.cons_append, sessionLoop, if_pos hs]
    by_cases hq : q = []
    · subst hq
      rw [← hframe]
      refine runs_bind.mpr ⟨t₁, (s₁, []), t₂, rfl, ?_, hrest⟩
      rw [drainFrames_ok hsplit, hparse]
      refine runs_bind.mpr ⟨t₁, s₁, [], (List.append_nil _).symm, hhandle, ?_⟩
      rw [List.drop_length, drainFrames_incomplete rfl]
      exact ⟨rfl, rfl⟩
    · have hsplit' : frame = (p ++ [c]) ++ q := by rw [hframe, List.append_assoc]; rfl
      have hwait : splitFrame (p ++ [c]) = .incomplete :=
        splitFrame_of_append (hsplit' ▸ hsplit) hq
      rw [drainFrames_incomplete hwait]
      exact ih (p ++ [c]) hsplit' hq

end ByteByByte

/-- An order without a quantity, and with this id. -/
def orderFields (clOrdId : Bytes) : List Field :=
  standardHeader 'D'.toUInt8 (ascii ['C']) (ascii ['E']) 2 ++ [⟨Tag.ClOrdID, clOrdId⟩]

def orderFrame (clOrdId : Bytes) : Bytes :=
  frameOf (render ((orderFields clOrdId).flatMap Field.encode).length) (orderFields clOrdId)

theorem length_orderFields (clOrdId : Bytes) :
    ((orderFields clOrdId).flatMap Field.encode).length = clOrdId.length + 24 := by
  have hheader : ((standardHeader 'D'.toUInt8 (ascii ['C']) (ascii ['E']) 2).flatMap
      Field.encode).length = 20 := by decide
  have htag : (toChars Tag.ClOrdID).length = 2 := by decide
  rw [orderFields, List.flatMap_append, List.length_append, hheader]
  simp [Field.encode, htag]
  omega

/-- The reply to it. -/
def longRejection (clOrdId : Bytes) : ExecReport :=
  { clOrdId, orderId := 0, execType := .rejected, ordStatus := .rejected, side := '1'.toUInt8
    symbol := [], orderQty := 0, cumQty := 0, leavesQty := 0, lastQty := 0, lastPx := 0
    avgPx := 0 }

/-- The gateway reads the order and rejects it. -/
theorem orderFrame_read {clOrdId : Bytes} (hclean : SOH ∉ clOrdId)
    (hlen : clOrdId.length ≤ 1000000) :
    splitFrame (orderFrame clOrdId) = .ok (orderFrame clOrdId) (orderFrame clOrdId).length ∧
      ∃ m, parseFrame (orderFrame clOrdId) = some m ∧ m.msgType = 'D'.toUInt8 ∧
        (NewOrder.of textLibc m).Rejected ∧
        (NewOrder.of textLibc m).rejection = longRejection clOrdId := by
  have hlength := length_orderFields clOrdId
  have hsound : ∀ f ∈ orderFields clOrdId, f.Sound := by
    rw [orderFields, List.forall_mem_append]
    refine ⟨sound_standardHeader (by decide) (by decide) (by decide) 2, ?_⟩
    rw [List.forall_mem_singleton]
    exact Field.sound_mk (by decide) hclean
  constructor
  · have hsplit : splitFrame (orderFrame clOrdId ++ []) = _ :=
      splitFrame_frameOf (render_ne_nil _) isDigit_of_mem_render (value_render _)
        (by rw [hlength]; omega) []
    rwa [List.append_nil] at hsplit
  · exact ⟨_, parseFrame_frameOf (soh_not_mem_render _) hsound, rfl, .inl (le_refl (0 : ℚ)), rfl⟩

/-- The messages of the session: the answer to the Logon, and the rejection. -/
def logonReply : Outbound := ⟨ascii ['E'], ascii ['C'], 1, .logonAck⟩

def longReply (clOrdId : Bytes) : Outbound :=
  ⟨ascii ['E'], ascii ['C'], 2, .execReport 1 (longRejection clOrdId)⟩

/-- The session, byte by byte. -/
theorem runs_longReply {clOrdId : Bytes} (hclean : SOH ∉ clOrdId)
    (hlen : clOrdId.length ≤ 1000000) :
    ∃ s, Runs (sessionLoop textLibc ⟨ascii ['E'], false⟩
        ((clientFrame 'A' [] ++ orderFrame clOrdId).map fun c ↦ [c]) .new [])
      [⟨.send logonReply, true⟩, ⟨.nextExecId, (1 : Nat)⟩, ⟨.send (longReply clOrdId), true⟩]
      s := by
  obtain ⟨hsplit, m, hparse, hmt, hrejected, hreply⟩ := orderFrame_read hclean hlen
  have hlogon : (parseFrame (clientFrame 'A' [])).map (fun m ↦ (m.msgType, m.get Tag.SenderCompID))
      = some ('A'.toUInt8, ascii ['C']) := by decide +kernel
  obtain ⟨m₀, hparse₀, he⟩ := Option.map_eq_some_iff.mp hlogon
  obtain ⟨hmt₀, hsender⟩ := Prod.mk.inj he
  let s₁ : Session := { senderComp := ascii ['C'], outSeq := 2, loggedOn := true, running := true }
  have hhandle₀ : Runs (handleMessage textLibc ⟨ascii ['E'], false⟩ .new m₀)
      [⟨.send logonReply, true⟩] s₁ := by
    rw [handleMessage, if_neg (by simp [hmt₀]), if_pos hmt₀, onLogon, hsender]
    exact ⟨true, [], rfl, rfl, rfl⟩
  have hhandle : Runs (handleMessage textLibc ⟨ascii ['E'], false⟩ s₁ m)
      [⟨.nextExecId, (1 : Nat)⟩, ⟨.send (longReply clOrdId), true⟩] { s₁ with outSeq := 3 } := by
    rw [handleMessage, hmt, if_neg (by simp [s₁]), if_neg (by decide), if_neg (by decide),
      if_neg (by decide), if_pos rfl, onNewOrder, if_pos hrejected, hreply]
    exact ⟨(1 : Nat), _, rfl, true, [], rfl, rfl, rfl⟩
  have hne : clientFrame 'A' [] ≠ [] ∧ orderFrame clOrdId ≠ [] := by
    refine ⟨by decide +kernel, fun hnil ↦ ?_⟩
    rw [hnil] at hsplit
    exact absurd hsplit (by decide)
  refine ⟨{ s₁ with outSeq := 3 }, ?_⟩
  have hend : Runs (sessionLoop textLibc ⟨ascii ['E'], false⟩ [] { s₁ with outSeq := 3 } []) []
      { s₁ with outSeq := 3 } := ⟨rfl, rfl⟩
  have hlast := runs_sessionLoop_bytes hsplit hparse rfl hhandle hend _ [] rfl hne.2
  rw [List.append_nil, List.append_nil] at hlast
  rw [List.map_append]
  exact runs_sessionLoop_bytes (by decide +kernel) hparse₀ rfl hhandle₀ hlast _ [] rfl hne.1

/-- Six digits of a number of seven: the trailer is not where the length says. -/
theorem longReply_not_frame {clOrdId : Bytes} (hlen : clOrdId.length = 1000000)
    (hx : ∀ c ∈ clOrdId, c = 'x'.toUInt8) (f : Bytes) (n : Nat) :
    splitFrame ((longReply clOrdId).bytes textLibc) ≠ .ok f n := by
  let front : List Field := standardHeader '8'.toUInt8 (ascii ['E']) (ascii ['C']) 2 ++
    [⟨Tag.OrderID, toChars (0 : Nat)⟩]
  let back : List Field := ((longReply []).fields textLibc).drop 6
  have hfields : (longReply clOrdId).fields textLibc = front ++ ⟨Tag.ClOrdID, clOrdId⟩ :: back :=
    rfl
  have hbody : ((longReply clOrdId).fields textLibc).flatMap Field.encode
      = (front.flatMap Field.encode ++ (toChars Tag.ClOrdID ++ [equals])) ++
        (clOrdId ++ SOH :: back.flatMap Field.encode) := by
    rw [hfields, List.flatMap_append, List.flatMap_cons, Field.encode]
    simp
  have hfront : (front.flatMap Field.encode ++ (toChars Tag.ClOrdID ++ [equals])).length = 28 := by
    decide
  have hback : (back.flatMap Field.encode).length = 64 := by decide +kernel
  generalize front.flatMap Field.encode ++ (toChars Tag.ClOrdID ++ [equals])
    = before at hbody hfront
  generalize back.flatMap Field.encode = after at hbody hback
  have hlength : (((longReply clOrdId).fields textLibc).flatMap Field.encode).length = 1000093 := by
    rw [hbody]
    simp only [List.length_append, List.length_cons, hfront, hback, hlen]
  have hvalue : value ((pad 6 1000093).take 6) = 100009 := by decide +kernel
  rw [Outbound.bytes, ((longReply clOrdId).open_build textLibc).finalize, frameOf, hlength]
  have hc : clOrdId[99981]? = some 'x'.toUInt8 := by
    rw [List.getElem?_eq_getElem (by omega)]
    exact congrArg some (hx _ (List.getElem_mem _))
  refine splitFrame_headOf_ne_ok (fun c hc ↦ isDigit_of_mem_pad c (List.mem_of_mem_take hc))
    (c := 'x'.toUInt8) ?_ (by decide) f n
  rw [hvalue, hbody, List.append_assoc, List.getElem?_append_right (by omega), hfront,
    List.append_assoc, List.getElem?_append_left (by omega)]
  exact hc

/-- **A reply that is no frame.**  The ClOrdID of an order has a million bytes, which `split_frame`
lets in.  The report that repeats it does not fit the six digits, so that the bytes of the session
cannot be taken apart into frames at all. -/
theorem exists_not_wellFramed :
    ∃ (libc : Libc) (cfg : GatewayConfig) (chunks : List Bytes) (t : Events) (s : Session)
      (w : Bytes),
      SOH ∉ cfg.compId ∧ (∀ chunk ∈ chunks, chunk.length ≤ 4096) ∧
      Runs (sessionLoop libc cfg chunks .new []) t s ∧ Typed t ∧ AllSent t ∧
      (outbox t).length < 2 ^ 32 ∧ (∀ o ∈ outbox t, o.Printed libc) ∧ Wire libc t w ∧
      ¬WellFramed w := by
  generalize hid : List.replicate 1000000 'x'.toUInt8 = clOrdId
  have hlen : clOrdId.length = 1000000 := by rw [← hid, List.length_replicate]
  have hx : ∀ c ∈ clOrdId, c = 'x'.toUInt8 := fun c hc ↦ List.eq_of_mem_replicate (hid ▸ hc)
  have hclean : SOH ∉ clOrdId := fun hc ↦ absurd (hx SOH hc) (by decide)
  obtain ⟨s, hruns⟩ := runs_longReply hclean (Nat.le_of_eq hlen)
  have hsent : AllSent [⟨.send logonReply, true⟩, ⟨.nextExecId, (1 : Nat)⟩,
      ⟨.send (longReply clOrdId), true⟩] := by
    intro o ok hmem
    simp only [List.mem_cons, List.not_mem_nil, or_false] at hmem
    rcases hmem with hmem | hmem | hmem <;> cases hmem <;> rfl
  have htyped : Typed [⟨.send logonReply, true⟩, ⟨.nextExecId, (1 : Nat)⟩,
      ⟨.send (longReply clOrdId), true⟩] := by
    simp [Typed, Request.Typed]
  have hprinted : ∀ o ∈ [logonReply, longReply clOrdId], o.Printed textLibc := by
    intro o ho
    refine printed_of_short ?_
    simp only [List.mem_cons, List.not_mem_nil, or_false] at ho
    rcases ho with rfl | rfl
    · decide
    · rfl
  have hack : splitFrame (logonReply.bytes textLibc)
      = .ok (logonReply.bytes textLibc) (logonReply.bytes textLibc).length := by decide +kernel
  refine ⟨textLibc, ⟨ascii ['E'], false⟩, _, _, s, _, by decide, ?_, hruns, htyped, hsent,
    (by decide : 2 < 2 ^ 32), hprinted, wire_of_allSent hsent, ?_⟩
  · intro chunk hchunk
    obtain ⟨c, -, rfl⟩ := List.mem_map.mp hchunk
    exact (by decide : 1 ≤ 4096)
  · have hbytes : (outbox [⟨.send logonReply, true⟩, ⟨.nextExecId, (1 : Nat)⟩,
        ⟨.send (longReply clOrdId), true⟩]).flatMap (Outbound.bytes textLibc)
          = logonReply.bytes textLibc ++ (longReply clOrdId).bytes textLibc := by
      show [logonReply, longReply clOrdId].flatMap (Outbound.bytes textLibc) = _
      simp
    rw [hbytes]
    refine not_wellFramed hack ?_ (longReply_not_frame hlen hx)
    rw [Outbound.bytes, ((longReply clOrdId).open_build textLibc).finalize, frameOf, headOf]
    simp [beginString, ascii]

end Fix

end MatchingEngine
