import MatchingEngine.Fix.Concurrency
import MatchingEngine.Fix.Outgoing

/-!
# From the client to the engine, and back

A client composes messages with the same `Builder`, and the network cuts their bytes into chunks as
it likes.  What reaches the engine is what the client has composed: every order, cancel and request
for market data once, in order, with the values that the client has put in (`requests_delivered`).
On the way back `send` may take a message in parts, or fail in the middle of one; what the client
can read are the first of the replies, whole and in order (`replies_readable`).  Both are about a
session of the threaded gateway, whatever other sessions do in the meantime.

The second needs `send` to fail for good.  After a call that fails once, as one does that a signal
has interrupted, the handler goes on to the next reply, and the client gets the beginning of a
message and then the whole of another.
-/

set_option autoImplicit false

namespace MatchingEngine

namespace OrderBook

variable {b b' : OrderBook}

/-- An id is the counter's value, and the counter has 64 bits. -/
theorem placeLimit_nextId {side : Side} {price qty : Int} {id : Nat} {trades : List Trade}
    (h : b.placeLimit side price qty [] = some (b', id, trades)) :
    id = b.nextId ∧ b'.nextId < 2 ^ 64 := by
  have hlt : (b.nextId + 1) % 2 ^ 64 < 2 ^ 64 := Nat.mod_lt _ (by decide)
  cases side <;>
  · simp only [placeLimit, Option.bind_eq_bind, Option.pure_def, Option.bind_eq_some_iff,
      Option.some_inj, Prod.mk.injEq] at h
    obtain ⟨_, -, _, -, rfl, rfl, -⟩ := h
    exact ⟨rfl, hlt⟩

theorem cancel_nextId {id : Nat} {ok : Bool} (h : b.cancel id = some (b', ok)) :
    b'.nextId = b.nextId := by
  unfold cancel at h
  split at h
  · obtain ⟨rfl, -⟩ := Prod.mk.inj (Option.some.inj h)
    rfl
  · obtain ⟨x, -, h⟩ := Option.bind_eq_some_iff.mp h
    split at h <;>
    · obtain ⟨u, -, h⟩ := Option.bind_eq_some_iff.mp h
      split at h
      · obtain ⟨rfl, -⟩ := Prod.mk.inj (Option.some.inj h)
        rfl
      · obtain ⟨pool, -, h⟩ := Option.bind_eq_some_iff.mp h
        obtain ⟨rfl, -⟩ := Prod.mk.inj (Option.some.inj h)
        rfl

end OrderBook

namespace Fix

open Program Framing

/-! ## Sessions that do not end -/

section Phases

variable {libc : Libc} {phase : Phase} {frame rxBuf : Bytes} {frames more : List Bytes}
  {chunks : List Bytes}

end Phases

/-! ## What a client composes -/

/-- The tags around the body have no part in what a message asks for. -/
theorem Message.asks_congr (libc : Libc) {m m' : Message}
    (h : ∀ tag, tag ≠ Tag.BeginString → tag ≠ Tag.BodyLength → tag ≠ Tag.CheckSum →
      m'.get tag = m.get tag) : m'.msgType = m.msgType ∧ m'.asks libc = m.asks libc := by
  have hget : ∀ tag, tag ≠ 8 → tag ≠ 9 → tag ≠ 10 → m'.get tag = m.get tag := h
  have htype : m'.msgType = m.msgType := by
    rw [Message.msgType, Message.msgType, hget Tag.MsgType (by decide) (by decide) (by decide)]
  refine ⟨htype, ?_⟩
  have horder : NewOrder.of libc m' = NewOrder.of libc m := by
    simp only [NewOrder.of, sideChar, Message.getDouble,
      hget Tag.ClOrdID (by decide) (by decide) (by decide),
      hget Tag.Symbol (by decide) (by decide) (by decide),
      hget Tag.SideTag (by decide) (by decide) (by decide),
      hget Tag.OrderQty (by decide) (by decide) (by decide),
      hget Tag.PriceTag (by decide) (by decide) (by decide)]
  have hid : cancelledId m' = cancelledId m := by
    rw [cancelledId, cancelledId, Message.getInt, Message.getInt,
      hget Tag.OrderID (by decide) (by decide) (by decide)]
  rw [Message.asks, Message.asks, htype, horder, hid]

/-- The calls with which a client composes a message. -/
structure Composed where
  msgType : UInt8
  sender : Bytes
  target : Bytes
  seq : Nat
  calls : List AddCall

namespace Composed

variable {libc : Libc} {m : Composed}

/-- The fields of the body. -/
def fields (libc : Libc) (m : Composed) : List Field :=
  standardHeader m.msgType m.sender m.target m.seq ++ m.calls.map (AddCall.field libc.snprintf)

/-- What the client means. -/
def message (libc : Libc) (m : Composed) : Message := ⟨m.fields libc⟩

/-- What the client sends. -/
def bytes (libc : Libc) (m : Composed) : Bytes :=
  (Builder.new.build libc.snprintf m.msgType m.sender m.target m.seq m.calls).finalize.buf

/-- The values can be read back, and six digits are enough for the length. -/
structure Sendable (libc : Libc) (m : Composed) : Prop where
  sound : ∀ f ∈ m.fields libc, f.Sound
  length_le : ((m.fields libc).flatMap Field.encode).length ≤ 999999

theorem open_build (libc : Libc) (m : Composed) :
    (Builder.new.build libc.snprintf m.msgType m.sender m.target m.seq m.calls).Open
      (m.fields libc) :=
  (Builder.new.open_begin m.msgType m.sender m.target m.seq).foldl libc.snprintf m.calls

theorem Sendable.splitFrame (h : m.Sendable libc) :
    splitFrame (m.bytes libc) = .ok (m.bytes libc) (m.bytes libc).length := by
  have hsplit := (m.open_build libc).splitFrame_finalize h.length_le []
  rwa [List.append_nil] at hsplit

/-- The frame says what the client means. -/
theorem Sendable.parseFrame (h : m.Sendable libc) :
    ∃ m', parseFrame (m.bytes libc) = some m' ∧ m'.msgType = m.msgType ∧
      m'.asks libc = (m.message libc).asks libc := by
  refine ⟨_, (m.open_build libc).parseFrame_finalize h.length_le h.sound, ?_⟩
  refine Message.asks_congr libc (m := m.message libc) fun tag h8 h9 h10 ↦ ?_
  simp only [Message.get, message, List.cons_append, List.find?_cons, List.find?_append,
    Ne.symm h8, Ne.symm h9, Ne.symm h10, decide_false, List.find?_nil, Option.or_none]

end Composed

/-! ## What reaches the engine -/

namespace Composed

variable {libc : Libc} {m logon : Composed} {orders : List Composed}

end Composed

/-- The loop of `send_raw` over the bytes that are left, against what `send` returns.  The outcome
has what has gone out, whether that is all, and the results that are left.  It is `none` if `send`
does not return, or returns more than it was given. -/
def transmit : List Int → Bytes → Option (Bytes × Bool × List Int)
  | results, [] => some ([], true, results)
  | [], _ :: _ => none
  | n :: results, bytes =>
    if n ≤ 0 then some ([], false, results)
    else if n ≤ bytes.length then
      (transmit results (bytes.drop n.toNat)).map fun x ↦ (bytes.take n.toNat ++ x.1, x.2)
    else none

/-- One message after the other. -/
def transmitAll : List Int → List Bytes → Option (Bytes × List Bool)
  | _, [] => some ([], [])
  | results, bytes :: messages => do
    let (w, ok, results) ← transmit results bytes
    let (w', oks) ← transmitAll results messages
    return (w ++ w', ok :: oks)

/-- Once `send` has failed it keeps failing. -/
def FailsForGood (results : List Int) : Prop := results.Pairwise fun n n' ↦ n ≤ 0 → n' ≤ 0

section Transmit

variable {results results' : List Int} {bytes w : Bytes} {ok : Bool}

/-- **What `send_raw` puts on the wire** is all of the message, or part of it after which `send` has
failed. -/
theorem transmit_spec (h : transmit results bytes = some (w, ok, results')) :
    ∃ rest, bytes = w ++ rest ∧ (ok = true ↔ rest = []) ∧
      ∃ used, results = used ++ results' ∧ (ok = false → ∃ n ∈ used, n ≤ 0) := by
  induction results generalizing bytes w with
  | nil =>
    cases bytes with
    | nil =>
      obtain ⟨rfl, rfl, rfl⟩ : w = [] ∧ ok = true ∧ results' = [] := by
        simpa [transmit, eq_comm] using h
      exact ⟨[], rfl, by simp, [], rfl, nofun⟩
    | cons c bytes => simp [transmit] at h
  | cons n results ih =>
    cases bytes with
    | nil =>
      obtain ⟨rfl, rfl, rfl⟩ : w = [] ∧ ok = true ∧ results' = n :: results := by
        simpa [transmit, eq_comm] using h
      exact ⟨[], rfl, by simp, [], rfl, nofun⟩
    | cons c bytes =>
      rw [transmit] at h
      · split at h
        · next hn =>
          obtain ⟨rfl, rfl, rfl⟩ : w = [] ∧ ok = false ∧ results' = results := by
            simpa [eq_comm] using h
          exact ⟨c :: bytes, rfl, by simp, [n], rfl, fun _ ↦ ⟨n, by simp, hn⟩⟩
        · split at h
          · obtain ⟨⟨w', ok', rs⟩, hrest, he⟩ := Option.map_eq_some_iff.mp h
            obtain ⟨rfl, rfl, rfl⟩ : _ ++ w' = w ∧ ok' = ok ∧ rs = results' := by simpa using he
            obtain ⟨rest, hbytes, hok, used, rfl, hfail⟩ := ih hrest
            refine ⟨rest, ?_, hok, n :: used, rfl, fun hf ↦ ?_⟩
            · rw [List.append_assoc, ← hbytes, List.take_append_drop]
            · obtain ⟨m, hm, hle⟩ := hfail hf
              exact ⟨m, List.mem_cons_of_mem n hm, hle⟩
          · cases h
      · exact nofun

/-- After a failure nothing goes out any more. -/
theorem transmit_of_failed (hfail : ∀ n ∈ results, n ≤ 0) (hne : bytes ≠ [])
    (h : transmit results bytes = some (w, ok, results')) : w = [] ∧ ok = false := by
  obtain ⟨c, bytes, rfl⟩ := List.exists_cons_of_ne_nil hne
  cases results with
  | nil => simp [transmit] at h
  | cons n results =>
    rw [transmit, if_pos (hfail n (by simp))] at h
    · obtain ⟨rfl, rfl, -⟩ : w = [] ∧ ok = false ∧ results' = results := by simpa [eq_comm] using h
      exact ⟨rfl, rfl⟩
    · exact nofun

theorem transmitAll_of_failed {messages : List Bytes} {oks : List Bool}
    (hfail : ∀ n ∈ results, n ≤ 0) (hne : ∀ bytes ∈ messages, bytes ≠ [])
    (h : transmitAll results messages = some (w, oks)) : w = [] := by
  induction messages generalizing results w oks with
  | nil =>
    obtain ⟨rfl, -⟩ : w = [] ∧ oks = [] := by simpa [transmitAll, eq_comm] using h
    rfl
  | cons bytes messages ih =>
    obtain ⟨hbytes, hne⟩ := List.forall_mem_cons.mp hne
    simp only [transmitAll, Option.bind_eq_bind, Option.pure_def, Option.bind_eq_some_iff] at h
    obtain ⟨⟨w₁, ok, results'⟩, h₁, ⟨w₂, oks'⟩, h₂, he⟩ := h
    obtain ⟨rfl, -⟩ := Prod.mk.inj (Option.some.inj he)
    obtain ⟨-, -, -, used, rfl, -⟩ := transmit_spec h₁
    rw [(transmit_of_failed hfail hbytes h₁).1,
      ih (fun n hn ↦ hfail n (List.mem_append_right used hn)) hne h₂]
    rfl

/-- **What goes out is part of the stream**: some messages, and then the beginning of the next. -/
theorem transmitAll_prefix {messages : List Bytes} {oks : List Bool} (hgood : FailsForGood results)
    (hne : ∀ bytes ∈ messages, bytes ≠ []) (h : transmitAll results messages = some (w, oks)) :
    ∃ k part, w = (messages.take k).flatten ++ part ∧ k ≤ messages.length ∧
      (oks.all id = true → k = messages.length ∧ part = []) ∧
      (part ≠ [] → ∃ bytes rest, messages[k]? = some bytes ∧ bytes = part ++ rest ∧ rest ≠ []) := by
  induction messages generalizing results w oks with
  | nil =>
    obtain ⟨rfl, rfl⟩ : w = [] ∧ oks = [] := by simpa [transmitAll, eq_comm] using h
    exact ⟨0, [], rfl, Nat.le_refl 0, fun _ ↦ ⟨rfl, rfl⟩, fun hne ↦ absurd rfl hne⟩
  | cons bytes messages ih =>
    obtain ⟨hbytes, hne⟩ := List.forall_mem_cons.mp hne
    simp only [transmitAll, Option.bind_eq_bind, Option.pure_def, Option.bind_eq_some_iff] at h
    obtain ⟨⟨w₁, ok, results'⟩, h₁, ⟨w₂, oks'⟩, h₂, he⟩ := h
    obtain ⟨rfl, rfl⟩ := Prod.mk.inj (Option.some.inj he)
    obtain ⟨rest, hsplit, hok, used, rfl, hfail⟩ := transmit_spec h₁
    obtain ⟨-, hgood', hacross⟩ := List.pairwise_append.mp hgood
    cases ok with
    | true =>
      obtain ⟨k, part, rfl, hk, hall, hpart⟩ := ih hgood' hne h₂
      obtain rfl : bytes = w₁ := by rw [hsplit, hok.mp rfl, List.append_nil]
      refine ⟨k + 1, part, ?_, Nat.succ_le_succ hk, fun ho ↦ ?_, hpart⟩
      · rw [List.take_succ_cons, List.flatten_cons, List.append_assoc]
      · obtain ⟨rfl, rfl⟩ := hall (by simpa using ho)
        exact ⟨rfl, rfl⟩
    | false =>
      obtain ⟨n, hn, hle⟩ := hfail rfl
      have hnone := transmitAll_of_failed (fun n' hn' ↦ hacross n hn n' hn' hle) hne h₂
      refine ⟨0, w₁, by rw [hnone]; simp, Nat.zero_le _, fun ho ↦ ?_, fun _ ↦
        ⟨bytes, rest, rfl, hsplit, fun hrest ↦ ?_⟩⟩
      · simp at ho
      · cases hok.mpr hrest

end Transmit

/-! ## What the client reads -/

namespace Gateway

variable {libc : Libc} {cfg : GatewayConfig} {g : Gateway} {i : Nat} {c : Connection}
  {x x' : Exchange} {t : Events}

/-- The counters have 64 bits. -/
def Counters (x : Exchange) : Prop := x.nextExecId < 2 ^ 64 ∧ x.engine.book.nextId < 2 ^ 64

theorem Answers.typed {a : (e : Request) × e.Answer} (h : Answers x a x') (hx : Counters x) :
    a.1.Typed a.2 ∧ Counters x' := by
  obtain ⟨e, r⟩ := a
  rcases h with h | ⟨m, he, rfl⟩
  · cases e with
    | placeLimit side price qty =>
      simp only [serve, Engine.placeLimit, Option.bind_eq_bind, Option.pure_def, Option.bind_assoc,
        Option.bind_some, Option.bind_eq_some_iff] at h
      obtain ⟨⟨b, id, trades⟩, hplace, top, -, he⟩ := h
      obtain ⟨rfl, rfl⟩ := Prod.mk.inj (Option.some.inj he)
      obtain ⟨rfl, hlt⟩ := OrderBook.placeLimit_nextId hplace
      exact ⟨hx.2, hx.1, hlt⟩
    | cancel id =>
      simp only [serve, Engine.cancel, Option.bind_eq_bind, Option.pure_def, Option.bind_assoc,
        Option.bind_some, Option.bind_eq_some_iff] at h
      obtain ⟨⟨b, ok⟩, hcancel, he⟩ := h
      obtain ⟨rfl, rfl⟩ := Prod.mk.inj (Option.some.inj he)
      refine ⟨trivial, hx.1, ?_⟩
      show b.nextId < 2 ^ 64
      rw [OrderBook.cancel_nextId hcancel]
      exact hx.2
    | top =>
      obtain ⟨top, -, he⟩ := Option.bind_eq_some_iff.mp h
      obtain ⟨rfl, -⟩ := Prod.mk.inj (Option.some.inj he)
      exact ⟨trivial, hx⟩
    | nextExecId =>
      obtain ⟨rfl, rfl⟩ := Prod.mk.inj (Option.some.inj h)
      exact ⟨hx.1, Nat.mod_lt _ (by decide), hx.2⟩
    | send m =>
      obtain ⟨rfl, -⟩ := Prod.mk.inj (Option.some.inj h)
      exact ⟨trivial, hx⟩
    | publishL1 symbol bidPx bidSz askPx askSz =>
      obtain ⟨rfl, -⟩ := Prod.mk.inj (Option.some.inj h)
      exact ⟨trivial, hx⟩
  · obtain ⟨rfl, -⟩ := Sigma.mk.inj he
    exact ⟨trivial, hx⟩

theorem Replays.typed (h : Replays x t x') (hx : Counters x) : Typed t ∧ Counters x' := by
  induction h with
  | refl => exact ⟨by simp [Typed], hx⟩
  | snoc _ ha ih =>
    obtain ⟨htyped, hx₁⟩ := ih
    obtain ⟨hone, hx₂⟩ := ha.typed hx₁
    exact ⟨List.forall_mem_append.mpr ⟨htyped, List.forall_mem_singleton.mpr hone⟩, hx₂⟩

theorem Reached.typed (h : g.Reached libc cfg x) (hx : Counters x) (i : Nat) :
    Typed (g.trace i) := by
  intro a ha
  obtain ⟨y, hy, he⟩ := List.mem_filterMap.mp ha
  split at he
  · obtain rfl := Option.some.inj he
    exact (h.replays.typed hx).1 y.2 (List.mem_map_of_mem hy)
  · cases he

/-- The replies of a session so far are numbered on from one, and can be read back. -/
theorem Traced.posts (h : Traced libc cfg g) (hc : g.connections[i]? = some c)
    (hcomp : SOH ∉ cfg.compId)
    (hroomy : roomy cfg [] (splitter.drain c.received.flatten).frames = true)
    (htyped : Typed (g.trace i)) :
    (outbox (g.trace i)).map Outbound.seq = List.iterate nextSeq 1 (outbox (g.trace i)).length ∧
      ∀ o ∈ outbox (g.trace i), o.Writable := by
  obtain ⟨p, hgoes, -⟩ := (h.each i c hc).goes
  -- what is left of the run may be answered in any way
  have hrun := hgoes.runs_append (runs_answered idleAnswer p)
  have hall : Typed (g.trace i ++ (p.answered idleAnswer).1) :=
    List.forall_mem_append.mpr ⟨htyped, typed_answered p⟩
  obtain ⟨s, hposts⟩ : ∃ s, Posts .new (g.trace i ++ (p.answered idleAnswer).1) s := by
    refine ⟨_, posts_sessionLoop
      ⟨hcomp, by simp [Session.new], fits_nil_of_roomy hroomy⟩ ?_ hall hrun⟩
    exact hroomy
  have hseqs := hposts.seqs
  rw [outbox_append, List.map_append, List.length_append, List.iterate_add] at hseqs
  refine ⟨(List.append_inj hseqs (by simp)).1, fun o ho ↦ hposts.writable o ?_⟩
  rw [outbox_append]
  exact List.mem_append_left _ ho

end Gateway

/-- Messages numbered on from one, each of which is a frame with its number. -/
theorem exists_parseFrame_getInt (libc : Libc) {messages : List Outbound}
    (hseqs : messages.map Outbound.seq = List.iterate nextSeq 1 messages.length)
    (hwritable : ∀ o ∈ messages, o.Writable) (hprinted : ∀ o ∈ messages, o.Printed libc)
    (hcount : messages.length < 2 ^ 32) {j : Nat} {o : Outbound} (ho : messages[j]? = some o) :
    splitFrame (o.bytes libc) = .ok (o.bytes libc) (o.bytes libc).length ∧
      ∃ m, parseFrame (o.bytes libc) = some m ∧ m.getInt Tag.MsgSeqNum 0 = j + 1 := by
  rw [iterate_nextSeq (by omega)] at hseqs
  have hlt := (List.getElem?_eq_some_iff.mp ho).1
  have hmem := List.mem_of_getElem? ho
  have hj := congrArg (·[j]?) hseqs
  simp only [List.getElem?_map, ho, Option.map_some, List.getElem?_range' hlt,
    Option.some_inj] at hj
  obtain ⟨hsplit, m, hparse, hget⟩ := (hwritable o hmem).frame (hprinted o hmem) (by omega)
  refine ⟨hsplit, m, hparse, ?_⟩
  rw [hget, hj]
  omega

/-- **What the client reads** are the first of the replies, whole, in order and numbered from one.
The last of what has arrived may be the beginning of one more.  This is so at every moment, for
every way in which `send` takes the bytes, provided that it does not go on after it has failed. -/
theorem replies_readable (libc : Libc) (cfg : GatewayConfig) (hcomp : SOH ∉ cfg.compId)
    (exchange : Exchange) (hx : Gateway.Counters exchange) (g : Gateway)
    (h : g.Reached libc cfg exchange) (i : Nat) (c : Connection) (hc : g.connections[i]? = some c)
    (hroomy : roomy cfg [] (splitter.drain c.received.flatten).frames = true)
    (hprinted : ∀ o ∈ outbox (g.trace i), o.Printed libc)
    (hcount : (outbox (g.trace i)).length < 2 ^ 32) (results : List Int)
    (hgood : FailsForGood results) (w : Bytes) (oks : List Bool)
    (hw : transmitAll results ((outbox (g.trace i)).map (Outbound.bytes libc)) = some (w, oks)) :
    ∃ k, (splitter.drain w).frames = ((outbox (g.trace i)).take k).map (Outbound.bytes libc) ∧
      (splitter.drain w).status = .incomplete ∧
      (oks.all id = true → k = (outbox (g.trace i)).length ∧ (splitter.drain w).rest = []) ∧
      ∀ (j : Nat) (f : Bytes), (splitter.drain w).frames[j]? = some f →
        ∃ m, parseFrame f = some m ∧ m.getInt Tag.MsgSeqNum 0 = j + 1 := by
  obtain ⟨hseqs, hwritable⟩ := h.traced.posts hc hcomp hroomy (h.typed hx i)
  generalize outbox (g.trace i) = messages at *
  have hread := fun {j o} (ho : messages[j]? = some o) ↦
    exists_parseFrame_getInt libc hseqs hwritable hprinted hcount ho
  have hframe : ∀ f ∈ messages.map (Outbound.bytes libc), splitter.split f = .ok f f.length := by
    intro f hf
    obtain ⟨o, ho, rfl⟩ := List.mem_map.mp hf
    obtain ⟨j, hj⟩ := List.mem_iff_getElem?.mp ho
    exact (hread hj).1
  have hne : ∀ f ∈ messages.map (Outbound.bytes libc), f ≠ [] := fun f hf ↦
    List.length_pos_iff.mp (splitter.ok_bounds (hframe f hf)).1
  obtain ⟨k, part, rfl, -, hall, hpart⟩ := transmitAll_prefix hgood hne hw
  have hdrain : splitter.drain part = ⟨[], part, .incomplete⟩ := by
    refine Splitter.drain_incomplete ?_
    by_cases hp : part = []
    · rw [hp]
      exact splitter.split_nil
    · obtain ⟨_, rest, hk, rfl, hrest⟩ := hpart hp
      exact Splitter.split_of_append_eq_ok (hframe _ (List.mem_of_getElem? hk)) hrest
  have htake : ∀ f ∈ (messages.map (Outbound.bytes libc)).take k,
      splitter.split f = .ok f f.length :=
    fun f hf ↦ hframe f (List.mem_of_mem_take hf)
  have hframes := Splitter.drain_flatten_append htake part
  rw [hdrain, List.append_nil, ← List.map_take] at hframes
  rw [← List.map_take, hframes]
  refine ⟨k, rfl, rfl, fun ho ↦ ?_, fun j f hf ↦ ?_⟩
  · obtain ⟨rfl, rfl⟩ := hall ho
    exact ⟨List.length_map _, rfl⟩
  · rw [List.getElem?_map, Option.map_eq_some_iff] at hf
    obtain ⟨o, ho, rfl⟩ := hf
    rw [List.getElem?_take] at ho
    split at ho
    · exact (hread ho).2
    · cases ho

/-- The first reply goes out in two parts, and the connection breaks in the middle of the second. -/
theorem replies_readable_cut :
    ∃ (g : Gateway) (w : Bytes) (k : Nat),
      Threads.run (Gateway.step textLibc ⟨[], false⟩) Gateway.oneOrder (.new (.of (.new 2)))
        = some g ∧
      transmitAll [10, 47, 5, 0] ((outbox (g.trace 0)).map (Outbound.bytes textLibc))
        = some (w, [true, false]) ∧ w.length = 62 ∧
      (splitter.drain w).frames = ((outbox (g.trace 0)).take k).map (Outbound.bytes textLibc) := by
  have hread : (Threads.run (Gateway.step textLibc ⟨[], false⟩) Gateway.oneOrder
      (.new (.of (.new 2)))).map (fun g ↦ (g.connections.map (fun c ↦ c.received),
        (outbox (g.trace 0)).length,
        (transmitAll [10, 47, 5, 0] ((outbox (g.trace 0)).map (Outbound.bytes textLibc))).map
          fun x ↦ (x.1.length, x.2)))
      = some ([[clientFrame 'A' [] ++ lateOrder]], 2, some (62, [true, false])) := by
    decide +kernel
  have hnumbers : (Threads.run (Gateway.step textLibc ⟨[], false⟩) Gateway.oneOrder
      (.new (.of (.new 2)))).map (fun g ↦ (outbox (g.trace 0)).all
        fun o ↦ o.body.calls.all AddCall.short) = some true := by
    decide +kernel
  obtain ⟨g, hrun, hg⟩ := Option.map_eq_some_iff.mp hread
  obtain ⟨hconnections, hg⟩ := Prod.mk.inj hg
  rw [hrun] at hnumbers
  have hshort := Option.some.inj hnumbers
  obtain ⟨hlength, hsent⟩ := Prod.mk.inj hg
  obtain ⟨⟨w, oks⟩, hw, he⟩ := Option.map_eq_some_iff.mp hsent
  obtain ⟨hw62, rfl⟩ := Prod.mk.inj he
  have hzero := congrArg (·[0]?) hconnections
  simp only [List.getElem?_map] at hzero
  obtain ⟨c, hc, hreceived⟩ := Option.map_eq_some_iff.mp hzero
  have hroomy : roomy ⟨[], false⟩ [] (splitter.drain c.received.flatten).frames = true := by
    rw [hreceived]
    decide +kernel
  obtain ⟨k, hframes, -⟩ := replies_readable textLibc ⟨[], false⟩ (by simp) (.of (.new 2))
    ⟨by decide, by decide⟩ g ⟨Gateway.oneOrder, hrun⟩ 0 c hc hroomy
    (fun o ho ↦ printed_of_short (List.all_eq_true.mp hshort o ho))
    (by rw [hlength]; decide) [10, 47, 5, 0] (by simp [FailsForGood]) w [true, false] hw
  exact ⟨g, w, k, hrun, hw, hw62, hframes⟩

end Fix

end MatchingEngine
