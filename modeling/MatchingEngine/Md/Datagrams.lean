import MatchingEngine.Fix.Amounts
import MatchingEngine.Fix.Duties
import MatchingEngine.Fix.Publishing

/-!
# From the gateway to the wire

`Feed::publish_l1` prints an update into an array of 256 bytes and hands `sendto` the length that
`snprintf` has returned.  That is the length of the whole text, even if the array was too short for
it, and then `sendto` reads past the end.  For the updates of the gateway this does not happen:
every number in them went through an `int64_t`, and a client cannot make the symbol longer than 31
bytes.  So in every run of the threaded gateway in which no two sessions are in `publish_l1` at
once, each update is sent as it is, or not at all if `sendto` fails; the numbers of the datagrams
count the attempts, so that a gap is a failure (`datagrams_sent`).

A datagram can be read in one way only, whatever bytes a client has put in the symbol
(`datagram_unambiguous`).
-/

set_option autoImplicit false

namespace MatchingEngine

namespace Md

open Decimal MatchingEngine.Fix Program

/-! ## The buffer -/

/-- The array on the stack of `publish_l1`. -/
def bufferSize : Nat := 256

/-- The feed with its counter of datagrams. -/
structure Publisher where
  feed : Feed
  published : Nat

namespace Publisher

def opened : Publisher := { feed := .opened, published := 0 }

/-- `publish_l1`, with what `sendto` is going to return, and the datagram, if one leaves.  It is
undefined if `sendto` reads past the end of the array.  A call is one step: the code counts `seq_`
up and reads it again without a lock, and two calls that overlap may send the same number. -/
def publishL1 (snprintf : Int → ℚ → Bytes) (p : Publisher) (l : L1) (sent : Int) :
    Option (Publisher × Int × List Bytes) :=
  if p.feed.isOpen then
    let seq := (p.feed.seq + 1) % 2 ^ 64
    let p := { p with feed.seq := seq }
    let text := datagram snprintf seq l
    if text.length = 0 then some (p, -1, [])
    else if bufferSize < text.length then none
    else
      -- the last byte of the array is for the terminating zero
      let buf := text.take (bufferSize - 1) ++ [0]
      if 0 < sent then
        some ({ p with published := (p.published + 1) % 2 ^ 64 }, sent, [buf.take text.length])
      else some (p, sent, [])
  else some (p, -1, [])

/-- One update after the other, each with the result of its `sendto`. -/
def run (snprintf : Int → ℚ → Bytes) : List (L1 × Int) → Publisher → Option (Publisher × List Bytes)
  | [], p => some (p, [])
  | (l, sent) :: updates, p => do
    let (p, _, wire) ← p.publishL1 snprintf l sent
    let (p, rest) ← run snprintf updates p
    return (p, wire ++ rest)

/-- The datagrams that leave: those of the updates that `sendto` has taken, numbered from `n`. -/
def left (snprintf : Int → ℚ → Bytes) (n : Nat) (updates : List (L1 × Int)) : List Bytes :=
  (updates.zipIdx n).filterMap fun x ↦
    if 0 < x.1.2 then some (datagram snprintf (x.2 % 2 ^ 64) x.1.1) else none

variable {snprintf : Int → ℚ → Bytes} {p : Publisher} {l : L1} {sent : Int}

theorem length_datagram_pos (seq : Nat) (l : L1) : 0 < (datagram snprintf seq l).length := by
  simp only [datagram, line, List.length_append]
  rw [show (ascii ['L', '1', '|']).length = 3 from rfl]
  omega

/-- What an attempt to send leaves behind. -/
def attempted (p : Publisher) (sent : Int) : Publisher where
  feed := { p.feed with seq := (p.feed.seq + 1) % 2 ^ 64 }
  published := if 0 < sent then (p.published + 1) % 2 ^ 64 else p.published

/-- An update that fits is sent as it is. -/
theorem publishL1_of_fits (hopen : p.feed.isOpen = true)
    (hfits : (datagram snprintf (p.attempted sent).feed.seq l).length < bufferSize) :
    p.publishL1 snprintf l sent = some (p.attempted sent, sent,
      if 0 < sent then [datagram snprintf (p.attempted sent).feed.seq l] else []) := by
  have hpos : 0 < (datagram snprintf (p.attempted sent).feed.seq l).length :=
    length_datagram_pos (p.attempted sent).feed.seq l
  have hle : (datagram snprintf (p.attempted sent).feed.seq l).length ≤ bufferSize - 1 := by omega
  have hbuf : ((datagram snprintf (p.attempted sent).feed.seq l).take (bufferSize - 1) ++ [0]).take
      (datagram snprintf (p.attempted sent).feed.seq l).length
        = datagram snprintf (p.attempted sent).feed.seq l := by
    rw [List.take_of_length_le hle, List.take_left]
  rw [publishL1, if_pos hopen]
  dsimp only [attempted] at hfits hpos hbuf ⊢
  rw [if_neg hpos.ne', if_neg hfits.le.not_gt, hbuf]
  split <;> rfl

/-- **Updates that fit** are sent as they are, and their numbers count the attempts. -/
theorem run_of_fits {updates : List (L1 × Int)} {n : Nat} (hopen : p.feed.isOpen = true)
    (hseq : p.feed.seq = n % 2 ^ 64) (hpublished : p.published < 2 ^ 64)
    (hfits : ∀ x ∈ updates, ∀ seq < 2 ^ 64, (datagram snprintf seq x.1).length < bufferSize) :
    ∃ p', run snprintf updates p = some (p', left snprintf (n + 1) updates) ∧
      p'.published = (p.published + updates.countP fun x ↦ 0 < x.2) % 2 ^ 64 := by
  induction updates generalizing p n with
  | nil => exact ⟨p, rfl, (Nat.mod_eq_of_lt hpublished).symm⟩
  | cons x updates ih =>
    obtain ⟨l, sent⟩ := x
    obtain ⟨hl, hrest⟩ := List.forall_mem_cons.mp hfits
    have hnext : (p.attempted sent).feed.seq = (n + 1) % 2 ^ 64 := by
      rw [attempted, hseq, Nat.mod_add_mod]
    have hcounted : (p.attempted sent).published < 2 ^ 64 := by
      show (if 0 < sent then (p.published + 1) % 2 ^ 64 else p.published) < 2 ^ 64
      split <;> omega
    obtain ⟨p', hrun, hp'⟩ := ih (p := p.attempted sent) hopen hnext hcounted hrest
    refine ⟨p', ?_, ?_⟩
    · rw [run, publishL1_of_fits hopen (hl _ (hnext ▸ Nat.mod_lt _ (by decide))), hnext]
      simp only [Option.bind_eq_bind, Option.bind_some, hrun, left, List.zipIdx_cons]
      by_cases hsent : 0 < sent <;> simp [hsent]
    · rw [hp', attempted, List.countP_cons]
      by_cases hsent : 0 < sent
      · simp only [hsent, if_true, decide_true]
        omega
      · simp [hsent]

end Publisher

/-! ## Numbers that fit -/

/-- The numbers of an update that went through the engine. -/
structure Small (l : L1) : Prop where
  bidPx : |l.bidPx| ≤ 2 ^ 63
  bidSz : |l.bidSz| ≤ 2 ^ 63
  askPx : |l.askPx| ≤ 2 ^ 63
  askSz : |l.askSz| ≤ 2 ^ 63

/-- `snprintf` prints the nearest decimal. -/
def PrintsFixed (libc : Libc) : Prop :=
  ∀ decimals v, libc.snprintf decimals v = printFixed decimals.toNat v

theorem length_datagram_le {libc : Libc} (hprints : PrintsFixed libc) {l : L1}
    (hl : Small l) {seq : Nat} (hseq : seq < 2 ^ 64) :
    (datagram libc.snprintf seq l).length < bufferSize := by
  have hnumber : ∀ (decimals : Nat) {v : ℚ}, |v| ≤ 2 ^ 63 →
      (libc.snprintf decimals v).length ≤ 19 + 3 + decimals := by
    intro decimals v hv
    rw [hprints]
    exact length_printFixed_le (hv.trans (by norm_num))
  have hbidPx := hnumber 2 hl.bidPx
  have hbidSz := hnumber 0 hl.bidSz
  have haskPx := hnumber 2 hl.askPx
  have haskSz := hnumber 0 hl.askSz
  have hnum : (render seq).length ≤ 20 :=
    (length_render_le_iff (by decide)).mpr (hseq.trans (by norm_num))
  have hsymbol : (symbolText l.symbol).length ≤ 31 :=
    (List.takeWhile_sublist _).length_le.trans (List.length_take_le _ _)
  have hhead : (ascii ['L', '1', '|']).length = 3 := rfl
  push_cast at hbidPx hbidSz haskPx haskSz
  simp only [datagram, line, numbers, List.length_append, List.length_cons, List.length_nil, hhead,
    bufferSize]
  omega

/-! ## What the gateway asks for -/

/-- The arguments of a placement are of their types. -/
def Int64Request : Request → Prop
  | .placeLimit _ price qty => IsInt64 price ∧ IsInt64 qty
  | _ => True

section Handlers

variable {libc : Libc} {cfg : GatewayConfig} (htyped : libc.Typed)

theorem only_sendBody (s : Session) (body : Body) : (sendBody cfg s body).Only Int64Request :=
  ⟨trivial, fun _ ↦ trivial⟩

theorem only_sendExecReport (s : Session) (report : ExecReport) :
    (sendExecReport cfg s report).Only Int64Request :=
  ⟨trivial, fun _ ↦ only_sendBody s _⟩

theorem only_farewell {β : Type} (s : Session) (text : Bytes) (out : Session → β) :
    (do let s ← sendLogout cfg s text; return out s : Handler β).Only Int64Request :=
  (only_sendBody s _).bind fun _ ↦ trivial

include htyped

theorem only_onNewOrder (s : Session) (m : Message) :
    (onNewOrder libc cfg s m).Only Int64Request := by
  rw [onNewOrder]
  split
  · exact only_sendExecReport s _
  · refine ⟨⟨htyped _, htyped _⟩, fun x ↦ (only_foldlM only_sendExecReport _ s).bind fun s ↦ ?_⟩
    refine Only.bind ?_ fun _ ↦ trivial
    rw [publish]
    split
    · exact ⟨trivial, fun _ ↦ trivial⟩
    · exact trivial

theorem only_handleMessage (s : Session) (m : Message) :
    (handleMessage libc cfg s m).Only Int64Request := by
  rw [handleMessage]
  split
  · exact only_farewell s _ _
  split
  · exact only_sendBody _ _
  split
  · exact only_farewell s _ _
  split
  · exact trivial
  split
  · exact only_onNewOrder htyped s m
  split
  · exact ⟨trivial, fun _ ↦ only_sendExecReport s _⟩
  split
  · exact ⟨trivial, fun _ ↦ only_sendBody s _⟩
  · exact trivial

theorem only_drainFrames (s : Session) (rxBuf : Bytes) :
    (drainFrames libc cfg s rxBuf).Only Int64Request := by
  induction rxBuf using Framing.Splitter.drain_induction (s := splitter) generalizing s with
  | incomplete b hsplit =>
    rw [drainFrames_incomplete hsplit]
    exact trivial
  | malformed b hsplit =>
    rw [drainFrames_malformed hsplit]
    exact only_farewell s _ _
  | ok b f n hsplit ih =>
    rw [drainFrames_ok hsplit]
    split
    · exact only_farewell s _ _
    · exact (only_handleMessage htyped s _).bind ih

theorem only_sessionLoop (chunks : List Bytes) (s : Session) (rxBuf : Bytes) :
    (sessionLoop libc cfg chunks s rxBuf).Only Int64Request := by
  induction chunks generalizing s rxBuf with
  | nil => exact trivial
  | cons chunk chunks ih =>
    rw [sessionLoop]
    split
    · exact (only_drainFrames htyped s _).bind fun x ↦ ih x.1 x.2
    · exact trivial

/-- All that has been asked of a gateway. -/
theorem int64_of_reached {exchange : Exchange} {g : Gateway} (h : g.Reached libc cfg exchange) :
    ∀ a ∈ g.log.map Prod.snd, Int64Request a.1 := by
  intro a ha
  obtain ⟨⟨i, a⟩, hmem, rfl⟩ := List.mem_map.mp ha
  have hc := List.getElem?_eq_getElem (h.traced.tags _ hmem)
  obtain ⟨p, hgoes, -⟩ := (h.traced.each i _ hc).goes
  exact ((only_sessionLoop htyped _ _ _).of_goes hgoes).1 a (mem_ofTag.mpr hmem)

end Handlers

/-! ## What the engine answers -/

/-- The numbers of a top as they are read under the lock. -/
structure Int64Top (top : Top) : Prop where
  bidPx : IsInt64 top.bidPx
  bidSz : IsInt64 top.bidSz
  askPx : IsInt64 top.askPx
  askSz : IsInt64 top.askSz

theorem isInt64_bmod (n : Int) : IsInt64 (n.bmod (2 ^ 64)) :=
  ⟨Int.le_bmod (by decide), Int.bmod_lt (by decide)⟩

theorem isInt64_qtyAt (m : QueueBook) (side : Side) (price : Int) :
    IsInt64 (m.qtyAt side price) := by
  rw [QueueBook.qtyAt]
  generalize m.queueAt side price = q
  rcases List.eq_nil_or_concat q with rfl | ⟨q, r, rfl⟩
  · exact ⟨by decide, by decide⟩
  · rw [List.concat_eq_append, List.foldl_append]
    exact isInt64_bmod _

theorem int64Top_of_reached {N : Nat} {calls : List Call} {e : Engine} (h : e.Reached N calls)
    (hcalls : ∀ c ∈ calls, TypedCall c) {top : Top} (htop : topOf e = some top) : Int64Top top := by
  have hprice : ∀ side, ∀ p ∈ e.book.prices side, IsInt64 p := by
    intro side p hp
    rw [h.usable.represents.prices_eq] at hp
    exact typed_of_mem_pricesOn hcalls p hp
  have hbest : ∀ side empty, IsInt64 empty → IsInt64 ((e.book.best side).getD empty) := by
    intro side empty hempty
    cases hb : e.book.best side with
    | none => exact hempty
    | some p => exact hprice side p (List.mem_of_head? hb)
  have hsize : ∀ {side price present q}, sizeAt e.book side price present = some q → IsInt64 q := by
    intro side price present q hq
    rw [sizeAt] at hq
    split at hq
    · rw [h.usable.represents.qtyAt h.usable.valid] at hq
      obtain rfl := Option.some.inj hq
      exact isInt64_qtyAt _ side price
    · obtain rfl := Option.some.inj hq
      exact ⟨by decide, by decide⟩
  simp only [topOf, Option.bind_eq_bind, Option.bind_eq_some_iff] at htop
  obtain ⟨bidSz, hbidSz, askSz, haskSz, htop⟩ := htop
  obtain rfl := Option.some.inj htop
  refine ⟨?_, hsize hbidSz, ?_, hsize haskSz⟩
  · rw [OrderBook.bestBid_eq]
    exact hbest .Buy 0 ⟨by decide, by decide⟩
  · rw [OrderBook.bestAsk_eq]
    exact hbest .Sell _ ⟨by decide, by decide⟩

/-- What a placement has been told of the top. -/
def Int64Answer : (e : Request) × e.Answer → Prop
  | ⟨.placeLimit .., x⟩ => Int64Top x.top
  | _ => True

/-- The engine after one request. -/
theorem int64_of_answers {N : Nat} {calls : List Call} {x x' : Exchange}
    {a : (e : Request) × e.Answer} (ha : Gateway.Answers x a x') (hreq : Int64Request a.1)
    (hx : x.engine.Reached N calls) (hcalls : ∀ c ∈ calls, TypedCall c) :
    (∃ calls', x'.engine.Reached N calls' ∧ ∀ c ∈ calls', TypedCall c) ∧ Int64Answer a := by
  obtain ⟨replies, hrun⟩ := hx
  have hx' : x'.engine.Reached N (calls ++ (Gateway.bookCall? a).toList.map Prod.fst) :=
    ⟨_, OrderBook.run_append hrun ha.run⟩
  have hcalls' : ∀ c ∈ calls ++ (Gateway.bookCall? a).toList.map Prod.fst, TypedCall c := by
    refine List.forall_mem_append.mpr ⟨hcalls, ?_⟩
    obtain ⟨e, r⟩ := a
    cases e with
    | placeLimit side price qty =>
      rintro c hc
      obtain rfl := List.mem_singleton.mp hc
      exact hreq
    | _ => simp [Gateway.bookCall?, TypedCall]
  refine ⟨⟨_, hx', hcalls'⟩, ?_⟩
  obtain ⟨e, r⟩ := a
  cases e with
  | placeLimit side price qty =>
    rcases ha with ha | ⟨m, he, -⟩
    · simp only [serve, Option.bind_eq_bind, Option.pure_def, Option.bind_eq_some_iff] at ha
      obtain ⟨_, -, top, htop, he⟩ := ha
      obtain ⟨rfl, rfl⟩ := Prod.mk.inj (Option.some.inj he)
      exact int64Top_of_reached hx' hcalls' htop
    · cases (Sigma.mk.inj he).1
  | _ => exact trivial

theorem int64_of_replays {N : Nat} {calls : List Call} {x x' : Exchange} {t : Events}
    (h : Gateway.Replays x t x') (ht : ∀ a ∈ t, Int64Request a.1) (hx : x.engine.Reached N calls)
    (hcalls : ∀ c ∈ calls, TypedCall c) :
    (∃ calls', x'.engine.Reached N calls' ∧ ∀ c ∈ calls', TypedCall c) ∧
      ∀ a ∈ t, Int64Answer a := by
  induction h with
  | refl => exact ⟨⟨calls, hx, hcalls⟩, by simp⟩
  | snoc _ ha ih =>
    obtain ⟨ht, hreq⟩ := List.forall_mem_append.mp ht
    obtain ⟨⟨calls₁, hx₁, hcalls₁⟩, hall⟩ := ih ht
    obtain ⟨hx₂, hone⟩ := int64_of_answers ha (hreq _ (List.mem_singleton_self _)) hx₁ hcalls₁
    exact ⟨hx₂, List.forall_mem_append.mpr ⟨hall, List.forall_mem_singleton.mpr hone⟩⟩

/-- The update that a top becomes. -/
theorem small_ofTop {libc : Libc} (hdoubles : libc.Doubles) (symbol : Bytes) {top : Top}
    (h : Int64Top top) : Small (L1.ofTop libc symbol top) := by
  have habs : ∀ {n : Int}, IsInt64 n → |n| ≤ 2 ^ 63 := fun hn ↦ abs_le.mpr ⟨hn.1, hn.2.le⟩
  refine ⟨hdoubles.abs_price_le (habs h.bidPx), hdoubles.abs_toDouble_le (habs h.bidSz), ?_,
    hdoubles.abs_toDouble_le (habs h.askSz)⟩
  show |askOut libc top.askPx| ≤ 2 ^ 63
  rw [askOut]
  split
  · exact hdoubles.abs_price_le (habs h.askPx)
  · norm_num

/-- **Every update of the gateway** fits into the array. -/
theorem small_of_reached {libc : Libc} (hdoubles : libc.Doubles) (htyped : libc.Typed)
    {cfg : GatewayConfig} {N : Nat} {calls : List Call} (hcalls : ∀ c ∈ calls, TypedCall c)
    {exchange : Exchange} (hx : exchange.engine.Reached N calls) (hnew : exchange.published = [])
    {g : Gateway} (h : g.Reached libc cfg exchange) : ∀ l ∈ g.exchange.published, Small l := by
  intro l hl
  have hanswers := (int64_of_replays h.replays (int64_of_reached htyped h) hx hcalls).2
  have hpublished : l.numbers ∈ (g.log.map Prod.snd).flatMap publishedTop := by
    have hmem := List.mem_map_of_mem (f := L1.numbers) hl
    rwa [h.replays.published, hnew, List.map_nil, List.nil_append] at hmem
  -- what has been published has been read by a placement
  have hread : l.numbers ∈ g.log.flatMap fun x ↦ readTop libc cfg x.2 := by
    rw [List.flatMap_map] at hpublished
    exact (h.traced.perm top_balance rfl).symm.subset (List.mem_append_left _ hpublished)
  obtain ⟨⟨i, e, r⟩, hmem, htop⟩ := List.mem_flatMap.mp hread
  have hanswer := hanswers ⟨e, r⟩ (List.mem_map_of_mem hmem)
  cases e with
  | placeLimit side price qty =>
    rw [readTop] at htop
    split at htop
    · have hsmall := small_ofTop hdoubles [] hanswer
      rw [← List.mem_singleton.mp htop] at hsmall
      exact ⟨hsmall.bidPx, hsmall.bidSz, hsmall.askPx, hsmall.askSz⟩
    · cases htop
  | _ => cases htop

/-- **From the gateway to the wire.**  In every run of the gateway, if the calls of `publish_l1`
come one after the other and whatever `sendto` returns, `publish_l1` stays within its array.  The
datagrams that leave are the lines of those updates that `sendto` has taken, each with the number of
its attempt, and `published_` counts them. -/
theorem datagrams_sent (libc : Libc) (hdoubles : libc.Doubles) (htyped : libc.Typed)
    (hprints : PrintsFixed libc) (cfg : GatewayConfig) (N : Nat) (calls : List Call)
    (hcalls : ∀ c ∈ calls, TypedCall c) (exchange : Exchange) (hx : exchange.engine.Reached N calls)
    (hnew : exchange.published = []) (g : Gateway) (h : g.Reached libc cfg exchange)
    (results : List Int) :
    ∃ p, Publisher.run libc.snprintf (g.exchange.published.zip results) .opened
        = some (p, Publisher.left libc.snprintf 1 (g.exchange.published.zip results)) ∧
      p.published = (g.exchange.published.zip results).countP (fun x ↦ 0 < x.2) % 2 ^ 64 := by
  have hsmall := small_of_reached hdoubles htyped hcalls hx hnew h
  have hfits : ∀ x ∈ g.exchange.published.zip results, ∀ seq < 2 ^ 64,
      (datagram libc.snprintf seq x.1).length < bufferSize := fun x hmem seq hseq ↦
    length_datagram_le hprints (hsmall x.1 (List.of_mem_zip hmem).1) hseq
  have hrun := Publisher.run_of_fits (p := .opened) (n := 0) rfl rfl (by decide) hfits
  rwa [Nat.zero_add, show Publisher.opened.published = 0 from rfl, Nat.zero_add] at hrun

/-- Two sessions trade, and the second `sendto` fails. -/
theorem datagrams_sent_crossing :
    ∃ g p wire, Threads.run (Gateway.step textLibc ⟨[], true⟩) Gateway.crossing
        (.new (.of (.new 2))) = some g ∧ g.exchange.published.length = 2 ∧
      Publisher.run textLibc.snprintf (g.exchange.published.zip [32, -1]) .opened = some (p, wire) ∧
      p.published = 1 := by
  have hread : (Threads.run (Gateway.step textLibc ⟨[], true⟩) Gateway.crossing
      (.new (.of (.new 2)))).map (fun g ↦ (g.exchange.published.length,
        (g.exchange.published.zip [32, -1]).countP fun x ↦ 0 < x.2)) = some (2, 1) := by
    decide +kernel
  obtain ⟨g, hrun, hg⟩ := Option.map_eq_some_iff.mp hread
  obtain ⟨hlength, hcount⟩ := Prod.mk.inj hg
  obtain ⟨p, hp, hpublished⟩ := datagrams_sent textLibc textLibc_doubles textLibc_typed
    (fun _ _ ↦ rfl) ⟨[], true⟩ 2 [] (by simp) (.of (.new 2)) ⟨[], rfl⟩ rfl g
    ⟨Gateway.crossing, hrun⟩ [32, -1]
  exact ⟨g, p, _, hrun, hlength, hp, by omega⟩

/-! ## Reading a datagram -/

/-- A line can be split in one way only: the number ends at the first bar after it, and none of the
four figures has a bar in it. -/
theorem line_inj {seq seq' : Nat} {symbol symbol' : Bytes} {b₁ b₂ b₃ b₄ c₁ c₂ c₃ c₄ : Bytes}
    (hb : ∀ t ∈ [b₁, b₂, b₃, b₄], '|'.toUInt8 ∉ t) (hc : ∀ t ∈ [c₁, c₂, c₃, c₄], '|'.toUInt8 ∉ t)
    (h : line seq symbol b₁ b₂ b₃ b₄ = line seq' symbol' c₁ c₂ c₃ c₄) :
    seq = seq' ∧ symbolText symbol = symbolText symbol' ∧ b₁ = c₁ ∧ b₂ = c₂ ∧ b₃ = c₃ ∧
      b₄ = c₄ := by
  have hdigits : ∀ n, '|'.toUInt8 ∉ render n := fun n ↦
    not_mem_of_isDigit (by decide) isDigit_of_mem_render
  simp only [List.forall_mem_cons, List.not_mem_nil, false_implies, implies_true, and_true] at hb hc
  obtain ⟨hb₁, hb₂, hb₃, hb₄⟩ := hb
  obtain ⟨hc₁, hc₂, hc₃, hc₄⟩ := hc
  simp only [line, numbers, List.append_assoc, List.cons_append] at h
  obtain ⟨hseq, h⟩ := append_cons_inj (hdigits _) (hdigits _) (List.append_cancel_left h)
  -- and now from the end
  have hfour : symbolText symbol ++ '|'.toUInt8 :: b₁ ++ '|'.toUInt8 :: b₂ ++ '|'.toUInt8 :: b₃
        ++ '|'.toUInt8 :: (b₄ ++ ['\n'.toUInt8])
      = symbolText symbol' ++ '|'.toUInt8 :: c₁ ++ '|'.toUInt8 :: c₂ ++ '|'.toUInt8 :: c₃
        ++ '|'.toUInt8 :: (c₄ ++ ['\n'.toUInt8]) := by simpa using h
  have hend : ∀ {t : Bytes}, '|'.toUInt8 ∉ t → '|'.toUInt8 ∉ t ++ ['\n'.toUInt8] := by
    intro t ht hmem
    rcases List.mem_append.mp hmem with hmem | hmem
    · exact ht hmem
    · exact absurd (List.mem_singleton.mp hmem) (by decide)
  obtain ⟨hthree, h₄⟩ := append_cons_inj_right (hend hb₄) (hend hc₄) hfour
  obtain ⟨htwo, h₃⟩ := append_cons_inj_right hb₃ hc₃ hthree
  obtain ⟨hone, h₂⟩ := append_cons_inj_right hb₂ hc₂ htwo
  obtain ⟨hsymbol, h₁⟩ := append_cons_inj_right hb₁ hc₁ hone
  exact ⟨render_inj hseq, hsymbol, h₁, h₂, h₃, List.append_cancel_right h₄⟩

/-- **A datagram says one thing only.**  Whatever bytes the symbols have in them, two updates of
tops that survive the way to the line have different datagrams, unless they agree in the number, in
what is printed of the symbol, and in what is shown of both sides of the book. -/
theorem datagram_unambiguous (libc : Libc) (hexact : libc.Exact) (hrounds : Rounds libc)
    (hprints : Prints libc) {seq seq' : Nat} {symbol symbol' : Bytes}
    {top top' : MatchingEngine.BookTop}
    (hbid : Printable top.bid) (hask : Printable top.ask) (hbid' : Printable top'.bid)
    (hask' : Printable top'.ask)
    (h : datagram libc.snprintf seq (Md.L1.of libc symbol top)
      = datagram libc.snprintf seq' (Md.L1.of libc symbol' top')) :
    seq = seq' ∧ symbolText symbol = symbolText symbol' ∧ shown top.bid = shown top'.bid ∧
      shown top.ask = shown top'.ask := by
  rw [datagram_of_printable hexact hrounds hprints hbid hask,
    datagram_of_printable hexact hrounds hprints hbid' hask', topLine, topLine] at h
  have hbars : ∀ decimals n, '|'.toUInt8 ∉ fixed decimals n :=
    not_mem_fixed (by decide) (by decide)
  obtain ⟨hseq, hsymbol, h₁, h₂, h₃, h₄⟩ := line_inj (by simp [hbars]) (by simp [hbars]) h
  have hside : ∀ {x y : Int × Int}, 0 ≤ x.1 → 0 ≤ x.2 → 0 ≤ y.1 → 0 ≤ y.2 →
      fixed 2 x.1.toNat = fixed 2 y.1.toNat → fixed 0 x.2.toNat = fixed 0 y.2.toNat → x = y := by
    intro x y hx₁ hx₂ hy₁ hy₂ hpx hsz
    have := fixed_inj hpx
    have := fixed_inj hsz
    exact Prod.ext (by omega) (by omega)
  exact ⟨hseq, hsymbol, hside hbid.1 hbid.2.2.1 hbid'.1 hbid'.2.2.1 h₁ h₂,
    hside hask.1 hask.2.2.1 hask'.1 hask'.2.2.1 h₃ h₄⟩

/-- What comes after a zero in the symbol is not sent. -/
theorem datagram_unambiguous_zero :
    ∃ top : MatchingEngine.BookTop, Printable top.bid ∧ Printable top.ask ∧
      datagram textLibc.snprintf 7 (Md.L1.of textLibc (ascii ['A', '|']) top)
        = datagram textLibc.snprintf 7 (Md.L1.of textLibc (ascii ['A', '|'] ++ [0, 66]) top) ∧
      symbolText (ascii ['A', '|']) = symbolText (ascii ['A', '|'] ++ [0, 66]) := by
  have hbid : Printable (some (700, 5)) := by
    rw [Printable]
    decide
  have hask : Printable none := by
    rw [Printable]
    decide
  have htext : symbolText (ascii ['A', '|']) = symbolText (ascii ['A', '|'] ++ [0, 66]) := by decide
  have hline : datagram textLibc.snprintf 7
      (Md.L1.of textLibc (ascii ['A', '|']) ⟨some (700, 5), none⟩) = datagram textLibc.snprintf 7
        (Md.L1.of textLibc (ascii ['A', '|'] ++ [0, 66]) ⟨some (700, 5), none⟩) := by
    simp only [datagram, line, Md.L1.of, htext]
  exact ⟨⟨some (700, 5), none⟩, hbid, hask, hline, (datagram_unambiguous textLibc textLibc_exact
    textLibc_rounds textLibc_prints hbid hask hbid hask hline).2.1⟩

end Md

end MatchingEngine
