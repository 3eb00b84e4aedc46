import Mathlib.Algebra.BigOperators.Fin
import Mathlib.Data.List.Forall2
import MatchingEngine.Fix.Publishing
import MatchingEngine.Util.Interleaving

/-!
# Sessions side by side

Every session has a thread of its own, and all of them share the engine, the counter of execution
ids and the feed.  `on_new_order` places the order and reads the top of the book under the engine's
lock; then it lets go of the lock, sends its reports, and publishes the top that it has read.  In
between, others may place orders and publish.

`Shared` keeps a record besides what the sessions share: the top of the book after each placement,
and the sessions that have one to publish.  No handler looks at it.  If nobody places an order while
somebody has a top to publish, the datagrams show the tops in the order in which the engine has
produced them, and when all sessions are done the last datagram shows the top of the book
(`datagrams_in_order`).  But nothing in the code makes a session wait for another.  In
`exists_datagrams_overtaken` a session is overtaken between the lock and the feed, and the feed ends
with a top that is out of date.
-/

set_option autoImplicit false

namespace MatchingEngine

namespace Fix

open Program Md

/-! ## What is shared -/

/-- What the sessions share, and a record of what they have done. -/
structure Shared where
  exchange : Exchange
  /-- The top of the book right after each placement, the latest last. -/
  snapshots : List BookTop
  /-- The sessions that have placed an order and have not yet published. -/
  pending : List Nat

def Shared.of (exchange : Exchange) : Shared := { exchange, snapshots := [], pending := [] }

/-- How the requests of the `i`th session are answered.  Whether a message gets through is left to
chance. -/
def serveSession (i : Nat) (delivered : Bool) :
    (e : Request) → Shared → Option (Shared × e.Answer)
  | .placeLimit side price qty, w => do
    let (exchange, x) ← serve (.placeLimit side price qty) w.exchange
    let top ← exchange.engine.book.bookTop
    return ({ exchange, snapshots := w.snapshots ++ [top], pending := w.pending ++ [i] }, x)
  | .cancel id, w => do
    let (exchange, ok) ← serve (.cancel id) w.exchange
    return ({ w with exchange }, ok)
  | .top, w => do
    let (exchange, top) ← serve .top w.exchange
    return ({ w with exchange }, top)
  | .nextExecId, w => do
    let (exchange, execId) ← serve .nextExecId w.exchange
    return ({ w with exchange }, execId)
  | .send o, w =>
    some (if delivered then { w with exchange.sent := w.exchange.sent ++ [o] } else w, delivered)
  | .publishL1 symbol bidPx bidSz askPx askSz, w => do
    let (exchange, _) ← serve (.publishL1 symbol bidPx bidSz askPx askSz) w.exchange
    return ({ w with exchange, pending := w.pending.erase i }, ())

/-- A session that handles one message after the other. -/
def handleMessages (libc : Libc) (cfg : GatewayConfig) (session : Session × List Message) :
    Handler Session :=
  session.2.foldlM (handleMessage libc cfg) session.1

/-- The session is logged on, and is sent new orders only. -/
def placesOrders (session : Session × List Message) : Prop :=
  session.1.loggedOn = true ∧ ∀ m ∈ session.2, m.msgType = 'D'.toUInt8

/-- Nobody enters the critical section while a top waits to be published, and the feed can show what
is placed there. -/
def oneAtATime : Nat → Request → Shared → Bool
  | _, .placeLimit side price qty, w =>
    w.pending.isEmpty && fitsLevel w.exchange.engine.book side price qty
  | _, _, _ => true

/-! ## What a session does -/

/-- What a session owes: a top to publish, and how many orders it may still place. -/
structure Local where
  debt : Option Top
  left : Nat

/-- A session publishes the top it has read before it places another order. -/
def Local.allowed (libc : Libc) : Local → Request → Prop
  | l, .placeLimit .. => l.debt = none ∧ 0 < l.left
  | l, .publishL1 symbol bidPx bidSz askPx askSz => ∃ top, l.debt = some top ∧
      (⟨symbol, bidPx, bidSz, askPx, askSz⟩ : L1) = L1.ofTop libc symbol top
  | _, .nextExecId => True
  | _, .send _ => True
  | _, .cancel _ => False
  | _, .top => False

def Local.next : Local → (e : Request) → e.Answer → Local
  | l, .placeLimit .., x => { debt := some x.top, left := l.left - 1 }
  | l, .publishL1 .., _ => { l with debt := none }
  | l, .nextExecId, _ => l
  | l, .send _, _ => l
  | l, .cancel _, _ => l
  | l, .top, _ => l

abbrev Follows {α : Type} (libc : Libc) (final : Local → α → Prop) (l : Local) (p : Handler α) :
    Prop :=
  Conforms (Local.allowed libc) Local.next final l p

section Protocol

variable {libc : Libc} {cfg : GatewayConfig} {l : Local} {s : Session}

/-- Sending a report changes nothing that matters here. -/
theorem follows_sendExecReport (report : ExecReport) :
    Follows libc (fun l' s' ↦ l' = l ∧ s'.loggedOn = s.loggedOn) l (sendExecReport cfg s report) :=
  ⟨trivial, fun _ ↦ ⟨trivial, fun sent ↦ ⟨rfl, by cases sent <;> rfl⟩⟩⟩

theorem follows_sendExecReports (reports : List ExecReport) :
    Follows libc (fun l' s' ↦ l' = l ∧ s'.loggedOn = s.loggedOn) l
      (reports.foldlM (sendExecReport cfg) s) := by
  refine conforms_foldlM reports ?_ ⟨rfl, rfl⟩
  rintro report l' s' ⟨rfl, hs'⟩
  rw [← hs']
  exact follows_sendExecReport report

/-- **A new order** is placed, if at all, and then its top is published. -/
theorem follows_onNewOrder {n : Nat} (hfeed : cfg.hasFeed = true) (hdebt : l.debt = none)
    (hleft : n + 1 ≤ l.left) (m : Message) :
    Follows libc (fun l' s' ↦ l'.debt = none ∧ n ≤ l'.left ∧ s'.loggedOn = s.loggedOn) l
      (onNewOrder libc cfg s m) := by
  rw [onNewOrder]
  split
  · refine (follows_sendExecReport _).mono ?_
    rintro l' s' ⟨rfl, hs⟩
    exact ⟨hdebt, by omega, hs⟩
  · refine ⟨⟨hdebt, by omega⟩, fun x ↦ (follows_sendExecReports _).bind ?_⟩
    rintro _ s' ⟨rfl, hs'⟩
    rw [publish, if_pos hfeed]
    refine ⟨⟨x.top, rfl, rfl⟩, fun _ ↦ ⟨rfl, ?_, hs'⟩⟩
    show n ≤ l.left - 1
    omega

theorem follows_handleMessages (hfeed : cfg.hasFeed = true) {session : Session × List Message}
    (hsession : placesOrders session) (hdebt : l.debt = none) (hleft : session.2.length ≤ l.left) :
    Follows libc (fun l' _ ↦ l'.debt = none) l (handleMessages libc cfg session) := by
  obtain ⟨s, ms⟩ := session
  obtain ⟨hon, hms⟩ := hsession
  dsimp only at hon hms hleft
  rw [handleMessages]
  induction ms generalizing s l with
  | nil => exact hdebt
  | cons m ms ih =>
    obtain ⟨hm, hms⟩ := List.forall_mem_cons.mp hms
    rw [List.foldlM_cons, handleMessage_newOrder hon hm]
    refine (follows_onNewOrder hfeed hdebt hleft m).bind ?_
    rintro l' s' ⟨hdebt', hleft', hs'⟩
    exact ih hdebt' s' hleft' (hs'.trans hon) hms

end Protocol

/-! ## The invariant -/

/-- The update has the numbers of the top, and they can be printed. -/
structure Carries (libc : Libc) (l : L1) (top : BookTop) : Prop where
  eq : l = Md.L1.of libc l.symbol top
  bid : Printable top.bid
  ask : Printable top.ask

/-- Nobody owes a top, or one session does, and it is this one. -/
def Owes (libc : Libc) (n : Nat) (locals : Nat → Local) (pending : List Nat) (owed : List BookTop) :
    Prop :=
  pending = [] ∧ owed = [] ∧ (∀ i < n, (locals i).debt = none) ∨
    ∃ i bookTop top, pending = [i] ∧ owed = [bookTop] ∧ i < n ∧ (locals i).debt = some top ∧
      (∀ symbol, Carries libc (L1.ofTop libc symbol top) bookTop) ∧
      ∀ j < n, j ≠ i → (locals j).debt = none

/-- The tops of the book are those published, in the same order, and then the one that is owed. -/
structure Ordered (libc : Libc) (N k n total : Nat) (locals : Nat → Local) (w : Shared) : Prop where
  standing : ∃ q, w.exchange.engine.Standing N (k + w.snapshots.length) q
  showable : showable w.exchange.engine.book = true
  placed : w.snapshots.length + ∑ i ∈ Finset.range n, (locals i).left ≤ total
  latest : ∀ top, w.snapshots.getLast? = some top → w.exchange.engine.book.bookTop = some top
  split : ∃ done owed, w.snapshots = done ++ owed ∧
    List.Forall₂ (Carries libc) w.exchange.published done ∧ Owes libc n locals w.pending owed

section Invariant

variable {libc : Libc} {N k n total i : Nat} {locals : Nat → Local} {w : Shared}

theorem sum_left_update (locals : Nat → Local) (hi : i < n) (l : Local) :
    ∑ j ∈ Finset.range n, (Function.update locals i l j).left + (locals i).left
      = ∑ j ∈ Finset.range n, (locals j).left + l.left := by
  have hmem := Finset.mem_range.mpr hi
  have hrest : ∑ j ∈ (Finset.range n).erase i, (Function.update locals i l j).left
      = ∑ j ∈ (Finset.range n).erase i, (locals j).left := by
    refine Finset.sum_congr rfl fun j hj ↦ ?_
    rw [Function.update_of_ne (Finset.ne_of_mem_erase hj)]
  rw [← Finset.add_sum_erase _ _ hmem,
    ← Finset.add_sum_erase _ (fun j ↦ (locals j).left) hmem, hrest, Function.update_self]
  omega

/-- With nobody waiting, a session that places an order is the one that owes. -/
theorem Owes.place {owed : List BookTop} (h : Owes libc n locals [] owed) (hi : i < n) {l : Local}
    {top : Top} (hdebt : l.debt = some top) {bookTop : BookTop}
    (hcarries : ∀ symbol, Carries libc (L1.ofTop libc symbol top) bookTop) :
    Owes libc n (Function.update locals i l) [i] (owed ++ [bookTop]) := by
  rcases h with ⟨-, rfl, hnone⟩ | ⟨j, bookTop, top, hp, -⟩
  · refine .inr ⟨i, bookTop, top, rfl, rfl, hi, ?_, hcarries, fun j hj hne ↦ ?_⟩
    · rw [Function.update_self]
      exact hdebt
    · rw [Function.update_of_ne hne]
      exact hnone j hj
  · cases hp

/-- The session that owes publishes, and then nobody owes anything. -/
theorem Owes.publish {pending : List Nat} {owed : List BookTop}
    (h : Owes libc n locals pending owed) (hi : i < n) {top : Top}
    (hdebt : (locals i).debt = some top) {l : Local} (hl : l.debt = none) :
    pending = [i] ∧ (∃ bookTop, owed = [bookTop] ∧
      ∀ symbol, Carries libc (L1.ofTop libc symbol top) bookTop) ∧
      Owes libc n (Function.update locals i l) [] [] := by
  rcases h with ⟨-, -, hnone⟩ | ⟨j, bookTop, top', hp, howed, -, htop', hcarries, hothers⟩
  · rw [hnone i hi] at hdebt
    cases hdebt
  · obtain rfl : i = j := by
      by_contra hne
      rw [hothers i hi hne] at hdebt
      cases hdebt
    obtain rfl := Option.some.inj (hdebt.symm.trans htop')
    refine ⟨hp, ⟨bookTop, howed, hcarries⟩, .inl ⟨rfl, rfl, fun j hj ↦ ?_⟩⟩
    by_cases hij : j = i
    · rw [hij, Function.update_self]
      exact hl
    · rw [Function.update_of_ne hij]
      exact hothers j hj hij

/-- Under the lock. -/
theorem Ordered.placeLimit (hexact : libc.Exact) (h : Ordered libc N k n total locals w)
    (htotal : k + total < 2 ^ 64) (hi : i < n) (hleft : 0 < (locals i).left)
    (hpending : w.pending = []) (delivered : Bool) {side : Side} {price qty : Int}
    (hfits : fitsLevel w.exchange.engine.book side price qty = true) :
    ∃ w' x, serveSession i delivered (.placeLimit side price qty) w = some (w', x) ∧
      Ordered libc N k n total
        (Function.update locals i ((locals i).next (.placeLimit side price qty) x)) w' := by
  have hplaced := h.placed
  have hsum : ∀ debt, ∑ j ∈ Finset.range n,
      (Function.update locals i ⟨debt, (locals i).left - 1⟩ j).left + 1
        = ∑ j ∈ Finset.range n, (locals j).left := by
    intro debt
    have := sum_left_update locals hi ⟨debt, (locals i).left - 1⟩
    dsimp only at this
    omega
  have hroom := hsum none
  obtain ⟨q, hstanding⟩ := h.standing
  obtain ⟨engine, hplace, hstanding', -⟩ := hstanding.placeLimit (by omega) side price qty
  have hshow := showable_placeLimit hstanding.usable h.showable hfits hplace
  obtain ⟨top, htop, hrecord⟩ := topOf_showable hexact hstanding'.usable hshow
  have hbook := hstanding'.bookTop
  generalize (q.placeLimit side price qty []).1 = q' at hstanding' hrecord hbook
  have hside := printable_sideTop hstanding'.usable hshow
  have hserve : serveSession i delivered (.placeLimit side price qty) w
      = some (⟨{ w.exchange with engine }, w.snapshots ++ [q'.bookTop], w.pending ++ [i]⟩,
        ⟨k + w.snapshots.length + 1, engine.lastTrades, top⟩) := by
    simp only [serveSession, serve, hplace, htop, hbook, Option.bind_eq_bind, Option.bind_some,
      Option.pure_def]
  refine ⟨_, _, hserve, ?_, hshow, ?_, ?_, ?_⟩
  · rw [List.length_append, List.length_singleton, ← Nat.add_assoc]
    exact ⟨_, hstanding'⟩
  · rw [List.length_append, List.length_singleton]
    have := hsum (some top)
    dsimp only [Local.next]
    omega
  · intro top' he
    rw [List.getLast?_concat, Option.some_inj] at he
    rw [← he]
    exact hbook
  · obtain ⟨done, owed, hsnapshots, hdone, howed⟩ := h.split
    refine ⟨done, owed ++ [q'.bookTop], by rw [hsnapshots, List.append_assoc], hdone, ?_⟩
    rw [hpending] at howed ⊢
    exact howed.place hi rfl fun symbol ↦ ⟨hrecord symbol, hside .Buy, hside .Sell⟩

/-- What is owed is published. -/
theorem Ordered.publishL1 (h : Ordered libc N k n total locals w) (hi : i < n) {symbol : Bytes}
    {bidPx bidSz askPx askSz : ℚ}
    (hallowed : (locals i).allowed libc (.publishL1 symbol bidPx bidSz askPx askSz))
    (delivered : Bool) :
    ∃ w' x, serveSession i delivered (.publishL1 symbol bidPx bidSz askPx askSz) w = some (w', x) ∧
      Ordered libc N k n total
        (Function.update locals i ((locals i).next (.publishL1 symbol bidPx bidSz askPx askSz) x))
        w' := by
  obtain ⟨top, hdebt, hrecord⟩ := hallowed
  obtain ⟨done, owed, hsnapshots, hdone, howed⟩ := h.split
  obtain ⟨hpending, ⟨bookTop, rfl, hcarries⟩, hnobody⟩ :=
    howed.publish hi hdebt (l := ⟨none, (locals i).left⟩) rfl
  refine ⟨_, _, rfl, h.standing, h.showable, ?_, h.latest, done ++ [bookTop], [], ?_, ?_, ?_⟩
  · have hsum := sum_left_update locals hi ⟨none, (locals i).left⟩
    have hplaced := h.placed
    dsimp only [Local.next] at hsum ⊢
    omega
  · rw [List.append_nil]
    exact hsnapshots
  · refine List.rel_append hdone (.cons ?_ .nil)
    rw [hrecord]
    exact hcarries symbol
  · dsimp only
    rw [hpending, List.erase_cons_head]
    exact hnobody

/-- What neither places nor publishes. -/
theorem Ordered.of_eq {w' : Shared} (h : Ordered libc N k n total locals w)
    (hengine : w'.exchange.engine = w.exchange.engine)
    (hpublished : w'.exchange.published = w.exchange.published)
    (hsnapshots : w'.snapshots = w.snapshots) (hpending : w'.pending = w.pending) :
    Ordered libc N k n total locals w' := by
  obtain ⟨exchange', _, _⟩ := w'
  dsimp only at hengine hpublished hsnapshots hpending
  subst hsnapshots hpending
  refine ⟨?_, ?_, h.placed, ?_, ?_⟩
  · rw [hengine]
    exact h.standing
  · rw [hengine]
    exact h.showable
  · rw [hengine]
    exact h.latest
  · rw [hpublished]
    exact h.split

/-- **Every request** of a session keeps the order. -/
theorem Ordered.serveSession (hexact : libc.Exact) (htotal : k + total < 2 ^ 64) (hi : i < n)
    (delivered : Bool) (e : Request) (h : Ordered libc N k n total locals w)
    (hallowed : (locals i).allowed libc e) (hone : oneAtATime i e w = true) :
    ∃ w' r, serveSession i delivered e w = some (w', r) ∧
      Ordered libc N k n total (Function.update locals i ((locals i).next e r)) w' := by
  cases e with
  | placeLimit side price qty =>
    rw [oneAtATime, Bool.and_eq_true, List.isEmpty_iff] at hone
    exact h.placeLimit hexact htotal hi hallowed.2 hone.1 delivered hone.2
  | publishL1 symbol bidPx bidSz askPx askSz => exact h.publishL1 hi hallowed delivered
  | nextExecId =>
    refine ⟨_, _, rfl, ?_⟩
    rw [Local.next, Function.update_eq_self]
    exact h.of_eq rfl rfl rfl rfl
  | send o =>
    refine ⟨_, _, rfl, ?_⟩
    rw [Local.next, Function.update_eq_self]
    cases delivered <;> exact h.of_eq rfl rfl rfl rfl
  | cancel id => exact hallowed.elim
  | top => exact hallowed.elim

end Invariant

/-! ## All sessions together -/

section Runs

variable {libc : Libc} {cfg : GatewayConfig} {N k n total : Nat} {locals : Nat → Local} {w : Shared}

theorem ordered_of {x : Exchange} {q : QueueBook} (h : x.engine.Standing N k q)
    (hshow : showable x.engine.book = true) (hpublished : x.published = [])
    (hnone : ∀ i < n, (locals i).debt = none)
    (htotal : ∑ i ∈ Finset.range n, (locals i).left ≤ total) :
    Ordered libc N k n total locals (.of x) where
  standing := ⟨q, h⟩
  showable := hshow
  placed := by
    show 0 + _ ≤ _
    omega
  latest := by simp [Shared.of]
  split := ⟨[], [], rfl, by
    show List.Forall₂ _ x.published []
    rw [hpublished]
    exact .nil, .inl ⟨rfl, rfl, hnone⟩⟩

/-- The `j`th datagram has number `j + 1` and shows the `j`th top. -/
theorem Ordered.datagrams (hexact : libc.Exact) (hrounds : Rounds libc) (hprints : Prints libc)
    (h : Ordered libc N k n total locals w) (htotal : k + total < 2 ^ 64) {j : Nat}
    {d : Bytes} (hd : (w.exchange.datagrams libc)[j]? = some d) :
    ∃ top symbol, w.snapshots[j]? = some top ∧ d = topLine (j + 1) symbol top := by
  obtain ⟨done, owed, hsnapshots, hdone, -⟩ := h.split
  rw [Exchange.datagrams, Feed.datagrams_opened, List.getElem?_mapIdx] at hd
  obtain ⟨l, hl, rfl⟩ := Option.map_eq_some_iff.mp hd
  obtain ⟨hj, rfl⟩ := List.getElem?_eq_some_iff.mp hl
  have hj' : j < done.length := hdone.length_eq ▸ hj
  have hle : done.length ≤ w.snapshots.length := by
    rw [hsnapshots, List.length_append]
    omega
  have hplaced := h.placed
  refine ⟨done[j], (w.exchange.published[j]).symbol, ?_, ?_⟩
  · rw [hsnapshots, List.getElem?_append_left hj', List.getElem?_eq_getElem hj']
  · have hcarries : Carries libc w.exchange.published[j] done[j] := hdone.get hj hj'
    rw [hcarries.eq, Nat.mod_eq_of_lt (by omega)]
    exact datagram_of_printable hexact hrounds hprints hcarries.bid hcarries.ask _ _

/-- Nobody owes anything: every top has been published. -/
theorem Ordered.length_datagrams (h : Ordered libc N k n total locals w)
    (hnone : ∀ i < n, (locals i).debt = none) :
    (w.exchange.datagrams libc).length = w.snapshots.length := by
  obtain ⟨done, owed, hsnapshots, hdone, howed⟩ := h.split
  rcases howed with ⟨-, rfl, -⟩ | ⟨i, bookTop, top, -, -, hi, hdebt, -⟩
  · rw [hsnapshots, List.append_nil, ← hdone.length_eq, Exchange.datagrams, Feed.datagrams_opened,
      List.length_mapIdx]
  · rw [hnone i hi] at hdebt
    cases hdebt

end Runs

/-- **The datagrams are in order**, if no order is placed while a top waits to be published: their
numbers are 1, 2 and so on, and they show the tops of the book in the order in which the engine has
produced them.  When all sessions are done the last datagram shows the top of the book. -/
theorem datagrams_in_order (libc : Libc) (hexact : libc.Exact) (hrounds : Rounds libc)
    (hprints : Prints libc) (cfg : GatewayConfig) (hfeed : cfg.hasFeed = true) (N : Nat)
    (calls : List Call) (x : Exchange) (hx : x.engine.Reached N calls)
    (hshow : showable x.engine.book = true) (hpublished : x.published = [])
    (sessions : List (Session × List Message))
    (hsessions : ∀ session ∈ sessions, placesOrders session)
    (hcount : placements calls + (sessions.map fun session ↦ session.2.length).sum < 2 ^ 64)
    (schedule : List (Nat × Bool))
    (hone : allAlong serveSession oneAtATime schedule
      (sessions.map (handleMessages libc cfg), .of x) = true) :
    ∃ ps w, interleave serveSession schedule (sessions.map (handleMessages libc cfg), .of x)
        = some (ps, w) ∧
      (∀ j d, (w.exchange.datagrams libc)[j]? = some d → ∃ top symbol, w.snapshots[j]? = some top ∧
        d = topLine (j + 1) symbol top) ∧
      ((∀ p ∈ ps, p.finished = true) →
        (w.exchange.datagrams libc).length = w.snapshots.length ∧
        ∀ d, (w.exchange.datagrams libc).getLast? = some d → ∃ top symbol,
          w.exchange.engine.book.bookTop = some top ∧
          d = topLine (w.exchange.datagrams libc).length symbol top) := by
  let locals (i : Nat) : Local := ⟨none, (sessions[i]?.map fun session ↦ session.2.length).getD 0⟩
  have hlocals : ∑ i ∈ Finset.range sessions.length, (locals i).left
      = (sessions.map fun session ↦ session.2.length).sum := by
    rw [← Fin.sum_univ_fun_getElem, Finset.sum_range]
    refine Finset.sum_congr rfl fun i _ ↦ ?_
    simp [locals]
  have hstart : Ordered libc N (placements calls) sessions.length _ locals (.of x) :=
    ordered_of (hx.standing (by omega)) hshow hpublished (fun _ _ ↦ rfl) hlocals.le
  have hfollows : AllConform (Local.allowed libc) Local.next (fun l _ ↦ l.debt = none) locals
      (sessions.map (handleMessages libc cfg)) := by
    intro i p hp
    rw [List.getElem?_map] at hp
    obtain ⟨session, hsession, rfl⟩ := Option.map_eq_some_iff.mp hp
    refine follows_handleMessages hfeed (hsessions session (List.mem_of_getElem? hsession)) rfl ?_
    simp [locals, hsession]
  obtain ⟨ps, w, locals', hrun, hlength, hordered, hps⟩ := interleave_keeps
    (fun i hi o e locals w h ↦ h.serveSession hexact hcount hi o e) (List.length_map _) hstart
    hfollows hone
  have hdatagrams := fun {j d} hd ↦
    hordered.datagrams hexact hrounds hprints hcount (j := j) (d := d) hd
  refine ⟨ps, w, hrun, fun j d hd ↦ hdatagrams hd, fun hdone ↦ ?_⟩
  have hnone : ∀ i < sessions.length, (locals' i).debt = none := by
    intro i hi
    rw [← hlength] at hi
    have hp := hps i _ (List.getElem?_eq_getElem hi)
    have hfinished := hdone _ (List.getElem_mem hi)
    revert hp hfinished
    cases ps[i] with
    | ret s => exact fun hp _ ↦ hp
    | call e k => exact fun _ hfinished ↦ by cases hfinished
  have hall := hordered.length_datagrams hnone
  refine ⟨hall, fun d hd ↦ ?_⟩
  rw [List.getLast?_eq_getElem?] at hd
  obtain ⟨top, symbol, htop, rfl⟩ := hdatagrams hd
  obtain ⟨hlt, -⟩ := List.getElem?_eq_some_iff.mp hd
  rw [hall, ← List.getLast?_eq_getElem?] at htop
  exact ⟨top, symbol, hordered.latest top htop, by rw [Nat.sub_add_cancel (by omega)]⟩

/-! ## Two sessions -/

/-- Two sessions, each of which buys 5. -/
def twoBuyers : List (Session × List Message) := [(loggedIn, [buyFive]), (loggedIn, [buyFive])]

theorem placesOrders_twoBuyers : ∀ session ∈ twoBuyers, placesOrders session := by
  intro session h
  have : session = (loggedIn, [buyFive]) := by simpa [twoBuyers] using h
  rw [this]
  exact ⟨rfl, by decide⟩

/-- The steps of the given sessions, in which everything is delivered. -/
def stepsOf (ids : List Nat) : List (Nat × Bool) := ids.map (·, true)

/-- The tops after one of them and after both. -/
def topFive : BookTop := ⟨some (700, 5), none⟩

def topTen : BookTop := ⟨some (700, 10), none⟩

/-- An order without a quantity, which is rejected. -/
def garbage : Message := ⟨[⟨Tag.MsgType, ascii ['D']⟩]⟩

/-- The second buyer waits for the first to publish, and a third session is rejected in between. -/
theorem datagrams_in_order_twoBuyers :
    ∃ ps w, interleave serveSession (stepsOf [0, 2, 0, 0, 2, 0, 1, 1, 1, 1])
        ((twoBuyers ++ [(loggedIn, [garbage])]).map
          (handleMessages textLibc ⟨ascii ['E'], true⟩), .of (.of (.new 2)))
          = some (ps, w) ∧ w.snapshots = [topFive, topTen] ∧ ∀ d,
      (w.exchange.datagrams textLibc).getLast? = some d →
      ∃ symbol, d = topLine 2 symbol topTen := by
  have hsessions : ∀ session ∈ twoBuyers ++ [(loggedIn, [garbage])], placesOrders session := by
    intro session h
    rcases List.mem_append.mp h with h | h
    · exact placesOrders_twoBuyers session h
    · rw [List.mem_singleton.mp h]
      exact ⟨rfl, by decide⟩
  obtain ⟨ps, w, hrun, -, hdone⟩ := datagrams_in_order textLibc textLibc_exact textLibc_rounds
    textLibc_prints ⟨ascii ['E'], true⟩ rfl 2 [] (.of (.new 2)) ⟨[], rfl⟩ (by decide) rfl _
    hsessions (by decide) (stepsOf [0, 2, 0, 0, 2, 0, 1, 1, 1, 1]) (by decide +kernel)
  have hread : (interleave serveSession (stepsOf [0, 2, 0, 0, 2, 0, 1, 1, 1, 1])
      ((twoBuyers ++ [(loggedIn, [garbage])]).map
        (handleMessages textLibc ⟨ascii ['E'], true⟩), .of (.of (.new 2)))).map
        (fun r ↦ (r.1.all finished, r.2.snapshots, r.2.exchange.engine.book.bookTop))
      = some (true, [topFive, topTen], some topTen) := by decide +kernel
  rw [hrun, Option.map_some, Option.some_inj] at hread
  simp only [Prod.mk.injEq] at hread
  obtain ⟨hfinished, hsnapshots, htop⟩ := hread
  obtain ⟨hlength, hlast⟩ := hdone (List.all_eq_true.mp hfinished)
  refine ⟨ps, w, hrun, hsnapshots, fun d hd ↦ ?_⟩
  obtain ⟨top, symbol, htop', hd'⟩ := hlast d hd
  rw [htop, Option.some_inj] at htop'
  rw [hlength, hsnapshots, ← htop'] at hd'
  exact ⟨symbol, hd'⟩

/-- The second exchange is the first with a larger pool. -/
def Shared.Fits (n : Nat) (w w' : Shared) : Prop :=
  ∃ engine, w' = { w with exchange.engine := engine } ∧ w.exchange.engine.Fits n engine

theorem Shared.Fits.of_succ {n : Nat} {w w' : Shared} (h : w.Fits (n + 1) w') : w.Fits n w' := by
  obtain ⟨engine, rfl, hfits⟩ := h
  exact ⟨engine, rfl, hfits.of_succ⟩

theorem Shared.Fits.serveSession {n i : Nat} {delivered : Bool} {e : Request} {w w' w₁ : Shared}
    {r : e.Answer} (h : w.Fits (n + 1) w') (he : serveSession i delivered e w = some (w₁, r)) :
    ∃ w₁', Fix.serveSession i delivered e w' = some (w₁', r) ∧ w₁.Fits n w₁' := by
  obtain ⟨engine, rfl, hfits⟩ := h
  cases e with
  | placeLimit side price qty =>
    simp only [Fix.serveSession, serve, Option.bind_eq_bind, Option.bind_assoc, Option.pure_def,
      Option.bind_some, Option.bind_eq_some_iff] at he
    obtain ⟨⟨engine₁, id⟩, hplace, top, htop, bookTop, hbook, he⟩ := he
    obtain ⟨rfl, rfl⟩ := Prod.mk.inj (Option.some.inj he)
    obtain ⟨engine₁', hplace', hfits₁⟩ := hfits.placeLimit hplace
    rw [← topOf_fits hfits₁] at htop
    rw [← hfits₁.bookTop] at hbook
    refine ⟨_, ?_, engine₁', rfl, hfits₁⟩
    simp only [Fix.serveSession, serve, hplace', htop, hbook, hfits₁.lastTrades,
      Option.bind_eq_bind, Option.bind_some, Option.pure_def]
  | cancel id =>
    simp only [Fix.serveSession, serve, Option.bind_eq_bind, Option.bind_assoc, Option.pure_def,
      Option.bind_some, Option.bind_eq_some_iff] at he
    obtain ⟨⟨engine₁, ok⟩, hcancel, he⟩ := he
    obtain ⟨rfl, rfl⟩ := Prod.mk.inj (Option.some.inj he)
    obtain ⟨engine₁', hcancel', hfits₁⟩ := hfits.cancel hcancel
    refine ⟨_, ?_, engine₁', rfl, hfits₁.of_succ⟩
    simp only [Fix.serveSession, serve, hcancel', Option.bind_eq_bind, Option.bind_some,
      Option.pure_def]
  | top =>
    simp only [Fix.serveSession, serve, Option.bind_eq_bind, Option.bind_assoc, Option.pure_def,
      Option.bind_some, Option.bind_eq_some_iff] at he
    obtain ⟨top, htop, he⟩ := he
    obtain ⟨rfl, rfl⟩ := Prod.mk.inj (Option.some.inj he)
    rw [← topOf_fits hfits] at htop
    refine ⟨_, ?_, engine, rfl, hfits.of_succ⟩
    simp only [Fix.serveSession, serve, htop, Option.bind_eq_bind, Option.bind_some,
      Option.pure_def]
  | nextExecId =>
    obtain ⟨rfl, rfl⟩ := Prod.mk.inj (Option.some.inj he)
    exact ⟨_, rfl, engine, rfl, hfits.of_succ⟩
  | send o =>
    obtain ⟨rfl, rfl⟩ := Prod.mk.inj (Option.some.inj he)
    cases delivered <;> exact ⟨_, rfl, engine, rfl, hfits.of_succ⟩
  | publishL1 symbol bidPx bidSz askPx askSz =>
    obtain ⟨rfl, rfl⟩ := Prod.mk.inj (Option.some.inj he)
    exact ⟨_, rfl, engine, rfl, hfits.of_succ⟩

/-- **A session is overtaken** between the lock and the feed.  The top read first is published last,
and is no longer the top of the book. -/
theorem exists_datagrams_overtaken :
    ∃ (libc : Libc) (cfg : GatewayConfig) (x : Exchange) (sessions : List (Session × List Message))
      (schedule : List (Nat × Bool)) (ps : List (Handler Session)) (w : Shared)
      (top₁ top₂ : BookTop), libc.Exact ∧ Rounds libc ∧ Prints libc ∧ cfg.hasFeed = true ∧
      x.engine = .new Engine.defaultPoolCapacity ∧ x.published = [] ∧
      (∀ session ∈ sessions, placesOrders session) ∧
      interleave serveSession schedule (sessions.map (handleMessages libc cfg), .of x)
        = some (ps, w) ∧ (∀ p ∈ ps, p.finished = true) ∧
      w.snapshots = [top₁, top₂] ∧ w.exchange.engine.book.bookTop = some top₂ ∧
      w.exchange.datagrams libc = [topLine 1 [] top₂, topLine 2 [] top₁] ∧
      ∀ seq symbol, topLine 2 [] top₁ ≠ topLine seq symbol top₂ := by
  generalize hN : Engine.defaultPoolCapacity = N
  -- on a pool of eight slots, which is more than enough
  have hsmall : (interleave serveSession (stepsOf [0, 1, 1, 1, 1, 0, 0, 0])
      (twoBuyers.map (handleMessages textLibc ⟨ascii ['E'], true⟩), .of (.of (.new 8)))).map
        (fun r ↦ (r.1.all finished, r.2.snapshots, r.2.exchange.engine.book.bookTop,
          r.2.exchange.datagrams textLibc))
      = some (true, [topFive, topTen], some topTen,
        [topLine 1 [] topTen, topLine 2 [] topFive]) := by
    decide +kernel
  obtain ⟨⟨ps, w⟩, hrun, hread⟩ := Option.map_eq_some_iff.mp hsmall
  simp only [Prod.mk.injEq] at hread
  obtain ⟨hfinished, hsnapshots, htop, hdatagrams⟩ := hread
  have hfits : (Shared.of (.of (.new 8))).Fits (stepsOf [0, 1, 1, 1, 1, 0, 0, 0]).length
      (.of (.of (.new N))) :=
    ⟨.new N, rfl, Engine.fits_new (by rw [← hN]; decide)⟩
  obtain ⟨_, hrun', engine, rfl, hengine⟩ := interleave_simulates serveSession
    (fun h he ↦ h.serveSession he) (fun h ↦ h.of_succ) hfits hrun
  refine ⟨textLibc, ⟨ascii ['E'], true⟩, .of (.new N), twoBuyers, _, ps, _, topFive, topTen,
    textLibc_exact, textLibc_rounds, textLibc_prints, rfl, rfl, rfl, placesOrders_twoBuyers,
    hrun', List.all_eq_true.mp hfinished, hsnapshots, hengine.bookTop.trans htop, hdatagrams,
    fun seq symbol hd ↦ ?_⟩
  have hsuffix := topNumbers_suffix_topLine seq symbol topTen
  rw [← hd] at hsuffix
  have hclosed : ¬topNumbers topTen <:+ topLine 2 [] topFive := by decide +kernel
  exact hclosed hsuffix

end Fix

end MatchingEngine
