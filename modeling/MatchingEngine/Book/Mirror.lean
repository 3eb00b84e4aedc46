import MatchingEngine.Book.Refinement

/-!
# The two sides obey the same law

`place_limit`, `match_against` and `cancel` treat buys and sells in separate branches, over maps
with opposite comparators.  The *mirror image* of a book swaps the two: a bid at `p` becomes an ask
at `-1 - p`, the bitwise complement of `p`, which reverses the order of prices and maps the 64-bit
range onto itself.  Every operation commutes with it, down to the pointers: a node keeps its slot,
and the free-list, `index_` and the two counters do not change at all.

`run_mirror` follows by induction.  It has no bound on the length of the run and no assumption on
ids, for it is a statement about the code and not about what the code is for.
-/

set_option autoImplicit false

namespace MatchingEngine

/-! ## Mirror images -/

/-- The bitwise complement. -/
def mirrorPrice (price : Int) : Int := -1 - price

def OrderNode.mirror (x : OrderNode) : OrderNode :=
  { x with side := x.side.opposite, price := mirrorPrice x.price }

def Trade.mirror (t : Trade) : Trade := { t with price := mirrorPrice t.price }

def Call.mirror : Call → Call
  | .placeLimit side price qty => .placeLimit side.opposite (mirrorPrice price) qty
  | .cancel id => .cancel id

def Reply.mirror : Reply → Reply
  | .placed id trades => .placed id (trades.map Trade.mirror)
  | .cancelled ok => .cancelled ok

/-- The opposite comparator. -/
def KeyCompare.flip : KeyCompare → KeyCompare
  | .less => .greater
  | .greater => .less

theorem mirrorPrice_injective : Function.Injective mirrorPrice := by
  intro p q h
  simp only [mirrorPrice] at h
  omega

theorem KeyCompare.before_flip (c : KeyCompare) (p q : Int) :
    c.flip.before (mirrorPrice p) (mirrorPrice q) ↔ c.before p q := by
  cases c <;> simp only [flip, before, mirrorPrice] <;> omega

theorem KeyCompare.cross_flip (c : KeyCompare) (p limit : Int) :
    c.flip.cross (mirrorPrice p) (mirrorPrice limit) = c.cross p limit := by
  cases c <;> simp only [flip, cross, mirrorPrice, decide_eq_decide] <;> omega

/-- A side of the book, seen from the other. -/
def BookSide.mirror {c : KeyCompare} (m : BookSide c) : BookSide c.flip :=
  m.mapKeys mirrorPrice c.before_flip

namespace OrderBook

def Matching.mirror (s : Matching) : Matching :=
  { s with pool := s.pool.map OrderNode.mirror, trades := s.trades.map Trade.mirror }

def mirror (b : OrderBook) : OrderBook :=
  { b with
    bids := BookSide.mirror b.asks
    asks := BookSide.mirror b.bids
    pool := b.pool.map OrderNode.mirror }

/-! ## Every operation commutes with it -/

section Level

variable (pool : ObjectPool OrderNode) (lvl : Level)

theorem setNext_mirror (p v : Option Ptr) :
    setNext (pool.map OrderNode.mirror) lvl p v
      = (setNext pool lvl p v).map fun x ↦ (x.1.map OrderNode.mirror, x.2) := by
  cases p with
  | none => rfl
  | some p =>
    rw [setNext, setNext, ObjectPool.modify_map]
    · cases pool.modify p _ <;> rfl
    · exact fun _ ↦ rfl

theorem setPrev_mirror (p v : Option Ptr) :
    setPrev (pool.map OrderNode.mirror) lvl p v
      = (setPrev pool lvl p v).map fun x ↦ (x.1.map OrderNode.mirror, x.2) := by
  cases p with
  | none => rfl
  | some p =>
    rw [setPrev, setPrev, ObjectPool.modify_map]
    · cases pool.modify p _ <;> rfl
    · exact fun _ ↦ rfl

theorem levelPushBack_mirror (n : Ptr) :
    levelPushBack (pool.map OrderNode.mirror) lvl n
      = (levelPushBack pool lvl n).map fun x ↦ (x.1.map OrderNode.mirror, x.2) := by
  rw [levelPushBack, levelPushBack, ObjectPool.modify_map]
  · cases pool.modify n _ with
    | none => rfl
    | some pool =>
      simp only [Option.map_some, Option.bind_eq_bind, Option.bind_some, setNext_mirror]
      cases setNext pool lvl lvl.tail (some n) <;> rfl
  · exact fun _ ↦ rfl

theorem levelUnlink_mirror (n : Ptr) :
    levelUnlink (pool.map OrderNode.mirror) lvl n
      = (levelUnlink pool lvl n).map fun x ↦ (x.1.map OrderNode.mirror, x.2) := by
  rw [levelUnlink, levelUnlink, ObjectPool.deref_map]
  cases pool.deref n with
  | none => rfl
  | some x =>
    simp only [Option.map_some, Option.bind_eq_bind, Option.bind_some, OrderNode.mirror,
      setNext_mirror]
    cases setNext pool lvl x.prev x.next with
    | none => rfl
    | some y =>
      simp only [Option.map_some, Option.bind_some, ObjectPool.deref_map]
      cases y.1.deref n with
      | none => rfl
      | some x =>
        simp only [Option.map_some, Option.bind_some, OrderNode.mirror, setPrev_mirror]
        cases setPrev y.1 y.2 x.next x.prev with
        | none => rfl
        | some z =>
          simp only [Option.map_some, Option.bind_some]
          rw [ObjectPool.modify_map]
          · cases z.1.modify n _ <;> rfl
          · exact fun _ ↦ rfl

end Level

theorem append_mirror (trades : List Trade) (t : Trade) :
    trades.map Trade.mirror ++ [t.mirror] = (trades ++ [t]).map Trade.mirror := by
  rw [List.map_append, List.map_singleton]

theorem matchLevel_mirror (takerId : Nat) (levelPx : Int) (fuel : Nat) (lvl : Level)
    (s : Matching) :
    matchLevel takerId (mirrorPrice levelPx) fuel lvl s.mirror
      = (matchLevel takerId levelPx fuel lvl s).map fun x ↦ (x.1, x.2.mirror) := by
  induction fuel generalizing lvl s with
  | zero => rfl
  | succ fuel ih =>
    rw [matchLevel, matchLevel, show s.mirror.qty = s.qty from rfl]
    split
    · cases lvl.head with
      | none => rfl
      | some maker =>
        simp only [Option.bind_eq_bind, Option.bind_some, Matching.mirror, ObjectPool.deref_map]
        cases s.pool.deref maker with
        | none => rfl
        | some x =>
          simp only [Option.map_some, Option.bind_some, OrderNode.mirror]
          rw [ObjectPool.modify_map]
          · cases s.pool.modify maker _ with
            | none => rfl
            | some pool =>
              simp only [Option.map_some, Option.bind_some, ObjectPool.deref_map]
              cases pool.deref maker with
              | none => rfl
              | some y =>
                have htrades : ∀ q, s.trades.map Trade.mirror ++
                    [⟨takerId, x.id, mirrorPrice levelPx, q⟩]
                      = (s.trades ++ [Trade.mk takerId x.id levelPx q]).map Trade.mirror :=
                  fun q ↦ append_mirror s.trades ⟨takerId, x.id, levelPx, q⟩
                simp only [Option.map_some, Option.bind_some, OrderNode.mirror, htrades,
                  levelUnlink_mirror]
                split
                · cases levelUnlink pool lvl maker with
                  | none => rfl
                  | some z =>
                    simp only [Option.map_some, Option.bind_some, ObjectPool.release_map]
                    cases z.1.release maker with
                    | none => rfl
                    | some pool =>
                      exact ih z.2
                        ⟨pool, s.index.erase y.id, s.qty - min s.qty x.qty, s.trades ++ [_]⟩
                · exact ih lvl ⟨pool, s.index, s.qty - min s.qty x.qty, s.trades ++ [_]⟩
          · exact fun _ ↦ rfl
    · rfl

variable {c : KeyCompare}

/-- Put a level back after matching, or erase it. -/
theorem putLevel_mirror (opp : BookSide c) (levelPx : Int) (lvl : Level) :
    (if lvl.empty then SortedMap.erase (BookSide.mirror opp) (mirrorPrice levelPx)
      else SortedMap.insert (BookSide.mirror opp) (mirrorPrice levelPx) lvl)
      = BookSide.mirror (if lvl.empty then opp.erase levelPx else opp.insert levelPx lvl) := by
  split
  · exact SortedMap.erase_mapKeys _ opp mirrorPrice_injective levelPx
  · exact SortedMap.insert_mapKeys _ opp mirrorPrice_injective levelPx lvl

theorem matchAgainst_mirror (takerId : Nat) (limit : Int) (fuel : Nat) (opp : BookSide c)
    (s : Matching) :
    matchAgainst takerId (mirrorPrice limit) fuel (BookSide.mirror opp) s.mirror
      = (matchAgainst takerId limit fuel opp s).map fun x ↦ (BookSide.mirror x.1, x.2.mirror) := by
  induction fuel generalizing opp s with
  | zero => rfl
  | succ fuel ih =>
    rw [matchAgainst, matchAgainst, show s.mirror.qty = s.qty from rfl,
      show (BookSide.mirror opp).isEmpty = opp.isEmpty from SortedMap.isEmpty_mapKeys _ opp,
      show (BookSide.mirror opp).begin? = _ from SortedMap.begin?_mapKeys _ opp]
    split
    · cases opp.begin? with
      | none => rfl
      | some e =>
        simp only [Option.map_some, Option.bind_eq_bind, Option.bind_some, KeyCompare.cross_flip,
          matchLevel_mirror, show s.mirror.pool.capacity = s.pool.capacity from rfl]
        split
        · cases matchLevel takerId e.1 (s.pool.capacity + 1) e.2 s with
          | none => rfl
          | some x =>
            simp only [Option.map_some, Option.bind_some, putLevel_mirror]
            exact ih _ x.2
        · rfl
    · rfl

theorem restRemainder_mirror (own : BookSide c) (s : Matching) (id : Nat) (side : Side)
    (price : Int) (nextTs : Nat) :
    restRemainder (BookSide.mirror own) s.mirror id side.opposite (mirrorPrice price) nextTs
      = (restRemainder own s id side price nextTs).map
        fun x ↦ (BookSide.mirror x.1, x.2.1.mirror, x.2.2) := by
  rw [restRemainder, restRemainder, show s.mirror.qty = s.qty from rfl]
  split
  · simp only [Matching.mirror, ObjectPool.acquire_map]
    cases s.pool.acquire with
    | none => rfl
    | some x =>
      obtain ⟨n, pool⟩ := x
      cases n with
      | none => rfl
      | some n =>
        have hnode := ObjectPool.construct_map OrderNode.mirror pool n
          { id, side, price, qty := s.qty, ts := nextTs, prev := none, next := none }
        simp only [OrderNode.mirror] at hnode
        simp only [Option.map_some, Option.bind_eq_bind, Option.bind_some, hnode]
        cases pool.construct n _ with
        | none => rfl
        | some pool =>
          simp only [Option.map_some, Option.bind_some, show (BookSide.mirror own).find?
            (mirrorPrice price) = _ from SortedMap.find?_mapKeys _ own mirrorPrice_injective price,
            levelPushBack_mirror]
          cases levelPushBack pool _ n with
          | none => rfl
          | some y =>
            simp only [Option.map_some, Option.bind_some, show (BookSide.mirror own).insert
              (mirrorPrice price) y.2 = _ from
                SortedMap.insert_mapKeys _ own mirrorPrice_injective price y.2]
            rfl
  · rfl

theorem size_mirror (own : BookSide c) : (BookSide.mirror own).size = own.size :=
  SortedMap.size_mapKeys _ own

/-- What `place_limit` returns. -/
def placed (b : OrderBook) (bids : BookSide .greater) (asks : BookSide .less) (s : Matching)
    (ts : Nat) : OrderBook × Nat × List Trade :=
  (⟨bids, asks, s.index, s.pool, (b.nextId + 1) % 2 ^ 64, ts⟩, b.nextId, s.trades)

/-- Matching and resting, whatever is made of the result. -/
theorem matchRest_mirror {c' : KeyCompare} {β β' : Type} (own : BookSide c) (opp : BookSide c')
    (s : Matching) (id : Nat) (side : Side) (price : Int) (ts : Nat)
    (k : BookSide c → BookSide c' → Matching → Nat → β)
    (k' : BookSide c.flip → BookSide c'.flip → Matching → Nat → β') (m : β → β')
    (hk : ∀ own opp s ts, k' (BookSide.mirror own) (BookSide.mirror opp) s.mirror ts
      = m (k own opp s ts)) :
    ((matchAgainst id (mirrorPrice price) ((BookSide.mirror opp).size + 1) (BookSide.mirror opp)
        s.mirror).bind fun x ↦
      (restRemainder (BookSide.mirror own) x.2 id side.opposite (mirrorPrice price) ts).bind fun y ↦
        some (k' y.1 x.1 y.2.1 y.2.2))
      = ((matchAgainst id price (opp.size + 1) opp s).bind fun x ↦
        (restRemainder own x.2 id side price ts).bind fun y ↦
          some (k y.1 x.1 y.2.1 y.2.2)).map m := by
  rw [size_mirror, matchAgainst_mirror]
  cases matchAgainst id price (opp.size + 1) opp s with
  | none => rfl
  | some x =>
    simp only [Option.map_some, Option.bind_some, restRemainder_mirror]
    cases restRemainder own x.2 id side price ts with
    | none => rfl
    | some y => exact congrArg some (hk ..)

theorem placeLimit_mirror (b : OrderBook) (side : Side) (price qty : Int) (trades : List Trade) :
    b.mirror.placeLimit side.opposite (mirrorPrice price) qty (trades.map Trade.mirror)
      = (b.placeLimit side price qty trades).map
        fun x ↦ (x.1.mirror, x.2.1, x.2.2.map Trade.mirror) := by
  cases side with
  | Buy =>
    exact matchRest_mirror b.bids b.asks ⟨b.pool, b.index, qty, trades⟩ b.nextId .Buy price b.nextTs
      b.placed (fun asks bids ↦ b.mirror.placed bids asks) _ fun _ _ _ _ ↦ rfl
  | Sell =>
    exact matchRest_mirror b.asks b.bids
      ⟨b.pool, b.index, qty, trades⟩ b.nextId .Sell price b.nextTs
      (fun asks bids ↦ b.placed bids asks) b.mirror.placed _ fun _ _ _ _ ↦ rfl

theorem unlinkFrom_mirror (own : BookSide c) (pool : ObjectPool OrderNode) (px : Int) (n : Ptr) :
    unlinkFrom (BookSide.mirror own) (pool.map OrderNode.mirror) (mirrorPrice px) n
      = (unlinkFrom own pool px n).map
        (Option.map fun x ↦ (BookSide.mirror x.1, x.2.map OrderNode.mirror)) := by
  rw [unlinkFrom, unlinkFrom, show (BookSide.mirror own).find? (mirrorPrice px) = _ from
    SortedMap.find?_mapKeys _ own mirrorPrice_injective px]
  cases own.find? px with
  | none => rfl
  | some lvl =>
    simp only [levelUnlink_mirror]
    cases levelUnlink pool lvl n with
    | none => rfl
    | some x =>
      simp only [Option.map_some, Option.bind_eq_bind, Option.bind_some, putLevel_mirror]
      rfl

theorem cancel_mirror (b : OrderBook) (id : Nat) :
    b.mirror.cancel id = (b.cancel id).map fun x ↦ (x.1.mirror, x.2) := by
  rw [cancel, cancel, show b.mirror.index = b.index from rfl]
  cases b.index.find? id with
  | none => rfl
  | some n =>
    dsimp only
    rw [show b.mirror.pool.deref n = _ from ObjectPool.deref_map _ b.pool n]
    cases b.pool.deref n with
    | none => rfl
    | some x =>
      simp only [Option.map_some, Option.bind_eq_bind, Option.bind_some]
      obtain ⟨i, side, px, q, ts, prev, next⟩ := x
      cases side with
      | Buy =>
        have hunlink : unlinkFrom b.mirror.asks b.mirror.pool (mirrorPrice px) n = _ :=
          unlinkFrom_mirror b.bids b.pool px n
        simp only [OrderNode.mirror, Side.opposite, hunlink]
        cases unlinkFrom b.bids b.pool px n with
        | none => rfl
        | some y =>
          cases y with
          | none => rfl
          | some y =>
            simp only [Option.map_some, Option.bind_some]
            change ((y.2.map OrderNode.mirror).release n).bind _ = _
            rw [ObjectPool.release_map]
            cases y.2.release n <;> rfl
      | Sell =>
        have hunlink : unlinkFrom b.mirror.bids b.mirror.pool (mirrorPrice px) n = _ :=
          unlinkFrom_mirror b.asks b.pool px n
        simp only [OrderNode.mirror, Side.opposite, hunlink]
        cases unlinkFrom b.asks b.pool px n with
        | none => rfl
        | some y =>
          cases y with
          | none => rfl
          | some y =>
            simp only [Option.map_some, Option.bind_some]
            change ((y.2.map OrderNode.mirror).release n).bind _ = _
            rw [ObjectPool.release_map]
            cases y.2.release n <;> rfl

/-! ## Runs -/

theorem perform_mirror (b : OrderBook) (call : Call) :
    b.mirror.perform call.mirror = (b.perform call).map fun x ↦ (x.1.mirror, x.2.mirror) := by
  cases call with
  | placeLimit side price qty =>
    have h := placeLimit_mirror b side price qty []
    rw [List.map_nil] at h
    rw [perform, Call.mirror, perform, h]
    cases b.placeLimit side price qty [] <;> rfl
  | cancel id =>
    rw [perform, Call.mirror, perform, cancel_mirror]
    cases b.cancel id <;> rfl

/-- **A run commutes with the mirror image**, call by call. -/
theorem run_map_mirror (b : OrderBook) (calls : List Call) :
    b.mirror.run (calls.map Call.mirror)
      = (b.run calls).map fun x ↦ (x.1.mirror, x.2.map Reply.mirror) := by
  induction calls generalizing b with
  | nil => rfl
  | cons call calls ih =>
    rw [List.map_cons, run, run, perform_mirror]
    cases b.perform call with
    | none => rfl
    | some x =>
      simp only [Option.map_some, Option.bind_eq_bind, Option.bind_some, ih]
      cases x.1.run calls <;> rfl

theorem mirror_new (N : Nat) : (new N).mirror = new N := by
  rw [mirror, show (new N).pool = .new N from rfl, ObjectPool.new_map]
  rfl

/-! ## What the mirror image of a book holds -/

theorem levelAt_mirror (b : OrderBook) (side : Side) (price : Int) :
    b.mirror.levelAt side.opposite (mirrorPrice price) = b.levelAt side price := by
  cases side with
  | Buy =>
    exact SortedMap.find?_mapKeys
      (KeyCompare.before_flip .greater) b.bids mirrorPrice_injective price
  | Sell =>
    exact SortedMap.find?_mapKeys (KeyCompare.before_flip .less) b.asks mirrorPrice_injective price

theorem nodesFromHead_mirror (b : OrderBook) (lvl : Level) :
    b.mirror.nodesFromHead lvl = b.nodesFromHead lvl := by
  have hnext : (fun p ↦ (b.mirror.pool.deref p).map OrderNode.next)
      = fun p ↦ (b.pool.deref p).map OrderNode.next := by
    funext p
    rw [show b.mirror.pool.deref p = _ from ObjectPool.deref_map _ b.pool p, Option.map_map]
    rfl
  rw [nodesFromHead, nodesFromHead, hnext]
  rfl

theorem ordersAt_mirror (b : OrderBook) (side : Side) (price : Int) :
    b.mirror.ordersAt side.opposite (mirrorPrice price) = b.ordersAt side price := by
  have hread : (fun p ↦ (b.mirror.pool.deref p).map fun x ↦ (x.id, x.qty))
      = fun p ↦ (b.pool.deref p).map fun x ↦ (x.id, x.qty) := by
    funext p
    rw [show b.mirror.pool.deref p = _ from ObjectPool.deref_map _ b.pool p, Option.map_map]
    rfl
  rw [ordersAt, ordersAt, levelAt_mirror]
  simp only [nodesFromHead_mirror, hread]

end OrderBook

/-- `b'` is the mirror image of `b`, as far as the two can be told apart from outside. -/
structure Mirrors (b b' : OrderBook) : Prop where
  /-- The levels of one side are those of the other, in the same order. -/
  bids : b'.bids.keys = b.asks.keys.map mirrorPrice
  asks : b'.asks.keys = b.bids.keys.map mirrorPrice
  /-- And they hold the same orders, in the same order. -/
  orders : ∀ side price,
    b'.ordersAt side.opposite (mirrorPrice price) = b.ordersAt side price
  node : ∀ p, b'.pool.deref p = (b.pool.deref p).map OrderNode.mirror
  index : b'.index = b.index
  free : b'.freeSlots = b.freeSlots
  counters : b'.nextId = b.nextId ∧ b'.nextTs = b.nextTs

theorem OrderBook.mirrors_mirror (b : OrderBook) : Mirrors b b.mirror where
  bids := by simp [mirror, BookSide.mirror, SortedMap.keys, SortedMap.entries_mapKeys]
  asks := by simp [mirror, BookSide.mirror, SortedMap.keys, SortedMap.entries_mapKeys]
  orders := b.ordersAt_mirror
  node := ObjectPool.deref_map _ b.pool
  index := rfl
  free := by
    have hnext : b.mirror.pool.nextFree = b.pool.nextFree := by
      funext p
      rw [ObjectPool.nextFree, ObjectPool.nextFree,
        show b.mirror.pool.slots p = _ from ObjectPool.slots_map _ b.pool p]
      cases b.pool.slots p with
      | none => rfl
      | some s => cases s <;> rfl
    rw [freeSlots, freeSlots, hnext]
    rfl
  counters := ⟨rfl, rfl⟩

/-- **The mirror image of a run** gives the same ids and the same answers to cancels, trades at the
complemented prices, and the mirror image of the book. -/
theorem run_mirror (N : Nat) (calls : List Call) :
    ∃ b b' replies, (OrderBook.new N).run calls = some (b, replies) ∧
      (OrderBook.new N).run (calls.map Call.mirror) = some (b', replies.map Reply.mirror) ∧
      Mirrors b b' := by
  obtain ⟨b, he, -, -⟩ := run_new N calls
  refine ⟨b, b.mirror, _, he, ?_, b.mirrors_mirror⟩
  have h := OrderBook.run_map_mirror (OrderBook.new N) calls
  rw [OrderBook.mirror_new, he] at h
  exact h

end MatchingEngine
