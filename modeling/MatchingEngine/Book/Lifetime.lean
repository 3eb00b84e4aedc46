import MatchingEngine.Book.Invariants

/-!
# The end of a book

The destructor of `OrderBook` walks `index_`, destroys every order it finds and gives its slot back
to the pool.  `index_` is a hash map, so the walk may come in any order.  Whatever the order, no
node is destroyed twice and none is given back that is not in use (`destroy_clean`); and while ids
are unique all the slots are free afterwards, which is what the comment there promises.

Once the counter of ids has come round, an order may rest that `index_` no longer knows of.  It is
not given back then, and the pool ends with slots in use.
-/

set_option autoImplicit false

namespace MatchingEngine

open Greedy LevelQueue LinkedList

namespace ObjectPool

variable {T : Type} {pool : ObjectPool T}

/-- `p->~T()` on a live object, then `release(p)`. -/
def destroy (pool : ObjectPool T) (p : Ptr) : Option (ObjectPool T) := do
  let _ ← pool.deref p
  pool.release p

theorem destroy_eq {p : Ptr} {v : T} (h : pool.deref p = some v) :
    pool.destroy p = some (pool.push p) := by
  rw [destroy, h]
  exact release_eq (by rw [deref_eq_some_iff.mp h]; rfl)

/-- **Destroying live objects, each once**, puts their slots at the front of the free-list. -/
theorem destroy_all {ps free : List Ptr} (hnd : ps.Nodup)
    (hlive : ∀ p ∈ ps, ∃ v, pool.deref p = some v)
    (hfree : Chain pool.nextFree pool.freeHead free) :
    ∃ pool', ps.foldlM destroy pool = some pool' ∧
      Chain pool'.nextFree pool'.freeHead (ps.reverse ++ free) ∧
      pool'.inUse = pool.inUse - ps.length := by
  induction ps generalizing pool free with
  | nil => exact ⟨pool, rfl, hfree, rfl⟩
  | cons p ps ih =>
    obtain ⟨hp, hnd⟩ := List.nodup_cons.mp hnd
    obtain ⟨v, hv⟩ := hlive p List.mem_cons_self
    -- a slot that holds an object is not on the free-list
    have hout : p ∉ free := fun hmem ↦ by
      obtain ⟨n, hn⟩ := hfree.exists_next hmem
      rw [deref_eq_some_iff] at hv
      rw [nextFree_eq_some_iff, hv] at hn
      simp at hn
    have hfree' : Chain (pool.push p).nextFree (pool.push p).freeHead (p :: free) := by
      refine ⟨rfl, pool.freeHead, by simp [nextFree_push], hfree.congr fun q hq ↦ ?_⟩
      have hne : q ≠ p := fun he ↦ hout (he ▸ hq)
      rw [nextFree_push, Function.update_of_ne hne]
    have hlive' : ∀ q ∈ ps, ∃ v, (pool.push p).deref q = some v := fun q hq ↦ by
      obtain ⟨w, hw⟩ := hlive q (List.mem_cons_of_mem _ hq)
      have hne : q ≠ p := fun he ↦ hp (he ▸ hq)
      exact ⟨w, by rw [deref_push, Function.update_of_ne hne, hw]⟩
    obtain ⟨pool', he, hchain, huse⟩ := ih hnd hlive' hfree'
    refine ⟨pool', ?_, ?_, ?_⟩
    · rw [List.foldlM_cons, destroy_eq hv]
      exact he
    · rw [List.reverse_cons, List.append_assoc]
      exact hchain
    · rw [huse, List.length_cons]
      simp only [push]
      omega

end ObjectPool

/-- The destructor, when the walk over `index_` comes in this order. -/
def OrderBook.destroy (b : OrderBook) (order : List (Nat × Ptr)) : Option (ObjectPool OrderNode) :=
  (order.map Prod.snd).foldlM ObjectPool.destroy b.pool

section Index

variable {N k : Nat} {b : OrderBook} {m : QueueBook}

/-- An order that rests is live. -/
theorem Represents.exists_deref (h : Represents N b m) {x : Int × Resting}
    (hx : x ∈ resting m.bids m.asks) : ∃ v, b.pool.deref x.2.slot = some v := by
  rcases mem_resting.mp hx with hx | hx
  · obtain ⟨q, hq, hr⟩ := mem_lots.mp hx
    obtain ⟨prev, next, hd⟩ := (h.layout.holdsOwn _ hq).exists_deref hr
    exact ⟨_, hd⟩
  · obtain ⟨q, hq, hr⟩ := mem_lots.mp hx
    obtain ⟨prev, next, hd⟩ := (h.layout.holdsOpp _ hq).exists_deref hr
    exact ⟨_, hd⟩

/-- No two ids of the index stand for one node. -/
theorem QueueBook.Valid.nodup_index (hv : m.Valid N) : (m.index.entries.map Prod.snd).Nodup := by
  refine (List.Nodup.of_map _ m.index.nodup_keys).map_on fun e he e' he' hee ↦ ?_
  obtain ⟨x, hx, hxs, hxid⟩ := hv.consistent.sound e.1 e.2 (m.index.find?_eq_some_iff.mpr he)
  obtain ⟨y, hy, hys, hyid⟩ := hv.consistent.sound e'.1 e'.2 (m.index.find?_eq_some_iff.mpr he')
  have hxy : x = y := hv.consistent.eq_of_slot hx hy (by rw [hxs, hys, hee])
  exact Prod.ext (by rw [← hxid, hxy, hyid]) hee

/-- While ids are unique, the index has all the nodes in use. -/
theorem QueueBook.Counted.index_perm (hk : m.Counted k) (hv : m.Valid N) :
    (m.index.entries.map Prod.snd).Perm (slots m.bids ++ slots m.asks) := by
  refine (List.perm_ext_iff_of_nodup hv.nodup_index hv.consistent.nodup.of_append_right).mpr
    fun p ↦ ?_
  rw [slots_append_eq]
  simp only [List.mem_map]
  constructor
  · rintro ⟨e, he, rfl⟩
    obtain ⟨x, hx, hxs, -⟩ := hv.consistent.sound e.1 e.2 (m.index.find?_eq_some_iff.mpr he)
    exact ⟨x, hx, hxs⟩
  · rintro ⟨x, hx, rfl⟩
    exact ⟨(x.2.id, x.2.slot), m.index.find?_eq_some_iff.mp (hk.numbered.complete x hx), rfl⟩

end Index

/-- **A book ends as it began.**  After any calls, and for any order in which the destructor comes
across the entries of `index_`, it destroys live nodes only and each of them once.  If ids are still
unique, no slot is in use afterwards and the free-list has all of them. -/
theorem destroy_clean (N : Nat) (calls : List Call) :
    ∃ b replies, (OrderBook.new N).run calls = some (b, replies) ∧
      ∀ order, order.Perm b.index.entries → ∃ pool, b.destroy order = some pool ∧
        (placements calls < 2 ^ 64 → pool.inUse = 0 ∧
          ∃ free, Chain pool.nextFree pool.freeHead free ∧ free.Perm (List.range N)) := by
  obtain ⟨b, he, h, hv⟩ := run_new N calls
  refine ⟨b, _, he, fun order hperm ↦ ?_⟩
  rw [h.index_eq] at hperm
  have hslots := hperm.map Prod.snd
  have hlive : ∀ p ∈ order.map Prod.snd, ∃ v, b.pool.deref p = some v := by
    intro p hp
    obtain ⟨e, hmem, rfl⟩ := List.mem_map.mp (hslots.subset hp)
    obtain ⟨x, hx, hxs, -⟩ :=
      hv.consistent.sound e.1 e.2 (((QueueBook.new N).run calls).1.index.find?_eq_some_iff.mpr hmem)
    exact hxs ▸ h.exists_deref hx
  obtain ⟨pool, hpool, hchain, huse⟩ := ObjectPool.destroy_all
    (hslots.nodup_iff.mpr hv.nodup_index) hlive h.layout.chain
  refine ⟨pool, hpool, fun hlt ↦ ?_⟩
  have hall := hslots.trans ((QueueBook.counted_run_new N calls hlt).index_perm hv)
  refine ⟨?_, _, hchain, ?_⟩
  · rw [huse, h.layout.inUse, hall.length_eq]
    omega
  · have hfront := (List.reverse_perm (order.map Prod.snd)).append_right
      ((QueueBook.new N).run calls).1.free
    exact (hfront.trans List.perm_append_comm).trans
      ((hall.append_left _).trans hv.consistent.partition)

/-- Two orders rest on one side, one has been cancelled; the walk comes backwards. -/
theorem destroy_clean_two_orders :
    ∃ b replies pool, (OrderBook.new 3).run [.placeLimit .Buy 100 1, .placeLimit .Buy 101 1,
        .placeLimit .Buy 100 2, .cancel 2] = some (b, replies) ∧
      b.destroy b.index.entries.reverse = some pool ∧ pool.inUse = 0 := by
  obtain ⟨b, replies, he, h⟩ := destroy_clean 3
    [.placeLimit .Buy 100 1, .placeLimit .Buy 101 1, .placeLimit .Buy 100 2, .cancel 2]
  obtain ⟨pool, hpool, hclean⟩ := h b.index.entries.reverse (List.reverse_perm _)
  exact ⟨b, replies, pool, he, hpool, (hclean (by decide)).1⟩

end MatchingEngine
