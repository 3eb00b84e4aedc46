import Mathlib.Data.List.Nodup
import Mathlib.Order.Defs.Unbundled
import Mathlib.Order.RelClasses

/-!
# Finite maps that keep their entries in key order

An ordered associative container is, for anyone who only ever calls `find`, `insert`, `erase` and
`begin` on it, a list of entries whose keys are strictly increasing.  `SortedMap κ α lt` is that
list together with the proof that it is sorted, so two maps with the same entries are *equal* and
not merely equivalent, which is what lets a theorem say that an operation restores a map exactly.

The comparator is a parameter rather than the order of the key type, because a container sorted
the other way round is the same container at a different `lt`.

Everything about a key is read off one of two decompositions.  Either the key is there, and
`exists_split_of_find?` cuts the entries around it; or it is not, and `exists_gap_of_find?`
cuts them at the place where it would go.  `entries_insert_split`, `entries_insert_gap` and
`entries_erase_split` then say what the operations do to the pieces.
-/

set_option autoImplicit false

universe u v w

/-- A finite map from `κ` to `α` whose entries are listed in the order of `lt`. -/
structure SortedMap (κ : Type u) (α : Type v) (lt : κ → κ → Prop) where
  /-- The entries, first key first. -/
  entries : List (κ × α)
  /-- The keys are strictly increasing, so in particular distinct. -/
  sorted : (entries.map Prod.fst).Pairwise lt

namespace SortedMap

variable {κ : Type u} {α : Type v} {β : Type w} {lt : κ → κ → Prop}

@[ext] theorem ext {m m' : SortedMap κ α lt} (h : m.entries = m'.entries) : m = m' := by
  cases m; cases m'; simp only [mk.injEq]; exact h

/-! ## The operations -/

/-- The map with no entries. -/
def empty : SortedMap κ α lt := ⟨[], List.Pairwise.nil⟩

/-- The keys, in order. -/
def keys (m : SortedMap κ α lt) : List κ := m.entries.map Prod.fst

/-- The number of entries. -/
def size (m : SortedMap κ α lt) : Nat := m.entries.length

/-- Is there nothing in the map? -/
def isEmpty (m : SortedMap κ α lt) : Bool := m.entries.isEmpty

/-- The entry an iteration starts from. -/
def begin? (m : SortedMap κ α lt) : Option (κ × α) := m.entries.head?

/-- The value of the first entry with key `k`. -/
def lookup [DecidableEq κ] (k : κ) : List (κ × α) → Option α
  | [] => none
  | e :: l => if k = e.1 then some e.2 else lookup k l

/-- The value stored under `k`, if there is one. -/
def find? [DecidableEq κ] (m : SortedMap κ α lt) (k : κ) : Option α := lookup k m.entries

/-- Put `(k, v)` at its place in a sorted list of entries, replacing what was under `k`. -/
def insertEntry (lt : κ → κ → Prop) [DecidableEq κ] [DecidableRel lt] (k : κ) (v : α) :
    List (κ × α) → List (κ × α)
  | [] => [(k, v)]
  | e :: l =>
    if k = e.1 then (k, v) :: l
    else if lt k e.1 then (k, v) :: e :: l
    else e :: insertEntry lt k v l

/-- Keep only the entries `f` gives a value to, with that value. -/
def filterMapEntries (f : κ → α → Option β) (l : List (κ × α)) : List (κ × β) :=
  l.filterMap fun e ↦ (f e.1 e.2).map fun b ↦ (e.1, b)

theorem mem_fst_insertEntry [DecidableEq κ] [DecidableRel lt] {k x : κ} {v : α}
    {l : List (κ × α)} :
    x ∈ (insertEntry lt k v l).map Prod.fst ↔ x = k ∨ x ∈ l.map Prod.fst := by
  induction l with
  | nil => simp [insertEntry]
  | cons e l ih =>
    rw [insertEntry]
    split
    · rename_i he; simp [he]
    · split
      · simp
      · rw [List.map_cons, List.mem_cons, ih, List.map_cons, List.mem_cons]
        exact or_left_comm

theorem insertEntry_sorted [DecidableEq κ] [DecidableRel lt] [IsStrictTotalOrder κ lt] (k : κ)
    (v : α) {l : List (κ × α)} (h : (l.map Prod.fst).Pairwise lt) :
    ((insertEntry lt k v l).map Prod.fst).Pairwise lt := by
  induction l with
  | nil => simp [insertEntry]
  | cons e l ih =>
    rw [List.map_cons, List.pairwise_cons] at h
    rw [insertEntry]
    split
    · rename_i he
      subst he
      exact List.pairwise_cons.mpr h
    · rename_i hne
      split
      · rename_i hlt
        refine List.pairwise_cons.mpr ⟨fun x hx ↦ ?_, List.pairwise_cons.mpr h⟩
        rcases List.mem_cons.mp hx with rfl | hx
        · exact hlt
        · exact trans_of lt hlt (h.1 x hx)
      · rename_i hnlt
        refine List.pairwise_cons.mpr ⟨fun x hx ↦ ?_, ih h.2⟩
        rcases mem_fst_insertEntry.mp hx with rfl | hx
        · rcases trichotomous_of lt x e.1 with hl | hl | hl
          · exact absurd hl hnlt
          · exact absurd hl hne
          · exact hl
        · exact h.1 x hx

theorem filterMapEntries_append (f : κ → α → Option β) (l r : List (κ × α)) :
    filterMapEntries f (l ++ r) = filterMapEntries f l ++ filterMapEntries f r :=
  List.filterMap_append

theorem filterMapEntries_cons (f : κ → α → Option β) (e : κ × α) (l : List (κ × α)) :
    filterMapEntries f (e :: l) =
      match f e.1 e.2 with
      | none => filterMapEntries f l
      | some b => (e.1, b) :: filterMapEntries f l := by
  rw [filterMapEntries, List.filterMap_cons]
  cases f e.1 e.2 <;> rfl

theorem filterMapEntries_keys (f : κ → α → Option β) (l : List (κ × α)) :
    ((filterMapEntries f l).map Prod.fst).Sublist (l.map Prod.fst) := by
  induction l with
  | nil => simp [filterMapEntries]
  | cons e l ih =>
    rw [filterMapEntries_cons]
    cases f e.1 e.2 with
    | none => exact ih.cons _
    | some b => exact ih.cons_cons _

theorem filterMapEntries_eq_self {f : κ → α → Option α} {l : List (κ × α)}
    (h : ∀ e ∈ l, f e.1 e.2 = some e.2) : filterMapEntries f l = l := by
  induction l with
  | nil => rfl
  | cons e l ih =>
    have htail : filterMapEntries f l = l := ih fun x hx ↦ h x (List.mem_cons_of_mem _ hx)
    rw [filterMapEntries_cons, h e List.mem_cons_self]
    exact congrArg (e :: ·) htail

/-- Store `v` under `k`: a new entry, or a new value for the entry that is there. -/
def insert [DecidableEq κ] [DecidableRel lt] [IsStrictTotalOrder κ lt] (m : SortedMap κ α lt)
    (k : κ) (v : α) : SortedMap κ α lt :=
  ⟨insertEntry lt k v m.entries, insertEntry_sorted k v m.sorted⟩

/-- The map with the entries `l`, whose keys are some of the keys of `m` in the same order. -/
def withEntries (m : SortedMap κ α lt) (l : List (κ × β))
    (h : (l.map Prod.fst).Sublist (m.entries.map Prod.fst)) : SortedMap κ β lt :=
  ⟨l, m.sorted.sublist h⟩

/-- Keep only the entries `f` gives a value to, with that value. -/
def filterMap (f : κ → α → Option β) (m : SortedMap κ α lt) : SortedMap κ β lt :=
  m.withEntries (filterMapEntries f m.entries) (filterMapEntries_keys f m.entries)

/-- Drop the entry under `k`, if there is one. -/
def erase [DecidableEq κ] (m : SortedMap κ α lt) (k : κ) : SortedMap κ α lt :=
  m.withEntries (m.entries.filter fun e ↦ decide (e.1 ≠ k)) (List.filter_sublist.map _)

/-- Apply `f` to every value. -/
def map (f : α → β) (m : SortedMap κ α lt) : SortedMap κ β lt :=
  m.withEntries (m.entries.map fun e ↦ (e.1, f e.2)) (by simp [Function.comp_def])

@[simp] theorem entries_empty : (empty : SortedMap κ α lt).entries = [] := rfl

@[simp] theorem find?_empty [DecidableEq κ] (k : κ) :
    (empty : SortedMap κ α lt).find? k = none := rfl

@[simp] theorem entries_withEntries (m : SortedMap κ α lt) (l : List (κ × β))
    (h : (l.map Prod.fst).Sublist (m.entries.map Prod.fst)) :
    (m.withEntries l h).entries = l := rfl

@[simp] theorem entries_map (f : α → β) (m : SortedMap κ α lt) :
    (m.map f).entries = m.entries.map fun e ↦ (e.1, f e.2) := rfl

theorem map_map {γ : Type*} (f : α → β) (g : β → γ) (m : SortedMap κ α lt) :
    (m.map f).map g = m.map fun a ↦ g (f a) := by
  ext1; simp [Function.comp_def]

/-! ## Looking a key up -/

theorem nodup_keys [IsStrictTotalOrder κ lt] (m : SortedMap κ α lt) :
    (m.entries.map Prod.fst).Nodup := by
  refine m.sorted.imp ?_
  rintro a b h rfl
  exact irrefl_of lt a h

/-- A key has one value: the entries are a function. -/
theorem eq_of_mem [IsStrictTotalOrder κ lt] (m : SortedMap κ α lt) {k : κ} {v w : α}
    (hv : (k, v) ∈ m.entries) (hw : (k, w) ∈ m.entries) : v = w :=
  (Prod.mk.inj (List.inj_on_of_nodup_map m.nodup_keys hv hw rfl)).2

section Lookup

variable [DecidableEq κ]

theorem mem_of_lookup {k : κ} {v : α} {l : List (κ × α)} (h : lookup k l = some v) :
    (k, v) ∈ l := by
  induction l with
  | nil => simp [lookup] at h
  | cons e l ih =>
    rw [lookup] at h
    split at h
    · rename_i he
      subst he
      rw [Option.some_inj] at h
      subst h
      exact List.mem_cons_self
    · exact List.mem_cons_of_mem _ (ih h)

theorem lookup_isSome {k : κ} {l : List (κ × α)} (h : k ∈ l.map Prod.fst) :
    (lookup k l).isSome := by
  induction l with
  | nil => simp at h
  | cons e l ih =>
    rw [lookup]
    split
    · rfl
    · rename_i hne
      exact ih ((List.mem_cons.mp h).resolve_left hne)

theorem lookup_map (f : α → β) (k : κ) (l : List (κ × α)) :
    lookup k (l.map fun e ↦ (e.1, f e.2)) = (lookup k l).map f := by
  induction l with
  | nil => rfl
  | cons e l ih =>
    rw [List.map_cons, lookup, lookup, ih]
    split <;> rfl

theorem find?_eq_some_iff [IsStrictTotalOrder κ lt] (m : SortedMap κ α lt) {k : κ} {v : α} :
    m.find? k = some v ↔ (k, v) ∈ m.entries := by
  refine ⟨mem_of_lookup, fun h ↦ ?_⟩
  obtain ⟨w, hw⟩ := Option.isSome_iff_exists.mp (lookup_isSome (List.mem_map_of_mem h))
  rw [find?, hw, m.eq_of_mem h (mem_of_lookup hw)]

theorem find?_eq_none_iff (m : SortedMap κ α lt) {k : κ} :
    m.find? k = none ↔ k ∉ m.entries.map Prod.fst := by
  refine ⟨fun h hk ↦ ?_, fun h ↦ ?_⟩
  · have := lookup_isSome hk
    rw [find?] at h
    rw [h] at this
    exact absurd this (by simp)
  · cases hf : m.find? k with
    | none => rfl
    | some v => exact absurd (List.mem_map_of_mem (mem_of_lookup hf)) h

/-- A map is what it has under each key. -/
theorem ext_find? [IsStrictTotalOrder κ lt] {m m' : SortedMap κ α lt}
    (h : ∀ k, m.find? k = m'.find? k) : m = m' := by
  have hmem : ∀ e, e ∈ m.entries ↔ e ∈ m'.entries := fun e ↦ by
    rw [← m.find?_eq_some_iff, h, m'.find?_eq_some_iff]
  have hperm : m.entries.Perm m'.entries :=
    (List.perm_ext_iff_of_nodup m.nodup_keys.of_map m'.nodup_keys.of_map).mpr hmem
  ext1
  refine hperm.eq_of_pairwise (fun e e' _ _ hlt hgt ↦ ?_)
    (List.pairwise_map.mp m.sorted) (List.pairwise_map.mp m'.sorted)
  exact absurd (trans_of lt hlt hgt) (irrefl_of lt e.1)

theorem find?_map (f : α → β) (m : SortedMap κ α lt) (k : κ) :
    (m.map f).find? k = (m.find? k).map f := lookup_map f k m.entries

theorem exists_split_of_find? {m : SortedMap κ α lt} {k : κ} {v : α} (h : m.find? k = some v) :
    ∃ l r, m.entries = l ++ (k, v) :: r :=
  List.append_of_mem (mem_of_lookup h)

/-- The place where a key that is not there would go. -/
theorem exists_gap_of_find? [IsStrictTotalOrder κ lt] {m : SortedMap κ α lt} {k : κ}
    (h : m.find? k = none) :
    ∃ l r, m.entries = l ++ r ∧ (∀ e ∈ l, lt e.1 k) ∧ ∀ e ∈ r, lt k e.1 := by
  have hs := m.sorted
  rw [find?_eq_none_iff] at h
  generalize m.entries = es at h hs
  induction es with
  | nil => exact ⟨[], [], rfl, by simp, by simp⟩
  | cons e es ih =>
    rw [List.map_cons, List.mem_cons, not_or] at h
    rw [List.map_cons, List.pairwise_cons] at hs
    rcases trichotomous_of lt k e.1 with hlt | heq | hgt
    · refine ⟨[], e :: es, rfl, by simp, fun x hx ↦ ?_⟩
      rcases List.mem_cons.mp hx with rfl | hx
      · exact hlt
      · exact trans_of lt hlt (hs.1 x.1 (List.mem_map_of_mem hx))
    · exact absurd heq h.1
    · obtain ⟨l, r, rfl, hl, hr⟩ := ih h.2 hs.2
      refine ⟨e :: l, r, rfl, fun x hx ↦ ?_, hr⟩
      rcases List.mem_cons.mp hx with rfl | hx
      · exact hgt
      · exact hl x hx

end Lookup

/-- What stands on either side of the entry under `k`. -/
theorem lt_of_split {m : SortedMap κ α lt} {k : κ} {v : α} {l r : List (κ × α)}
    (h : m.entries = l ++ (k, v) :: r) :
    (∀ e ∈ l, lt e.1 k) ∧ ∀ e ∈ r, lt k e.1 := by
  have hs := m.sorted
  rw [h, List.map_append, List.map_cons, List.pairwise_append, List.pairwise_cons] at hs
  obtain ⟨-, ⟨hr, -⟩, hl⟩ := hs
  exact ⟨fun e he ↦ hl e.1 (List.mem_map_of_mem he) k List.mem_cons_self,
    fun e he ↦ hr e.1 (List.mem_map_of_mem he)⟩

/-! ## What the operations do to the entries -/

theorem head?_keys (m : SortedMap κ α lt) : m.keys.head? = m.begin?.map Prod.fst := List.head?_map

/-- The first key comes before all others. -/
theorem eq_or_lt_of_head?_keys {m : SortedMap κ α lt} {k x : κ} (hk : m.keys.head? = some k)
    (hx : x ∈ m.keys) : x = k ∨ lt k x := by
  obtain ⟨ks, hks⟩ := List.head?_eq_some_iff.mp hk
  have hsorted : m.keys.Pairwise lt := m.sorted
  rw [hks, List.pairwise_cons] at hsorted
  rw [hks, List.mem_cons] at hx
  exact hx.imp_right (hsorted.1 x)

theorem mem_filterMap {f : κ → α → Option β} {m : SortedMap κ α lt} {e : κ × β} :
    e ∈ (m.filterMap f).entries ↔ ∃ v, (e.1, v) ∈ m.entries ∧ f e.1 v = some e.2 := by
  rw [filterMap, entries_withEntries, filterMapEntries, List.mem_filterMap]
  constructor
  · rintro ⟨x, hx, he⟩
    obtain ⟨b, hb, rfl⟩ := Option.map_eq_some_iff.mp he
    exact ⟨x.2, hx, hb⟩
  · rintro ⟨v, hv, hf⟩
    exact ⟨(e.1, v), hv, by rw [hf]; rfl⟩

section Erase

variable [DecidableEq κ]

theorem mem_erase {m : SortedMap κ α lt} {k : κ} {e : κ × α} :
    e ∈ (m.erase k).entries ↔ e.1 ≠ k ∧ e ∈ m.entries := by
  rw [erase, entries_withEntries, List.mem_filter, decide_eq_true_iff]
  exact and_comm

variable [IsStrictTotalOrder κ lt]

theorem entries_erase_split {m : SortedMap κ α lt} {k : κ} {v : α} {l r : List (κ × α)}
    (h : m.entries = l ++ (k, v) :: r) : (m.erase k).entries = l ++ r := by
  have hne : ∀ e ∈ l ++ r, decide (e.1 ≠ k) = true := by
    intro e he
    rw [decide_eq_true_iff]
    rintro rfl
    rcases List.mem_append.mp he with he | he
    · exact irrefl_of lt _ ((lt_of_split h).1 e he)
    · exact irrefl_of lt _ ((lt_of_split h).2 e he)
  rw [erase, entries_withEntries, h, List.filter_append, List.filter_cons_of_neg (by simp),
    ← List.filter_append, List.filter_eq_self.mpr hne]

theorem find?_erase (m : SortedMap κ α lt) (k x : κ) :
    (m.erase k).find? x = if x = k then none else m.find? x := by
  refine Option.ext fun w ↦ ?_
  rw [find?_eq_some_iff, mem_erase]
  split
  · rename_i he
    simp [he]
  · rename_i hne
    rw [find?_eq_some_iff]
    exact ⟨fun h ↦ h.2, fun h ↦ ⟨hne, h⟩⟩

theorem erase_eq_self_iff {m : SortedMap κ α lt} {k : κ} : m.erase k = m ↔ m.find? k = none := by
  refine ⟨fun h ↦ by rw [← h, find?_erase, if_pos rfl], fun h ↦ ext_find? fun x ↦ ?_⟩
  rw [find?_erase]
  split
  · rename_i hx
    rw [hx, h]
  · rfl

end Erase

section Insert

variable [DecidableEq κ] [DecidableRel lt] [IsStrictTotalOrder κ lt]

theorem insertEntry_append {k : κ} {v : α} {l r : List (κ × α)} (hl : ∀ e ∈ l, lt e.1 k) :
    insertEntry lt k v (l ++ r) = l ++ insertEntry lt k v r := by
  induction l with
  | nil => rfl
  | cons e l ih =>
    have he : lt e.1 k := hl e List.mem_cons_self
    rw [List.cons_append, insertEntry, if_neg fun h : k = e.1 ↦ irrefl_of lt k (by rwa [← h] at he),
      if_neg fun h ↦ asymm_of lt h he, ih fun x hx ↦ hl x (List.mem_cons_of_mem _ hx),
      List.cons_append]

theorem entries_insert (m : SortedMap κ α lt) (k : κ) (v : α) :
    (m.insert k v).entries = insertEntry lt k v m.entries := rfl

theorem entries_insert_split {m : SortedMap κ α lt} {k : κ} {v w : α} {l r : List (κ × α)}
    (h : m.entries = l ++ (k, v) :: r) : (m.insert k w).entries = l ++ (k, w) :: r := by
  rw [entries_insert, h, insertEntry_append (lt_of_split h).1, insertEntry, if_pos rfl]

theorem entries_insert_gap {m : SortedMap κ α lt} {k : κ} {v : α} {l r : List (κ × α)}
    (h : m.entries = l ++ r) (hl : ∀ e ∈ l, lt e.1 k) (hr : ∀ e ∈ r, lt k e.1) :
    (m.insert k v).entries = l ++ (k, v) :: r := by
  rw [entries_insert, h, insertEntry_append hl]
  cases r with
  | nil => rfl
  | cons e r =>
    have he : lt k e.1 := hr e List.mem_cons_self
    rw [insertEntry, if_neg fun h : k = e.1 ↦ irrefl_of lt k (by rwa [← h] at he), if_pos he]

theorem mem_insert {m : SortedMap κ α lt} {k : κ} {v : α} {e : κ × α} :
    e ∈ (m.insert k v).entries ↔ e = (k, v) ∨ e.1 ≠ k ∧ e ∈ m.entries := by
  cases hf : m.find? k with
  | some w =>
    obtain ⟨l, r, h⟩ := exists_split_of_find? hf
    rw [entries_insert_split h, h]
    have hl := (lt_of_split h).1 e
    have hr := (lt_of_split h).2 e
    simp only [List.mem_append, List.mem_cons]
    constructor
    · rintro (he | he | he)
      · exact Or.inr ⟨fun hk ↦ irrefl_of lt k (hk ▸ hl he), Or.inl he⟩
      · exact Or.inl he
      · exact Or.inr ⟨fun hk ↦ irrefl_of lt k (hk ▸ hr he), Or.inr (Or.inr he)⟩
    · rintro (he | ⟨hne, he | he | he⟩)
      · exact Or.inr (Or.inl he)
      · exact Or.inl he
      · exact absurd (congrArg Prod.fst he) hne
      · exact Or.inr (Or.inr he)
  | none =>
    obtain ⟨l, r, h, hl, hr⟩ := exists_gap_of_find? hf
    rw [entries_insert_gap h hl hr, h]
    simp only [List.mem_append, List.mem_cons]
    constructor
    · rintro (he | he | he)
      · exact Or.inr ⟨fun hk ↦ irrefl_of lt k (hk ▸ hl e he), Or.inl he⟩
      · exact Or.inl he
      · exact Or.inr ⟨fun hk ↦ irrefl_of lt k (hk ▸ hr e he), Or.inr he⟩
    · rintro (he | ⟨-, he | he⟩)
      · exact Or.inr (Or.inl he)
      · exact Or.inl he
      · exact Or.inr (Or.inr he)

theorem find?_insert (m : SortedMap κ α lt) (k x : κ) (v : α) :
    (m.insert k v).find? x = if x = k then some v else m.find? x := by
  split
  · rename_i he
    subst he
    exact (find?_eq_some_iff _).mpr (mem_insert.mpr (Or.inl rfl))
  · rename_i hne
    refine Option.ext fun w ↦ ?_
    rw [find?_eq_some_iff, find?_eq_some_iff, mem_insert]
    constructor
    · rintro (h | h)
      · exact absurd (Prod.mk.inj h).1 hne
      · exact h.2
    · exact fun h ↦ Or.inr ⟨hne, h⟩

theorem erase_insert (m : SortedMap κ α lt) (k : κ) (v : α) :
    (m.insert k v).erase k = m.erase k := by
  refine ext_find? fun x ↦ ?_
  rw [find?_erase, find?_insert, find?_erase]
  split <;> rfl

end Insert

/-! ### The operations commute with a change of values -/

theorem begin?_map (f : α → β) (m : SortedMap κ α lt) :
    (m.map f).begin? = m.begin?.map fun e ↦ (e.1, f e.2) := List.head?_map

theorem erase_map [DecidableEq κ] (f : α → β) (m : SortedMap κ α lt) (k : κ) :
    (m.map f).erase k = (m.erase k).map f := by
  ext1
  simp only [erase, entries_map, entries_withEntries, List.filter_map]
  rfl

theorem insertEntry_map [DecidableEq κ] [DecidableRel lt] (f : α → β) (k : κ) (v : α)
    (l : List (κ × α)) :
    insertEntry lt k (f v) (l.map fun e ↦ (e.1, f e.2))
      = (insertEntry lt k v l).map fun e ↦ (e.1, f e.2) := by
  induction l with
  | nil => rfl
  | cons e l ih =>
    rw [List.map_cons, insertEntry, insertEntry, ih]
    split
    · rfl
    · split <;> rfl

theorem insert_map [DecidableEq κ] [DecidableRel lt] [IsStrictTotalOrder κ lt] (f : α → β)
    (m : SortedMap κ α lt) (k : κ) (v : α) :
    (m.map f).insert k (f v) = (m.insert k v).map f := by
  ext1; exact insertEntry_map f k v m.entries

/-! ## Renaming the keys -/

section MapKeys

variable {κ' : Type*} {lt' : κ' → κ' → Prop} {f : κ → κ'}

/-- Rename the keys, by a function that keeps their order. -/
def mapKeys (f : κ → κ') (hf : ∀ a b, lt' (f a) (f b) ↔ lt a b) (m : SortedMap κ α lt) :
    SortedMap κ' α lt' where
  entries := m.entries.map fun e ↦ (f e.1, e.2)
  sorted := by
    rw [List.map_map]
    have h := m.sorted
    rw [List.pairwise_map] at h ⊢
    exact h.imp fun hlt ↦ (hf _ _).mpr hlt

variable (hf : ∀ a b, lt' (f a) (f b) ↔ lt a b) (m : SortedMap κ α lt)

theorem entries_mapKeys : (m.mapKeys f hf).entries = m.entries.map fun e ↦ (f e.1, e.2) := rfl

theorem begin?_mapKeys : (m.mapKeys f hf).begin? = m.begin?.map fun e ↦ (f e.1, e.2) :=
  List.head?_map

theorem size_mapKeys : (m.mapKeys f hf).size = m.size := List.length_map _

theorem isEmpty_mapKeys : (m.mapKeys f hf).isEmpty = m.isEmpty := List.isEmpty_map

variable [DecidableEq κ] [DecidableEq κ'] (hinj : Function.Injective f)
include hinj

theorem find?_mapKeys (k : κ) : (m.mapKeys f hf).find? (f k) = m.find? k := by
  rw [find?, find?, entries_mapKeys]
  generalize m.entries = l
  induction l with
  | nil => rfl
  | cons e l ih => simp only [List.map_cons, lookup, hinj.eq_iff, ih]

theorem erase_mapKeys (k : κ) : (m.mapKeys f hf).erase (f k) = (m.erase k).mapKeys f hf := by
  ext1
  simp only [erase, entries_mapKeys, entries_withEntries, List.filter_map]
  refine congrArg _ (List.filter_congr fun e _ ↦ ?_)
  simp [hinj.eq_iff]

theorem insert_mapKeys [DecidableRel lt] [IsStrictTotalOrder κ lt] [DecidableRel lt']
    [IsStrictTotalOrder κ' lt'] (k : κ) (v : α) :
    (m.mapKeys f hf).insert (f k) v = (m.insert k v).mapKeys f hf := by
  ext1
  rw [entries_insert, entries_mapKeys, entries_mapKeys, entries_insert]
  generalize m.entries = l
  induction l with
  | nil => rfl
  | cons e l ih =>
    simp only [List.map_cons, insertEntry, ih, hinj.eq_iff, hf]
    split
    · rfl
    · split <;> rfl

end MapKeys

end SortedMap
