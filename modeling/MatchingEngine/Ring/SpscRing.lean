import Mathlib.Algebra.Order.Ring.Int
import Mathlib.Data.List.Basic
import Mathlib.Data.Nat.Log
import Mathlib.Logic.Function.Basic

/-!
# The ring between one producer and one consumer

`SpscRing` hands values from a thread that calls `try_push` to a thread that calls `try_pop`.  The
two share the counters `head_` and `tail_`, which run freely and wrap at `2 ^ 64`, and the slots,
of which counter `i` uses number `i & kMask`.

A call is a few atomic steps, and the steps of the two threads interleave in any way.  `step` is the
next step of one thread; where a thread is in its call, and what it has loaded so far, is its
program counter.  A loaded counter is a copy and may be out of date when it is used.  The state also
logs the values of the calls that have returned `true` (`logs_run`), which is what the results are
about.

`Inv` is the invariant.  Its heart is that a stale copy errs on the safe side: the slot a
producer goes on to write stays free however far the consumer gets meanwhile, and the slot a
consumer goes on to read stays filled.
-/

set_option autoImplicit false

namespace MatchingEngine.SpscRing

/-! ## Capacity -/

/-- `std::bit_ceil`: the smallest power of two that is not below `n`. -/
def bitCeil (n : UInt64) : UInt64 := UInt64.ofNat (2 ^ Nat.clog 2 n.toNat)

/-- `detail::round_up_pow2`. -/
def roundUpPow2 (n : UInt64) : UInt64 := if n < 2 then 2 else bitCeil n

/-- A template argument `Capacity`.  Beyond `2 ^ 63` the result of `std::bit_ceil` would not be
representable, and the class does not compile. -/
structure Capacity where
  value : UInt64
  le : value.toNat ≤ 2 ^ 63

def Capacity.kCap (c : Capacity) : UInt64 := roundUpPow2 c.value

def Capacity.kMask (c : Capacity) : UInt64 := c.kCap - 1

/-! ## Steps -/

/-- Where the producer is in `try_push`. -/
inductive Producer (T : Type) where
  | idle
  /-- `h` is loaded; next is the load of `tail_`. -/
  | loadTail (v : T) (h : UInt64)
  /-- There is room; next is the copy into the slot. -/
  | write (v : T) (h : UInt64)
  /-- The slot is written; next is the store of `head_`. -/
  | store (v : T) (h : UInt64)

/-- Where the consumer is in `try_pop`. -/
inductive Consumer (T : Type) where
  | idle
  /-- `t` is loaded; next is the load of `head_`. -/
  | loadHead (t : UInt64)
  /-- There is a value; next is the copy out of the slot. -/
  | read (t : UInt64)
  /-- The value is copied; next is the store of `tail_`. -/
  | store (t : UInt64) (out : T)

structure State (T : Type) where
  head : UInt64
  tail : UInt64
  buf : UInt64 → T
  producer : Producer T
  consumer : Consumer T
  /-- The values of the pushes that have returned `true`. -/
  pushed : List T
  /-- The values of the pops that have returned `true`. -/
  popped : List T

/-- Whose turn it is.  An idle producer calls `try_push` with the value. -/
inductive Turn (T : Type) where
  | producer (v : T)
  | consumer

/-- A call that returns. -/
inductive Returned (T : Type) where
  | push (v : T) (ok : Bool)
  | pop (out : Option T)

/-- The value that a call has pushed. -/
def Returned.pushed? {T : Type} : Returned T → Option T
  | .push v true => some v
  | _ => none

/-- The value that a call has popped. -/
def Returned.popped? {T : Type} : Returned T → Option T
  | .pop out => out
  | _ => none

variable {T : Type}

/-- The next step of `try_push`. -/
def stepProducer (c : Capacity) (s : State T) (v : T) : State T × Option (Returned T) :=
  match s.producer with
  | .idle => ({ s with producer := .loadTail v s.head }, none)
  | .loadTail v h =>
    let next := h + 1
    if next - s.tail > c.kCap then ({ s with producer := .idle }, some (.push v false))
    else ({ s with producer := .write v h }, none)
  | .write v h =>
    ({ s with buf := Function.update s.buf (h &&& c.kMask) v, producer := .store v h }, none)
  | .store v h =>
    ({ s with head := h + 1, producer := .idle, pushed := s.pushed ++ [v] }, some (.push v true))

/-- The next step of `try_pop`. -/
def stepConsumer (c : Capacity) (s : State T) : State T × Option (Returned T) :=
  match s.consumer with
  | .idle => ({ s with consumer := .loadHead s.tail }, none)
  | .loadHead t =>
    if t = s.head then ({ s with consumer := .idle }, some (.pop none))
    else ({ s with consumer := .read t }, none)
  | .read t => ({ s with consumer := .store t (s.buf (t &&& c.kMask)) }, none)
  | .store t out =>
    ({ s with tail := t + 1, consumer := .idle, popped := s.popped ++ [out] },
      some (.pop (some out)))

def step (c : Capacity) (s : State T) : Turn T → State T × Option (Returned T)
  | .producer v => stepProducer c s v
  | .consumer => stepConsumer c s

/-- The state after some turns. -/
def run (c : Capacity) : State T → List (Turn T) → State T
  | s, [] => s
  | s, turn :: turns => run c (step c s turn).1 turns

/-- The calls that return in these turns. -/
def returns (c : Capacity) : State T → List (Turn T) → List (Returned T)
  | _, [] => []
  | s, turn :: turns => (step c s turn).2.toList ++ returns c (step c s turn).1 turns

/-- A ring nobody has used yet.  The counters are equal, and may be anywhere. -/
def init (start : UInt64) (buf : UInt64 → T) : State T :=
  { head := start, tail := start, buf, producer := .idle, consumer := .idle, pushed := [],
    popped := [] }

/-- How many values have been pushed and not yet popped. -/
def State.outstanding (s : State T) : Nat := s.pushed.length - s.popped.length

/-! ## The logs -/

theorem logs_step (c : Capacity) (s : State T) (turn : Turn T) :
    (step c s turn).1.pushed = s.pushed ++ (step c s turn).2.toList.filterMap Returned.pushed? ∧
      (step c s turn).1.popped
        = s.popped ++ (step c s turn).2.toList.filterMap Returned.popped? := by
  cases turn with
  | producer v =>
    rw [step, stepProducer]
    split
    case h_2 =>
      dsimp only
      split <;> simp [Returned.pushed?, Returned.popped?]
    all_goals simp [Returned.pushed?, Returned.popped?]
  | consumer =>
    rw [step, stepConsumer]
    split
    case h_2 => split <;> simp [Returned.pushed?, Returned.popped?]
    all_goals simp [Returned.pushed?, Returned.popped?]

/-- **The logs are of the calls that have returned `true`.** -/
theorem logs_run (c : Capacity) (s : State T) (turns : List (Turn T)) :
    (run c s turns).pushed = s.pushed ++ (returns c s turns).filterMap Returned.pushed? ∧
      (run c s turns).popped = s.popped ++ (returns c s turns).filterMap Returned.popped? := by
  induction turns generalizing s with
  | nil => simp [run, returns]
  | cons turn turns ih =>
    obtain ⟨hpushed, hpopped⟩ := logs_step c s turn
    obtain ⟨ihpushed, ihpopped⟩ := ih (step c s turn).1
    rw [run, returns, ihpushed, ihpopped, hpushed, hpopped, List.filterMap_append,
      List.filterMap_append, List.append_assoc, List.append_assoc]
    exact ⟨rfl, rfl⟩

/-! ## Counters and slots -/

/-- The counter after `n` increments. -/
def counter (start : UInt64) (n : Nat) : UInt64 := start + UInt64.ofNat n

theorem counter_succ (start : UInt64) (n : Nat) : counter start n + 1 = counter start (n + 1) := by
  rw [counter, counter, UInt64.ofNat_add, UInt64.add_assoc]
  rfl

theorem toNat_counter (start : UInt64) (n : Nat) :
    (counter start n).toNat = (start.toNat + n) % 2 ^ 64 := by
  rw [counter, UInt64.toNat_add, UInt64.toNat_ofNat']
  omega

/-- The distance between two counters that are not too far apart. -/
theorem toNat_counter_sub (start : UInt64) {m n : Nat} (hle : m ≤ n) (hlt : n - m < 2 ^ 64) :
    (counter start n - counter start m).toNat = n - m := by
  rw [UInt64.toNat_sub, toNat_counter, toNat_counter]
  omega

theorem counter_inj (start : UInt64) {m n : Nat} (hle : m ≤ n) (hlt : n - m < 2 ^ 64)
    (h : counter start m = counter start n) : m = n := by
  have hd := toNat_counter_sub start hle hlt
  rw [h, UInt64.sub_self] at hd
  have hz : (0 : UInt64).toNat = 0 := rfl
  omega

/-- The capacity is a power of two. -/
theorem Capacity.exists_pow (c : Capacity) : ∃ k, 1 ≤ k ∧ k ≤ 63 ∧ c.kCap.toNat = 2 ^ k := by
  rw [Capacity.kCap, roundUpPow2]
  split
  · exact ⟨1, by decide, by decide, rfl⟩
  · rename_i hn
    have h2 : 2 ≤ c.value.toNat := by
      have := mt UInt64.lt_iff_toNat_lt.mpr hn
      have hz : (2 : UInt64).toNat = 2 := rfl
      omega
    have hk : Nat.clog 2 c.value.toNat ≤ 63 := Nat.clog_le_of_le_pow c.le
    refine ⟨Nat.clog 2 c.value.toNat, Nat.clog_pos (by decide) h2, hk, ?_⟩
    have hlt : 2 ^ Nat.clog 2 c.value.toNat < 2 ^ 64 :=
      Nat.pow_lt_pow_right (by decide) (by omega)
    rw [bitCeil, UInt64.toNat_ofNat', Nat.mod_eq_of_lt hlt]

theorem Capacity.kCap_le (c : Capacity) : 1 ≤ c.kCap.toNat ∧ c.kCap.toNat ≤ 2 ^ 63 := by
  obtain ⟨k, -, hk, he⟩ := c.exists_pow
  rw [he]
  exact ⟨Nat.two_pow_pos k, Nat.pow_le_pow_right (by decide) hk⟩

/-- The slot of a counter. -/
def slot (c : Capacity) (i : UInt64) : UInt64 := i &&& c.kMask

/-- Masking is taking the remainder, also across the wrap: the capacity divides `2 ^ 64`. -/
theorem toNat_slot (c : Capacity) (start : UInt64) (n : Nat) :
    (slot c (counter start n)).toNat = (start.toNat + n) % c.kCap.toNat := by
  obtain ⟨k, -, hk, he⟩ := c.exists_pow
  have hmask : c.kMask.toNat = 2 ^ k - 1 := by
    have hone : (1 : UInt64) ≤ c.kCap := UInt64.le_iff_toNat_le.mpr c.kCap_le.1
    rw [Capacity.kMask, UInt64.toNat_sub_of_le _ _ hone, he]
    rfl
  have hdvd : 2 ^ k ∣ 2 ^ 64 := Nat.pow_dvd_pow 2 (by omega)
  rw [slot, UInt64.toNat_and, hmask, Nat.and_two_pow_sub_one_eq_mod, toNat_counter,
    Nat.mod_mod_of_dvd _ hdvd, he]

/-- Counters that are less than the capacity apart use different slots. -/
theorem slot_inj (c : Capacity) (start : UInt64) {m n : Nat} (hle : m ≤ n)
    (hlt : n < m + c.kCap.toNat) (h : slot c (counter start m) = slot c (counter start n)) :
    m = n := by
  have hmod : (start.toNat + m) % c.kCap.toNat = (start.toNat + n) % c.kCap.toNat := by
    rw [← toNat_slot, ← toNat_slot, h]
  have hd := Nat.sub_mod_eq_zero_of_mod_eq hmod.symm
  rw [Nat.add_sub_add_left, Nat.mod_eq_of_lt (by omega)] at hd
  omega

/-! ## The invariant -/

/-- What the producer knows. -/
def ProducerOk (c : Capacity) (s : State T) : Producer T → Prop
  | .idle => True
  | .loadTail _ h => h = s.head
  | .write _ h => h = s.head ∧ s.pushed.length < s.popped.length + c.kCap.toNat
  | .store v h => h = s.head ∧ s.pushed.length < s.popped.length + c.kCap.toNat ∧
    s.buf (slot c h) = v

/-- What the consumer knows. -/
def ConsumerOk (s : State T) : Consumer T → Prop
  | .idle => True
  | .loadHead t => t = s.tail
  | .read t => t = s.tail ∧ s.popped.length < s.pushed.length
  | .store t out => t = s.tail ∧ s.pushed[s.popped.length]? = some out

structure Inv (c : Capacity) (start : UInt64) (s : State T) : Prop where
  head : s.head = counter start s.pushed.length
  tail : s.tail = counter start s.popped.length
  fifo : s.popped <+: s.pushed
  bounded : s.pushed.length ≤ s.popped.length + c.kCap.toNat
  /-- A value that is still to be popped is in its slot. -/
  slots : ∀ i v, s.popped.length ≤ i → s.pushed[i]? = some v → s.buf (slot c (counter start i)) = v
  producer : ProducerOk c s s.producer
  consumer : ConsumerOk s s.consumer

theorem inv_init (c : Capacity) (start : UInt64) (buf : UInt64 → T) :
    Inv c start (init start buf) := by
  constructor <;> simp [init, counter, ProducerOk, ConsumerOk]

variable {c : Capacity} {start : UInt64} {s : State T}

/-- The test for a full ring, on the counters as they are. -/
theorem Inv.full_iff (h : Inv c start s) :
    s.head + 1 - s.tail > c.kCap ↔ s.pushed.length = s.popped.length + c.kCap.toNat := by
  have hle := h.fifo.length_le
  have hb := h.bounded
  have hcap := c.kCap_le
  have hd : (s.head + 1 - s.tail).toNat = s.pushed.length + 1 - s.popped.length := by
    rw [h.head, h.tail, counter_succ, toNat_counter_sub start (by omega) (by omega)]
  rw [gt_iff_lt, UInt64.lt_iff_toNat_lt, hd]
  omega

/-- The test for an empty ring, on the counters as they are. -/
theorem Inv.empty_iff (h : Inv c start s) :
    s.tail = s.head ↔ s.popped.length = s.pushed.length := by
  have hle := h.fifo.length_le
  have hb := h.bounded
  have hcap := c.kCap_le
  rw [h.head, h.tail]
  refine ⟨counter_inj start hle (by omega), fun he ↦ by rw [he]⟩

/-! ### The producer -/

/-- A write to the next slot leaves what is still to be popped: all of that is less than the
capacity behind it. -/
theorem Inv.slots_write (h : Inv c start s) (v : T)
    (hroom : s.pushed.length < s.popped.length + c.kCap.toNat) {j : Nat} {w : T}
    (hj : s.popped.length ≤ j) (hw : s.pushed[j]? = some w) :
    Function.update s.buf (slot c s.head) v (slot c (counter start j)) = w := by
  have hlt := (List.getElem?_eq_some_iff.mp hw).1
  rw [Function.update_of_ne, h.slots j w hj hw]
  intro he
  rw [h.head] at he
  have := slot_inj c start hlt.le (by omega) he
  omega

/-- What the consumer knows stays true when a value is pushed. -/
theorem ConsumerOk.push (v : T) (head : UInt64) (p : Producer T) {q : Consumer T}
    (h : ConsumerOk s q) :
    ConsumerOk { s with head, producer := p, pushed := s.pushed ++ [v] } q := by
  cases q with
  | idle => exact trivial
  | loadHead t => exact h
  | read t =>
    refine ⟨h.1, ?_⟩
    rw [List.length_append]
    exact Nat.lt_add_right _ h.2
  | store t out =>
    have hlt := (List.getElem?_eq_some_iff.mp h.2).1
    exact ⟨h.1, (List.getElem?_append_left hlt).trans h.2⟩

/-- **A push**: the value is in its slot, and `head_` goes past it. -/
theorem Inv.push (h : Inv c start s) {v : T}
    (hroom : s.pushed.length < s.popped.length + c.kCap.toNat) (hbuf : s.buf (slot c s.head) = v) :
    Inv c start { s with head := s.head + 1, producer := .idle, pushed := s.pushed ++ [v] } := by
  constructor
  case head =>
    dsimp only
    rw [h.head, counter_succ, List.length_append, List.length_singleton]
  case tail => exact h.tail
  case fifo => exact h.fifo.trans (List.prefix_append _ _)
  case bounded =>
    dsimp only
    rw [List.length_append, List.length_singleton]
    omega
  case slots =>
    intro j w hj hw
    rcases Nat.lt_or_ge j s.pushed.length with hlt | hge
    · exact h.slots j w hj ((List.getElem?_append_left hlt).symm.trans hw)
    · have hlen := (List.getElem?_eq_some_iff.mp hw).1
      rw [List.length_append, List.length_singleton] at hlen
      obtain rfl : j = s.pushed.length := by omega
      rw [List.getElem?_concat_length, Option.some_inj] at hw
      rw [← h.head, ← hw]
      exact hbuf
  case producer => exact trivial
  case consumer => exact h.consumer.push v _ _

theorem Inv.stepProducer (h : Inv c start s) (v : T) : Inv c start (stepProducer c s v).1 := by
  rw [SpscRing.stepProducer]
  have hp := h.producer
  cases hpc : s.producer with
  | idle => exact { h with producer := rfl }
  | loadTail v i =>
    rw [hpc] at hp
    obtain rfl : i = s.head := hp
    have hb := h.bounded
    dsimp only
    split
    · exact { h with producer := trivial }
    · rename_i hroom
      rw [h.full_iff] at hroom
      exact { h with producer := ⟨rfl, Nat.lt_of_le_of_ne hb hroom⟩ }
  | write v i =>
    rw [hpc] at hp
    obtain ⟨rfl, hroom⟩ := hp
    exact { h with
      slots := fun _ _ hj hw ↦ h.slots_write v hroom hj hw
      producer := ⟨rfl, hroom, Function.update_self ..⟩ }
  | store v i =>
    rw [hpc] at hp
    obtain ⟨rfl, hroom, hbuf⟩ := hp
    exact h.push hroom hbuf

/-! ### The consumer -/

/-- What the producer knows stays true when a value is popped. -/
theorem ProducerOk.pop (out : T) (tail : UInt64) (q : Consumer T) {p : Producer T}
    (h : ProducerOk c s p) :
    ProducerOk c { s with tail, consumer := q, popped := s.popped ++ [out] } p := by
  have hmono : ∀ {n : Nat}, n < s.popped.length + c.kCap.toNat →
      n < (s.popped ++ [out]).length + c.kCap.toNat := fun hn ↦ by
    rw [List.length_append]
    omega
  cases p with
  | idle => exact trivial
  | loadTail v i => exact h
  | write v i => exact ⟨h.1, hmono h.2⟩
  | store v i => exact ⟨h.1, hmono h.2.1, h.2.2⟩

/-- **A pop**: `tail_` goes past the oldest value. -/
theorem Inv.pop (h : Inv c start s) {out : T} (hout : s.pushed[s.popped.length]? = some out) :
    Inv c start { s with tail := s.tail + 1, consumer := .idle, popped := s.popped ++ [out] } := by
  have hlt := (List.getElem?_eq_some_iff.mp hout).1
  constructor
  case head => exact h.head
  case tail =>
    dsimp only
    rw [h.tail, counter_succ, List.length_append, List.length_singleton]
  case fifo =>
    have htake := List.prefix_iff_eq_take.mp h.fifo
    have hsucc := List.take_prefix (s.popped.length + 1) s.pushed
    rwa [List.take_add_one, ← htake, hout, Option.toList_some] at hsucc
  case bounded =>
    have hb := h.bounded
    dsimp only
    rw [List.length_append]
    omega
  case slots =>
    intro j w hj hw
    dsimp only at hj
    rw [List.length_append] at hj
    exact h.slots j w (by omega) hw
  case producer => exact h.producer.pop out _ _
  case consumer => exact trivial

theorem Inv.stepConsumer (h : Inv c start s) : Inv c start (stepConsumer c s).1 := by
  rw [SpscRing.stepConsumer]
  have hc := h.consumer
  have hle := h.fifo.length_le
  cases hcc : s.consumer with
  | idle => exact { h with consumer := rfl }
  | loadHead t =>
    rw [hcc] at hc
    obtain rfl : t = s.tail := hc
    dsimp only
    split
    · exact { h with consumer := trivial }
    · rename_i hne
      rw [h.empty_iff] at hne
      exact { h with consumer := ⟨rfl, Nat.lt_of_le_of_ne hle hne⟩ }
  | read t =>
    rw [hcc] at hc
    obtain ⟨rfl, hlt⟩ := hc
    have hget := List.getElem?_eq_getElem hlt
    have hbuf := h.slots _ _ (Nat.le_refl _) hget
    rw [← h.tail] at hbuf
    refine { h with consumer := ⟨rfl, ?_⟩ }
    rw [hget, ← hbuf]
    rfl
  | store t out =>
    rw [hcc] at hc
    obtain ⟨rfl, hout⟩ := hc
    exact h.pop hout

/-! ### Runs -/

theorem Inv.step (h : Inv c start s) (turn : Turn T) : Inv c start (step c s turn).1 := by
  cases turn with
  | producer v => exact h.stepProducer v
  | consumer => exact h.stepConsumer

theorem Inv.run (h : Inv c start s) (turns : List (Turn T)) : Inv c start (run c s turns) := by
  induction turns generalizing s with
  | nil => exact h
  | cons turn turns ih => exact ih (h.step turn)

/-! ## What the two threads see -/

theorem Inv.outstanding_le (h : Inv c start s) : s.outstanding ≤ c.kCap.toNat := by
  have hb := h.bounded
  rw [State.outstanding]
  omega

/-- The slot being written is not the slot being read. -/
theorem Inv.slot_ne (h : Inv c start s) {v : T} {i t : UInt64} (hp : s.producer = .write v i)
    (hc : s.consumer = .read t) : slot c i ≠ slot c t := by
  have hpo := h.producer
  have hco := h.consumer
  rw [hp] at hpo
  rw [hc] at hco
  obtain ⟨hi, hroom⟩ := hpo
  obtain ⟨ht, hlt⟩ := hco
  rw [hi, ht, h.head, h.tail]
  intro he
  have := slot_inj c start hlt.le (by omega) he.symm
  omega

/-- A push that fails has seen a full ring. -/
theorem Inv.full_of_push_failed (h : Inv c start s) {turn : Turn T} {v : T}
    (hr : (SpscRing.step c s turn).2 = some (.push v false)) : s.outstanding = c.kCap.toNat := by
  cases turn with
  | consumer =>
    simp only [SpscRing.step, SpscRing.stepConsumer] at hr
    split at hr <;> (try split at hr) <;> simp at hr
  | producer v =>
    have hp := h.producer
    simp only [SpscRing.step, SpscRing.stepProducer] at hr
    split at hr
    case h_2 v i hpc =>
      rw [hpc] at hp
      split at hr
      · rename_i hfull
        rw [show i = s.head from hp, h.full_iff] at hfull
        rw [State.outstanding]
        omega
      · simp at hr
    all_goals simp at hr

/-- A pop that fails has seen an empty ring. -/
theorem Inv.empty_of_pop_failed (h : Inv c start s) {turn : Turn T}
    (hr : (SpscRing.step c s turn).2 = some (.pop none)) : s.outstanding = 0 := by
  cases turn with
  | producer v =>
    simp only [SpscRing.step, SpscRing.stepProducer] at hr
    split at hr <;> (try split at hr) <;> simp at hr
  | consumer =>
    have hc := h.consumer
    simp only [SpscRing.step, SpscRing.stepConsumer] at hr
    split at hr
    case h_2 t hcc =>
      rw [hcc] at hc
      split at hr
      · rename_i hempty
        rw [show t = s.tail from hc, h.empty_iff] at hempty
        rw [State.outstanding]
        omega
      · simp at hr
    all_goals simp at hr

/-- **The ring is a bounded queue under every interleaving**, wherever its counters start: what the
calls have popped is a prefix of what they have pushed, the slot being written is never the slot
being read, and a call fails only on a ring that is full, or empty, at that moment. -/
theorem run_fifo (c : Capacity) (start : UInt64) (buf : UInt64 → T) (turns : List (Turn T)) :
    let s := run c (init start buf) turns
    let calls := returns c (init start buf) turns
    s.pushed = calls.filterMap Returned.pushed? ∧ s.popped = calls.filterMap Returned.popped? ∧
      s.popped <+: s.pushed ∧ s.outstanding ≤ c.kCap.toNat ∧
      (∀ v i t, s.producer = .write v i → s.consumer = .read t → i &&& c.kMask ≠ t &&& c.kMask) ∧
      ∀ turn, (∀ v, (step c s turn).2 = some (.push v false) → s.outstanding = c.kCap.toNat) ∧
        ((step c s turn).2 = some (.pop none) → s.outstanding = 0) := by
  have h := (inv_init c start buf).run turns
  obtain ⟨hpushed, hpopped⟩ := logs_run c (init start buf) turns
  exact ⟨hpushed, hpopped, h.fifo, h.outstanding_le, fun _ _ _ hp hc ↦ h.slot_ne hp hc,
    fun _ ↦ ⟨fun _ ↦ h.full_of_push_failed, h.empty_of_pop_failed⟩⟩

/-- Two pushes across the wrap fill a ring of two, and both come out. -/
example : (run ⟨2, by decide⟩ (init (2 ^ 64 - 1) fun _ ↦ (0 : Nat))
    (List.replicate 8 (.producer 7) ++ [.producer 9, .producer 9] ++
      List.replicate 8 .consumer)).popped = [7, 7] := by decide +kernel

end MatchingEngine.SpscRing
