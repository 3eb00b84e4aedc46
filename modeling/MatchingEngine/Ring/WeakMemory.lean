import MatchingEngine.Ring.SpscRing
import MatchingEngine.Util.WeakMemory

/-!
# The ring under the memory orders it asks for

`Ring/SpscRing.lean` lets the steps of the two threads interleave, but every load there sees the
last store.  The code promises less: `head_` and `tail_` are loaded with `acquire`, or by their own
writer with `relaxed`, and stored with `release`.  Here the same steps run on a memory that takes
these orders at their word.  A load may return an old counter, and the slots are plain memory: two
accesses to one that nothing orders are a data race, and the program has no meaning from there on.

Nothing of that happens (`weak_fifo`).  The slot a producer writes was read, if ever, by a pop whose
`tail_` the producer has acquired; the slot a consumer reads was written by a push whose `head_` it
has acquired, and has not been written since.  In the invariant `MemInv` that is `backed`: nobody
has seen a counter without knowing of the accesses it stands for.

`size_approx` may be called by anyone at any time.  What it returns depends on who calls it
(`sizeApprox_bounds`).
-/

set_option autoImplicit false

namespace MatchingEngine.SpscRing

open WeakMemory

/-! ## Steps -/

inductive Thread where
  | producer
  | consumer
  | observer (i : Nat)
  deriving DecidableEq

inductive Register where
  | head
  | tail
  deriving DecidableEq

structure WeakState (T : Type) where
  mem : Memory Thread Register UInt64 UInt64 T
  producer : Producer T
  consumer : Consumer T
  /-- Who is in `size_approx`, and has loaded this from `head_`. -/
  sizing : Thread → Option UInt64
  pushed : List T
  popped : List T

/-- Whose turn it is, and which store a load of the next step returns if it may. -/
inductive WeakTurn (T : Type) where
  | producer (v : T) (k : Nat)
  | consumer (k : Nat)
  | size (who : Thread) (k : Nat)

inductive WeakReturned (T : Type) where
  | push (ok : Bool)
  | pop (out : Option T)
  | size (who : Thread) (n : UInt64)

variable {T : Type}

/-- The next step of `try_push`. -/
def weakProducer (c : Capacity) (s : WeakState T) (v : T) (k : Nat) :
    Option (WeakState T × Option (WeakReturned T)) :=
  match s.producer with
  | .idle => do
    let (mem, h) ← s.mem.load .producer .head .relaxed k
    return ({ s with mem, producer := .loadTail v h }, none)
  | .loadTail v h => do
    let next := h + 1
    let (mem, t) ← s.mem.load .producer .tail .acquire k
    if next - t > c.kCap then return ({ s with mem, producer := .idle }, some (.push false))
    else return ({ s with mem, producer := .write v h }, none)
  | .write v h => do
    let mem ← s.mem.write .producer (h &&& c.kMask) v
    return ({ s with mem, producer := .store v h }, none)
  | .store v h =>
    some ({ s with
      mem := s.mem.store .producer .head (h + 1), producer := .idle, pushed := s.pushed ++ [v] },
      some (.push true))

/-- The next step of `try_pop`. -/
def weakConsumer (c : Capacity) (s : WeakState T) (k : Nat) :
    Option (WeakState T × Option (WeakReturned T)) :=
  match s.consumer with
  | .idle => do
    let (mem, t) ← s.mem.load .consumer .tail .relaxed k
    return ({ s with mem, consumer := .loadHead t }, none)
  | .loadHead t => do
    let (mem, h) ← s.mem.load .consumer .head .acquire k
    if t = h then return ({ s with mem, consumer := .idle }, some (.pop none))
    else return ({ s with mem, consumer := .read t }, none)
  | .read t => do
    let (mem, out) ← s.mem.read .consumer (t &&& c.kMask)
    return ({ s with mem, consumer := .store t out }, none)
  | .store t out =>
    some ({ s with
      mem := s.mem.store .consumer .tail (t + 1), consumer := .idle, popped := s.popped ++ [out] },
      some (.pop (some out)))

/-- The next step of `size_approx`. -/
def weakSize (s : WeakState T) (who : Thread) (k : Nat) :
    Option (WeakState T × Option (WeakReturned T)) :=
  match s.sizing who with
  | none => do
    let (mem, h) ← s.mem.load who .head .acquire k
    return ({ s with mem, sizing := Function.update s.sizing who (some h) }, none)
  | some h => do
    let (mem, t) ← s.mem.load who .tail .acquire k
    return ({ s with mem, sizing := Function.update s.sizing who none }, some (.size who (h - t)))

/-- Is the thread in the middle of a `try_push` or `try_pop`? -/
def WeakState.busy (s : WeakState T) : Thread → Bool
  | .producer => match s.producer with
    | .idle => false
    | _ => true
  | .consumer => match s.consumer with
    | .idle => false
    | _ => true
  | .observer _ => false

/-- A thread makes one call at a time. -/
def weakStep (c : Capacity) (s : WeakState T) :
    WeakTurn T → Option (WeakState T × Option (WeakReturned T))
  | .producer v k => if (s.sizing .producer).isSome then some (s, none) else weakProducer c s v k
  | .consumer k => if (s.sizing .consumer).isSome then some (s, none) else weakConsumer c s k
  | .size who k => if s.busy who then some (s, none) else weakSize s who k

/-- The state after some turns; `none` if there was a race. -/
def weakRun (c : Capacity) : WeakState T → List (WeakTurn T) → Option (WeakState T)
  | s, [] => some s
  | s, turn :: turns => (weakStep c s turn).bind fun x ↦ weakRun c x.1 turns

def weakInit (start : UInt64) (buf : UInt64 → T) : WeakState T :=
  { mem := .init (fun _ ↦ start) buf, producer := .idle, consumer := .idle, sizing := fun _ ↦ none
    pushed := [], popped := [] }

/-- How many slots have been written, and how many read. -/
def WeakState.written (s : WeakState T) : Nat :=
  match s.producer with
  | .store .. => s.pushed.length + 1
  | _ => s.pushed.length

def WeakState.taken (s : WeakState T) : Nat :=
  match s.consumer with
  | .store .. => s.popped.length + 1
  | _ => s.popped.length

/-! ## The memory -/

/-- Whoever has seen a counter knows of the accesses it counts. -/
def Backed (v : View Thread Register) : Prop :=
  v.seen .head ≤ v.known .producer ∧ v.seen .tail ≤ v.known .consumer

theorem Backed.join {v w : View Thread Register} (hv : Backed v) (hw : Backed w) :
    Backed (v.join w) := by
  obtain ⟨hv₁, hv₂⟩ := hv
  obtain ⟨hw₁, hw₂⟩ := hw
  simp only [Backed, View.join]
  omega

/-- The invariant of the memory, when `written` slots have been written and `taken` read. -/
structure MemInv (c : Capacity) (start : UInt64) (mem : Memory Thread Register UInt64 UInt64 T)
    (pushed popped : List T) (written taken : Nat) : Prop where
  sound : mem.Sound
  backed : mem.Everywhere Backed
  heads : (mem.stores .head).map Stored.value = (List.range (pushed.length + 1)).map (counter start)
  tails : (mem.stores .tail).map Stored.value = (List.range (popped.length + 1)).map (counter start)
  /-- Both threads know their own counter and their own accesses. -/
  ownHead : (mem.views .producer).seen .head = pushed.length
  ownTail : (mem.views .consumer).seen .tail = popped.length
  ownWrites : (mem.views .producer).known .producer = written
  ownReads : (mem.views .consumer).known .consumer = taken
  le_written : pushed.length ≤ written
  le_taken : popped.length ≤ taken
  /-- What is written fits, also by what the producer has seen of the pops. -/
  room : written ≤ (mem.views .producer).seen .tail + c.kCap.toNat
  /-- What is read was there, also by what the consumer has seen of the pushes. -/
  filled : taken ≤ (mem.views .consumer).seen .head
  fifo : popped <+: pushed
  slots : ∀ i v, popped.length ≤ i → pushed[i]? = some v →
    (mem.cells (slot c (counter start i))).value = v
  writes : ∀ a, ∀ x ∈ (mem.cells a).writes,
    ∃ n < written, x = (.producer, n + 1) ∧ slot c (counter start n) = a
  reads : ∀ a, ∀ x ∈ (mem.cells a).reads,
    ∃ n < taken, x = (.consumer, n + 1) ∧ slot c (counter start n) = a

section Memory

variable {c : Capacity} {start : UInt64} {mem : Memory Thread Register UInt64 UInt64 T}
  {pushed popped : List T} {written taken : Nat}

theorem memInv_init (c : Capacity) (start : UInt64) (buf : UInt64 → T) :
    MemInv c start (.init (fun _ ↦ start) buf) [] [] 0 0 := by
  constructor
  case sound => exact Memory.sound_init _ _
  case backed => exact Memory.everywhere_init ⟨Nat.le_refl _, Nat.le_refl _⟩
  all_goals simp [Memory.init, View.start, counter]

theorem MemInv.length_heads (h : MemInv c start mem pushed popped written taken) :
    (mem.stores .head).length = pushed.length + 1 := by
  simpa using congrArg List.length h.heads

theorem MemInv.length_tails (h : MemInv c start mem pushed popped written taken) :
    (mem.stores .tail).length = popped.length + 1 := by
  simpa using congrArg List.length h.tails

theorem value_of_stores {stores : List (Stored Thread Register UInt64)} {n k : Nat}
    (h : stores.map Stored.value = (List.range n).map (counter start))
    {s : Stored Thread Register UInt64} (hs : stores[k]? = some s) : s.value = counter start k := by
  have hv : (stores.map Stored.value)[k]? = some s.value := by rw [List.getElem?_map, hs]; rfl
  rw [h, List.getElem?_map, Option.map_eq_some_iff] at hv
  obtain ⟨j, hj, he⟩ := hv
  obtain ⟨hlt, rfl⟩ := List.getElem?_eq_some_iff.mp hj
  rw [← he, List.getElem_range]

/-- Nobody is ahead of the counters. -/
theorem MemInv.seen_le (h : MemInv c start mem pushed popped written taken) (i : Thread) :
    (mem.views i).seen .head ≤ pushed.length ∧ (mem.views i).seen .tail ≤ popped.length := by
  have hh := (h.sound.everywhere.views i).seen .head
  have ht := (h.sound.everywhere.views i).seen .tail
  rw [h.length_heads] at hh
  rw [h.length_tails] at ht
  omega

/-- **Learning something changes nothing.** -/
theorem MemInv.learn (h : MemInv c start mem pushed popped written taken) {r : Register}
    {s : Stored Thread Register UInt64} (hs : s ∈ mem.stores r) (i : Thread) :
    MemInv c start (mem.learn i s) pushed popped written taken := by
  obtain ⟨hp, hpk⟩ := h.sound.learn_views hs i .producer
  obtain ⟨hq, hqk⟩ := h.sound.learn_views hs i .consumer
  have hsound := h.sound.learn hs i
  have hhead := (hsound.everywhere.views .producer).seen .head
  have htail := (hsound.everywhere.views .consumer).seen .tail
  have hph := hp .head
  have hqt := hq .tail
  have hlh : ((mem.learn i s).stores .head).length = pushed.length + 1 := h.length_heads
  have hlt : ((mem.learn i s).stores .tail).length = popped.length + 1 := h.length_tails
  rw [hlh] at hhead
  rw [hlt] at htail
  rw [h.ownHead] at hph
  rw [h.ownTail] at hqt
  exact
    { h with
      sound := hsound
      backed := h.backed.learn (fun _ _ ↦ Backed.join) hs i
      ownHead := by omega
      ownTail := by omega
      ownWrites := hpk.trans h.ownWrites
      ownReads := hqk.trans h.ownReads
      room := h.room.trans (Nat.add_le_add_right (hp .tail) _)
      filled := h.filled.trans (hq .head) }

/-- **The copy into a slot is not a race.**  Whatever was read there is at least the capacity
behind, and the producer has seen that it was popped. -/
theorem MemInv.write (h : MemInv c start mem pushed popped pushed.length taken) (v : T)
    (hroom : pushed.length < (mem.views .producer).seen .tail + c.kCap.toNat) :
    ∃ mem', mem.write .producer (slot c (counter start pushed.length)) v = some mem' ∧
      MemInv c start mem' pushed popped (pushed.length + 1) taken ∧
      mem'.views .consumer = mem.views .consumer ∧
      (mem'.cells (slot c (counter start pushed.length))).value = v := by
  have hseen := h.seen_le .producer
  have hfilled := h.filled.trans (h.seen_le .consumer).1
  have hwrites : mem.after .producer (mem.cells (slot c (counter start pushed.length))).writes
      = true := by
    refine Memory.after_iff.mpr fun x hx ↦ ?_
    obtain ⟨n, hn, rfl, -⟩ := h.writes _ x hx
    simp only [h.ownWrites]
    exact hn
  have hreads : mem.after .producer (mem.cells (slot c (counter start pushed.length))).reads
      = true := by
    refine Memory.after_iff.mpr fun x hx ↦ ?_
    obtain ⟨n, hn, rfl, hslot⟩ := h.reads _ x hx
    have hfar : n + c.kCap.toNat ≤ pushed.length := by
      by_contra hlt
      have := slot_inj c start (by omega) (by omega) hslot
      omega
    have hback := (h.backed.views .producer).2
    simp only
    omega
  refine ⟨_, by rw [Memory.write, hwrites, hreads]; rfl, ?_, ?_, ?_⟩
  · constructor
    case sound => exact h.sound.count .producer _
    case backed =>
      refine h.backed.update _ ⟨(h.backed.views .producer).1.trans ?_, ?_⟩
      · simp [View.count]
      · exact (h.backed.views .producer).2
    case heads => exact h.heads
    case tails => exact h.tails
    case ownHead => exact h.ownHead
    case ownTail => exact h.ownTail
    case ownWrites => simp [View.count, h.ownWrites]
    case ownReads => exact h.ownReads
    case le_written => omega
    case le_taken => exact h.le_taken
    case room => exact hroom
    case filled => exact h.filled
    case fifo => exact h.fifo
    case slots =>
      -- what is still to be popped is less than the capacity behind
      intro i w hi hw
      have hlt := (List.getElem?_eq_some_iff.mp hw).1
      have hne : slot c (counter start i) ≠ slot c (counter start pushed.length) := fun he ↦ by
        have := slot_inj c start (by omega) (by omega) he
        omega
      simpa [Function.update_of_ne hne] using h.slots i w hi hw
    case writes =>
      intro a x hx
      by_cases ha : a = slot c (counter start pushed.length)
      · subst ha
        simp only [Function.update_self, List.mem_cons] at hx
        rcases hx with rfl | hx
        · exact ⟨pushed.length, Nat.lt_succ_self _, by simp [View.count, h.ownWrites], rfl⟩
        · obtain ⟨n, hn, hrest⟩ := h.writes _ x hx
          exact ⟨n, by omega, hrest⟩
      · simp only [Function.update_of_ne ha] at hx
        obtain ⟨n, hn, hrest⟩ := h.writes _ x hx
        exact ⟨n, by omega, hrest⟩
    case reads =>
      intro a x hx
      by_cases ha : a = slot c (counter start pushed.length)
      · subst ha
        simp only [Function.update_self] at hx
        exact h.reads _ x hx
      · simp only [Function.update_of_ne ha] at hx
        exact h.reads _ x hx
  · rfl
  · simp

/-- The store of `head_` publishes the slot. -/
theorem MemInv.push (h : MemInv c start mem pushed popped (pushed.length + 1) taken) {v : T}
    (hslot : (mem.cells (slot c (counter start pushed.length))).value = v) :
    MemInv c start (mem.store .producer .head (counter start (pushed.length + 1))) (pushed ++ [v])
      popped (pushed ++ [v]).length taken := by
  have hlen : (pushed ++ [v]).length = pushed.length + 1 := by simp
  rw [hlen]
  constructor
  case sound => exact h.sound.store _ _ _
  case backed =>
    refine h.backed.store ⟨?_, (h.backed.views .producer).2⟩
    simp only [View.see, Function.update_self, h.length_heads]
    exact h.ownWrites.ge
  case heads =>
    simp only [Memory.store, Function.update_self, List.map_append, h.heads, hlen]
    rw [List.range_succ (n := pushed.length + 1), List.map_append]
    rfl
  case tails => exact h.tails
  case ownHead => simp [Memory.store, View.see, h.length_heads]
  case ownTail => exact h.ownTail
  case ownWrites => exact h.ownWrites
  case ownReads => exact h.ownReads
  case le_written => exact hlen.le
  case le_taken => exact h.le_taken
  case room => exact h.room
  case filled => exact h.filled
  case fifo => exact h.fifo.trans (List.prefix_append _ _)
  case slots =>
    intro i w hi hw
    rw [List.getElem?_append] at hw
    split at hw
    · exact h.slots i w hi hw
    · obtain ⟨hlt, rfl⟩ := List.getElem?_eq_some_iff.mp hw
      rw [List.length_singleton] at hlt
      obtain rfl : i = pushed.length := by omega
      simpa [Memory.store] using hslot
  case writes => exact h.writes
  case reads => exact h.reads

/-- **The copy out of a slot is not a race**, and it is the value that was pushed.  The consumer has
seen that it was, and nothing else can have been written there since. -/
theorem MemInv.read (h : MemInv c start mem pushed popped written popped.length)
    (hfilled : popped.length < (mem.views .consumer).seen .head) :
    ∃ mem' out, mem.read .consumer (slot c (counter start popped.length)) = some (mem', out) ∧
      pushed[popped.length]? = some out ∧
      MemInv c start mem' pushed popped written (popped.length + 1) ∧
      mem'.views .producer = mem.views .producer ∧
      ∀ a, (mem'.cells a).value = (mem.cells a).value := by
  have hseen := h.seen_le .consumer
  have hroom := h.room.trans (Nat.add_le_add_right (h.seen_le .producer).2 _)
  have hout := List.getElem?_eq_getElem (Nat.lt_of_lt_of_le hfilled hseen.1)
  have hwrites : mem.after .consumer (mem.cells (slot c (counter start popped.length))).writes
      = true := by
    refine Memory.after_iff.mpr fun x hx ↦ ?_
    obtain ⟨n, hn, rfl, hslot⟩ := h.writes _ x hx
    have hold : n ≤ popped.length := by
      by_contra hlt
      have := slot_inj c start (by omega) (by omega) hslot.symm
      omega
    have hback := (h.backed.views .consumer).1
    simp only
    omega
  refine ⟨_, _, by rw [Memory.read, hwrites]; rfl, ?_, ?_, ?_, ?_⟩
  · rw [h.slots _ _ (Nat.le_refl _) hout]
    exact hout
  · constructor
    case sound => exact h.sound.count .consumer _
    case backed =>
      refine h.backed.update _ ⟨(h.backed.views .consumer).1, ?_⟩
      exact (h.backed.views .consumer).2.trans (by simp [View.count])
    case heads => exact h.heads
    case tails => exact h.tails
    case ownHead => exact h.ownHead
    case ownTail => exact h.ownTail
    case ownWrites => exact h.ownWrites
    case ownReads => simp [View.count, h.ownReads]
    case le_written => exact h.le_written
    case le_taken => omega
    case room => exact h.room
    case filled => exact hfilled
    case fifo => exact h.fifo
    case slots =>
      intro i w hi hw
      by_cases ha : slot c (counter start i) = slot c (counter start popped.length)
      · rw [ha]
        simpa [ha] using h.slots i w hi hw
      · simpa [Function.update_of_ne ha] using h.slots i w hi hw
    case writes =>
      intro a x hx
      by_cases ha : a = slot c (counter start popped.length)
      · subst ha
        simp only [Function.update_self] at hx
        exact h.writes _ x hx
      · simp only [Function.update_of_ne ha] at hx
        exact h.writes _ x hx
    case reads =>
      intro a x hx
      by_cases ha : a = slot c (counter start popped.length)
      · subst ha
        simp only [Function.update_self, List.mem_cons] at hx
        rcases hx with rfl | hx
        · exact ⟨popped.length, Nat.lt_succ_self _, by simp [View.count, h.ownReads], rfl⟩
        · obtain ⟨n, hn, hrest⟩ := h.reads _ x hx
          exact ⟨n, by omega, hrest⟩
      · simp only [Function.update_of_ne ha] at hx
        obtain ⟨n, hn, hrest⟩ := h.reads _ x hx
        exact ⟨n, by omega, hrest⟩
  · rfl
  · intro a
    by_cases ha : a = slot c (counter start popped.length)
    · subst ha
      simp
    · simp [Function.update_of_ne ha]

/-- The store of `tail_` gives the slot back. -/
theorem MemInv.pop (h : MemInv c start mem pushed popped written (popped.length + 1)) {out : T}
    (hout : pushed[popped.length]? = some out) :
    MemInv c start (mem.store .consumer .tail (counter start (popped.length + 1))) pushed
      (popped ++ [out]) written (popped ++ [out]).length := by
  have hlen : (popped ++ [out]).length = popped.length + 1 := by simp
  rw [hlen]
  constructor
  case sound => exact h.sound.store _ _ _
  case backed =>
    refine h.backed.store ⟨(h.backed.views .consumer).1, ?_⟩
    simp only [View.see, Function.update_self, h.length_tails]
    exact h.ownReads.ge
  case heads => exact h.heads
  case tails =>
    simp only [Memory.store, Function.update_self, List.map_append, h.tails, hlen]
    rw [List.range_succ (n := popped.length + 1), List.map_append]
    rfl
  case ownHead => exact h.ownHead
  case ownTail => simp [Memory.store, View.see, h.length_tails]
  case ownWrites => exact h.ownWrites
  case ownReads => exact h.ownReads
  case le_written => exact h.le_written
  case le_taken => exact hlen.le
  case room => exact h.room
  case filled => exact h.filled
  case fifo =>
    obtain ⟨rest, hrest⟩ := h.fifo
    have hnext : rest[0]? = some out := by
      rw [← hrest, List.getElem?_append_right (Nat.le_refl _), Nat.sub_self] at hout
      exact hout
    obtain ⟨tl, rfl⟩ : ∃ tl, rest = out :: tl := by
      cases rest with
      | nil => simp at hnext
      | cons x tl => exact ⟨tl, by simpa using hnext⟩
    exact ⟨tl, by rw [← hrest, List.append_assoc]; rfl⟩
  case slots => exact fun i w hi hw ↦ h.slots i w (by omega) hw
  case writes => exact h.writes
  case reads => exact h.reads

end Memory

/-! ## The threads -/

/-- What the producer knows. -/
def ProducerKnows (c : Capacity) (start : UInt64) (s : WeakState T) : Producer T → Prop
  | .idle => True
  | .loadTail _ h => h = counter start s.pushed.length
  | .write _ h => h = counter start s.pushed.length ∧
    s.pushed.length < (s.mem.views .producer).seen .tail + c.kCap.toNat
  | .store v h => h = counter start s.pushed.length ∧ (s.mem.cells (slot c h)).value = v

/-- What the consumer knows. -/
def ConsumerKnows (start : UInt64) (s : WeakState T) : Consumer T → Prop
  | .idle => True
  | .loadHead t => t = counter start s.popped.length
  | .read t => t = counter start s.popped.length ∧
    s.popped.length < (s.mem.views .consumer).seen .head
  | .store t out => t = counter start s.popped.length ∧ s.pushed[s.popped.length]? = some out

structure WeakInv (c : Capacity) (start : UInt64) (s : WeakState T) : Prop where
  mem : MemInv c start s.mem s.pushed s.popped s.written s.taken
  producer : ProducerKnows c start s s.producer
  consumer : ConsumerKnows start s s.consumer
  /-- A producer in `size_approx` has loaded its own counter. -/
  sizeProducer : ∀ h, s.sizing .producer = some h →
    s.producer = .idle ∧ h = counter start s.pushed.length
  /-- A consumer in `size_approx` has loaded a counter that is not behind its own. -/
  sizeConsumer : ∀ h, s.sizing .consumer = some h → s.consumer = .idle ∧
    ∃ n, s.popped.length ≤ n ∧ n ≤ s.pushed.length ∧ h = counter start n

theorem weakInv_init (c : Capacity) (start : UInt64) (buf : UInt64 → T) :
    WeakInv c start (weakInit start buf) where
  mem := memInv_init c start buf
  producer := trivial
  consumer := trivial
  sizeProducer := by simp [weakInit]
  sizeConsumer := by simp [weakInit]

section Step

variable {c : Capacity} {start : UInt64} {s : WeakState T}

/-- What a producer knows it still knows after a step of someone else, who takes nothing away from
its view and writes no slot. -/
theorem ProducerKnows.mono {s' : WeakState T} {p : Producer T} (h : ProducerKnows c start s p)
    (hpushed : s'.pushed = s.pushed)
    (hseen : (s.mem.views .producer).seen .tail ≤ (s'.mem.views .producer).seen .tail)
    (hcells : ∀ a, (s'.mem.cells a).value = (s.mem.cells a).value) :
    ProducerKnows c start s' p := by
  cases p with
  | idle => trivial
  | loadTail v i => exact h.trans (by rw [hpushed])
  | write v i => exact ⟨h.1.trans (by rw [hpushed]), by rw [hpushed]; exact h.2.trans_le (by omega)⟩
  | store v i => exact ⟨h.1.trans (by rw [hpushed]), (hcells _).trans h.2⟩

theorem ConsumerKnows.mono {s' : WeakState T} {q : Consumer T} (h : ConsumerKnows start s q)
    (hpopped : s'.popped = s.popped) (hpushed : s.pushed <+: s'.pushed)
    (hseen : (s.mem.views .consumer).seen .head ≤ (s'.mem.views .consumer).seen .head) :
    ConsumerKnows start s' q := by
  cases q with
  | idle => trivial
  | loadHead t => exact h.trans (by rw [hpopped])
  | read t => exact ⟨h.1.trans (by rw [hpopped]), by rw [hpopped]; exact h.2.trans_le hseen⟩
  | store t out =>
    refine ⟨h.1.trans (by rw [hpopped]), ?_⟩
    rw [hpopped]
    obtain ⟨rest, hrest⟩ := hpushed
    rw [← hrest, List.getElem?_append_left (List.getElem?_eq_some_iff.mp h.2).1]
    exact h.2

/-- **A step of `try_push`** goes through. -/
theorem WeakInv.stepProducer (h : WeakInv c start s) (hsize : s.sizing .producer = none) (v : T)
    (k : Nat) : ∃ s' r, weakProducer c s v k = some (s', r) ∧ WeakInv c start s' := by
  have hmem := h.mem
  have hknows := h.producer
  unfold weakProducer
  split
  case h_1 hpc =>
    have hw : s.written = s.pushed.length := by rw [WeakState.written, hpc]
    obtain ⟨st, hst, hload⟩ := hmem.sound.load_relaxed
      (i := .producer) (r := .head) (by rw [hmem.ownHead, hmem.length_heads]) k
    refine ⟨_, _, by rw [hload]; rfl, ?_⟩
    have hval := value_of_stores hmem.heads hst
    rw [hmem.ownHead] at hval
    exact
      { mem := by
          rw [hw] at hmem
          exact hmem
        producer := hval
        consumer := h.consumer.mono rfl List.prefix_rfl (Nat.le_refl _)
        sizeProducer := by simp [hsize]
        sizeConsumer := h.sizeConsumer }
  case h_2 v i hpc =>
    have hw : s.written = s.pushed.length := by rw [WeakState.written, hpc]
    rw [hpc] at hknows
    obtain ⟨st, hst, hplace, hload⟩ := hmem.sound.load_acquire .producer .tail k
    have hval := value_of_stores hmem.tails hst
    have hlearn := hmem.learn (List.mem_of_getElem? hst) .producer
    have hviews := (hmem.sound.learn_views (List.mem_of_getElem? hst) .producer .consumer).1 .head
    have hpick := hmem.sound.pick_lt .producer .tail k
    have hroom := hmem.room
    have hcap := c.kCap_le
    have hfifo := hmem.fifo.length_le
    rw [hw] at hroom
    rw [hmem.length_tails] at hpick
    have hnext : (i + 1 - st.value).toNat = s.pushed.length + 1 - s.mem.pick .producer .tail k := by
      rw [show i = _ from hknows, hval, counter_succ,
        toNat_counter_sub start (by omega) (by omega)]
    rw [hload]
    dsimp only [Option.bind_eq_bind, Option.bind_some]
    split
    · refine ⟨_, _, rfl, ?_⟩
      exact
        { mem := by
            rw [hw] at hlearn
            exact hlearn
          producer := trivial
          consumer := h.consumer.mono rfl List.prefix_rfl hviews
          sizeProducer := by simp [hsize]
          sizeConsumer := h.sizeConsumer }
    · rename_i hfits
      rw [gt_iff_lt, UInt64.lt_iff_toNat_lt, hnext] at hfits
      refine ⟨_, _, rfl, ?_⟩
      exact
        { mem := by
            rw [hw] at hlearn
            exact hlearn
          producer := by
            refine ⟨hknows, ?_⟩
            have hseen : s.mem.pick .producer .tail k
                ≤ ((s.mem.learn .producer st).views .producer).seen .tail := by
              simp only [Memory.learn, Function.update_self, View.join, hplace]
              exact Nat.le_max_right _ _
            simp only
            omega
          consumer := h.consumer.mono rfl List.prefix_rfl hviews
          sizeProducer := by simp [hsize]
          sizeConsumer := h.sizeConsumer }
  case h_3 v i hpc =>
    have hw : s.written = s.pushed.length := by rw [WeakState.written, hpc]
    rw [hpc] at hknows
    rw [hw] at hmem
    obtain ⟨mem', hwrite, hmem', hviews, hvalue⟩ := hmem.write v hknows.2
    refine ⟨_, _, by rw [show i &&& c.kMask = slot c i from rfl, hknows.1, hwrite]; rfl, ?_⟩
    exact
      { mem := hmem'
        producer := ⟨rfl, hvalue⟩
        consumer := h.consumer.mono rfl List.prefix_rfl (by rw [hviews])
        sizeProducer := by simp [hsize]
        sizeConsumer := h.sizeConsumer }
  case h_4 v i hpc =>
    have hw : s.written = s.pushed.length + 1 := by rw [WeakState.written, hpc]
    rw [hpc] at hknows
    rw [hw] at hmem
    have hpush := hmem.push (hknows.1 ▸ hknows.2)
    refine ⟨_, _, rfl, ?_⟩
    exact
      { mem := by
          rw [hknows.1, counter_succ]
          exact hpush
        producer := trivial
        consumer := h.consumer.mono rfl (List.prefix_append _ _) (Nat.le_refl _)
        sizeProducer := by simp [hsize]
        sizeConsumer := fun i hi ↦ by
          obtain ⟨hidle, n, hn, hle, rfl⟩ := h.sizeConsumer i hi
          exact ⟨hidle, n, hn, by simp; omega, rfl⟩ }

/-- **A step of `try_pop`** goes through. -/
theorem WeakInv.stepConsumer (h : WeakInv c start s) (hsize : s.sizing .consumer = none) (k : Nat) :
    ∃ s' r, weakConsumer c s k = some (s', r) ∧ WeakInv c start s' := by
  have hmem := h.mem
  have hknows := h.consumer
  unfold weakConsumer
  split
  case h_1 hpc =>
    have ht : s.taken = s.popped.length := by rw [WeakState.taken, hpc]
    obtain ⟨st, hst, hload⟩ := hmem.sound.load_relaxed
      (i := .consumer) (r := .tail) (by rw [hmem.ownTail, hmem.length_tails]) k
    refine ⟨_, _, by rw [hload]; rfl, ?_⟩
    have hval := value_of_stores hmem.tails hst
    rw [hmem.ownTail] at hval
    exact
      { mem := by
          rw [ht] at hmem
          exact hmem
        producer := h.producer.mono rfl (Nat.le_refl _) fun _ ↦ rfl
        consumer := hval
        sizeProducer := h.sizeProducer
        sizeConsumer := by simp [hsize] }
  case h_2 t hpc =>
    have ht : s.taken = s.popped.length := by rw [WeakState.taken, hpc]
    rw [hpc] at hknows
    obtain ⟨st, hst, hplace, hload⟩ := hmem.sound.load_acquire .consumer .head k
    have hval := value_of_stores hmem.heads hst
    have hlearn := hmem.learn (List.mem_of_getElem? hst) .consumer
    have hviews := (hmem.sound.learn_views (List.mem_of_getElem? hst) .consumer .producer).1 .tail
    have hpick := (hmem.sound.pick_lt .consumer .head k).1
    have hfilled := hmem.filled
    rw [ht] at hfilled hlearn
    rw [hload]
    dsimp only [Option.bind_eq_bind, Option.bind_some]
    split
    · refine ⟨_, _, rfl, ?_⟩
      exact
        { mem := hlearn
          producer := h.producer.mono rfl hviews fun _ ↦ rfl
          consumer := trivial
          sizeProducer := h.sizeProducer
          sizeConsumer := by simp [hsize] }
    · rename_i hne
      refine ⟨_, _, rfl, ?_⟩
      exact
        { mem := hlearn
          producer := h.producer.mono rfl hviews fun _ ↦ rfl
          consumer := by
            refine ⟨hknows, ?_⟩
            have hlt : s.popped.length < s.mem.pick .consumer .head k := by
              refine Nat.lt_of_le_of_ne (hfilled.trans hpick) fun he ↦ hne ?_
              rw [show t = _ from hknows, hval, he]
            have hseen : s.mem.pick .consumer .head k
                ≤ ((s.mem.learn .consumer st).views .consumer).seen .head := by
              simp only [Memory.learn, Function.update_self, View.join, hplace]
              exact Nat.le_max_right _ _
            exact hlt.trans_le hseen
          sizeProducer := h.sizeProducer
          sizeConsumer := by simp [hsize] }
  case h_3 t hpc =>
    have ht : s.taken = s.popped.length := by rw [WeakState.taken, hpc]
    rw [hpc] at hknows
    rw [ht] at hmem
    obtain ⟨mem', out, hread, hout, hmem', hviews, hvalues⟩ := hmem.read hknows.2
    refine ⟨_, _, by rw [show t &&& c.kMask = slot c t from rfl, hknows.1, hread]; rfl, ?_⟩
    exact
      { mem := hmem'
        producer := h.producer.mono rfl (by rw [hviews]) hvalues
        consumer := ⟨rfl, hout⟩
        sizeProducer := h.sizeProducer
        sizeConsumer := by simp [hsize] }
  case h_4 t out hpc =>
    have ht : s.taken = s.popped.length + 1 := by rw [WeakState.taken, hpc]
    rw [hpc] at hknows
    rw [ht] at hmem
    have hpop := hmem.pop hknows.2
    refine ⟨_, _, rfl, ?_⟩
    exact
      { mem := by
          rw [hknows.1, counter_succ]
          exact hpop
        producer := h.producer.mono rfl (Nat.le_refl _) fun _ ↦ rfl
        consumer := trivial
        sizeProducer := h.sizeProducer
        sizeConsumer := by simp [hsize] }

theorem busy_producer (hidle : s.busy .producer = false) : s.producer = .idle := by
  unfold WeakState.busy at hidle
  cases hp : s.producer <;> simp_all

theorem busy_consumer (hidle : s.busy .consumer = false) : s.consumer = .idle := by
  unfold WeakState.busy at hidle
  cases hq : s.consumer <;> simp_all

/-- A load by anyone, which says nothing yet about their own call. -/
theorem WeakInv.learn (h : WeakInv c start s) {r : Register} {st : Stored Thread Register UInt64}
    (hst : st ∈ s.mem.stores r) (who : Thread) :
    WeakInv c start { s with mem := s.mem.learn who st } where
  mem := h.mem.learn hst who
  producer := h.producer.mono rfl ((h.mem.sound.learn_views hst who .producer).1 .tail) fun _ ↦ rfl
  consumer := h.consumer.mono rfl List.prefix_rfl
    ((h.mem.sound.learn_views hst who .consumer).1 .head)
  sizeProducer := h.sizeProducer
  sizeConsumer := h.sizeConsumer

/-- What a call of `size_approx` may return: not too little to the producer, not too much to the
consumer, anything to anyone else. -/
def SizeBounds (c : Capacity) (s : WeakState T) : Thread → UInt64 → Prop
  | .producer, n => s.pushed.length - s.popped.length ≤ n.toNat ∧ n.toNat ≤ c.kCap.toNat
  | .consumer, n => n.toNat ≤ s.pushed.length - s.popped.length
  | .observer _, _ => True

/-- The second load of `size_approx`. -/
theorem WeakInv.sizeBounds (h : WeakInv c start s) {who : Thread} {i : UInt64}
    (hi : s.sizing who = some i) (k : Nat) {st : Stored Thread Register UInt64}
    (hst : (s.mem.stores .tail)[s.mem.pick who .tail k]? = some st) :
    SizeBounds c s who (i - st.value) := by
  have hval := value_of_stores h.mem.tails hst
  obtain ⟨hseen, hlt⟩ := h.mem.sound.pick_lt who .tail k
  have hcap := c.kCap_le
  have hfifo := h.mem.fifo.length_le
  have hroom := h.mem.le_written.trans h.mem.room
  rw [h.mem.length_tails] at hlt
  rw [hval]
  cases who with
  | producer =>
    obtain ⟨-, rfl⟩ := h.sizeProducer i hi
    rw [SizeBounds, toNat_counter_sub start (by omega) (by omega)]
    omega
  | consumer =>
    -- the consumer has seen its own counter
    obtain ⟨-, n, hn, hle, rfl⟩ := h.sizeConsumer i hi
    have hbound := hroom.trans (Nat.add_le_add_right (h.mem.seen_le .producer).2 _)
    rw [h.mem.ownTail] at hseen
    rw [SizeBounds, toNat_counter_sub start (by omega) (by omega)]
    omega
  | observer j => trivial

/-- **A step of `size_approx`** goes through. -/
theorem WeakInv.stepSize (h : WeakInv c start s) {who : Thread} (hidle : s.busy who = false)
    (k : Nat) : ∃ s' r, weakSize s who k = some (s', r) ∧ WeakInv c start s' ∧
      ∀ x, r = some x → ∃ n, x = .size who n ∧ SizeBounds c s who n := by
  unfold weakSize
  split
  case h_1 hnone =>
    obtain ⟨st, hst, -, hload⟩ := h.mem.sound.load_acquire who .head k
    have hval := value_of_stores h.mem.heads hst
    obtain ⟨hseen, hlt⟩ := h.mem.sound.pick_lt who .head k
    rw [h.mem.length_heads] at hlt
    refine ⟨_, _, by rw [hload]; rfl, ?_, by simp⟩
    refine { h.learn (List.mem_of_getElem? hst) who with sizeProducer := ?_, sizeConsumer := ?_ }
    · intro i hi
      by_cases hw : who = .producer
      · subst hw
        simp only [Function.update_self, Option.some_inj] at hi
        refine ⟨busy_producer hidle, ?_⟩
        rw [h.mem.ownHead] at hseen
        rw [← hi, hval]
        exact congrArg _ (Nat.le_antisymm (Nat.lt_succ_iff.mp hlt) hseen)
      · simp only [Function.update_of_ne (Ne.symm hw)] at hi
        exact h.sizeProducer i hi
    · intro i hi
      by_cases hw : who = .consumer
      · subst hw
        simp only [Function.update_self, Option.some_inj] at hi
        have hfilled := h.mem.le_taken.trans (h.mem.filled.trans hseen)
        exact ⟨busy_consumer hidle, _, hfilled, Nat.lt_succ_iff.mp hlt, by rw [← hi, hval]⟩
      · simp only [Function.update_of_ne (Ne.symm hw)] at hi
        exact h.sizeConsumer i hi
  case h_2 i hi =>
    obtain ⟨st, hst, -, hload⟩ := h.mem.sound.load_acquire who .tail k
    refine ⟨_, _, by rw [hload]; rfl, ?_, fun x hx ↦ ⟨_, (Option.some.inj hx).symm,
      h.sizeBounds hi k hst⟩⟩
    refine { h.learn (List.mem_of_getElem? hst) who with sizeProducer := ?_, sizeConsumer := ?_ }
    · intro j hj
      by_cases hw : who = .producer
      · subst hw
        simp at hj
      · simp only [Function.update_of_ne (Ne.symm hw)] at hj
        exact h.sizeProducer j hj
    · intro j hj
      by_cases hw : who = .consumer
      · subst hw
        simp at hj
      · simp only [Function.update_of_ne (Ne.symm hw)] at hj
        exact h.sizeConsumer j hj

theorem WeakInv.step (h : WeakInv c start s) (turn : WeakTurn T) :
    ∃ s' r, weakStep c s turn = some (s', r) ∧ WeakInv c start s' := by
  cases turn with
  | producer v k =>
    rw [weakStep]
    split
    · exact ⟨s, none, rfl, h⟩
    · rename_i hsize
      exact h.stepProducer (Option.not_isSome_iff_eq_none.mp hsize) v k
  | consumer k =>
    rw [weakStep]
    split
    · exact ⟨s, none, rfl, h⟩
    · rename_i hsize
      exact h.stepConsumer (Option.not_isSome_iff_eq_none.mp hsize) k
  | size who k =>
    rw [weakStep]
    split
    · exact ⟨s, none, rfl, h⟩
    · rename_i hidle
      obtain ⟨s', r, he, h', -⟩ := h.stepSize (Bool.not_eq_true _ ▸ hidle) k
      exact ⟨s', r, he, h'⟩

/-- By induction on the turns, one step at a time. -/
theorem WeakInv.run (h : WeakInv c start s) (turns : List (WeakTurn T)) :
    ∃ s', weakRun c s turns = some s' ∧ WeakInv c start s' := by
  induction turns generalizing s with
  | nil => exact ⟨s, rfl, h⟩
  | cons turn turns ih =>
    obtain ⟨s₁, r, he, h₁⟩ := h.step turn
    obtain ⟨s₂, he₂, h₂⟩ := ih h₁
    exact ⟨s₂, by rw [weakRun, he]; exact he₂, h₂⟩

end Step

/-! ## Loads that see the last store

Where every load returns the last store, the steps are those of `Ring/SpscRing.lean`.  So what is
shown here about all runs holds there. -/

/-- The counters and slots as they are. -/
def WeakState.current (s : WeakState T) (start : UInt64) : State T :=
  { head := counter start s.pushed.length
    tail := counter start s.popped.length
    buf := fun a ↦ (s.mem.cells a).value
    producer := s.producer
    consumer := s.consumer
    pushed := s.pushed
    popped := s.popped }

section Newest

variable {c : Capacity} {start : UInt64} {s : WeakState T}

/-- Choose the last store. -/
theorem pick_newest {m : Memory Thread Register UInt64 UInt64 T} (h : m.Sound) (i : Thread)
    (r : Register) : m.pick i r (m.stores r).length + 1 = (m.stores r).length := by
  have := (h.everywhere.views i).seen r
  rw [Memory.pick]
  omega

theorem WeakInv.stepProducer_newest (h : WeakInv c start s) (hsize : s.sizing .producer = none)
    (v : T) : ∃ s', weakRun c s [.producer v (s.mem.stores .tail).length] = some s' ∧
      s'.sizing = s.sizing ∧
      s'.current start = (SpscRing.stepProducer c (s.current start) v).1 := by
  have hmem := h.mem
  have hknows := h.producer
  have hstep : ∀ s' r, weakProducer c s v (s.mem.stores .tail).length = some (s', r) →
      weakRun c s [.producer v (s.mem.stores .tail).length] = some s' := by
    intro s' r he
    simp [weakRun, weakStep, hsize, he]
  unfold weakProducer at hstep
  split at hstep
  case h_1 hpc =>
    obtain ⟨st, hst, hload⟩ := hmem.sound.load_relaxed (i := .producer) (r := .head)
      (by rw [hmem.ownHead, hmem.length_heads]) (s.mem.stores .tail).length
    have hval := value_of_stores hmem.heads hst
    rw [hmem.ownHead] at hval
    refine ⟨_, hstep _ _ (by rw [hload]; rfl), ?_, ?_⟩
    · rfl
    · simp [SpscRing.stepProducer, WeakState.current, hpc, hval]
  case h_2 v i hpc =>
    obtain ⟨st, hst, -, hload⟩ :=
      hmem.sound.load_acquire .producer .tail (s.mem.stores .tail).length
    have hval := value_of_stores hmem.tails hst
    have hnew := pick_newest hmem.sound .producer .tail
    rw [hmem.length_tails, Nat.add_right_cancel_iff] at hnew
    rw [hmem.length_tails, hnew] at hval
    rw [hload] at hstep
    simp only [Option.bind_eq_bind, Option.bind_some, hval] at hstep
    simp only [SpscRing.stepProducer, WeakState.current, hpc]
    split at hstep
    · rename_i hfull
      refine ⟨_, hstep _ _ rfl, rfl, ?_⟩
      simp [hfull, Memory.learn]
    · rename_i hfits
      refine ⟨_, hstep _ _ rfl, rfl, ?_⟩
      simp [hfits, Memory.learn]
  case h_3 v i hpc =>
    rw [hpc] at hknows
    have hw : s.written = s.pushed.length := by rw [WeakState.written, hpc]
    rw [hw] at hmem
    obtain ⟨mem', hwrite, -⟩ := hmem.write v hknows.2
    have hslot : i &&& c.kMask = slot c (counter start s.pushed.length) := by rw [hknows.1]; rfl
    refine ⟨_, hstep _ _ (by rw [hslot, hwrite]; rfl), ?_, ?_⟩
    · rfl
    · rw [Memory.write] at hwrite
      split at hwrite
      · simp only [SpscRing.stepProducer, WeakState.current, hpc,
          ← Option.some.inj hwrite, State.mk.injEq, true_and, and_true]
        funext a
        by_cases ha : a = slot c (counter start s.pushed.length)
        · rw [hslot, ha]
          simp
        · rw [hslot, Function.update_of_ne ha, Function.update_of_ne ha]
      · simp at hwrite
  case h_4 v i hpc =>
    rw [hpc] at hknows
    refine ⟨_, hstep _ _ rfl, rfl, ?_⟩
    simp [SpscRing.stepProducer, WeakState.current, hpc, hknows.1, counter_succ,
      Memory.store]

theorem WeakInv.stepConsumer_newest (h : WeakInv c start s) (hsize : s.sizing .consumer = none) :
    ∃ s', weakRun c s [.consumer (s.mem.stores .head).length] = some s' ∧ s'.sizing = s.sizing ∧
      s'.current start = (SpscRing.stepConsumer c (s.current start)).1 := by
  have hmem := h.mem
  have hknows := h.consumer
  have hstep : ∀ s' r, weakConsumer c s (s.mem.stores .head).length = some (s', r) →
      weakRun c s [.consumer (s.mem.stores .head).length] = some s' := by
    intro s' r he
    simp [weakRun, weakStep, hsize, he]
  unfold weakConsumer at hstep
  split at hstep
  case h_1 hpc =>
    obtain ⟨st, hst, hload⟩ := hmem.sound.load_relaxed (i := .consumer) (r := .tail)
      (by rw [hmem.ownTail, hmem.length_tails]) (s.mem.stores .head).length
    have hval := value_of_stores hmem.tails hst
    rw [hmem.ownTail] at hval
    refine ⟨_, hstep _ _ (by rw [hload]; rfl), ?_, ?_⟩
    · rfl
    · simp [SpscRing.stepConsumer, WeakState.current, hpc, hval]
  case h_2 t hpc =>
    obtain ⟨st, hst, -, hload⟩ :=
      hmem.sound.load_acquire .consumer .head (s.mem.stores .head).length
    have hval := value_of_stores hmem.heads hst
    have hnew := pick_newest hmem.sound .consumer .head
    rw [hmem.length_heads, Nat.add_right_cancel_iff] at hnew
    rw [hmem.length_heads, hnew] at hval
    rw [hload] at hstep
    simp only [Option.bind_eq_bind, Option.bind_some, hval] at hstep
    simp only [SpscRing.stepConsumer, WeakState.current, hpc]
    split at hstep
    · rename_i hempty
      refine ⟨_, hstep _ _ rfl, rfl, ?_⟩
      simp [hempty, Memory.learn]
    · rename_i hsome
      refine ⟨_, hstep _ _ rfl, rfl, ?_⟩
      simp [hsome, Memory.learn]
  case h_3 t hpc =>
    rw [hpc] at hknows
    have ht : s.taken = s.popped.length := by rw [WeakState.taken, hpc]
    rw [ht] at hmem
    obtain ⟨mem', out, hread, hout, -, -, hvalues⟩ := hmem.read hknows.2
    have hslot : t &&& c.kMask = slot c (counter start s.popped.length) := by rw [hknows.1]; rfl
    have hbuf := hmem.slots _ _ (Nat.le_refl _) hout
    refine ⟨_, hstep _ _ (by rw [hslot, hread]; rfl), ?_, ?_⟩
    · rfl
    · simp [SpscRing.stepConsumer, WeakState.current, hpc, hvalues, hslot, hbuf]
  case h_4 t out hpc =>
    rw [hpc] at hknows
    refine ⟨_, hstep _ _ rfl, rfl, ?_⟩
    simp [SpscRing.stepConsumer, WeakState.current, hpc, hknows.1, counter_succ,
      Memory.store]

theorem weakRun_cons (c : Capacity) (s : WeakState T) (turn : WeakTurn T)
    (turns : List (WeakTurn T)) :
    weakRun c s (turn :: turns) = (weakRun c s [turn]).bind fun s ↦ weakRun c s turns := by
  simp only [weakRun, Option.bind_assoc, Option.bind_some]

theorem WeakInv.run_newest (h : WeakInv c start s) (hsize : s.sizing = fun _ ↦ none)
    (turns : List (Turn T)) :
    ∃ turns' s', weakRun c s turns' = some s' ∧
      s'.current start = SpscRing.run c (s.current start) turns := by
  induction turns generalizing s with
  | nil => exact ⟨[], s, rfl, rfl⟩
  | cons turn turns ih =>
    obtain ⟨turn', s₁, he, hsize₁, hcur⟩ : ∃ turn' s₁, weakRun c s [turn'] = some s₁ ∧
        s₁.sizing = s.sizing ∧ s₁.current start = (SpscRing.step c (s.current start) turn).1 := by
      cases turn with
      | producer v => exact ⟨_, h.stepProducer_newest (by rw [hsize]) v⟩
      | consumer => exact ⟨_, h.stepConsumer_newest (by rw [hsize])⟩
    obtain ⟨s₁', he', h₁⟩ := h.run [turn']
    obtain rfl := Option.some.inj (he'.symm.trans he)
    obtain ⟨turns', s₂, he₂, hcur₂⟩ := ih h₁ (hsize₁.trans hsize)
    exact ⟨turn' :: turns', s₂, by rw [weakRun_cons, he]; exact he₂, by rw [hcur₂, hcur]; rfl⟩

end Newest

/-- **The ring needs no more than the orders it asks for.**  Whatever the turns, and whichever of
the stores that it may return each load does return, no access to a slot is a race; what has been
popped is a prefix of what has been pushed, and the rest fits. -/
theorem weak_fifo (c : Capacity) (start : UInt64) (buf : UInt64 → T) (turns : List (WeakTurn T)) :
    ∃ s, weakRun c (weakInit start buf) turns = some s ∧ s.popped <+: s.pushed ∧
      s.pushed.length - s.popped.length ≤ c.kCap.toNat := by
  obtain ⟨s, he, h⟩ := (weakInv_init c start buf).run turns
  refine ⟨s, he, h.mem.fifo, ?_⟩
  have hroom := h.mem.le_written.trans h.mem.room
  have hseen := (h.mem.seen_le .producer).2
  omega

/-- **Interleaving is a special case**: every run of the ring whose loads see the last store is a
run on this memory. -/
theorem run_eq_weakRun (c : Capacity) (start : UInt64) (buf : UInt64 → T) (turns : List (Turn T)) :
    ∃ turns' s, weakRun c (weakInit start buf) turns' = some s ∧
      s.current start = run c (init start buf) turns := by
  obtain ⟨turns', s, he, hcur⟩ := (weakInv_init c start buf).run_newest rfl turns
  refine ⟨turns', s, he, hcur.trans ?_⟩
  simp [WeakState.current, weakInit, init, Memory.init, counter]

/-- **What `size_approx` says.**  In any run, an answer to the producer is at least the number of
values in the ring and at most the capacity, and an answer to the consumer is at most that number.
So neither can wrap. -/
theorem sizeApprox_bounds (c : Capacity) (start : UInt64) (buf : UInt64 → T)
    (turns : List (WeakTurn T)) {s s' : WeakState T} {who : Thread} {k : Nat} {n : UInt64}
    (hrun : weakRun c (weakInit start buf) turns = some s)
    (hsize : weakStep c s (.size who k) = some (s', some (.size who n))) :
    (who = .producer → s.pushed.length - s.popped.length ≤ n.toNat ∧ n.toNat ≤ c.kCap.toNat) ∧
      (who = .consumer → n.toNat ≤ s.pushed.length - s.popped.length) := by
  obtain ⟨s₁, he, h⟩ := (weakInv_init c start buf).run turns
  obtain rfl := Option.some.inj (he.symm.trans hrun)
  rw [weakStep] at hsize
  split at hsize
  · simp at hsize
  · rename_i hidle
    obtain ⟨s₂, r, he₂, -, hbounds⟩ := h.stepSize (Bool.not_eq_true _ ▸ hidle) k
    obtain ⟨-, rfl⟩ := Prod.mk.inj (Option.some.inj (he₂.symm.trans hsize))
    obtain ⟨n', hn, hb⟩ := hbounds _ rfl
    obtain ⟨-, rfl⟩ := WeakReturned.size.inj hn
    exact ⟨fun hw ↦ by subst hw; exact hb, fun hw ↦ by subst hw; exact hb⟩

/-- The answer to a thread that has asked for the size. -/
def WeakReturned.size? (who : Thread) : WeakReturned T → Option UInt64
  | .size w n => if w = who then some n else none
  | _ => none

/-- A producer that has pushed once and asks. -/
theorem sizeApprox_bounds_one_push :
    ∃ s s' n, weakRun ⟨2, by decide⟩ (weakInit 0 fun _ ↦ (0 : Nat))
        (List.replicate 4 (.producer 7 0) ++ [.size .producer 0]) = some s ∧
      weakStep ⟨2, by decide⟩ s (.size .producer 0) = some (s', some (.size .producer n)) ∧
      1 ≤ n.toNat ∧ n.toNat ≤ 2 := by
  have hread : ((weakRun ⟨2, by decide⟩ (weakInit 0 fun _ ↦ (0 : Nat))
      (List.replicate 4 (.producer 7 0) ++ [.size .producer 0])).bind fun s ↦
        (weakStep ⟨2, by decide⟩ s (.size .producer 0)).map fun x ↦
          (x.2.bind (WeakReturned.size? .producer), s.pushed.length, s.popped.length))
      = some (some 1, 1, 0) := by decide +kernel
  obtain ⟨s, hrun, hread⟩ := Option.bind_eq_some_iff.mp hread
  obtain ⟨⟨s', r⟩, hsize, hread⟩ := Option.map_eq_some_iff.mp hread
  obtain ⟨hr, hlen⟩ := Prod.mk.inj hread
  obtain ⟨hpush, hpop⟩ := Prod.mk.inj hlen
  obtain ⟨x, rfl, hx⟩ := Option.bind_eq_some_iff.mp hr
  cases x with
  | size who n =>
    obtain rfl : who = .producer := by
      by_contra hne
      simp [WeakReturned.size?, hne] at hx
    have hb := (sizeApprox_bounds _ _ _ _ hrun hsize).1 rfl
    rw [hpush, hpop] at hb
    exact ⟨s, s', n, hrun, hsize, hb⟩
  | push ok => simp [WeakReturned.size?] at hx
  | pop out => simp [WeakReturned.size?] at hx

-- someone else may load `head_` before a push and `tail_` after the pop
example : ((weakRun ⟨2, by decide⟩ (weakInit 0 fun _ ↦ (0 : Nat))
    ([.size (.observer 0) 0] ++ List.replicate 4 (.producer 7 0) ++
      List.replicate 4 (.consumer 1))).bind fun s ↦
        (weakStep ⟨2, by decide⟩ s (.size (.observer 0) 1)).bind fun x ↦
        x.2.bind (WeakReturned.size? (.observer 0))) = some (2 ^ 64 - 1) := by decide +kernel

end MatchingEngine.SpscRing
