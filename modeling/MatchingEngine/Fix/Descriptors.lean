import MatchingEngine.Fix.Threads

/-!
# Descriptors

Both `stop` and the thread of a session close the session's descriptor, without a lock and without
telling each other, and the number they close may have been given out again.  `Sound` is what keeps
them out of trouble nevertheless.  As long as connections can be accepted, only the thread of a
session closes its descriptor; `stop` begins to do so when it has joined the acceptor, and from then
on no number is given out any more.
-/

set_option autoImplicit false

namespace MatchingEngine

namespace Fix

open Program

/-! ## Where the threads have got to -/

/-- Has the thread closed its descriptor? -/
def Worker.closed : Worker → Bool
  | .closing .clear => true
  | .done => true
  | _ => false

def Worker.isDone : Worker → Bool
  | .done => true
  | _ => false

theorem Worker.closed_of_isDone {w : Worker} (h : w.isDone = true) : w.closed = true := by
  cases w with
  | done => rfl
  | _ => cases h

/-- The connection that is not yet in `sessions_`. -/
def Acceptor.holding : Acceptor → Option Nat
  | .accepted n => some n
  | .push n => some n
  | _ => none

namespace Kernel

variable {k : Kernel} {fd : Option Nat} {n m : Nat} {f : File}

theorem table_shutdown : (k.shutdown fd).table = k.table := by
  rw [shutdown]
  split <;> rfl

theorem shut_shutdown (h : k.shut f = true) : (k.shutdown fd).shut f = true := by
  rw [shutdown]
  split
  · dsimp only
    rw [Function.update_apply]
    split
    · rfl
    · exact h
  · exact h

theorem shut_of_fileAt (h : k.fileAt fd = some f) : (k.shutdown fd).shut f = true := by
  rw [shutdown, h]
  exact Function.update_self f true k.shut

theorem table_close_self : (k.close (some n)).table n = none := by
  simp only [close, Function.update_self]

theorem table_close_ne (h : fd ≠ some n) : (k.close fd).table n = k.table n := by
  cases fd with
  | none => rfl
  | some m => simp only [close, Function.update_of_ne (show n ≠ m by rintro rfl; exact h rfl)]

theorem shut_close : (k.close fd).shut = k.shut := by cases fd <;> rfl

/-- What is open after a `close` was open before. -/
theorem table_of_close (h : (k.close fd).table n = some f) : k.table n = some f ∧ fd ≠ some n := by
  by_cases hn : fd = some n
  · rw [hn, table_close_self] at h
    cases h
  · exact ⟨by rwa [table_close_ne hn] at h, hn⟩

theorem table_openAt_ne (h : m ≠ n) : (k.openAt n f).table m = k.table m := by
  simp only [openAt, Function.update_of_ne h]

theorem table_openAt_self : (k.openAt n f).table n = some f := by
  simp only [openAt, Function.update_self]

theorem shut_openAt_ne {f' : File} (h : f' ≠ f) : (k.openAt n f).shut f' = k.shut f' := by
  simp only [openAt, Function.update_of_ne h]

end Kernel

namespace Main

/-- The sessions `stop` has taken and is not done with. -/
def left : Main → List Nat
  | .sessions left => left
  | .closing _ i left => i :: left
  | .join i left => i :: left
  | _ => []

/-- Has `stop` taken the sessions? -/
def sweeping : Main → Bool
  | .sessions _ => true
  | .closing .. => true
  | .join .. => true
  | _ => false

/-- Has `stop` joined the acceptor? -/
def joined : Main → Bool
  | .swap => true
  | m => m.sweeping

/-- Is the listener still to be closed? -/
def listening : Main → Bool
  | .listener .test => true
  | .listener .shutdown => true
  | .listener .close => true
  | _ => false

/-- Is the acceptor to be joined, with its listener shut down? -/
def joining : Main → Bool
  | .listener .close => true
  | .listener .clear => true
  | .joinAcceptor => true
  | _ => false

/-- Has `stop` shut down the session, and not yet joined it? -/
def awaits : Main → Nat → Bool
  | .closing .close i _, j => i == j
  | .closing .clear i _, j => i == j
  | .join i _, j => i == j
  | _, _ => false

end Main

namespace Gateway

/-- Is the listener open? -/
def listening (g : Gateway) : Bool := g.running || g.main.listening

/-- Is nothing going on? -/
def idle (g : Gateway) : Bool := g.main == .ready && !g.running

/-- What holds of one session. -/
structure Keeps (g : Gateway) (i : Nat) (c : Connection) : Prop where
  found : c.worker.isDone = true ∨ i ∈ g.sessions ∨ i ∈ g.main.left
  /-- Until the thread has closed it, the descriptor stands for the session's own connection, or
  `stop` has shut that down and closed it. -/
  valid : ∀ n, c.fd = some n → c.worker.closed = false →
    g.kernel.table n = some (.connection i) ∨
      (g.main.sweeping = true ∧ g.kernel.table n = none ∧ g.kernel.shut (.connection i) = true)
  cleared : c.worker.isDone = true → c.fd = none
  clearedBy : c.fd = none → c.worker.isDone = true ∨ ∃ left, g.main = .join i left
  unborn : c.worker = .unborn → g.acceptor = .spawn i
  own : ∀ s rxBuf j, c.worker = .receiving s rxBuf j → j = i
  shut : c.worker.closed = false → g.main.awaits i = true → g.kernel.shut (.connection i) = true
  /-- Also if the number has been given out again, it is shut down before it is closed. -/
  shutFile : ∀ left n f, g.main = .closing .close i left → c.fd = some n →
    g.kernel.table n = some f → g.kernel.shut f = true

/-- What holds of the descriptors, whatever the threads have done. -/
structure Sound (g : Gateway) : Prop where
  stopping : g.main ≠ .ready → g.running = false
  listener : g.listening = true → ∃ n, g.listenFd = some n ∧ g.kernel.table n = some .listener
  listener_eq : ∀ n, g.kernel.table n = some .listener → g.listening = true ∧ g.listenFd = some n
  unlisten : g.listening = false → g.main ≠ .listener .clear → g.listenFd = none
  joined : g.idle = true ∨ g.main.joined = true → g.acceptor = .done
  swept : g.idle = true ∨ g.main.sweeping = true → g.sessions = []
  woken : g.main.joining = true → g.acceptor = .accepting ∨ g.main.listening = true →
    g.kernel.shut .listener = true
  holding : ∀ n, g.acceptor.holding = some n →
    g.kernel.table n = some (.connection g.connections.length)
  spawning : ∀ i : Nat, g.acceptor = .spawn i →
    ∃ c, g.connections[i]? = some c ∧ c.worker = .unborn
  owned : ∀ (n i : Nat), g.kernel.table n = some (.connection i) →
    (∃ c, g.connections[i]? = some c ∧ c.fd = some n ∧ c.worker.closed = false ∧
      ∀ left, g.main ≠ .closing .clear i left) ∨
    (i = g.connections.length ∧ g.acceptor.holding = some n)
  known : ∀ i, i ∈ g.sessions ∨ i ∈ g.main.left → i < g.connections.length
  each : ∀ (i : Nat) (c : Connection), g.connections[i]? = some c → g.Keeps i c

section Steps

variable {g : Gateway} {i : Nat} {c : Connection}

theorem sound_new (exchange : Exchange) : (Gateway.new exchange).Sound where
  stopping := nofun
  listener := nofun
  listener_eq := nofun
  unlisten _ _ := rfl
  joined _ := rfl
  swept _ := rfl
  woken := nofun
  holding := nofun
  spawning := nofun
  owned := nofun
  known := by simp [Gateway.new, Main.left]
  each := nofun

/-- A connection is added. -/
theorem each_concat {P : Nat → Connection → Prop} {connections : List Connection} {c' : Connection}
    (h : ∀ (j : Nat) (d : Connection), connections[j]? = some d → P j d)
    (hnew : P connections.length c') :
    ∀ (j : Nat) (d : Connection), (connections ++ [c'])[j]? = some d → P j d := by
  intro j d hd
  rcases Nat.lt_trichotomy j connections.length with hlt | rfl | hgt
  · rw [List.getElem?_append_left hlt] at hd
    exact h j d hd
  · obtain rfl := Option.some.inj (List.getElem?_concat_length.symm.trans hd)
    exact hnew
  · rw [List.getElem?_eq_none (by rw [List.length_append, List.length_singleton]; omega)] at hd
    cases hd

/-- A connection is put in the place of another. -/
theorem each_put {P : Nat → Connection → Prop} {c' : Connection}
    (h : ∀ (j : Nat) (d : Connection), j ≠ i → g.connections[j]? = some d → P j d) (hi : P i c') :
    ∀ (j : Nat) (d : Connection), (g.put i c').connections[j]? = some d → P j d := by
  intro j d hd
  rw [put, List.getElem?_set] at hd
  split at hd
  · next hij =>
    subst hij
    split at hd
    · obtain rfl := Option.some.inj hd
      exact hi
    · cases hd
  · next hij => exact h j d (Ne.symm hij) hd

theorem getElem?_put (hc : g.connections[i]? = some c) (c' : Connection) :
    (g.put i c').connections[i]? = some c' := by
  obtain ⟨hi, -⟩ := List.getElem?_eq_some_iff.mp hc
  exact List.getElem?_set_self hi

theorem put_self (hc : g.connections[i]? = some c) : g.put i c = g := by
  obtain ⟨hi, rfl⟩ := List.getElem?_eq_some_iff.mp hc
  rw [put, List.set_getElem_self]

theorem getElem?_put_ne {j : Nat} (hij : j ≠ i) (c' : Connection) :
    (g.put i c').connections[j]? = g.connections[j]? := List.getElem?_set_ne (Ne.symm hij)

theorem length_put (c' : Connection) : (g.put i c').connections.length = g.connections.length :=
  List.length_set

/-- Putting a connection leaves alone the one whose thread is about to be started. -/
theorem Sound.spawning_put (h : g.Sound) (hc : g.connections[i]? = some c)
    (hunborn : c.worker ≠ .unborn) (c' : Connection) (j : Nat) (hj : g.acceptor = .spawn j) :
    ∃ d, (g.put i c').connections[j]? = some d ∧ d.worker = .unborn := by
  obtain ⟨d, hd, hw⟩ := h.spawning j hj
  have hij : j ≠ i := by
    rintro rfl
    rw [hc, Option.some_inj] at hd
    exact hunborn (hd ▸ hw)
  exact ⟨d, by rw [getElem?_put_ne hij]; exact hd, hw⟩

/-- **A thread goes on**, and does nothing to a descriptor. -/
theorem Sound.put_worker (h : g.Sound) (hc : g.connections[i]? = some c) (w : Worker)
    (received : List Bytes) (hunborn : c.worker ≠ .unborn) (hclosed : c.worker.closed = false)
    (hunborn' : w ≠ .unborn) (hclosed' : w.closed = false)
    (hown : ∀ s rxBuf j, w = .receiving s rxBuf j → j = i) :
    (g.put i { c with worker := w, received }).Sound := by
  have hndone : ∀ {w : Worker}, w.closed = false → w.isDone ≠ true := by
    intro w hw hd
    rw [Worker.closed_of_isDone hd] at hw
    cases hw
  have hi := h.each i c hc
  refine { h with
    holding := fun n hn ↦ by rw [length_put]; exact h.holding n hn
    spawning := h.spawning_put hc hunborn _
    owned := fun n j hn ↦ ?_
    known := fun j hj ↦ by rw [length_put]; exact h.known j hj
    each := each_put (fun j d _ hd ↦ { h.each j d hd with }) ?_ }
  · rcases h.owned n j hn with ⟨d, hd, hfd, hcl, hm⟩ | hnew
    · by_cases hij : j = i
      · subst hij
        rw [hc, Option.some_inj] at hd
        subst hd
        exact .inl ⟨_, getElem?_put hc _, hfd, hclosed', hm⟩
      · exact .inl ⟨d, by rw [getElem?_put_ne hij]; exact hd, hfd, hcl, hm⟩
    · exact .inr ⟨by rw [length_put]; exact hnew.1, hnew.2⟩
  · exact { hi with
      found := .inr (hi.found.resolve_left (hndone hclosed))
      valid := fun n hn _ ↦ hi.valid n hn hclosed
      cleared := fun hd ↦ absurd hd (hndone hclosed')
      clearedBy := fun hfd ↦ .inr ((hi.clearedBy hfd).resolve_left (hndone hclosed))
      unborn := fun hw ↦ absurd hw hunborn'
      own := hown
      shut := fun _ ↦ hi.shut hclosed }

/-- Shutting something down does no harm. -/
theorem Sound.of_kernel (h : g.Sound) {k : Kernel} (htable : k.table = g.kernel.table)
    (hshut : ∀ f, g.kernel.shut f = true → k.shut f = true) : ({ g with kernel := k }).Sound := by
  obtain ⟨table, shut⟩ := k
  dsimp only at htable hshut
  subst htable
  exact { h with
    woken := fun hm ha ↦ hshut _ (h.woken hm ha)
    each := fun j d hd ↦
      have hj := h.each j d hd
      { hj with
        valid := fun n hn hc ↦ (hj.valid n hn hc).imp_right fun hs ↦ ⟨hs.1, hs.2.1, hshut _ hs.2.2⟩
        shut := fun hc hm ↦ hshut _ (hj.shut hc hm)
        shutFile := fun left n f hm hn hf ↦ hshut f (hj.shutFile left n f hm hn hf) } }

/-! ## The thread of a session -/

/-- A thread ends when its connection is closed. -/
theorem Sound.put_done (h : g.Sound) (hc : g.connections[i]? = some c)
    (hunborn : c.worker ≠ .unborn) (hnone : ∀ n, g.kernel.table n ≠ some (.connection i)) :
    (g.put i { c with fd := none, worker := .done }).Sound := by
  refine { h with
    holding := fun n hn ↦ by rw [length_put]; exact h.holding n hn
    spawning := h.spawning_put hc hunborn _
    owned := fun n j hn ↦ ?_
    known := fun j hj ↦ by rw [length_put]; exact h.known j hj
    each := each_put (fun j d _ hd ↦ { h.each j d hd with }) ?_ }
  · have hij : j ≠ i := by
      rintro rfl
      exact hnone n hn
    rcases h.owned n j hn with ⟨d, hd, hrest⟩ | hnew
    · exact .inl ⟨d, by rw [getElem?_put_ne hij]; exact hd, hrest⟩
    · exact .inr ⟨by rw [length_put]; exact hnew.1, hnew.2⟩
  · exact ⟨.inl rfl, nofun, fun _ ↦ rfl, fun _ ↦ .inl rfl, nofun, nofun, nofun, nofun⟩

/-- A thread closes its descriptor. -/
theorem Sound.close_worker (h : g.Sound) (hc : g.connections[i]? = some c)
    (hw : c.worker = .closing .close) :
    ({ g.put i { c with worker := .closing .clear } with
        kernel := g.kernel.close c.fd }).Sound := by
  have hi := h.each i c hc
  have hlt : i < g.connections.length := (List.getElem?_eq_some_iff.mp hc).1
  have hclosed : c.worker.closed = false := by rw [hw]; rfl
  -- the number stands for this connection, or for nothing
  have hmine : ∀ n f, c.fd = some n → g.kernel.table n = some f → f = .connection i := by
    intro n f hn hf
    rcases hi.valid n hn hclosed with ht | ⟨-, ht, -⟩
    · exact Option.some.inj (hf.symm.trans ht)
    · rw [ht] at hf
      cases hf
  have hkeep : ∀ n f, f ≠ .connection i → g.kernel.table n = some f →
      (g.kernel.close c.fd).table n = some f := by
    intro n f hf hn
    rw [Kernel.table_close_ne fun hfd ↦ hf (hmine n f hfd hn), hn]
  refine { h with
    listener := fun hl ↦ ?_
    listener_eq := fun n hn ↦ h.listener_eq n (Kernel.table_of_close hn).1
    woken := fun hm ha ↦ by rw [Kernel.shut_close]; exact h.woken hm ha
    holding := fun n hn ↦ ?_
    spawning := h.spawning_put hc (by simp [hw]) _
    owned := fun n j hn ↦ ?_
    known := fun j hj ↦ by rw [length_put]; exact h.known j hj
    each := each_put (fun j d hij hd ↦ ?_) ?_ }
  · obtain ⟨n, hfd, hn⟩ := h.listener hl
    exact ⟨n, hfd, hkeep n _ nofun hn⟩
  · rw [length_put]
    refine hkeep n _ ?_ (h.holding n hn)
    rintro ⟨⟩
    exact absurd hlt (Nat.lt_irrefl _)
  · obtain ⟨hn, hfd⟩ := Kernel.table_of_close hn
    rcases h.owned n j hn with ⟨d, hd, hdfd, hrest⟩ | hnew
    · have hij : j ≠ i := by
        rintro rfl
        rw [hc, Option.some_inj] at hd
        exact hfd (hd ▸ hdfd)
      exact .inl ⟨d, by rw [getElem?_put_ne hij]; exact hd, hdfd, hrest⟩
    · exact .inr ⟨by rw [length_put]; exact hnew.1, hnew.2⟩
  · have hj := h.each j d hd
    refine { hj with
      valid := fun n hn hcl ↦ ?_
      shut := fun hcl hm ↦ by rw [Kernel.shut_close]; exact hj.shut hcl hm
      shutFile := fun left n f hm hn hf ↦ ?_ }
    · rw [Kernel.shut_close]
      rcases hj.valid n hn hcl with ht | ⟨hm, ht, hs⟩
      · exact .inl (hkeep n _ (by rintro ⟨⟩; exact hij rfl) ht)
      · refine .inr ⟨hm, ?_, hs⟩
        cases he : (g.kernel.close c.fd).table n with
        | none => rfl
        | some f =>
          rw [(Kernel.table_of_close he).1] at ht
          cases ht
    · rw [Kernel.shut_close]
      exact hj.shutFile left n f hm hn (Kernel.table_of_close hf).1
  · refine { hi with
      found := .inr (hi.found.resolve_left (by simp [hw, Worker.isDone]))
      valid := nofun
      cleared := nofun
      clearedBy := fun hfd ↦ .inr ((hi.clearedBy hfd).resolve_left (by simp [hw, Worker.isDone]))
      unborn := nofun
      own := nofun
      shut := nofun
      shutFile := fun left n f hm hn hf ↦ ?_ }
    rw [Kernel.shut_close]
    exact hi.shutFile left n f hm hn (Kernel.table_of_close hf).1

/-- What a thread does after its loop. -/
theorem Sound.closing_worker (h : g.Sound) (hc : g.connections[i]? = some c) {cl : Closing}
    (hw : c.worker = .closing cl) :
    ({ g.put i { c with fd := (cl.step g.kernel c.fd).2.2
                        worker := (cl.step g.kernel c.fd).1.elim .done .closing } with
        kernel := (cl.step g.kernel c.fd).2.1 }).Sound := by
  have hunborn : c.worker ≠ .unborn := by simp [hw]
  cases cl with
  | test =>
    cases hfd : c.fd with
    | some n =>
      have := h.put_worker hc (.closing .shutdown) c.received hunborn
        (by rw [hw]; rfl) nofun rfl nofun
      rwa [hfd] at this
    | none =>
      refine h.put_done hc hunborn fun n hn ↦ ?_
      rcases h.owned n i hn with ⟨d, hd, hdfd, -⟩ | ⟨hi, -⟩
      · rw [hc, Option.some_inj] at hd
        rw [← hd, hfd] at hdfd
        cases hdfd
      · exact absurd (List.getElem?_eq_some_iff.mp hc).1 (by omega)
  | shutdown =>
    exact (h.put_worker hc (.closing .close) c.received hunborn (by rw [hw]; rfl) nofun rfl
      nofun).of_kernel Kernel.table_shutdown fun f hf ↦ Kernel.shut_shutdown hf
  | close => exact h.close_worker hc hw
  | clear =>
    refine h.put_done hc hunborn fun n hn ↦ ?_
    rcases h.owned n i hn with ⟨d, hd, -, hclosed, -⟩ | ⟨hi, -⟩
    · rw [hc, Option.some_inj] at hd
      rw [← hd, hw] at hclosed
      cases hclosed
    · exact absurd (List.getElem?_eq_some_iff.mp hc).1 (by omega)

/-- Neither the exchange nor the log matters. -/
theorem Sound.of_exchange (h : g.Sound) (exchange : Exchange)
    (log : List (Nat × ((e : Request) × e.Answer))) : ({ g with exchange, log }).Sound :=
  { h with each := fun j d hd ↦ { h.each j d hd with } }

theorem Sound.stepWorker {libc : Libc} {cfg : GatewayConfig} {o : Outcome} {g' : Gateway}
    (h : g.Sound) (hc : g.connections[i]? = some c) (hs : g.stepWorker libc cfg i o c = some g') :
    g'.Sound := by
  unfold Gateway.stepWorker at hs
  split at hs
  case h_1 s rxBuf hw =>
    obtain rfl := Option.some.inj hs
    refine h.put_worker hc _ _ (by simp [hw])
      (by rw [hw]; rfl) ?_ ?_ ?_ <;> split <;> simp [Worker.closed]
  case h_2 s rxBuf hw =>
    obtain rfl := Option.some.inj hs
    refine h.put_worker hc _ _ (by simp [hw])
      (by rw [hw]; rfl) ?_ ?_ ?_ <;> split <;> simp [Worker.closed]
  case h_3 s rxBuf hw =>
    obtain rfl := Option.some.inj hs
    refine h.put_worker hc _ _ (by simp [hw]) (by rw [hw]; rfl) ?_ ?_ ?_
    · split <;> simp
    · split <;> rfl
    · intro s' rxBuf' j hj
      split at hj
      · next j' hfile =>
        obtain ⟨-, -, rfl⟩ := Worker.receiving.inj hj
        obtain ⟨n, hfd, hn⟩ := Option.bind_eq_some_iff.mp hfile
        rcases (h.each i c hc).valid n hfd (by rw [hw]; rfl) with ht | ⟨-, ht, -⟩
        · rw [hn, Option.some_inj] at ht
          exact File.connection.inj ht
        · rw [hn] at ht
          cases ht
      · cases hj
  case h_4 hw =>
    split at hs
    · obtain rfl := Option.some.inj hs
      exact h.put_worker hc _ _ (by simp [hw]) (by rw [hw]; rfl) nofun rfl nofun
    · cases hs
  case h_5 hw =>
    obtain rfl := Option.some.inj hs
    exact h.put_worker hc _ _ (by simp [hw]) (by rw [hw]; rfl) nofun rfl nofun
  case h_6 hw =>
    split at hs
    · obtain rfl := Option.some.inj hs
      exact h.put_worker hc _ _ (by simp [hw]) (by rw [hw]; rfl) nofun rfl nofun
    · cases hs
  case h_7 hw =>
    obtain rfl := Option.some.inj hs
    exact h.put_worker hc _ _ (by simp [hw]) (by rw [hw]; rfl) nofun rfl nofun
  case h_8 e k hw =>
    obtain ⟨⟨exchange, r⟩, -, he⟩ := Option.bind_eq_some_iff.mp hs
    obtain rfl := Option.some.inj he
    exact (h.put_worker hc (.handling (k r)) _ (by simp [hw]) (by rw [hw]; rfl) nofun rfl
      nofun).of_exchange _ _
  case h_9 cl hw =>
    obtain rfl := Option.some.inj hs
    exact h.closing_worker hc hw
  case h_10 => cases hs

/-! ## The thread that stops -/

/-- What holds of a session when `stop` goes on to `m`. -/
theorem Keeps.of_main (h : g.Keeps i c) {m : Main}
    (hfound : i ∈ g.main.left → c.worker.isDone = true ∨ i ∈ g.sessions ∨ i ∈ m.left)
    (hsweeping : g.main.sweeping = true → m.sweeping = true)
    (hjoin : ∀ left, g.main = .join i left → c.worker.isDone = true ∨ ∃ left', m = .join i left')
    (hawaits : c.worker.closed = false → m.awaits i = true → g.kernel.shut (.connection i) = true)
    (hclose : ∀ left n f, m = .closing .close i left → c.fd = some n → g.kernel.table n = some f →
      g.kernel.shut f = true) : ({ g with main := m }).Keeps i c :=
  { h with
    found := by
      rcases h.found with hd | hs | hl
      · exact .inl hd
      · exact .inr (.inl hs)
      · exact hfound hl
    valid := fun n hn hc ↦ (h.valid n hn hc).imp_right fun hs ↦ ⟨hsweeping hs.1, hs.2⟩
    clearedBy := fun hfd ↦ by
      rcases h.clearedBy hfd with hd | ⟨left, hm⟩
      · exact .inl hd
      · exact hjoin left hm
    shut := hawaits
    shutFile := hclose }

/-- `stop` goes on. -/
theorem Sound.of_main (h : g.Sound) (running : Bool) (m : Main)
    (hrunning : m ≠ .ready → running = false) (hlistening : (running || m.listening) = g.listening)
    (hfd : g.main = .listener .clear → g.listenFd = none)
    (hjoined : (m == .ready && !running) = true ∨ m.joined = true → g.acceptor = .done)
    (hswept : (m == .ready && !running) = true ∨ m.sweeping = true → g.sessions = [])
    (hwoken : m.joining = true → g.acceptor = .accepting ∨ m.listening = true →
      g.kernel.shut .listener = true)
    (hkeep : ∀ i left, m ≠ .closing .clear i left)
    (hknown : ∀ i ∈ m.left, i < g.connections.length)
    (heach : ∀ (i : Nat) (c : Connection), g.connections[i]? = some c →
      ({ g with main := m }).Keeps i c) : ({ g with running, main := m }).Sound :=
  { h with
    stopping := hrunning
    listener := fun hl ↦ h.listener (hlistening ▸ hl)
    listener_eq := fun n hn ↦ (h.listener_eq n hn).imp_left fun hl ↦ hlistening.trans hl
    unlisten := fun hl _ ↦ Classical.byCases hfd (h.unlisten (hlistening.symm.trans hl))
    joined := hjoined
    swept := hswept
    woken := hwoken
    owned := fun n j hn ↦ (h.owned n j hn).imp_left fun hd ↦ by
      obtain ⟨d, hd, hfd, hcl, -⟩ := hd
      exact ⟨d, hd, hfd, hcl, hkeep j⟩
    known := fun j hj ↦ hj.elim (fun hs ↦ h.known j (.inl hs)) (hknown j)
    each := fun j d hd ↦ { heach j d hd with } }

/-- Before `stop` has taken the sessions it has nothing to do with them. -/
theorem Keeps.untouched (h : g.Keeps i c) (hleft : g.main.left = [])
    (hswept : g.main.sweeping = false) {m : Main} (hawaits : m.awaits i = false)
    (hclose : ∀ left, m ≠ .closing .close i left) : ({ g with main := m }).Keeps i c := by
  refine h.of_main (by simp [hleft]) (by simp [hswept]) ?_ (by simp [hawaits]) ?_
  · intro left hm
    rw [hm] at hleft
    cases hleft
  · intro left n f hm
    exact absurd hm (hclose left)

/-- A session's connection, before `stop` has taken the sessions. -/
theorem Keeps.elsewhere (h : g.Keeps i c) (hc : c.worker.closed = false) {n : Nat}
    (hn : c.fd = some n) (hm : g.main.sweeping = false) :
    g.kernel.table n = some (.connection i) := by
  rcases h.valid n hn hc with ht | ⟨hs, -⟩
  · exact ht
  · rw [hm] at hs
    cases hs

theorem Sound.main_ready (h : g.Sound) (hm : g.main = .ready) (hr : g.running = true) :
    ({ g with running := false, main := .listener .test }).Sound := by
  refine h.of_main false (.listener .test) (fun _ ↦ rfl) ?_
    (by simp [hm]) nofun nofun nofun nofun nofun ?_
  · rw [listening, hr]
    rfl
  · intro j d hd
    exact (h.each j d hd).untouched (by rw [hm]; rfl) (by rw [hm]; rfl) rfl nofun

/-- `stop` goes on, before it has taken the sessions. -/
theorem Sound.of_main_early (h : g.Sound) {m : Main} (m' : Main) (hm : g.main = m)
    (hready : m ≠ .ready) (hfd : m = .listener .clear → g.listenFd = none)
    (hleft : m.left = []) (hswept : m.sweeping = false) (hlistening : m'.listening = m.listening)
    (hjoined : m'.joined = true → g.acceptor = .done) (hready' : m' ≠ .ready)
    (hleft' : m'.left = []) (hswept' : m'.sweeping = false)
    (hwoken : m'.joining = true → g.acceptor = .accepting ∨ m'.listening = true →
      g.kernel.shut .listener = true) :
    ({ g with main := m' }).Sound := by
  subst hm
  have hr : g.running = false := h.stopping hready
  have hnot : ∀ c j left, m' ≠ .closing c j left := by
    rintro c j left rfl
    cases hleft'
  refine h.of_main g.running m' (fun _ ↦ hr) ?_ hfd ?_ ?_ hwoken (hnot .clear) ?_ fun j d hd ↦ ?_
  · rw [listening, hlistening]
  · exact fun hj ↦ hj.elim (fun hi ↦ by simp [hready'] at hi) hjoined
  · exact fun hj ↦ hj.elim (fun hi ↦ by simp [hready'] at hi) (by simp [hswept'])
  · simp [hleft']
  · refine (h.each j d hd).untouched hleft hswept ?_ (hnot .close j)
    cases m' with
    | closing c i left => exact absurd rfl (hnot c i left)
    | join i left => cases hleft'
    | _ => rfl

/-- `stop` closes the listener. -/
theorem Sound.main_close (h : g.Sound) (hm : g.main = .listener .close) :
    ({ g with kernel := g.kernel.close g.listenFd, main := .listener .clear }).Sound := by
  have hr : g.running = false := h.stopping (by simp [hm])
  obtain ⟨n, hfd, hn⟩ := h.listener (by rw [listening, hm, hr]; rfl)
  have hkeep : ∀ n' f, f ≠ .listener → g.kernel.table n' = some f →
      (g.kernel.close g.listenFd).table n' = some f := by
    intro n' f hf hn'
    rw [Kernel.table_close_ne, hn']
    intro hfd'
    rw [hfd, Option.some_inj] at hfd'
    rw [← hfd', hn, Option.some_inj] at hn'
    exact hf hn'.symm
  have hgone : ∀ n', (g.kernel.close g.listenFd).table n' ≠ some .listener := by
    intro n' hn'
    obtain ⟨ht, hne⟩ := Kernel.table_of_close hn'
    exact hne (h.listener_eq n' ht).2
  refine { h with
    stopping := fun _ ↦ hr
    listener := ?_
    listener_eq := fun n' hn' ↦ absurd hn' (hgone n')
    unlisten := fun _ hne ↦ absurd rfl hne
    joined := by simp [idle, Main.joined, Main.sweeping]
    swept := by simp [idle, Main.sweeping]
    woken := fun _ _ ↦ ?_
    holding := fun n' hn' ↦ hkeep n' _ nofun (h.holding n' hn')
    owned := fun n' j hn' ↦ (h.owned n' j (Kernel.table_of_close hn').1).imp_left ?_
    known := fun j hj ↦ h.known j (hj.imp_right nofun)
    each := fun j d hd ↦ ?_ }
  · rw [listening]
    simp [hr, Main.listening]
  · rw [Kernel.shut_close]
    exact h.woken (by rw [hm]; rfl) (.inr (by rw [hm]; rfl))
  · rintro ⟨d, hd, hdfd, hcl, -⟩
    exact ⟨d, hd, hdfd, hcl, nofun⟩
  · have hj := h.each j d hd
    have hstep := hj.untouched (m := .listener .clear) (by rw [hm]; rfl) (by rw [hm]; rfl) rfl nofun
    exact { hstep with
      valid := fun n' hn' hcl ↦ .inl (hkeep n' _ nofun (hj.elsewhere hcl hn' (by rw [hm]; rfl)))
      shut := nofun
      shutFile := nofun }

theorem Sound.main_clear (h : g.Sound) (hm : g.main = .listener .clear) :
    ({ g with listenFd := none, main := .joinAcceptor }).Sound := by
  have hclosed : g.listening = false := by rw [listening, hm, h.stopping (by simp [hm])]; rfl
  have hfd : ({ g with listenFd := none }).Sound :=
    { h with
      listener := fun hl ↦ nomatch hclosed.symm.trans hl
      listener_eq := fun n hn ↦ absurd (h.listener_eq n hn).1 (by simp [hclosed])
      unlisten := fun _ _ ↦ rfl
      each := fun j d hd ↦ { h.each j d hd with } }
  exact hfd.of_main_early _ hm nofun (fun _ ↦ rfl) rfl rfl rfl nofun nofun rfl rfl fun _ ha ↦
    h.woken (by rw [hm]; rfl) (ha.imp_right nofun)

/-- `stop` takes the sessions. -/
theorem Sound.main_swap (h : g.Sound) (hm : g.main = .swap) :
    ({ g with sessions := [], main := .sessions g.sessions }).Sound := by
  have hr : g.running = false := h.stopping (by simp [hm])
  exact { h with
    stopping := fun _ ↦ hr
    listener := fun hl ↦ by rw [listening, hr] at hl; cases hl
    listener_eq := fun n hn ↦ by
      have := (h.listener_eq n hn).1
      rw [listening, hm, hr] at this
      cases this
    unlisten := fun _ _ ↦ h.unlisten (by rw [listening, hm, hr]; rfl) (by simp [hm])
    joined := fun _ ↦ h.joined (.inr (by rw [hm]; rfl))
    swept := fun _ ↦ rfl
    woken := nofun
    owned := fun n j hn ↦ (h.owned n j hn).imp_left fun hd ↦ by
      obtain ⟨d, hd, hfd, hcl, -⟩ := hd
      exact ⟨d, hd, hfd, hcl, nofun⟩
    known := fun j hj ↦ h.known j (hj.elim nofun .inl)
    each := fun j d hd ↦
      have hj := h.each j d hd
      { hj with
        found := by
          rcases hj.found with hd | hs | hl
          · exact .inl hd
          · exact .inr (.inr hs)
          · rw [hm] at hl
            cases hl
        valid := fun n hn hcl ↦ .inl (hj.elsewhere hcl hn (by rw [hm]; rfl))
        clearedBy := fun hfd ↦ .inl ((hj.clearedBy hfd).resolve_right (by simp [hm]))
        shut := nofun
        shutFile := nofun } }

/-- `stop` goes on, when it has taken the sessions. -/
theorem Sound.of_main_sweeping (h : g.Sound) (hm : g.main.sweeping = true) {m : Main}
    (hsweeping : m.sweeping = true ∨ m = .ready) (hclear : ∀ j left, m ≠ .closing .clear j left)
    (hknown : ∀ j ∈ m.left, j < g.connections.length)
    (heach : ∀ (j : Nat) (d : Connection), g.connections[j]? = some d →
      ({ g with main := m }).Keeps j d) : ({ g with main := m }).Sound := by
  have hr : g.running = false := h.stopping (by rintro he; rw [he] at hm; cases hm)
  have hjoined : g.main.joined = true := by
    cases hg : g.main with
    | swap => rfl
    | _ => rw [hg] at hm; exact hm
  have hlistening : ∀ {m : Main}, m.sweeping = true ∨ m = .ready → m.listening = false := by
    intro m hs
    cases m with
    | listener _ => rcases hs with hs | hs <;> cases hs
    | _ => rfl
  have hjoining : m.joining = false := by
    cases m with
    | listener _ => rcases hsweeping with hs | hs <;> cases hs
    | joinAcceptor => rcases hsweeping with hs | hs <;> cases hs
    | _ => rfl
  refine h.of_main g.running m (fun _ ↦ hr) ?_ ?_ (fun _ ↦ h.joined (.inr hjoined))
    (fun _ ↦ h.swept (.inr hm)) (by simp [hjoining]) hclear hknown heach
  · rw [listening, hlistening hsweeping, hlistening (.inl hm)]
  · intro he
    rw [he] at hm
    cases hm

theorem Sound.main_done (h : g.Sound) (hm : g.main = .sessions []) :
    ({ g with main := .ready }).Sound := by
  refine h.of_main_sweeping (by rw [hm]; rfl) (.inr rfl) nofun nofun fun j d hd ↦ ?_
  have hj := h.each j d hd
  have hdone : d.worker.isDone = true := by
    rcases hj.found with hd | hs | hl
    · exact hd
    · rw [h.swept (.inr (by rw [hm]; rfl))] at hs
      cases hs
    · rw [hm] at hl
      cases hl
  exact { hj with
    found := .inl hdone
    valid := fun n hn _ ↦ by rw [hj.cleared hdone] at hn; cases hn
    clearedBy := fun _ ↦ .inl hdone
    shut := nofun
    shutFile := nofun }

/-- `stop` tells a session to stop. -/
theorem Sound.put_running (h : g.Sound) (hc : g.connections[i]? = some c) :
    (g.put i { c with running := false }).Sound := by
  refine { h with
    holding := fun n hn ↦ by rw [length_put]; exact h.holding n hn
    spawning := fun j hj ↦ ?_
    owned := fun n j hn ↦ ?_
    known := fun j hj ↦ by rw [length_put]; exact h.known j hj
    each := each_put (fun j d _ hd ↦ { h.each j d hd with }) { h.each i c hc with } }
  · obtain ⟨d, hd, hw⟩ := h.spawning j hj
    by_cases hij : j = i
    · subst hij
      rw [hc, Option.some_inj] at hd
      exact ⟨_, getElem?_put hc _, hd ▸ hw⟩
    · exact ⟨d, by rw [getElem?_put_ne hij]; exact hd, hw⟩
  · rcases h.owned n j hn with ⟨d, hd, hrest⟩ | hnew
    · by_cases hij : j = i
      · subst hij
        rw [hc, Option.some_inj] at hd
        subst hd
        exact .inl ⟨_, getElem?_put hc _, hrest⟩
      · exact .inl ⟨d, by rw [getElem?_put_ne hij]; exact hd, hrest⟩
    · exact .inr ⟨by rw [length_put]; exact hnew.1, hnew.2⟩

theorem Sound.main_next (h : g.Sound) {left : List Nat} (hm : g.main = .sessions (i :: left))
    (hc : g.connections[i]? = some c) :
    ({ g.put i { c with running := false } with main := .closing .test i left }).Sound := by
  have hput := h.put_running hc
  refine hput.of_main_sweeping (m := .closing .test i left) (by rw [put, hm]; rfl) (.inl rfl)
    (by simp) (fun j hj ↦ hput.known j (.inr (by rw [put, hm]; exact hj))) fun j d hd ↦ ?_
  refine (hput.each j d hd).of_main (fun hl ↦ .inr (.inr ?_)) (fun _ ↦ rfl) (by simp [put, hm])
    (by simp [Main.awaits]) (by simp)
  rw [put, hm] at hl
  exact hl

/-- The first steps of closing a session: the descriptor is looked at. -/
theorem Sound.main_test (h : g.Sound) {left : List Nat} (hm : g.main = .closing .test i left)
    (hc : g.connections[i]? = some c) :
    ({ g with main := if c.fd.isSome then .closing .shutdown i left else .join i left }).Sound := by
  have hknown : ∀ j ∈ i :: left, j < g.connections.length :=
    fun j hj ↦ h.known j (.inr (by rw [hm]; exact hj))
  split
  · refine h.of_main_sweeping (by rw [hm]; rfl) (.inl rfl) nofun hknown fun j d hd ↦ ?_
    refine (h.each j d hd).of_main (fun hl ↦ .inr (.inr ?_)) (fun _ ↦ rfl)
      (by simp [hm]) nofun nofun
    rw [hm] at hl
    exact hl
  · next hfd =>
    refine h.of_main_sweeping (by rw [hm]; rfl) (.inl rfl) nofun hknown fun j d hd ↦ ?_
    refine (h.each j d hd).of_main (fun hl ↦ .inr (.inr ?_)) (fun _ ↦ rfl) (by simp [hm]) ?_ nofun
    · rw [hm] at hl
      exact hl
    · -- the thread of the session has got there first
      intro hcl hj
      have hij : i = j := by simpa [Main.awaits] using hj
      subst hij
      rw [hc, Option.some_inj] at hd
      subst hd
      rcases (h.each i c hc).clearedBy (by simpa using hfd) with hdone | ⟨_, hj⟩
      · rw [Worker.closed_of_isDone hdone] at hcl
        cases hcl
      · rw [hm] at hj
        cases hj

/-- The connection is shut down, if its thread has not closed it before. -/
theorem Sound.main_shutdown (h : g.Sound) {left : List Nat}
    (hm : g.main = .closing .shutdown i left) (hc : g.connections[i]? = some c) :
    ({ g with kernel := g.kernel.shutdown c.fd, main := .closing .close i left }).Sound := by
  have hk : ({ g with kernel := g.kernel.shutdown c.fd }).Sound :=
    h.of_kernel Kernel.table_shutdown fun f hf ↦ Kernel.shut_shutdown hf
  refine hk.of_main_sweeping (by rw [hm]; rfl) (.inl rfl) nofun
    (fun j hj ↦ h.known j (.inr (by rw [hm]; exact hj))) fun j d hd ↦ ?_
  refine (hk.each j d hd).of_main (fun hl ↦ .inr (.inr ?_)) (fun _ ↦ rfl) (by simp [hm]) ?_ ?_
  · rw [hm] at hl
    exact hl
  · intro hcl hj
    have hij : i = j := by simpa [Main.awaits] using hj
    subst hij
    rw [hc, Option.some_inj] at hd
    subst hd
    cases hfd : c.fd with
    | none =>
      rcases (h.each i c hc).clearedBy hfd with hdone | ⟨_, hj⟩
      · rw [Worker.closed_of_isDone hdone] at hcl
        cases hcl
      · rw [hm] at hj
        cases hj
    | some n =>
      rcases (h.each i c hc).valid n hfd hcl with ht | ⟨-, -, hs⟩
      · exact Kernel.shut_of_fileAt ht
      · exact Kernel.shut_shutdown hs
  · intro left' n f hj hfd hf
    obtain ⟨rfl, -⟩ := (Main.closing.inj hj).2
    rw [hc, Option.some_inj] at hd
    subst hd
    rw [Kernel.table_shutdown] at hf
    rw [hfd]
    exact Kernel.shut_of_fileAt hf

/-- **The number is closed**, whatever it stands for by now.  It has been shut down before. -/
theorem Sound.main_closeSession (h : g.Sound) {left : List Nat}
    (hm : g.main = .closing .close i left) (hc : g.connections[i]? = some c) :
    ({ g with kernel := g.kernel.close c.fd, main := .closing .clear i left }).Sound := by
  have hr : g.running = false := h.stopping (by simp [hm])
  have hdone : g.acceptor = .done := h.joined (.inr (by rw [hm]; rfl))
  have hnone : ∀ {n}, g.kernel.table n = none → (g.kernel.close c.fd).table n = none := by
    intro n hn
    cases he : (g.kernel.close c.fd).table n with
    | none => rfl
    | some f =>
      rw [(Kernel.table_of_close he).1] at hn
      cases hn
  refine { h with
    stopping := fun _ ↦ hr
    listener := fun hl ↦ by rw [listening, hr] at hl; cases hl
    listener_eq := fun n hn ↦ by
      have := (h.listener_eq n (Kernel.table_of_close hn).1).1
      rw [listening, hm, hr] at this
      cases this
    unlisten := fun _ _ ↦ h.unlisten (by rw [listening, hm, hr]; rfl) (by simp [hm])
    joined := fun _ ↦ hdone
    swept := fun _ ↦ h.swept (.inr (by rw [hm]; rfl))
    woken := nofun
    holding := fun n hn ↦ by rw [hdone] at hn; cases hn
    owned := fun n j hn ↦ ?_
    known := fun j hj ↦ h.known j (by rw [hm]; exact hj)
    each := fun j d hd ↦ ?_ }
  · obtain ⟨hn, hne⟩ := Kernel.table_of_close hn
    rcases h.owned n j hn with ⟨d, hd, hfd, hcl, -⟩ | hnew
    · refine .inl ⟨d, hd, hfd, hcl, ?_⟩
      rintro left' he
      obtain ⟨rfl, -⟩ := (Main.closing.inj he).2
      rw [hc, Option.some_inj] at hd
      exact hne (hd ▸ hfd)
    · exact .inr hnew
  · have hj := h.each j d hd
    exact { hj with
      found := by have hf := hj.found; rw [hm] at hf; exact hf
      valid := fun n hn hcl ↦ by
        rw [Kernel.shut_close]
        rcases hj.valid n hn hcl with ht | ⟨-, ht, hs⟩
        · by_cases hfd : c.fd = some n
          · refine .inr ⟨rfl, by rw [hfd, Kernel.table_close_self], ?_⟩
            exact (h.each i c hc).shutFile left n _ hm hfd ht
          · exact .inl (by rw [Kernel.table_close_ne hfd, ht])
        · exact .inr ⟨rfl, hnone ht, hs⟩
      clearedBy := fun hfd ↦ .inl ((hj.clearedBy hfd).resolve_right (by simp [hm]))
      shut := fun hcl ha ↦ by
        rw [Kernel.shut_close]
        exact hj.shut hcl (by rw [hm]; exact ha)
      shutFile := nofun }

theorem Sound.main_clearSession (h : g.Sound) {left : List Nat}
    (hm : g.main = .closing .clear i left) (hc : g.connections[i]? = some c) :
    ({ g.put i { c with fd := none } with main := .join i left }).Sound := by
  have hr : g.running = false := h.stopping (by simp [hm])
  have hdone : g.acceptor = .done := h.joined (.inr (by rw [hm]; rfl))
  have hi := h.each i c hc
  refine { h with
    stopping := fun _ ↦ hr
    listener := fun hl ↦ by rw [listening, put, hr] at hl; cases hl
    listener_eq := fun n hn ↦ by
      have := (h.listener_eq n hn).1
      rw [listening, hm, hr] at this
      cases this
    unlisten := fun _ _ ↦ h.unlisten (by rw [listening, hm, hr]; rfl) (by simp [hm])
    joined := fun _ ↦ hdone
    swept := fun _ ↦ h.swept (.inr (by rw [hm]; rfl))
    woken := by simp [Main.joining]
    holding := fun n hn ↦ by rw [put, hdone] at hn; cases hn
    spawning := fun j hj ↦ by rw [put, hdone] at hj; cases hj
    owned := fun n j hn ↦ ?_
    known := fun j hj ↦ by rw [length_put]; exact h.known j (by rw [hm]; exact hj)
    each := each_put (fun j d hij hd ↦ ?_) ?_ }
  · rcases h.owned n j hn with ⟨d, hd, hfd, hcl, hne⟩ | ⟨-, hnew⟩
    · have hij : j ≠ i := by
        rintro rfl
        exact hne left hm
      exact .inl ⟨d, by rw [getElem?_put_ne hij]; exact hd, hfd, hcl, by simp⟩
    · rw [hdone] at hnew
      cases hnew
  · have hj := h.each j d hd
    exact { hj with
      found := by have hf := hj.found; rw [hm] at hf; exact hf
      valid := fun n hn hcl ↦ (hj.valid n hn hcl).imp_right fun hs ↦ ⟨rfl, hs.2⟩
      clearedBy := fun hfd ↦ .inl ((hj.clearedBy hfd).resolve_right (by simp [hm]))
      shut := fun hcl ha ↦ hj.shut hcl (by rw [hm]; exact ha)
      shutFile := by simp }
  · exact { hi with
      found := by have hf := hi.found; rw [hm] at hf; exact hf
      valid := by simp
      cleared := fun _ ↦ rfl
      clearedBy := fun _ ↦ .inr ⟨left, rfl⟩
      shut := fun hcl ha ↦ hi.shut hcl (by rw [hm]; exact ha)
      shutFile := by simp }

theorem Sound.main_join (h : g.Sound) {left : List Nat} (hm : g.main = .join i left)
    (hc : g.connections[i]? = some c) (hdone : c.worker.isDone = true) :
    ({ g with main := .sessions left }).Sound := by
  refine h.of_main_sweeping (by rw [hm]; rfl) (.inl rfl) nofun
    (fun j hj ↦ h.known j (.inr (by rw [hm]; exact List.mem_cons_of_mem i hj))) fun j d hd ↦ ?_
  have hmine : ∀ left, g.main = .join j left → d.worker.isDone = true := by
    intro left' hj
    rw [hm] at hj
    obtain ⟨rfl, -⟩ := Main.join.inj hj
    rw [hc, Option.some_inj] at hd
    exact hd ▸ hdone
  refine (h.each j d hd).of_main (fun hl ↦ ?_) (fun _ ↦ rfl)
    (fun left' hj ↦ .inl (hmine left' hj)) nofun nofun
  rw [hm] at hl
  rcases List.mem_cons.mp hl with rfl | hl
  · exact .inl (hmine left hm)
  · exact .inr (.inr hl)

/-- **`stop` goes on**, at any point. -/
theorem Sound.stepMain {g' : Gateway} (h : g.Sound) (hs : g.stepMain = some g') : g'.Sound := by
  unfold Gateway.stepMain at hs
  split at hs
  case h_1 hm =>
    obtain rfl := Option.some.inj hs
    cases hr : g.running with
    | true => exact h.main_ready hm hr
    | false =>
      have : { g with running := false, main := .ready } = g := by
        rw [← hm, ← hr]
      exact this ▸ h
  case h_2 cl hm =>
    obtain rfl := Option.some.inj hs
    cases cl with
    | test =>
      obtain ⟨n, hfd, -⟩ := h.listener (by rw [listening, hm]; exact Bool.or_true _)
      have := h.of_main_early (.listener .shutdown) hm nofun nofun rfl rfl rfl nofun nofun rfl rfl
        nofun
      rw [hfd]
      rw [hfd] at this
      exact this
    | shutdown =>
      obtain ⟨n, hfd, hn⟩ := h.listener (by rw [listening, hm]; exact Bool.or_true _)
      have hk := h.of_kernel (k := g.kernel.shutdown g.listenFd) Kernel.table_shutdown
        fun f hf ↦ Kernel.shut_shutdown hf
      refine hk.of_main_early (.listener .close) hm nofun nofun rfl rfl rfl nofun nofun rfl rfl
        fun _ _ ↦ ?_
      rw [hfd]
      exact Kernel.shut_of_fileAt hn
    | close => exact h.main_close hm
    | clear => exact h.main_clear hm
  case h_3 hm =>
    split at hs
    · next hdone =>
      obtain rfl := Option.some.inj hs
      exact h.of_main_early _ hm nofun nofun rfl rfl rfl (fun _ ↦ hdone) nofun rfl rfl nofun
    · cases hs
  case h_4 hm =>
    obtain rfl := Option.some.inj hs
    exact h.main_swap hm
  case h_5 hm =>
    obtain rfl := Option.some.inj hs
    exact h.main_done hm
  case h_6 i left hm =>
    obtain ⟨c, hc, he⟩ := Option.bind_eq_some_iff.mp hs
    obtain rfl := Option.some.inj he
    exact h.main_next hm hc
  case h_7 cl i left hm =>
    obtain ⟨c, hc, he⟩ := Option.bind_eq_some_iff.mp hs
    obtain rfl := Option.some.inj he
    have hput := put_self hc
    cases cl with
    | test =>
      have := h.main_test hm hc
      cases hfd : c.fd <;> rw [hfd] at this <;> rw [← hfd] <;> dsimp only [Closing.step] <;>
        rw [hput, hfd] <;> exact this
    | shutdown =>
      dsimp only [Closing.step]
      rw [hput]
      exact h.main_shutdown hm hc
    | close =>
      dsimp only [Closing.step]
      rw [hput]
      exact h.main_closeSession hm hc
    | clear => exact h.main_clearSession hm hc
  case h_8 i left hm =>
    obtain ⟨c, hc, he⟩ := Option.bind_eq_some_iff.mp hs
    split at he
    · next hw =>
      have hspawn := (h.each i c hc).unborn hw
      rw [h.joined (.inr (by rw [hm]; rfl))] at hspawn
      cases hspawn
    · next hw =>
      obtain rfl := Option.some.inj he
      exact h.main_join hm hc (by rw [hw]; rfl)
    · cases he

/-! ## The thread that accepts -/

/-- As long as this thread is there, `stop` has not come far. -/
theorem Sound.accepting (h : g.Sound) (ha : g.acceptor ≠ .done) :
    ¬(g.idle = true ∨ g.main.joined = true) ∧ g.main.sweeping = false := by
  have hnot : ¬(g.idle = true ∨ g.main.joined = true) := fun hj ↦ ha (h.joined hj)
  refine ⟨hnot, ?_⟩
  cases hm : g.main with
  | sessions _ => exact absurd (.inr (by rw [hm]; rfl)) hnot
  | closing _ _ _ => exact absurd (.inr (by rw [hm]; rfl)) hnot
  | join _ _ => exact absurd (.inr (by rw [hm]; rfl)) hnot
  | _ => rfl

/-- The acceptor goes on, and has nothing new to hold. -/
theorem Sound.of_acceptor (h : g.Sound) {a : Acceptor} (ha : g.acceptor ≠ .done)
    (hspawn : ∀ i, g.acceptor ≠ .spawn i) (hspawn' : ∀ i, a ≠ .spawn i)
    (hholding : a.holding = g.acceptor.holding)
    (hwoken : g.main.joining = true → a = .accepting → g.main.listening = true) :
    ({ g with acceptor := a }).Sound :=
  { h with
    joined := fun hj ↦ absurd hj (h.accepting ha).1
    woken := fun hm ha ↦ h.woken hm (.inr (ha.elim (hwoken hm) id))
    holding := fun n hn ↦ h.holding n (hholding ▸ hn)
    spawning := fun i hi ↦ absurd hi (hspawn' i)
    owned := fun n j hn ↦ (h.owned n j hn).imp_right fun hnew ↦ ⟨hnew.1, hholding.trans hnew.2⟩
    each := fun j d hd ↦
      { h.each j d hd with unborn := fun hw ↦ absurd ((h.each j d hd).unborn hw) (hspawn j) } }

/-- A number is given out.  It was free, so that it does not stand for anything else. -/
theorem Sound.acceptor_connection (h : g.Sound) (ha : g.acceptor = .accepting) {n : Nat}
    (hn : g.kernel.table n = none) :
    ({ g with kernel := g.kernel.openAt n (.connection g.connections.length)
              acceptor := .accepted n }).Sound := by
  obtain ⟨hnot, hsweeping⟩ := h.accepting (by simp [ha])
  have hkeep : ∀ n' f, g.kernel.table n' = some f →
      (g.kernel.openAt n (.connection g.connections.length)).table n' = some f := by
    intro n' f hf
    rw [Kernel.table_openAt_ne, hf]
    rintro rfl
    rw [hn] at hf
    cases hf
  have hold : ∀ n' f, f ≠ .connection g.connections.length →
      (g.kernel.openAt n (.connection g.connections.length)).table n' = some f →
      g.kernel.table n' = some f := by
    intro n' f hf hn'
    by_cases hnn : n' = n
    · rw [hnn, Kernel.table_openAt_self, Option.some_inj] at hn'
      exact absurd hn'.symm hf
    · rwa [Kernel.table_openAt_ne hnn] at hn'
  have hshut : ∀ {f}, f ≠ .connection g.connections.length →
      (g.kernel.openAt n (.connection g.connections.length)).shut f = g.kernel.shut f :=
    fun hf ↦ Kernel.shut_openAt_ne hf
  refine { h with
    listener := fun hl ↦ ?_
    listener_eq := fun n' hn' ↦ h.listener_eq n' (hold n' _ nofun hn')
    joined := fun hj ↦ absurd hj hnot
    woken := fun hm ha ↦
      (hshut (f := .listener) nofun).trans (h.woken hm (.inr (ha.resolve_left nofun)))
    holding := fun n' hn' ↦ ?_
    spawning := nofun
    owned := fun n' j hn' ↦ ?_
    each := fun j d hd ↦ ?_ }
  · obtain ⟨n', hfd, hn'⟩ := h.listener hl
    exact ⟨n', hfd, hkeep n' _ hn'⟩
  · obtain rfl : n = n' := Option.some.inj hn'
    exact Kernel.table_openAt_self
  · by_cases hnn : n' = n
    · subst hnn
      rw [Kernel.table_openAt_self, Option.some_inj] at hn'
      exact .inr ⟨(File.connection.inj hn').symm, rfl⟩
    · rw [Kernel.table_openAt_ne hnn] at hn'
      refine .inl ((h.owned n' j hn').resolve_right ?_)
      rintro ⟨-, hnew⟩
      rw [ha] at hnew
      cases hnew
  · have hj := h.each j d hd
    have hne : File.connection j ≠ .connection g.connections.length := by
      rintro ⟨⟩
      exact absurd (List.getElem?_eq_some_iff.mp hd).1 (Nat.lt_irrefl _)
    exact { hj with
      valid := fun n' hn' hcl ↦ .inl (hkeep n' _ (hj.elsewhere hcl hn' hsweeping))
      unborn := fun hw ↦ by
        have := hj.unborn hw
        rw [ha] at this
        cases this
      shut := fun hcl hm ↦ (hshut hne).trans (hj.shut hcl hm)
      shutFile := fun left _ _ hm ↦ by
        rw [show g.main = _ from hm] at hsweeping
        cases hsweeping }

/-- The connection becomes a session. -/
theorem Sound.acceptor_push (h : g.Sound) {n : Nat} (ha : g.acceptor = .push n) :
    ({ g with
        connections := g.connections ++ [Connection.new n]
        sessions := g.sessions ++ [g.connections.length]
        acceptor := .spawn g.connections.length }).Sound := by
  obtain ⟨hnot, hsweeping⟩ := h.accepting (by simp [ha])
  have hn : g.kernel.table n = some (.connection g.connections.length) :=
    h.holding n (by rw [ha]; rfl)
  have hnew : (g.connections ++ [Connection.new n])[g.connections.length]?
      = some (.new n) := List.getElem?_concat_length
  have hold : ∀ {j : Nat} {d : Connection}, g.connections[j]? = some d →
      (g.connections ++ [Connection.new n])[j]? = some d := by
    intro j d hd
    rw [List.getElem?_append_left (List.getElem?_eq_some_iff.mp hd).1, hd]
  have hclear : ∀ j left, g.main ≠ .closing .clear j left := by
    intro j left hm
    rw [hm] at hsweeping
    cases hsweeping
  refine { h with
    joined := fun hj ↦ absurd hj hnot
    swept := fun hj ↦ absurd (hj.imp_right fun hs ↦ by rw [hsweeping] at hs; cases hs) hnot
    woken := fun hm ha ↦ h.woken hm (.inr (ha.resolve_left nofun))
    holding := nofun
    spawning := fun j hj ↦ ?_
    owned := fun n' j hn' ↦ .inl ?_
    known := fun j hj ↦ ?_
    each := fun j d hd ↦ ?_ }
  · obtain rfl := Acceptor.spawn.inj hj
    exact ⟨_, hnew, rfl⟩
  · rcases h.owned n' j hn' with ⟨d, hd, hrest⟩ | ⟨rfl, hheld⟩
    · exact ⟨d, hold hd, hrest⟩
    · rw [ha] at hheld
      exact ⟨_, hnew, hheld, rfl, hclear _⟩
  · rw [List.length_append, List.length_singleton]
    rcases hj with hj | hj
    · rcases List.mem_append.mp hj with hj | hj
      · exact Nat.lt_succ_of_lt (h.known j (.inl hj))
      · rw [List.mem_singleton.mp hj]
        exact Nat.lt_succ_self _
    · exact Nat.lt_succ_of_lt (h.known j (.inr hj))
  · refine each_concat (P := fun j d ↦ Keeps _ j d) (fun j d hd ↦ ?_) ?_ j d hd
    · have hj := h.each j d hd
      exact { hj with
        found := hj.found.imp_right fun hf ↦ hf.imp_left fun hs ↦ List.mem_append_left _ hs
        unborn := fun hw ↦ by
          have := hj.unborn hw
          rw [ha] at this
          cases this }
    · refine ⟨.inr (.inl (by simp)), fun n' hn' _ ↦ .inl ?_, nofun, nofun, fun _ ↦ rfl, nofun,
        fun _ ha ↦ ?_, fun left _ _ hm ↦ ?_⟩
      · obtain rfl := Option.some.inj hn'
        exact hn
      · cases hm : g.main with
        | closing _ _ _ => rw [hm] at hsweeping; cases hsweeping
        | join _ _ => rw [hm] at hsweeping; cases hsweeping
        | _ => rw [show g.main = _ from hm] at ha; cases ha
      · rw [show g.main = _ from hm] at hsweeping
        cases hsweeping

/-- The thread of a session is started. -/
theorem Sound.acceptor_spawn (h : g.Sound) (ha : g.acceptor = .spawn i)
    (hc : g.connections[i]? = some c) :
    ({ g.put i { c with worker := .loadOwn .new [] } with acceptor := .load }).Sound := by
  obtain ⟨hnot, hsweeping⟩ := h.accepting (by simp [ha])
  have hi := h.each i c hc
  have hw : c.worker = .unborn := by
    obtain ⟨d, hd, hw⟩ := h.spawning i ha
    rw [hc, Option.some_inj] at hd
    exact hd ▸ hw
  refine { h with
    joined := fun hj ↦ absurd hj hnot
    woken := fun hm ha ↦ h.woken hm (.inr (ha.resolve_left nofun))
    holding := nofun
    spawning := nofun
    owned := fun n j hn ↦ .inl ?_
    known := fun j hj ↦ by rw [length_put]; exact h.known j hj
    each := each_put (fun j d hij hd ↦ ?_) ?_ }
  · rcases h.owned n j hn with ⟨d, hd, hfd, hcl, hm⟩ | ⟨-, hnew⟩
    · by_cases hij : j = i
      · subst hij
        rw [hc, Option.some_inj] at hd
        subst hd
        exact ⟨_, getElem?_put hc _, hfd, rfl, hm⟩
      · exact ⟨d, by rw [getElem?_put_ne hij]; exact hd, hfd, hcl, hm⟩
    · rw [ha] at hnew
      cases hnew
  · have hj := h.each j d hd
    exact { hj with
      unborn := fun hu ↦ by
        have := hj.unborn hu
        rw [ha] at this
        exact absurd (Acceptor.spawn.inj this).symm hij }
  · exact { hi with
      found := .inr (hi.found.resolve_left (by simp [hw, Worker.isDone]))
      valid := fun n hn _ ↦ hi.valid n hn (by rw [hw]; rfl)
      cleared := nofun
      clearedBy := fun hfd ↦ .inr ((hi.clearedBy hfd).resolve_left (by simp [hw, Worker.isDone]))
      unborn := nofun
      own := nofun
      shut := fun _ ↦ hi.shut (by rw [hw]; rfl) }

/-- **The acceptor goes on**, at any point. -/
theorem Sound.stepAcceptor {o : Outcome} {g' : Gateway} (h : g.Sound)
    (hs : g.stepAcceptor o = some g') : g'.Sound := by
  unfold Gateway.stepAcceptor at hs
  split at hs
  case h_1 ha =>
    obtain rfl := Option.some.inj hs
    refine h.of_acceptor (by simp [ha])
      (by simp [ha]) ?_ ?_ ?_ <;> split <;> simp [ha, Acceptor.holding]
  case h_2 ha =>
    obtain rfl := Option.some.inj hs
    refine h.of_acceptor (by simp [ha]) (by simp [ha]) ?_ ?_ ?_
    · split <;> simp
    · rw [ha]
      split <;> rfl
    · -- the listener is still there, and has been shut down
      intro hm hacc
      split at hacc
      · next hfile =>
        obtain ⟨n, -, hn⟩ := Option.bind_eq_some_iff.mp hfile
        have hl := (h.listener_eq n hn).1
        have hr : g.running = false := h.stopping (by intro he; rw [he] at hm; cases hm)
        rwa [listening, hr, Bool.false_or] at hl
      · cases hacc
  case h_3 n ha =>
    split at hs
    · next hn =>
      obtain rfl := Option.some.inj hs
      exact h.acceptor_connection ha hn
    · cases hs
  case h_4 ha =>
    obtain rfl := Option.some.inj hs
    exact h.of_acceptor (by simp [ha]) (by simp [ha]) nofun (by rw [ha]; rfl) nofun
  case h_5 ha =>
    split at hs
    · obtain rfl := Option.some.inj hs
      exact h.of_acceptor (by simp [ha]) (by simp [ha]) nofun (by rw [ha]; rfl) nofun
    · cases hs
  case h_6 ha =>
    obtain rfl := Option.some.inj hs
    refine h.of_acceptor (by simp [ha])
      (by simp [ha]) ?_ ?_ ?_ <;> split <;> simp [ha, Acceptor.holding]
  case h_7 ha =>
    obtain rfl := Option.some.inj hs
    have := h.of_acceptor (a := .push _) (by simp [ha]) (by simp [ha]) nofun (by rw [ha]; rfl) nofun
    exact { this with each := fun j d hd ↦ { this.each j d hd with } }
  case h_8 ha =>
    obtain rfl := Option.some.inj hs
    exact h.acceptor_push ha
  case h_9 ha =>
    obtain ⟨c, hc, he⟩ := Option.bind_eq_some_iff.mp hs
    obtain rfl := Option.some.inj he
    exact h.acceptor_spawn ha hc
  case h_10 => cases hs

/-! ## All threads -/

theorem Sound.swept_of_idle (h : g.Sound) (hidle : g.idle = true)
    (hc : g.connections[i]? = some c) :
    c.worker.isDone = true ∧ c.fd = none := by
  have hm : g.main = .ready := by
    rw [idle, Bool.and_eq_true, beq_iff_eq] at hidle
    exact hidle.1
  have hdone : c.worker.isDone = true := by
    rcases (h.each i c hc).found with hd | hs | hl
    · exact hd
    · rw [h.swept (.inl hidle)] at hs
      cases hs
    · rw [hm] at hl
      cases hl
  exact ⟨hdone, (h.each i c hc).cleared hdone⟩

/-- **When nothing is going on, nothing is open.** -/
theorem Sound.closed_of_idle (h : g.Sound) (hidle : g.idle = true) (n : Nat) :
    g.kernel.table n = none := by
  have hacceptor := h.joined (.inl hidle)
  cases ht : g.kernel.table n with
  | none => rfl
  | some f =>
    cases f with
    | listener =>
      have hl := (h.listener_eq n ht).1
      rw [idle, Bool.and_eq_true, beq_iff_eq, Bool.not_eq_true'] at hidle
      rw [listening, hidle.1, hidle.2] at hl
      cases hl
    | connection i =>
      rcases h.owned n i ht with ⟨c, hc, hfd, -⟩ | ⟨-, hheld⟩
      · rw [(h.swept_of_idle hidle hc).2] at hfd
        cases hfd
      · rw [hacceptor] at hheld
        cases hheld

/-- `start` on a gateway in which nothing is going on. -/
theorem Sound.start {setup : Setup} {g' : Gateway} {ok : Bool} (h : g.Sound) (hidle : g.idle = true)
    (hs : g.start setup = some (g', ok)) : g'.Sound := by
  have hclosed := h.closed_of_idle hidle
  have hdone := h.joined (.inl hidle)
  have hm : g.main = .ready ∧ g.running = false := by
    rwa [idle, Bool.and_eq_true, beq_iff_eq, Bool.not_eq_true'] at hidle
  -- nothing is open, so that the listener does not matter
  have hnone : ∀ k : Kernel, (∀ n, k.table n = none) →
      ({ g with listenFd := none, kernel := k }).Sound := by
    intro k hk
    refine { h with
      listener := fun hl ↦ by rw [listening, hm.1, hm.2] at hl; cases hl
      listener_eq := fun n hn ↦ by rw [hk n] at hn; cases hn
      unlisten := fun _ _ ↦ rfl
      woken := fun hj ↦ by rw [hm.1] at hj; cases hj
      holding := fun n hn ↦ by rw [hdone] at hn; cases hn
      owned := fun n j hn ↦ by rw [hk n] at hn; cases hn
      each := fun j d hd ↦ ?_ }
    have hj := h.each j d hd
    obtain ⟨hdone, hfd⟩ := h.swept_of_idle hidle hd
    exact { hj with
      valid := fun n hn ↦ by rw [hfd] at hn; cases hn
      shut := fun _ ha ↦ by rw [show g.main = _ from hm.1] at ha; cases ha
      shutFile := fun left n f _ hn ↦ by rw [hfd] at hn; cases hn }
  cases setup with
  | noSocket =>
    obtain ⟨rfl, -⟩ := Prod.mk.inj (Option.some.inj hs)
    exact hnone g.kernel hclosed
  | refused n =>
    rw [Gateway.start, if_pos (hclosed n)] at hs
    obtain ⟨rfl, -⟩ := Prod.mk.inj (Option.some.inj hs)
    refine hnone _ fun n' ↦ ?_
    by_cases hn : n' = n
    · rw [hn, Kernel.table_close_self]
    · rw [Kernel.table_close_ne (by simpa using Ne.symm hn), Kernel.table_openAt_ne hn, hclosed]
  | listening n =>
    rw [Gateway.start, if_pos (hclosed n)] at hs
    obtain ⟨rfl, -⟩ := Prod.mk.inj (Option.some.inj hs)
    have hother : ∀ {n' f}, (g.kernel.openAt n .listener).table n' = some f →
        n' = n ∧ f = .listener := by
      intro n' f hf
      by_cases hn : n' = n
      · rw [hn, Kernel.table_openAt_self, Option.some_inj] at hf
        exact ⟨hn, hf.symm⟩
      · rw [Kernel.table_openAt_ne hn, hclosed] at hf
        cases hf
    refine { h with
      stopping := fun hr ↦ absurd hm.1 hr
      listener := fun _ ↦ ⟨n, rfl, Kernel.table_openAt_self⟩
      listener_eq := fun n' hn' ↦ ⟨rfl, by rw [(hother hn').1]⟩
      unlisten := nofun
      joined := fun hj ↦ by simp [idle, hm.1, Main.joined, Main.sweeping] at hj
      swept := fun _ ↦ h.swept (.inl hidle)
      woken := fun hj ↦ by rw [hm.1] at hj; cases hj
      holding := nofun
      spawning := nofun
      owned := fun n' j hn' ↦ nomatch (hother hn').2
      each := fun j d hd ↦ ?_ }
    have hj := h.each j d hd
    obtain ⟨hdone, hfd⟩ := h.swept_of_idle hidle hd
    exact { hj with
      valid := fun n hn ↦ by rw [hfd] at hn; cases hn
      unborn := fun hw ↦ by rw [hw] at hdone; cases hdone
      shut := fun _ ha ↦ by rw [show g.main = _ from hm.1] at ha; cases ha
      shutFile := fun left n f _ hn ↦ by rw [hfd] at hn; cases hn }

/-- **Every step** of every thread. -/
theorem Sound.step {libc : Libc} {cfg : GatewayConfig} {event : Event} {g' : Gateway} (h : g.Sound)
    (hs : g.step libc cfg event = some g') : g'.Sound := by
  cases event with
  | start setup =>
    rw [Gateway.step] at hs
    split at hs
    · next hm =>
      obtain ⟨⟨g₁, ok⟩, hstart, rfl⟩ := Option.map_eq_some_iff.mp hs
      exact h.start (by rw [idle, hm.1, hm.2]; rfl) hstart
    · cases hs
  | stop => exact h.stepMain hs
  | acceptor o => exact h.stepAcceptor hs
  | worker i o =>
    obtain ⟨c, hc, hs⟩ := Option.bind_eq_some_iff.mp hs
    exact h.stepWorker hc hs

theorem Reached.sound {libc : Libc} {cfg : GatewayConfig} {exchange : Exchange}
    (h : g.Reached libc cfg exchange) : g.Sound := by
  obtain ⟨events, hrun⟩ := h
  exact Threads.run_keeps (fun _ _ _ hg hs ↦ Sound.step hg hs) (sound_new exchange) hrun

end Steps

/-! ## What follows -/

/-- **When `stop` has returned, nothing is left**: no descriptor is open, the acceptor and the
threads of all sessions have ended, and every session has forgotten its descriptor.  This holds
whenever the gateway is not running and neither `start` nor `stop` is going on. -/
theorem stop_leaves_nothing (libc : Libc) (cfg : GatewayConfig) (exchange : Exchange) (g : Gateway)
    (h : g.Reached libc cfg exchange) (hmain : g.main = .ready) (hrunning : g.running = false) :
    g.listenFd = none ∧ g.acceptor = .done ∧ g.sessions = [] ∧ (∀ n, g.kernel.table n = none) ∧
      ∀ c ∈ g.connections, c.worker.isDone = true ∧ c.fd = none := by
  have hidle : g.idle = true := by rw [idle, hmain, hrunning]; rfl
  refine ⟨h.sound.unlisten ?_ (by simp [hmain]), h.sound.joined (.inl hidle),
    h.sound.swept (.inl hidle), h.sound.closed_of_idle hidle, fun c hc ↦ ?_⟩
  · rw [listening, hmain, hrunning]
    rfl
  · obtain ⟨i, hi⟩ := List.mem_iff_getElem?.mp hc
    exact h.sound.swept_of_idle hidle hi

/-- **A session uses its own connection or none.**  Until the thread of a session has closed its
descriptor, the descriptor stands for the connection the session was made for, or for nothing at all
because `stop` has joined the acceptor and closed it; and a thread that receives does so from its
own connection. -/
theorem descriptor_own (libc : Libc) (cfg : GatewayConfig) (exchange : Exchange) (g : Gateway)
    (h : g.Reached libc cfg exchange) (i : Nat) (c : Connection) (hc : g.connections[i]? = some c)
    (hclosed : c.worker.closed = false) :
    (g.kernel.fileAt c.fd = some (.connection i) ∨
      (g.main.sweeping = true ∧ g.kernel.fileAt c.fd = none)) ∧
    ∀ s rxBuf j, c.worker = .receiving s rxBuf j → j = i := by
  have hi := h.sound.each i c hc
  refine ⟨?_, hi.own⟩
  cases hfd : c.fd with
  | some n => exact (hi.valid n hfd hclosed).imp_right fun hs ↦ ⟨hs.1, hs.2.1⟩
  | none =>
    rcases hi.clearedBy hfd with hdone | ⟨left, hm⟩
    · rw [Worker.closed_of_isDone hdone] at hclosed
      cases hclosed
    · exact .inr ⟨by rw [hm]; rfl, rfl⟩

/-! ## A session that is stopped -/

/-- A connection is accepted, and the thread of its session waits for bytes. -/
def oneSession : List Event :=
  .start (.listening 3) :: [.acceptor .nothing, .acceptor .nothing, .acceptor (.connection 4)] ++
    List.replicate 5 (.acceptor .nothing) ++ List.replicate 3 (.worker 0 .nothing)

/-- `stop` is called, and has closed the connection of the session. -/
def closedByStop : List Event :=
  oneSession ++ List.replicate 5 .stop ++ List.replicate 2 (.acceptor .nothing) ++
    List.replicate 6 .stop

/-- The thread of the session ends, and `stop` returns. -/
def stopped : List Event :=
  closedByStop ++ [.stop, .worker 0 .nothing, .worker 0 .nothing, .stop, .stop]

theorem stop_leaves_nothing_one_session :
    ∃ g, Threads.run (step textLibc ⟨[], false⟩) stopped (.new (.of (.new 2))) = some g ∧
      g.connections.length = 1 ∧ ∀ n, g.kernel.table n = none := by
  have hread : (Threads.run (step textLibc ⟨[], false⟩) stopped (.new (.of (.new 2)))).map
      (fun g ↦ (g.main, g.running, g.connections.length)) = some (.ready, false, 1) := by
    decide +kernel
  obtain ⟨g, hrun, hg⟩ := Option.map_eq_some_iff.mp hread
  simp only [Prod.mk.injEq] at hg
  obtain ⟨hmain, hrunning, hlength⟩ := hg
  exact ⟨g, hrun, hlength,
    (stop_leaves_nothing textLibc ⟨[], false⟩ _ g ⟨stopped, hrun⟩ hmain hrunning).2.2.2.1⟩

/-- While `stop` has closed the connection under the thread that waits. -/
theorem descriptor_own_closed_by_stop :
    ∃ g c, Threads.run (step textLibc ⟨[], false⟩) closedByStop (.new (.of (.new 2))) = some g ∧
      g.connections[0]? = some c ∧ c.fd = some 4 ∧
      (g.kernel.fileAt c.fd = some (.connection 0) ∨
        (g.main.sweeping = true ∧ g.kernel.fileAt c.fd = none)) := by
  have hread : (Threads.run (step textLibc ⟨[], false⟩) closedByStop (.new (.of (.new 2)))).map
      (fun g ↦ g.connections.map fun c ↦ (c.fd, c.worker.closed)) = some [(some 4, false)] := by
    decide +kernel
  obtain ⟨g, hrun, hg⟩ := Option.map_eq_some_iff.mp hread
  obtain ⟨c, hc, hfd, hclosed⟩ : ∃ c, g.connections[0]? = some c ∧ c.fd = some 4 ∧
      c.worker.closed = false := by
    have hzero := congrArg (·[0]?) hg
    simp only [List.getElem?_map] at hzero
    obtain ⟨c, hc, he⟩ := Option.map_eq_some_iff.mp hzero
    obtain ⟨hfd, hclosed⟩ := Prod.mk.inj he
    exact ⟨c, hc, hfd, hclosed⟩
  exact ⟨g, c, hrun, hc, hfd,
    (descriptor_own textLibc ⟨[], false⟩ _ g ⟨closedByStop, hrun⟩ 0 c hc hclosed).1⟩

end Gateway

end Fix

end MatchingEngine
