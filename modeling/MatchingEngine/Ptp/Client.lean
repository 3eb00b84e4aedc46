import Mathlib.Data.Rat.Floor
import MatchingEngine.Util.Scanning
import MatchingEngine.Util.Truncation

/-!
# The clock

`ptp/ptp_client.cpp`, with the mock backend, and the server for it, `ptp/ptp_oracle.cpp`.  The
client wants to know how far the master's clock is ahead of its own.  It sends a request at `T1`,
which arrives at `T2` by the master's clock; the reply leaves at `T3` by the same clock, and arrives
at `T4`.  If the way there takes as long as the way back, half of `(T2 - T1) + (T3 - T4)` is the
offset.  The sync thread smooths what it gets from one exchange after the other.

If the two ways differ, the offset of one exchange is wrong by half of the difference.  Smoothing
does not add to that, although it rounds every time: the cached offset is never further off than the
worst exchange (`offset_near`).

Sockets and sleeping are left out, and so are the two other backends.  `double` is taken to be
exact.
-/

set_option autoImplicit false

namespace MatchingEngine

namespace Ptp

open Decimal Scanning Truncation

/-- The value of an `int64_t` expression. -/
def wrap (x : Int) : Int := x.bmod (2 ^ 64)

/-! ## Datagrams -/

def int64 : IntType := ⟨true, 64⟩

/-- `PTP1 T1=%lld`. -/
def requestFormat : List Directive :=
  literal ['P', 'T', 'P', '1', ' ', 'T', '1', '='] ++ [.int int64]

/-- `PTP1 T1=%lld T2=%lld T3=%lld`. -/
def replyFormat : List Directive :=
  requestFormat ++ literal [' ', 'T', '2', '='] ++ [.int int64]
    ++ literal [' ', 'T', '3', '='] ++ [.int int64]

def request (t1 : Int) : List UInt8 := print requestFormat [.int t1] ++ [10]

/-- What is in a buffer after a datagram has been received, as a C string. -/
def received (size : Nat) (datagram : List UInt8) : List UInt8 :=
  (datagram.take (size - 1)).takeWhile (· ≠ 0)

/-- The offset the oracle makes up. -/
def masterOffsetNs : Int := 1234567

/-- The oracle's reply to a datagram that it receives and answers when its own clock says these
times. -/
def oracle (received₂ sent₃ : Int) (datagram : List UInt8) : Option (Option (List UInt8)) := do
  let vs ← scan requestFormat (received 256 datagram)
  match vs with
  | [.int t1] =>
    let t3 := wrap (sent₃ + masterOffsetNs)
    let t2 := wrap (received₂ + masterOffsetNs)
    return some (print replyFormat [.int t1, .int t2, .int t3] ++ [10])
  | _ => return none

/-! ## Samples -/

structure PtpSample where
  offsetNs : Int
  oneWayNs : Int
  localNs : Nat

/-- The sample of the four times. -/
def PtpSample.ofTimes (t1 t2 t3 t4 : Int) : PtpSample :=
  { offsetNs := (wrap (wrap (wrap (t2 - t1) + t3) - t4)).tdiv 2
    oneWayNs := (wrap (wrap (t4 - t1) - wrap (t3 - t2))).tdiv 2
    localNs := (t4 % 2 ^ 64).toNat }

/-- `sample_mock`, from the two times of the client and what it has received. -/
def sampleMock (t1 t4 : Int) (datagram : List UInt8) : Option (Option PtpSample) := do
  let vs ← scan replyFormat (received 128 datagram)
  match vs with
  | [.int rt1, .int t2, .int t3] =>
    -- a stale reply, or one to somebody else
    if rt1 ≠ t1 then return none else return some (.ofTimes t1 t2 t3 t4)
  | _ => return none

structure PtpClient where
  offsetEwmaNs : Int
  sampleCount : Nat

namespace PtpClient

def new : PtpClient := { offsetEwmaNs := 0, sampleCount := 0 }

/-- What the sync thread does with a sample. -/
def update (ewmaAlpha : ℚ) (c : PtpClient) : Option PtpSample → PtpClient
  | none => c
  | some s =>
    let prev := c.offsetEwmaNs
    let fresh :=
      if c.sampleCount = 0 then s.offsetNs
      else truncate (prev + ewmaAlpha * (wrap (s.offsetNs - prev) : ℚ))
    { offsetEwmaNs := fresh, sampleCount := (c.sampleCount + 1) % 2 ^ 64 }

end PtpClient

/-! ## Exchanges

From here on it is about the world: what the times are if the master is ahead by `theta`. -/

/-- An exchange, by the client's clock. -/
structure Exchange where
  t1 : Int
  /-- How long the request takes. -/
  forward : Int
  /-- How long the oracle takes. -/
  proc : Int
  /-- How long the reply takes. -/
  backward : Int

namespace Exchange

variable (x : Exchange) (theta : Int)

/-- The four times, with a master that is ahead by `theta`. -/
def t2 : Int := x.t1 + x.forward + theta

def t3 : Int := x.t2 theta + x.proc

def t4 : Int := x.t1 + x.forward + x.proc + x.backward

/-- The request goes to the oracle, and its reply comes back. -/
def sample : Option (Option PtpSample) := do
  let reply ← oracle (x.t2 theta - masterOffsetNs) (x.t3 theta - masterOffsetNs) (request x.t1)
  match reply with
  | none => return none
  | some datagram => sampleMock x.t1 x.t4 datagram

/-- How long everything takes, and by how much the two ways differ at most. -/
structure Takes (A : ℚ) : Prop where
  forward : 0 ≤ x.forward
  proc : 0 ≤ x.proc
  backward : 0 ≤ x.backward
  differ : |((x.forward - x.backward : Int) : ℚ)| ≤ A

/-- The four times fit in 64 bits, and so does the sum of which the offset is the half.  The steps
that lead to the sum wrap round, and may leave them. -/
structure Fits : Prop where
  t1 : int64.Holds x.t1
  t2 : int64.Holds (x.t2 theta)
  t3 : int64.Holds (x.t3 theta)
  t4 : int64.Holds x.t4
  sum : int64.Holds (x.t2 theta - x.t1 + x.t3 theta - x.t4)

end Exchange

/-- A round of the sync thread. -/
def PtpClient.sync (ewmaAlpha : ℚ) (theta : Int) (c : PtpClient) (x : Exchange) :
    Option PtpClient := do
  let s ← x.sample theta
  return c.update ewmaAlpha s

/-! ### What is received -/

/-- A datagram that fits into the buffer is received as it was sent. -/
theorem received_eq {ds : List Directive} {vs : List Value} {size : Nat}
    (hlen : (print ds vs).length + 2 ≤ size) (hds : .byte 0 ∉ ds) (hvs : .char 0 ∉ vs) :
    received size (print ds vs ++ [10]) = print ds vs ++ [10] := by
  have hzero : 0 ∉ print ds vs := not_mem_print (by decide) (by decide) (by decide) hds hvs
  rw [received, List.take_of_length_le (by rw [List.length_append, List.length_singleton]; omega),
    List.takeWhile_eq_self_iff]
  intro c hc
  rcases List.mem_append.mp hc with hc | hc
  · simpa using fun h : c = 0 ↦ hzero (h ▸ hc)
  · rw [List.mem_singleton.mp hc]
    rfl

/-- **A datagram is understood.** -/
theorem scan_received {ds : List Directive} {vs : List Value} {size : Nat}
    (hsep : separated ds = true) (hfit : Scanning.Fits ds vs)
    (hlen : (print ds vs).length + 2 ≤ size) (hds : .byte 0 ∉ ds) (hvs : .char 0 ∉ vs) :
    scan ds (received size (print ds vs ++ [10])) = some vs := by
  rw [received_eq hlen hds hvs]
  refine scan_print hsep hfit fun c hc ↦ ?_
  obtain rfl : 10 = c := Option.some.inj hc
  rfl

theorem length_renderInt {n : Int} (h : int64.Holds n) : (renderInt n).length ≤ 20 := by
  have hlo : -2 ^ 63 ≤ n := h.1
  have hhi : n < 2 ^ 63 := h.2
  exact length_renderInt_le (by decide) (by omega)

theorem oracle_request {received₂ sent₃ t1 t2 t3 : Int} (h1 : int64.Holds t1)
    (h2 : wrap (received₂ + masterOffsetNs) = t2) (h3 : wrap (sent₃ + masterOffsetNs) = t3) :
    oracle received₂ sent₃ (request t1)
      = some (some (print replyFormat [.int t1, .int t2, .int t3] ++ [10])) := by
  have hlen : (print requestFormat [.int t1]).length + 2 ≤ 256 := by
    have := length_renderInt h1
    simp [requestFormat, literal, print]
    omega
  have hscan := scan_received (show separated requestFormat = true by decide)
    (show Scanning.Fits requestFormat [.int t1] from ⟨h1, rfl⟩) hlen (by decide) (by simp)
  rw [oracle, request, hscan]
  simp only [Option.bind_eq_bind, Option.bind_some, h2, h3]
  rfl

theorem sampleMock_reply {t1 t2 t3 : Int} (h1 : int64.Holds t1) (h2 : int64.Holds t2)
    (h3 : int64.Holds t3) (t4 : Int) :
    sampleMock t1 t4 (print replyFormat [.int t1, .int t2, .int t3] ++ [10])
      = some (some (.ofTimes t1 t2 t3 t4)) := by
  have hlen : (print replyFormat [.int t1, .int t2, .int t3]).length + 2 ≤ 128 := by
    have := length_renderInt h1
    have := length_renderInt h2
    have := length_renderInt h3
    simp [replyFormat, requestFormat, literal, print]
    omega
  have hscan := scan_received (show separated replyFormat = true by decide)
    (show Scanning.Fits replyFormat [.int t1, .int t2, .int t3] from ⟨h1, h2, h3, rfl⟩) hlen
    (by decide) (by simp)
  rw [sampleMock, hscan]
  simp only [Option.bind_eq_bind, Option.bind_some, ne_eq, not_true_eq_false, if_false]
  rfl

theorem wrap_of_holds {n : Int} (h : int64.Holds n) : wrap n = n :=
  Int.bmod_eq_of_le (by have : -2 ^ 63 ≤ n := h.1; omega) (by have : n < 2 ^ 63 := h.2; omega)

/-- **An exchange**: the clocks cancel out, and so does the time the oracle takes. -/
theorem Exchange.sample_eq {x : Exchange} {theta : Int} (h : x.Fits theta) :
    ∃ s, x.sample theta = some (some s) ∧ int64.Holds (2 * theta + (x.forward - x.backward)) ∧
      s.offsetNs = (2 * theta + (x.forward - x.backward)).tdiv 2 := by
  have hsum : x.t2 theta - x.t1 + x.t3 theta - x.t4 = 2 * theta + (x.forward - x.backward) := by
    simp only [Exchange.t2, Exchange.t3, Exchange.t4]
    omega
  have hfit := h.sum
  rw [hsum] at hfit
  refine ⟨.ofTimes x.t1 (x.t2 theta) (x.t3 theta) x.t4, ?_, hfit, ?_⟩
  · rw [Exchange.sample, oracle_request h.t1 (by rw [Int.sub_add_cancel, wrap_of_holds h.t2])
      (by rw [Int.sub_add_cancel, wrap_of_holds h.t3])]
    exact sampleMock_reply h.t1 h.t2 h.t3 x.t4
  · have hwrap : wrap (wrap (wrap (x.t2 theta - x.t1) + x.t3 theta) - x.t4)
        = wrap (x.t2 theta - x.t1 + x.t3 theta - x.t4) := by
      simp only [wrap, Int.bmod_add_bmod, Int.bmod_sub_bmod]
    rw [PtpSample.ofTimes, hwrap, hsum, wrap_of_holds hfit]

/-! ## The cached offset -/

/-- Near the true offset, and small enough for a difference of two such numbers to fit. -/
structure Near (theta : Int) (A : ℚ) (offset : Int) : Prop where
  near : theta - ⌈A / 2⌉ ≤ offset ∧ offset ≤ theta + ⌈A / 2⌉
  small : -2 ^ 62 ≤ offset ∧ offset ≤ 2 ^ 62 - 1

section Run

variable {ewmaAlpha A : ℚ} {theta : Int} {x : Exchange} {c : PtpClient}

/-- The offset of an exchange is wrong by at most half of the difference. -/
theorem Exchange.sample_near (hfits : x.Fits theta) (htakes : x.Takes A) :
    ∃ s, x.sample theta = some (some s) ∧ Near theta A s.offsetNs := by
  obtain ⟨s, hs, hholds, hoffset⟩ := x.sample_eq hfits
  have hlo : -2 ^ 63 ≤ 2 * theta + (x.forward - x.backward) := hholds.1
  have hhi : 2 * theta + (x.forward - x.backward) < 2 ^ 63 := hholds.2
  have hdiffer : |x.forward - x.backward| ≤ 2 * ⌈A / 2⌉ := by
    have hceil := Int.le_ceil (A / 2)
    have hA : A ≤ 2 * (⌈A / 2⌉ : ℚ) := by linarith
    exact_mod_cast htakes.differ.trans hA
  obtain ⟨hdlo, hdhi⟩ := abs_le.mp hdiffer
  refine ⟨s, hs, ⟨?_, ?_⟩, ?_, ?_⟩ <;> rw [hoffset]
  · exact le_tdiv (by decide) (by omega)
  · exact tdiv_le (by decide) (by omega)
  · exact le_tdiv (by decide) (by omega)
  · exact (Int.tdiv_le_tdiv (c := 2) (by decide) (Int.le_sub_one_of_lt hhi)).trans (by decide)

/-- **A round leaves the cached offset near**, if it was near or there was none. -/
theorem PtpClient.sync_near (ha : 0 ≤ ewmaAlpha) (ha' : ewmaAlpha ≤ 1) (hfits : x.Fits theta)
    (htakes : x.Takes A) (hc : c.sampleCount = 0 ∨ Near theta A c.offsetEwmaNs) :
    ∃ c', c.sync ewmaAlpha theta x = some c' ∧ Near theta A c'.offsetEwmaNs := by
  obtain ⟨s, hs, hnear⟩ := x.sample_near hfits htakes
  refine ⟨c.update ewmaAlpha (some s), by rw [PtpClient.sync, hs]; rfl, ?_⟩
  rw [PtpClient.update]
  dsimp only
  split
  · exact hnear
  · rename_i hcount
    have hprev := hc.resolve_left hcount
    have hwrap : wrap (s.offsetNs - c.offsetEwmaNs) = s.offsetNs - c.offsetEwmaNs := by
      obtain ⟨⟨hlo, hhi⟩, hlo', hhi'⟩ := And.intro hnear.small hprev.small
      refine wrap_of_holds ⟨?_, ?_⟩
      · show -2 ^ 63 ≤ _
        omega
      · show _ < 2 ^ 63
        omega
    rw [hwrap]
    exact ⟨smooth_between ha ha' hprev.near hnear.near,
      smooth_between ha ha' hprev.small hnear.small⟩

theorem PtpClient.foldlM_near (ha : 0 ≤ ewmaAlpha) (ha' : ewmaAlpha ≤ 1) {xs : List Exchange}
    (h : ∀ x ∈ xs, x.Fits theta ∧ x.Takes A) (hc : Near theta A c.offsetEwmaNs) :
    ∃ c', xs.foldlM (PtpClient.sync ewmaAlpha theta) c = some c' ∧
      Near theta A c'.offsetEwmaNs := by
  induction xs generalizing c with
  | nil => exact ⟨c, rfl, hc⟩
  | cons x xs ih =>
    obtain ⟨hx, hxs⟩ := List.forall_mem_cons.mp h
    obtain ⟨c₁, h₁, hc₁⟩ := c.sync_near ha ha' hx.1 hx.2 (.inr hc)
    obtain ⟨c₂, h₂, hc₂⟩ := ih hxs hc₁
    exact ⟨c₂, by rw [List.foldlM_cons, h₁]; exact h₂, hc₂⟩

end Run

/-- **The cached offset is near the true one.**  After any number of exchanges, with any smoothing
factor, it is off by no more than half of what the two ways may differ by. -/
theorem offset_near (ewmaAlpha : ℚ) (ha : 0 ≤ ewmaAlpha) (ha' : ewmaAlpha ≤ 1) (theta : Int) (A : ℚ)
    (xs : List Exchange) (hne : xs ≠ []) (h : ∀ x ∈ xs, x.Fits theta ∧ x.Takes A) :
    ∃ c, xs.foldlM (PtpClient.sync ewmaAlpha theta) .new = some c ∧
      |c.offsetEwmaNs - theta| ≤ ⌈A / 2⌉ := by
  obtain ⟨x, xs, rfl⟩ := List.exists_cons_of_ne_nil hne
  obtain ⟨hx, hxs⟩ := List.forall_mem_cons.mp h
  obtain ⟨c₁, h₁, hc₁⟩ := PtpClient.new.sync_near ha ha' hx.1 hx.2 (.inl rfl)
  obtain ⟨c₂, h₂, hc₂⟩ := PtpClient.foldlM_near ha ha' hxs hc₁
  refine ⟨c₂, by rw [List.foldlM_cons, h₁]; exact h₂, ?_⟩
  obtain ⟨hlo, hhi⟩ := hc₂.near
  rw [abs_le]
  omega

/-- Two exchanges, one with the longer way there and one with the longer way back. -/
def twoExchanges : List Exchange := [⟨1000, 500, 50, 200⟩, ⟨2000, 300, 50, 501⟩]

theorem offset_near_two_exchanges :
    (∀ x ∈ twoExchanges, x.Fits 1234567 ∧ x.Takes 300) ∧
      ∃ c, twoExchanges.foldlM (PtpClient.sync (1 / 8) 1234567) .new = some c ∧
        |c.offsetEwmaNs - 1234567| ≤ ⌈(300 : ℚ) / 2⌉ := by
  have h : ∀ x ∈ twoExchanges, x.Fits 1234567 ∧ x.Takes 300 := by
    intro x hx
    simp only [twoExchanges, List.mem_cons, List.not_mem_nil, or_false] at hx
    rcases hx with rfl | rfl <;>
      exact ⟨⟨by decide, by decide, by decide, by decide, by decide⟩,
        by decide, by decide, by decide, by norm_num [abs_le]⟩
  exact ⟨h, offset_near (1 / 8) (by norm_num) (by norm_num) 1234567 300 twoExchanges
    (by simp [twoExchanges]) h⟩

end Ptp

end MatchingEngine
