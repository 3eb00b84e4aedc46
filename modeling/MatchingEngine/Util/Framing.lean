import Mathlib.Data.List.Basic

/-!
# Cutting a stream into frames

A stream arrives in chunks of any size, and is to be cut into frames.  A `Splitter` looks at the
front of a buffer and says one of three things: here is a frame of so many elements, there is not
enough to tell, or this is no frame.  Its laws say that it does not change its mind: what it
decides, it decides for every continuation of the buffer.

`drain` cuts off frames until the splitter no longer finds one, and a `Stream` drains its buffer
each time a chunk has arrived.  The laws are used where a drained buffer grows
(`drain_append_of_incomplete`, `drain_append_of_malformed`); from there, how the stream was cut into
chunks makes no difference (`feed_eq_drain`).
-/

set_option autoImplicit false

namespace Framing

universe u

variable {α : Type u}

/-- What a splitter makes of a buffer. -/
inductive Split (α : Type u) where
  | ok (frame : List α) (consumed : Nat)
  | incomplete
  | malformed
  deriving DecidableEq

/-- A way of telling frames that does not change its mind when more of the stream arrives. -/
structure Splitter (α : Type u) where
  split : List α → Split α
  split_nil : split [] = .incomplete
  /-- A frame is a part of the buffer, from its front, and not empty. -/
  ok_bounds : ∀ {b f : List α} {n : Nat}, split b = .ok f n → 0 < n ∧ n ≤ b.length ∧ f = b.take n
  ok_append : ∀ {b f : List α} {n : Nat} (c : List α), split b = .ok f n → split (b ++ c) = .ok f n
  malformed_append : ∀ {b : List α} (c : List α), split b = .malformed →
    split (b ++ c) = .malformed

/-- Why draining stopped. -/
inductive Status where
  | incomplete
  | malformed
  deriving DecidableEq

/-- The frames cut off, what is left, and why. -/
structure Drained (α : Type u) where
  frames : List (List α)
  rest : List α
  status : Status

namespace Splitter

variable (s : Splitter α)

/-- Cut off frames until there is no further one. -/
def drain (b : List α) : Drained α :=
  match _h : s.split b with
  | .ok f n =>
    let d := drain (b.drop n)
    { d with frames := f :: d.frames }
  | .incomplete => ⟨[], b, .incomplete⟩
  | .malformed => ⟨[], b, .malformed⟩
termination_by b.length
decreasing_by
  have := s.ok_bounds _h
  rw [List.length_drop]
  omega

variable {s}

theorem drain_ok {b f : List α} {n : Nat} (h : s.split b = .ok f n) :
    s.drain b = { s.drain (b.drop n) with frames := f :: (s.drain (b.drop n)).frames } := by
  rw [drain]
  split <;> simp_all

theorem drain_incomplete {b : List α} (h : s.split b = .incomplete) :
    s.drain b = ⟨[], b, .incomplete⟩ := by
  rw [drain]
  split <;> simp_all

theorem drain_malformed {b : List α} (h : s.split b = .malformed) :
    s.drain b = ⟨[], b, .malformed⟩ := by
  rw [drain]
  split <;> simp_all

/-- Draining, by the number of elements in the buffer. -/
theorem drain_induction {P : List α → Prop}
    (ok : ∀ b f n, s.split b = .ok f n → P (b.drop n) → P b)
    (incomplete : ∀ b, s.split b = .incomplete → P b)
    (malformed : ∀ b, s.split b = .malformed → P b) (b : List α) : P b := by
  induction hn : b.length using Nat.strongRecOn generalizing b with
  | ind n ih =>
    subst hn
    cases h : s.split b with
    | ok f k =>
      have hb := s.ok_bounds h
      refine ok b f k h (ih _ ?_ _ rfl)
      rw [List.length_drop]
      omega
    | incomplete => exact incomplete b h
    | malformed => exact malformed b h

/-- Nothing is lost: the frames and what is left are the buffer. -/
theorem flatten_drain (b : List α) : (s.drain b).frames.flatten ++ (s.drain b).rest = b := by
  induction b using drain_induction (s := s) with
  | ok b f n h ih =>
    rw [drain_ok h, List.flatten_cons, List.append_assoc, ih, (s.ok_bounds h).2.2,
      List.take_append_drop]
  | incomplete b h => rw [drain_incomplete h]; rfl
  | malformed b h => rw [drain_malformed h]; rfl

/-- Frames that have been put one after the other are found again. -/
theorem drain_flatten_append {fs : List (List α)} (h : ∀ f ∈ fs, s.split f = .ok f f.length)
    (rest : List α) :
    s.drain (fs.flatten ++ rest) = { s.drain rest with frames := fs ++ (s.drain rest).frames } := by
  induction fs with
  | nil => rfl
  | cons f fs ih =>
    obtain ⟨hf, hfs⟩ := List.forall_mem_cons.mp h
    rw [List.flatten_cons, List.append_assoc, drain_ok (s.ok_append _ hf), List.drop_left, ih hfs]
    rfl

/-- The beginning of a frame is no frame. -/
theorem split_of_append_eq_ok {b c : List α} (h : s.split (b ++ c) = .ok (b ++ c) (b ++ c).length)
    (hc : c ≠ []) : s.split b = .incomplete := by
  cases hb : s.split b with
  | incomplete => rfl
  | malformed =>
    rw [s.malformed_append c hb] at h
    cases h
  | ok f n =>
    have hle := (s.ok_bounds hb).2.1
    rw [s.ok_append c hb] at h
    obtain ⟨-, rfl⟩ : f = b ++ c ∧ n = (b ++ c).length := by simpa using h
    have := List.length_pos_iff.mpr hc
    rw [List.length_append] at hle
    omega

/-- **Draining a longer buffer**: first the shorter one, then what that leaves with the rest. -/
theorem drain_append_of_incomplete {b : List α} (hb : (s.drain b).status = .incomplete)
    (c : List α) :
    s.drain (b ++ c) = { s.drain ((s.drain b).rest ++ c) with
      frames := (s.drain b).frames ++ (s.drain ((s.drain b).rest ++ c)).frames } := by
  induction b using drain_induction (s := s) with
  | ok b f n h ih =>
    have hdrop : (b ++ c).drop n = b.drop n ++ c :=
      List.drop_append_of_le_length (s.ok_bounds h).2.1
    rw [drain_ok h] at hb
    rw [drain_ok (s.ok_append c h), hdrop, ih hb, drain_ok h]
    rfl
  | incomplete b h => rw [drain_incomplete h]; rfl
  | malformed b h => rw [drain_malformed h] at hb; simp at hb

/-- Once draining has failed, it fails in the same place however the buffer goes on. -/
theorem drain_append_of_malformed {b : List α} (hb : (s.drain b).status = .malformed)
    (c : List α) : s.drain (b ++ c) = { s.drain b with rest := (s.drain b).rest ++ c } := by
  induction b using drain_induction (s := s) with
  | ok b f n h ih =>
    have hdrop : (b ++ c).drop n = b.drop n ++ c :=
      List.drop_append_of_le_length (s.ok_bounds h).2.1
    rw [drain_ok h] at hb
    rw [drain_ok (s.ok_append c h), hdrop, ih hb, drain_ok h]
  | incomplete b h => rw [drain_incomplete h] at hb; simp at hb
  | malformed b h => rw [drain_malformed h, drain_malformed (s.malformed_append c h)]

/-- Frames that have been found stay found. -/
theorem exists_frames_drain_append (b c : List α) :
    ∃ more, (s.drain (b ++ c)).frames = (s.drain b).frames ++ more := by
  cases hst : (s.drain b).status with
  | incomplete => exact ⟨_, by rw [drain_append_of_incomplete hst]⟩
  | malformed => exact ⟨[], by rw [drain_append_of_malformed hst, List.append_nil]⟩

/-- Draining goes on as long as it can. -/
theorem split_rest_drain {b : List α} (hb : (s.drain b).status = .incomplete) :
    s.split (s.drain b).rest = .incomplete := by
  induction b using drain_induction (s := s) with
  | ok b f n h ih =>
    rw [drain_ok h] at hb ⊢
    exact ih hb
  | incomplete b h =>
    rw [drain_incomplete h]
    exact h
  | malformed b h =>
    rw [drain_malformed h] at hb
    simp at hb

end Splitter

/-! ## Streams -/

/-- A stream that is being received: what has arrived, the frames found in it, and the buffer. -/
structure Stream (α : Type u) where
  received : List α
  frames : List (List α)
  buffer : List α
  status : Status

namespace Stream

variable (s : Splitter α)

def start : Stream α := ⟨[], [], [], .incomplete⟩

/-- A chunk arrives and the buffer is drained.  After a failure nothing is received any more. -/
def recv (st : Stream α) (chunk : List α) : Stream α :=
  match st.status with
  | .malformed => st
  | .incomplete =>
    let d := s.drain (st.buffer ++ chunk)
    ⟨st.received ++ chunk, st.frames ++ d.frames, d.rest, d.status⟩

def feed (chunks : List (List α)) : Stream α := chunks.foldl (recv s) start

variable {s}

/-- Everything a stream shows is read off what it has received. -/
def Faithful (s : Splitter α) (st : Stream α) : Prop :=
  st.frames = (s.drain st.received).frames ∧ st.buffer = (s.drain st.received).rest ∧
    st.status = (s.drain st.received).status

theorem faithful_start : Faithful s (start : Stream α) := by
  rw [Faithful, start, Splitter.drain_incomplete s.split_nil]
  exact ⟨rfl, rfl, rfl⟩

theorem Faithful.recv {st : Stream α} (h : Faithful s st) (chunk : List α) :
    Faithful s (recv s st chunk) := by
  obtain ⟨hf, hb, hs⟩ := h
  rw [Stream.recv]
  cases hst : st.status with
  | malformed => exact ⟨hf, hb, hs⟩
  | incomplete =>
    rw [hst] at hs
    simp only [Faithful, Splitter.drain_append_of_incomplete hs.symm chunk, hf, hb, and_self]

/-- A stream receives everything until it fails, and nothing afterwards. -/
theorem received_foldl (st : Stream α) (chunks : List (List α)) :
    ∃ more, st.received ++ chunks.flatten = (chunks.foldl (Stream.recv s) st).received ++ more ∧
      ((chunks.foldl (Stream.recv s) st).status = .incomplete → more = []) := by
  induction chunks generalizing st with
  | nil => exact ⟨[], by simp, fun _ ↦ rfl⟩
  | cons chunk chunks ih =>
    obtain ⟨more, he, hmore⟩ := ih (Stream.recv s st chunk)
    cases hst : st.status with
    | malformed =>
      have hrecv : Stream.recv s st chunk = st := by rw [Stream.recv, hst]
      have hfold : ∀ cs : List (List α), cs.foldl (Stream.recv s) st = st := by
        intro cs
        induction cs with
        | nil => rfl
        | cons c cs ihc => rw [List.foldl_cons, Stream.recv, hst]; exact ihc
      rw [List.foldl_cons, hrecv, hfold]
      exact ⟨(chunk :: chunks).flatten, rfl, fun h ↦ by rw [hst] at h; simp at h⟩
    | incomplete =>
      have hrecv : (Stream.recv s st chunk).received = st.received ++ chunk := by
        rw [Stream.recv, hst]
      refine ⟨more, ?_, hmore⟩
      rw [List.flatten_cons, ← List.append_assoc, ← hrecv, he, List.foldl_cons]

theorem faithful_feed (chunks : List (List α)) : Faithful s (feed s chunks) := by
  have key : ∀ (cs : List (List α)) (st : Stream α), Faithful s st →
      Faithful s (cs.foldl (Stream.recv s) st) := by
    intro cs
    induction cs with
    | nil => exact fun _ h ↦ h
    | cons c cs ih => exact fun st h ↦ ih _ (h.recv c)
  exact key chunks start faithful_start

/-- **How a stream is cut into chunks makes no difference** to the frames found in it or to whether
it fails. -/
theorem feed_eq_drain (chunks : List (List α)) :
    (feed s chunks).frames = (s.drain chunks.flatten).frames ∧
      (feed s chunks).status = (s.drain chunks.flatten).status := by
  obtain ⟨hf, -, hs⟩ := faithful_feed (s := s) chunks
  obtain ⟨more, he, hmore⟩ := received_foldl (s := s) start chunks
  have hflat : chunks.flatten = (feed s chunks).received ++ more := he
  rw [hflat]
  cases hst : (feed s chunks).status with
  | malformed =>
    rw [hst] at hs
    rw [Splitter.drain_append_of_malformed hs.symm]
    exact ⟨hf, hs⟩
  | incomplete =>
    rw [hmore hst, List.append_nil]
    exact ⟨hf, hst ▸ hs⟩

/-- Nothing received is lost: it is in the frames found so far or still in the buffer. -/
theorem flatten_feed (chunks : List (List α)) :
    (feed s chunks).frames.flatten ++ (feed s chunks).buffer = (feed s chunks).received := by
  obtain ⟨hf, hb, -⟩ := faithful_feed (s := s) chunks
  rw [hf, hb, Splitter.flatten_drain]

end Stream

end Framing
