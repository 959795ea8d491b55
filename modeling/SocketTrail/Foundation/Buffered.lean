/-
# Buffered output

A buffered writer collects what is written and passes it on to its file when the
buffer is full, when a piece is longer than the buffer, and when it is flushed.
How it does so shows in the file only: what was written and not lost is always
`content`, the file followed by the buffer.
-/

import Mathlib.Data.Nat.Notation
import Mathlib.Tactic.Cases

namespace SocketTrail.Foundation

universe u

/-- A writer whose buffer holds at most `capacity` elements. -/
structure Buffered (α : Type u) (capacity : ℕ) where
  file : List α
  buf : List α
  bounded : buf.length ≤ capacity

namespace Buffered

variable {α : Type u} {capacity : ℕ}

/-- The writer of a new file. -/
def empty : Buffered α capacity where
  file := []
  buf := []
  bounded := Nat.zero_le _

/-- Everything that was written. -/
def content (w : Buffered α capacity) : List α := w.file ++ w.buf

/-- Pass the buffer on to the file. -/
def flush (w : Buffered α capacity) : Buffered α capacity where
  file := w.file ++ w.buf
  buf := []
  bounded := Nat.zero_le _

/-- Make room for a piece that does not fit into the rest of the buffer. -/
def makeRoom (w : Buffered α capacity) (data : List α) : Buffered α capacity :=
  if capacity - w.buf.length < data.length then w.flush else w

theorem room_makeRoom (w : Buffered α capacity) {data : List α} (h : data.length ≤ capacity) :
    (w.makeRoom data).buf.length + data.length ≤ capacity := by
  have hbounded := w.bounded
  unfold makeRoom
  split
  · change 0 + data.length ≤ capacity
    omega
  · omega

/-- Write one piece. A piece as long as the buffer goes to the file at once. -/
def write (w : Buffered α capacity) (data : List α) : Buffered α capacity :=
  if h : data.length < capacity then
    { file := (w.makeRoom data).file
      buf := (w.makeRoom data).buf ++ data
      bounded := by rw [List.length_append]; exact w.room_makeRoom (Nat.le_of_lt h) }
  else { w.makeRoom data with file := (w.makeRoom data).file ++ data }

/-- Write one piece after another. -/
def writeAll (w : Buffered α capacity) (pieces : List (List α)) : Buffered α capacity :=
  pieces.foldl write w

@[simp]
theorem content_empty : (empty : Buffered α capacity).content = [] := rfl

@[simp]
theorem content_flush (w : Buffered α capacity) : w.flush.content = w.content :=
  List.append_nil _

@[simp]
theorem file_flush (w : Buffered α capacity) : w.flush.file = w.content := rfl

@[simp]
theorem content_makeRoom (w : Buffered α capacity) (data : List α) :
    (w.makeRoom data).content = w.content := by
  unfold makeRoom
  split
  · exact w.content_flush
  · rfl

/-- A piece that is passed on at once meets an empty buffer. -/
theorem buf_makeRoom (w : Buffered α capacity) {data : List α} (h : capacity ≤ data.length) :
    (w.makeRoom data).buf = [] := by
  have hbounded := w.bounded
  unfold makeRoom
  split
  · rfl
  · apply List.eq_nil_of_length_eq_zero
    omega

@[simp]
theorem content_write (w : Buffered α capacity) (data : List α) :
    (w.write data).content = w.content ++ data := by
  rw [← w.content_makeRoom data]
  unfold write
  split
  · exact (List.append_assoc ..).symm
  · rename_i h
    simp [content, w.buf_makeRoom (Nat.le_of_not_lt h)]

@[simp]
theorem content_writeAll (w : Buffered α capacity) (pieces : List (List α)) :
    (w.writeAll pieces).content = w.content ++ pieces.flatten := by
  induction pieces generalizing w with
  | nil => simp [writeAll]
  | cons data rest ih =>
      change ((w.write data).writeAll rest).content = _
      rw [ih, content_write, List.flatten_cons, List.append_assoc]

end Buffered

end SocketTrail.Foundation
