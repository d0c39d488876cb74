import ClawHdf5.Math.Bytes
import ClawHdf5.Math.Overwrite
import ClawHdf5.Math.Stateful

/-!
# Random-access storage

What a program may do with a file, with each operation free to fail, and what it may rely
on when the file stores bytes as it should.
-/

namespace ClawHdf5

open Bytes Stateful Overwrite

/-- An error of the storage backend. -/
inductive IoError
  | unexpectedEof
  | invalidInput (message : String)
  | other (code : ℕ)
  deriving DecidableEq

/-- A type that can be read, written and seeked. -/
class Storage (W : Type) where
  /-- Seek to an offset from the start, and return it. -/
  seekStart (offset : ℕ) : EStateM IoError W ℕ
  /-- Seek to the end, and return its offset. -/
  seekEnd : EStateM IoError W ℕ
  /-- Fill a buffer of `n` bytes from the current position. -/
  readExact (n : ℕ) : EStateM IoError W (Fixed n)
  /-- Write all of `data` at the current position. -/
  writeAll (data : Bytes) : EStateM IoError W Unit
  /-- Push buffered writes out. -/
  flush : EStateM IoError W Unit

/-- A storage whose state is a byte string and a position. Seeks succeed, reads succeed
inside the file, and a write or a flush that succeeds did what it says. -/
class LawfulStorage (W : Type) [Storage W] where
  /-- The bytes stored. -/
  bytes : W → Bytes
  /-- The current position. -/
  position : W → ℕ
  /-- A fresh handle on stored bytes. -/
  mount : Bytes → W
  /-- Whether writes and flushes can fail. -/
  mayFail : Prop
  bytes_mount (bs : Bytes) : bytes (mount bs) = bs
  ensures_seekStart (offset : ℕ) (w : W) :
    Ensures (fun _ w' => bytes w' = bytes w ∧ position w' = offset) (fun _ _ => False)
      (Storage.seekStart offset w)
  ensures_seekEnd (w : W) :
    Ensures (fun n w' => n = (bytes w).length ∧ bytes w' = bytes w ∧
      position w' = (bytes w).length) (fun _ _ => False) (Storage.seekEnd w)
  ensures_readExact (n : ℕ) (w : W) (h : position w + n ≤ (bytes w).length) :
    Ensures (fun buf w' => buf.1 = ((bytes w).drop (position w)).take n ∧ bytes w' = bytes w)
      (fun _ _ => False) (Storage.readExact n w)
  ensures_writeAll (data : Bytes) (w : W) (h : position w ≤ (bytes w).length) :
    Ensures (fun _ w' => bytes w' = overwrite (bytes w) (position w) data ∧
      position w' = position w + data.length) (fun _ _ => mayFail) (Storage.writeAll data w)
  ensures_flush (w : W) :
    Ensures (fun _ w' => bytes w' = bytes w ∧ position w' = position w) (fun _ _ => mayFail)
      (Storage.flush w)

/-- A storage whose writes happen as a whole or not at all. -/
class AtomicStorage (W : Type) [Storage W] [LawfulStorage W] : Prop where
  ensures_writeAll_error (data : Bytes) (w : W) :
    Ensures (fun _ _ => True) (fun _ w' => LawfulStorage.bytes w' = LawfulStorage.bytes w)
      (Storage.writeAll data w)
  ensures_flush_error (w : W) :
    Ensures (fun _ _ => True) (fun _ w' => LawfulStorage.bytes w' = LawfulStorage.bytes w)
      (Storage.flush w)

/-- An in-memory byte vector with a position. -/
structure Cursor where
  bytes : Bytes
  position : ℕ
  deriving DecidableEq

namespace Cursor

instance : Storage Cursor where
  seekStart offset c := .ok offset { c with position := offset }
  seekEnd c := .ok c.bytes.length { c with position := c.bytes.length }
  readExact n c :=
    if h : c.position + n ≤ c.bytes.length then
      .ok ⟨(c.bytes.drop c.position).take n, by
        simp only [List.length_take, List.length_drop]; omega⟩
        { c with position := c.position + n }
    else .error .unexpectedEof { c with position := c.bytes.length }
  -- A write past the end fills the gap with zeros.
  writeAll data c :=
    .ok () ⟨overwrite (c.bytes ++ List.replicate (c.position - c.bytes.length) 0) c.position data,
      c.position + data.length⟩
  flush c := .ok () c

instance : LawfulStorage Cursor where
  bytes := Cursor.bytes
  position := Cursor.position
  mount bs := ⟨bs, 0⟩
  mayFail := False
  bytes_mount _ := rfl
  ensures_seekStart _ _ := ⟨rfl, rfl⟩
  ensures_seekEnd _ := ⟨rfl, rfl, rfl⟩
  ensures_readExact n c h := by
    simp [Storage.readExact, dif_pos h, ensures_ok]
  ensures_writeAll data c h := by
    simp [Storage.writeAll, ensures_ok, Nat.sub_eq_zero_of_le h]
  ensures_flush _ := ⟨rfl, rfl⟩

instance : AtomicStorage Cursor where
  ensures_writeAll_error _ _ := trivial
  ensures_flush_error _ := trivial

end Cursor

/-- A byte vector that loses power: only a number of writes still succeed. -/
structure FailingCursor where
  cursor : Cursor
  /-- The number of writes that will succeed. -/
  writesLeft : ℕ
  deriving DecidableEq

namespace FailingCursor

/-- An operation of the byte vector that is not a write. -/
def onCursor {α : Type} (x : EStateM IoError Cursor α) : EStateM IoError FailingCursor α :=
  within cursor (fun f c => { f with cursor := c }) id x

instance : Storage FailingCursor where
  seekStart offset := onCursor (Storage.seekStart offset)
  seekEnd := onCursor Storage.seekEnd
  readExact n := onCursor (Storage.readExact n)
  writeAll data f :=
    match f.writesLeft with
    | 0 => .error (.other 0) f
    | n + 1 => onCursor (Storage.writeAll data) { f with writesLeft := n }
  flush f :=
    match f.writesLeft with
    | 0 => .error (.other 0) f
    | _ + 1 => .ok () f

instance : LawfulStorage FailingCursor where
  bytes f := f.cursor.bytes
  position f := f.cursor.position
  mount bs := ⟨⟨bs, 0⟩, 0⟩
  mayFail := True
  bytes_mount _ := rfl
  ensures_seekStart _ _ := ⟨rfl, rfl⟩
  ensures_seekEnd _ := ⟨rfl, rfl, rfl⟩
  ensures_readExact n f h := by
    change Ensures _ _ (onCursor (Storage.readExact n) f)
    rw [onCursor, ensures_within]
    exact LawfulStorage.ensures_readExact n f.cursor h
  ensures_writeAll data f h := by
    obtain ⟨cursor, writesLeft⟩ := f
    cases writesLeft with
    | zero => exact trivial
    | succ n =>
      change Ensures _ _ (onCursor (Storage.writeAll data) ⟨cursor, n⟩)
      rw [onCursor, ensures_within]
      exact (LawfulStorage.ensures_writeAll data cursor h).mono (fun _ _ h => h)
        fun _ _ _ => trivial
  ensures_flush f := by
    obtain ⟨cursor, writesLeft⟩ := f
    cases writesLeft with
    | zero => exact trivial
    | succ n => exact ⟨rfl, rfl⟩

instance : AtomicStorage FailingCursor where
  ensures_writeAll_error data f := by
    obtain ⟨cursor, writesLeft⟩ := f
    cases writesLeft with
    | zero => rfl
    | succ n => exact trivial
  ensures_flush_error f := by
    obtain ⟨cursor, writesLeft⟩ := f
    cases writesLeft with
    | zero => rfl
    | succ n => exact trivial

end FailingCursor

end ClawHdf5
