import CppCore.Lib.Run
import CppCore.Utils.BufferTrace

/-!
# Operations of a buffer, and its bounds

The operations of a resizable buffer move three positions.  They rely on the read position not
being past the valid bytes, and the write position not being past the data area, because the
checks subtract unsigned numbers; but alignment moves a position before it is checked, and some
operations look past the valid bytes or compute with signed numbers.

A run is a list of operations, each with the bytes that memory holds which nobody has written.

## Main definitions

* `BufferOp`, `BufferOp.perform` — the operations.
* `Buffer.step` — what one of them does to a buffer, on a `host` with a byte order.
* `TracedBuffer.WithinBounds` — the positions and the bytes touched are where they should be.
* `BufferOp.Fits` — the condition on a buffer under which an operation leaves it so.
* `Buffer.Sound`, `TracedBuffer.Good` — the invariant, and with it the bytes touched.
-/

namespace CppCore.Utils

open Lib

/-! ## Operations -/

/-- An operation of a buffer. -/
inductive BufferOp
  | readNext8bit
  | readNext16bit
  | readNext32bit
  | readNext64bit
  | readNextUnaligned16bit
  | readNextUnaligned32bit
  | readNextUnaligned64bit
  | readNextFloat
  | writeNext8bit (data : UInt8)
  | writeNext16bit (data : UInt16)
  | writeNext32bit (data : UInt32)
  | writeNext64bit (data : UInt64)
  | writeNextUnaligned16bit (data : UInt16)
  | writeNextUnaligned32bit (data : UInt32)
  | writeNextUnaligned64bit (data : UInt64)
  | writeNextFloat (data : UInt32)
  | readNextByteArray (n : Int32)
  | writeNextByteArray (data : { l : List UInt8 // l.length ≤ maxObject })
  | readNextCharString (n : UInt32)
  | getNextCharStringAlloc
  | getNextCharString
  | writeNextCharString (data : Option CString)
  | setReadPos (newPos : UInt32)
  | setWritePos (newPos : UInt32)
  | jumpReadPos (offset : Int32)
  | jumpWritePos (offset : Int32)
  | jumpReadPosTo (value : UInt8)
  | alignReadPos16bit
  | alignReadPos32bit
  | alignWritePos16bit
  | alignWritePos32bit
  | clear
  | reserve (size : Fin (2 ^ 31))

/-- The buffer an operation leaves, whatever it returns. -/
def after {α : Type} (x : Exec (α × TracedBuffer)) : Exec TracedBuffer := x.map Prod.snd

/-- Perform an operation. -/
def BufferOp.perform (host : Endian) (t : TracedBuffer) : BufferOp → Exec TracedBuffer
  | readNext8bit => after t.readNext8bit
  | readNext16bit => after t.readNext16bit
  | readNext32bit => after t.readNext32bit
  | readNext64bit => after t.readNext64bit
  | readNextUnaligned16bit => after t.readNextUnaligned16bit
  | readNextUnaligned32bit => after t.readNextUnaligned32bit
  | readNextUnaligned64bit => after t.readNextUnaligned64bit
  | readNextFloat => after (t.readNextFloat host)
  | writeNext8bit data => after (t.writeNext8bit data)
  | writeNext16bit data => after (t.writeNext16bit data)
  | writeNext32bit data => after (t.writeNext32bit data)
  | writeNext64bit data => after (t.writeNext64bit data)
  | writeNextUnaligned16bit data => after (t.writeNextUnaligned16bit data)
  | writeNextUnaligned32bit data => after (t.writeNextUnaligned32bit data)
  | writeNextUnaligned64bit data => after (t.writeNextUnaligned64bit data)
  | writeNextFloat data => after (t.writeNextFloat host data)
  | readNextByteArray n => after (t.readNextByteArray n.toInt)
  | writeNextByteArray data => after (t.writeNextByteArray data.val)
  | readNextCharString n => after (t.readNextCharString n.toNat)
  | getNextCharStringAlloc => after t.getNextCharStringAlloc
  | getNextCharString => after t.getNextCharString
  | writeNextCharString data => after (t.writeNextCharString data)
  | setReadPos newPos => .ok (t.setReadPos newPos.toNat).2
  | setWritePos newPos => .ok (t.setWritePos newPos.toNat).2
  | jumpReadPos offset => after (t.jumpReadPos offset.toInt)
  | jumpWritePos offset => after (t.jumpWritePos offset.toInt)
  | jumpReadPosTo value => after (t.jumpReadPosTo value)
  | alignReadPos16bit => .ok t.alignReadPos16bit.2
  | alignReadPos32bit => .ok t.alignReadPos32bit.2
  | alignWritePos16bit => .ok t.alignWritePos16bit.2
  | alignWritePos32bit => .ok t.alignWritePos32bit.2
  | clear => .ok t.clear
  | reserve size => t.reserve size.val

/-- The buffer, with `garbage` in the cells nobody has written. -/
def Buffer.settle (garbage : ℕ → UInt8) (b : Buffer) : Buffer :=
  { b with m_data := b.m_data.map fun cells =>
      (cells.mapIdx fun i cell => cell.getD (garbage i)).map some }

/-- An operation, and what is in memory nobody has written. -/
abbrev BufferAction := BufferOp × (ℕ → UInt8)

/-- Perform an operation on a buffer, from which bytes it touches. -/
def BufferAction.exec (host : Endian) (b : Buffer) (a : BufferAction) : Exec TracedBuffer :=
  a.1.perform host (b.settle a.2).traced

/-- The buffer after an operation, if it has a value. -/
def Buffer.step (host : Endian) (b : Buffer) (a : BufferAction) : Option Buffer :=
  (BufferAction.exec host b a).toOption.map TracedBuffer.toBuffer

/-! ## Bounds -/

/-- Every byte of the ranges lies below a limit. -/
def Below (ranges : List (ℕ × ℕ)) (limit : ℕ) : Prop :=
  ∀ r ∈ ranges, ∀ i < r.2, r.1 + i < limit

instance (ranges : List (ℕ × ℕ)) (limit : ℕ) : Decidable (Below ranges limit) :=
  inferInstanceAs (Decidable (∀ r ∈ ranges, ∀ i < r.2, r.1 + i < limit))

/-- The read position is not past the valid bytes, they and the write position not past the data
area; every byte read is valid, and every byte written lies in the data area. -/
def TracedBuffer.WithinBounds (t : TracedBuffer) : Prop :=
  (t.m_readPos ≤ t.m_validBytes ∧ t.m_validBytes ≤ t.m_dataLength) ∧
    t.m_writePos ≤ t.m_dataLength ∧ Below t.reads t.m_validBytes ∧ Below t.writes t.m_dataLength

instance (t : TracedBuffer) : Decidable t.WithinBounds :=
  inferInstanceAs (Decidable (_ ∧ _ ∧ _ ∧ _))

/-- An action has a value and leaves the buffer within bounds. -/
def StaysWithinBounds (host : Endian) (b : Buffer) (a : BufferAction) : Prop :=
  ∃ t, BufferAction.exec host b a = .ok t ∧ t.WithinBounds

instance (host : Endian) (b : Buffer) (a : BufferAction) : Decidable (StaysWithinBounds host b a) :=
  match h : BufferAction.exec host b a with
  | .ok t => decidable_of_iff t.WithinBounds (by simp [StaysWithinBounds, h])
  | .error _ => isFalse (by simp [StaysWithinBounds, h])

namespace Buffer

/-- A write of `n` bytes at `pos` starts in the data area and either fits there or lets it grow,
by `amount` or a quarter, to a length that is a word. -/
def HasRoom (b : Buffer) (pos n amount : ℕ) : Prop :=
  pos ≤ b.m_dataLength ∧
    (b.m_dataLength < pos + n → b.m_dataLength + max amount (b.m_dataLength / 4) < 2 ^ 32)

/-- Some byte between the read position and the end of the valid bytes is NUL. -/
def HasString (b : Buffer) : Prop :=
  0 ∈ (b.contents.drop b.m_readPos).take (b.m_validBytes - b.m_readPos)

/-- The bytes by which `reserve` asks the data area to grow. -/
def reserveAmount (b : Buffer) (size : ℤ) : ℕ :=
  ((size - b.m_dataLength + 3) % 2 ^ 32).toNat / 4 * 4

end Buffer

/-- The condition under which an operation leaves a buffer within bounds. -/
def BufferOp.Fits (b : Buffer) : BufferOp → Prop
  | readNext16bit | alignReadPos16bit => align16 b.m_readPos ≤ b.m_validBytes
  | readNext32bit | readNextFloat | alignReadPos32bit => align32 b.m_readPos ≤ b.m_validBytes
  | writeNext8bit _ => b.HasRoom b.m_writePos 1 4
  | writeNext16bit _ => b.HasRoom (align16 b.m_writePos) 2 4
  | writeNext32bit _ | writeNextFloat _ => b.HasRoom (align32 b.m_writePos) 4 8
  | writeNext64bit _ => b.HasRoom b.m_writePos 8 16 ∧
      (b.m_writePos + 8 ≤ b.m_dataLength → b.HasRoom (align32 b.m_writePos) 8 8)
  | writeNextUnaligned16bit _ => b.HasRoom b.m_writePos 2 4
  | writeNextUnaligned32bit _ => b.HasRoom b.m_writePos 4 8
  | writeNextUnaligned64bit _ => b.HasRoom b.m_writePos 8 16
  | writeNextByteArray data =>
    b.HasRoom b.m_writePos data.val.length (add32 (align32 data.val.length) 4)
  | writeNextCharString data =>
    let len := (data.getD CString.empty).bytes.length
    b.HasRoom b.m_writePos len (add32 (align32 len) 4)
  | readNextByteArray n =>
    2 ^ 31 ≤ b.m_validBytes - b.m_readPos ∨
      0 ≤ n.toInt ∧ (b.m_validBytes < 2 ^ 31 ∨ 2 ^ 31 ≤ b.m_readPos)
  | readNextCharString n => 0 < n.toNat ∧ b.m_readPos < b.m_validBytes
  | getNextCharStringAlloc => b.m_data = none ∨ b.HasString
  | jumpReadPos offset | jumpWritePos offset => offset.toInt ≠ -2 ^ 31
  | alignWritePos16bit => align16 b.m_writePos ≤ b.m_dataLength
  | alignWritePos32bit => align32 b.m_writePos ≤ b.m_dataLength
  | reserve size =>
    int32 (b.reserveAmount size.val) < 0 ∨ b.m_writePos ≤ b.m_validBytes ∧
      b.m_validBytes ≤ b.grownLength (b.reserveAmount size.val)
  | readNext8bit | readNextUnaligned16bit | readNextUnaligned32bit | readNextUnaligned64bit
  | readNext64bit | getNextCharString | setReadPos _ | setWritePos _ | jumpReadPosTo _ | clear =>
    True

/-- The operation fits the buffer as it is in memory. -/
def BufferAction.Fits (b : Buffer) (a : BufferAction) : Prop := a.1.Fits (b.settle a.2)

/-! ## Ranges and results -/

@[simp] theorem below_nil (limit : ℕ) : Below [] limit := by simp [Below]

@[simp] theorem below_cons {pos n limit : ℕ} {ranges : List (ℕ × ℕ)} :
    Below ((pos, n) :: ranges) limit ↔ (n = 0 ∨ pos + n ≤ limit) ∧ Below ranges limit := by
  simp only [Below, List.forall_mem_cons, and_congr_left_iff]
  intro _
  constructor
  · intro h
    by_cases hn : n = 0
    · exact .inl hn
    · have := h (n - 1) (by omega)
      omega
  · intro h i hi
    omega

theorem Below.mono {ranges : List (ℕ × ℕ)} {l m : ℕ} (h : Below ranges l) (hlm : l ≤ m) :
    Below ranges m := fun r hr i hi => (h r hr i hi).trans_le hlm

theorem after_eq_ok {α : Type} {x : Exec (α × TracedBuffer)} {t : TracedBuffer} :
    after x = .ok t ↔ ∃ a, x = .ok (a, t) := by
  cases x <;> simp [after, Except.map, Prod.ext_iff, eq_comm]

@[simp] theorem after_map {α β : Type} (f : α → β) (x : Exec (α × TracedBuffer)) :
    after (x.map (Prod.map f id)) = after x := by
  cases x <;> rfl

/-! ## The invariant -/

namespace Buffer

/-- What holds of a buffer between two operations. -/
structure Sound (b : Buffer) : Prop where
  resize : b.m_resize = true
  sized : b.Sized
  word : b.m_dataLength < 2 ^ 32
  read : b.m_readPos ≤ b.m_validBytes
  valid : b.m_validBytes ≤ b.m_dataLength
  write : b.m_writePos ≤ b.m_dataLength

theorem sound_ofLength (length : ℕ) : (ofLength length).Sound where
  resize := rfl
  sized := sized_ofLength length
  word := by
    simp only [ofLength, align32, add32]
    omega
  read := Nat.le_refl 0
  valid := Nat.zero_le _
  write := Nat.zero_le _

theorem settled_settle (garbage : ℕ → UInt8) (b : Buffer) : (b.settle garbage).Settled := by
  intro cells h
  obtain ⟨old, -, rfl⟩ := Option.map_eq_some_iff.mp h
  exact ⟨_, rfl⟩

theorem Sound.settle {b : Buffer} (h : b.Sound) (garbage : ℕ → UInt8) :
    (b.settle garbage).Sound where
  resize := h.resize
  sized := by
    have hsized := h.sized
    simp only [Sized] at hsized ⊢
    simp only [Buffer.settle]
    rw [← hsized]
    cases b.m_data <;> simp
  word := h.word
  read := h.read
  valid := h.valid
  write := h.write

end Buffer

namespace TracedBuffer

/-- The same of a traced buffer, with the bytes it has touched within bounds. -/
structure Good (t : TracedBuffer) : Prop where
  sound : t.toBuffer.Sound
  reads : Below t.reads t.m_validBytes
  writes : Below t.writes t.m_dataLength

theorem Good.withinBounds {t : TracedBuffer} (h : t.Good) : t.WithinBounds :=
  ⟨⟨h.sound.read, h.sound.valid⟩, h.sound.write, h.reads, h.writes⟩

variable {t t' : TracedBuffer}

theorem Good.moveRead (h : t.Good) {pos : ℕ} (hpos : pos ≤ t.m_validBytes) :
    Good { t with m_readPos := pos } :=
  ⟨{ h.sound with read := hpos }, h.reads, h.writes⟩

theorem Good.moveWrite (h : t.Good) {pos : ℕ} (hpos : pos ≤ t.m_dataLength) :
    Good { t with m_writePos := pos } :=
  ⟨{ h.sound with write := hpos }, h.reads, h.writes⟩

theorem Good.addRead (h : t.Good) {pos n : ℕ} (hn : n = 0 ∨ pos + n ≤ t.m_validBytes) :
    Good { t with reads := (pos, n) :: t.reads } :=
  ⟨h.sound, below_cons.mpr ⟨hn, h.reads⟩, h.writes⟩

end TracedBuffer

/-! ## Alignments -/

/-- What the readers and writers need of an alignment. -/
structure Aligns (align : ℕ → ℕ) : Prop where
  le : ∀ a, align a ≤ a + 3
  ge : ∀ a, a + 3 < 2 ^ 32 → a ≤ align a
  again : ∀ a, a + 7 < 2 ^ 32 → align (align a + 4) = align a + 4

theorem aligns_id : Aligns id := by
  constructor <;> simp

theorem aligns_align16 : Aligns align16 := by
  constructor <;> intro a <;> simp only [align16, add32] <;> omega

theorem aligns_align32 : Aligns align32 := by
  constructor <;> intro a <;> simp only [align32, add32] <;> omega

end CppCore.Utils
