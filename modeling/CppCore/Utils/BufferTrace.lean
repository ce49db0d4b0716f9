import CppCore.Utils.Buffer

/-!
# Reading and writing a buffer, with the bytes that are touched

A `TracedBuffer` is a `Buffer` that remembers which bytes of its data area were read and which
were written.  The typed readers and writers differ in how they align the position, in the
number of bytes they move and in how much they ask for when the buffer is full; apart from the
64-bit ones, which are put together from two 32-bit ones, each is an instance of `readNext` or
of `writeNext`.

A `float` is the bits of its representation.

## Main definitions

* `TracedBuffer`, `Buffer.traced` — a buffer with the ranges of bytes read and written.
* `Buffer.readUntil` — the loop that reads one byte after the other.
* `TracedBuffer.readNext`, `TracedBuffer.writeNext` — reading and writing at an aligned position.
* `Buffer.Settled.readUntil_eq` — what the loop reads, by `takeThrough`.
* `TracedBuffer.forget` — without the ranges, the operations are those of `Buffer`.
-/

namespace CppCore.Utils

open Lib

/-! ## Words -/

/-- `a`, rounded up to a multiple of two. -/
def align16 (a : ℕ) : ℕ := add32 a 1 / 2 * 2

/-- The lower half of a 64-bit word. -/
def low32bits (biggie : UInt64) : UInt32 := biggie.toUInt32

/-- The upper half of a 64-bit word. -/
def high32bits (biggie : UInt64) : UInt32 := low32bits (biggie >>> 32)

/-- The 64-bit word with the halves `high` and `low`. -/
def makeInt64 (high low : UInt32) : UInt64 := (high.toUInt64 <<< 32) ||| low.toUInt64

/-- The byte that was read; zero if none was. -/
def value8 : List UInt8 → UInt8
  | [a] => a
  | _ => 0

/-- The word whose bytes were read; zero if none were. -/
def value16 : List UInt8 → UInt16
  | [a, b] => ofBE16 a b
  | _ => 0

/-- The word whose bytes were read; zero if none were. -/
def value32 : List UInt8 → UInt32
  | [a, b, c, d] => ofBE32 a b c d
  | _ => 0

/-- The `float` with the bytes read, the last of which is the first in memory. -/
def valueFloat (host : Endian) : List UInt8 → UInt32
  | [a, b, c, d] => load32 host d c b a
  | _ => 0

/-- The bytes of a `float`, beginning with the last one in memory. -/
def bytesFloat : Endian → UInt32 → List UInt8
  | .little, data => be32 data
  | .big, data => (be32 data).reverse

@[simp] theorem length_bytesFloat (host : Endian) (data : UInt32) :
    (bytesFloat host data).length = 4 := by
  cases host <;> simp [bytesFloat]

/-! ## Traced buffers -/

/-- A buffer and the bytes of its data area that were touched. -/
structure TracedBuffer extends Buffer where
  /-- The ranges that were read: the first position and the number of bytes. -/
  reads : List (ℕ × ℕ)
  /-- The ranges that were written. -/
  writes : List (ℕ × ℕ)
  deriving DecidableEq, Repr

namespace Buffer

/-- The buffer before any of its bytes is touched. -/
def traced (b : Buffer) : TracedBuffer := { b with reads := [], writes := [] }

/-- The bytes from `pos` on, read one after the other: `n` of them, or fewer if `stop` holds of
one, which is then the last. -/
def readUntil (b : Buffer) (stop : UInt8 → Bool) : ℕ → ℕ → Exec (List UInt8)
  | _, 0 => .ok []
  | pos, n + 1 => do
    let byte ← b.cell pos
    if stop byte then
      .ok [byte]
    else
      let bytes ← b.readUntil stop (add32 pos 1) n
      .ok (byte :: bytes)

/-- The `n` bytes from `pos` on. -/
def readBytes (b : Buffer) (pos n : ℕ) : Exec (List UInt8) := b.readUntil (fun _ => false) pos n

/-- The new position of `jumpReadPos` and `jumpWritePos`; `abs` has no value at the least
`wf_int`. -/
def jump (b : Buffer) (pos : ℕ) (offset : ℤ) : Exec ℕ := do
  if offset < 0 then
    let tmp ← subInt32 0 offset
    .ok (if pos < tmp.toNat then 0 else pos - tmp.toNat)
  else if 0 < offset then
    let tmp := add32 offset.toNat pos
    .ok (if b.m_validBytes ≤ tmp then b.m_validBytes else tmp)
  else
    .ok pos

end Buffer

namespace TracedBuffer

/-! ## Reading -/

/-- Read a value of `n` bytes at the read position, aligned; no bytes if fewer are left. -/
def readNext (align : ℕ → ℕ) (n : ℕ) (t : TracedBuffer) : Exec (List UInt8 × TracedBuffer) := do
  let m_readPos := align t.m_readPos
  if sub32 t.m_validBytes m_readPos < n then
    .ok ([], { t with m_readPos })
  else
    let bytes ← t.readBytes m_readPos n
    .ok (bytes, { t with m_readPos := add32 m_readPos n, reads := (m_readPos, n) :: t.reads })

/-- `Buffer::readNext8bit`. -/
def readNext8bit (t : TracedBuffer) : Exec (UInt8 × TracedBuffer) :=
  (t.readNext id 1).map (Prod.map value8 id)

/-- `Buffer::readNext16bit`. -/
def readNext16bit (t : TracedBuffer) : Exec (UInt16 × TracedBuffer) :=
  (t.readNext align16 2).map (Prod.map value16 id)

/-- `Buffer::readNext32bit`. -/
def readNext32bit (t : TracedBuffer) : Exec (UInt32 × TracedBuffer) :=
  (t.readNext align32 4).map (Prod.map value32 id)

/-- `Buffer::readNextUnaligned16bit`. -/
def readNextUnaligned16bit (t : TracedBuffer) : Exec (UInt16 × TracedBuffer) :=
  (t.readNext id 2).map (Prod.map value16 id)

/-- `Buffer::readNextUnaligned32bit`. -/
def readNextUnaligned32bit (t : TracedBuffer) : Exec (UInt32 × TracedBuffer) :=
  (t.readNext id 4).map (Prod.map value32 id)

/-- `Buffer::readNextFloat`. -/
def readNextFloat (host : Endian) (t : TracedBuffer) : Exec (UInt32 × TracedBuffer) :=
  (t.readNext align32 4).map (Prod.map (valueFloat host) id)

/-- Two 32-bit reads, if eight bytes are left before the first. -/
def readNextHalves (half : TracedBuffer → Exec (UInt32 × TracedBuffer)) (t : TracedBuffer) :
    Exec (UInt64 × TracedBuffer) := do
  if sub32 t.m_validBytes t.m_readPos < 8 then
    .ok (0, t)
  else
    let (high, t) ← half t
    let (low, t) ← half t
    .ok (makeInt64 high low, t)

/-- `Buffer::readNextUnaligned64bit`. -/
def readNextUnaligned64bit : TracedBuffer → Exec (UInt64 × TracedBuffer) :=
  readNextHalves readNextUnaligned32bit

/-- `Buffer::readNext64bit`. -/
def readNext64bit : TracedBuffer → Exec (UInt64 × TracedBuffer) := readNextHalves readNext32bit

/-- `Buffer::readNextByteArray`: the value returned and the bytes copied; `memcpy` takes the
number of bytes as an unsigned one. -/
def readNextByteArray (n : ℤ) (t : TracedBuffer) : Exec ((ℤ × List UInt8) × TracedBuffer) := do
  let left ← subInt32 (int32 t.m_validBytes) (int32 t.m_readPos)
  let n := if left < n then left else n
  let count := (n % 2 ^ 32).toNat
  let data ← t.readBytes t.m_readPos count
  .ok ((n, data), { t with
    m_readPos := add32 t.m_readPos count
    reads := (t.m_readPos, count) :: t.reads })

/-- `Buffer::readNextCharString`: the value returned and the bytes stored from `dst` on. -/
def readNextCharString (n : ℕ) (t : TracedBuffer) : Exec ((ℤ × List UInt8) × TracedBuffer) := do
  let left := sub32 t.m_validBytes t.m_readPos
  let n := if left < n then left else n
  let dst ← t.readUntil (fun byte => byte = 0) t.m_readPos n
  let i := dst.idxOf 0
  let t := { t with
    m_readPos := add32 t.m_readPos i
    reads := (t.m_readPos, dst.length) :: t.reads }
  if 0 ∈ dst then
    .ok ((int32 i, dst), t)
  else if n = 0 then
    -- `dst[ n - 1 ]` is far behind the end of any object
    .error .outOfBounds
  else
    .ok ((-1, dst.set (n - 1) 0), t)

/-- `Buffer::getNextCharStringAlloc`: the string with its terminator, or `NULL`.  `strlen` runs
to the first NUL byte of the data area, or out of it. -/
def getNextCharStringAlloc (t : TracedBuffer) : Exec (Option (List UInt8) × TracedBuffer) := do
  match t.m_data with
  | none => .ok (none, t)
  | some cells =>
    let string ← t.readUntil (fun byte => byte = 0) t.m_readPos (cells.length - t.m_readPos + 1)
    let n := string.length
    let dst := if sub32 t.m_validBytes t.m_readPos < n then none else some string
    .ok (dst, { t with m_readPos := add32 t.m_readPos n, reads := (t.m_readPos, n) :: t.reads })

/-- `Buffer::getNextCharString`; `memchr` may look at all the bytes left. -/
def getNextCharString (t : TracedBuffer) : Exec (Option (List UInt8) × TracedBuffer) := do
  let (nextString, b) ← t.toBuffer.getNextCharString
  .ok (nextString, { b with
    reads := (t.m_readPos, t.m_validBytes - t.m_readPos) :: t.reads
    writes := t.writes })

/-! ## Writing -/

/-- `Buffer::enlargeData`, which copies the bytes below the write position. -/
def enlargeData (t : TracedBuffer) (amount : ℕ) : Exec (Bool × TracedBuffer) := do
  let (ok, b) ← t.toBuffer.enlargeData amount
  let copied := if t.m_resize ∧ t.m_data.isSome then [(0, t.m_writePos)] else []
  .ok (ok, { b with reads := copied ++ t.reads, writes := copied ++ t.writes })

/-- `!( m_dataLength - m_writePos < n ) || enlargeData( amount )`, the test before a write. -/
def makeRoom (n amount : ℕ) (t : TracedBuffer) : Exec (Bool × TracedBuffer) :=
  if !(sub32 t.m_dataLength t.m_writePos < n) then .ok (true, t) else t.enlargeData amount

/-- Store bytes at the write position. -/
def place (data : List UInt8) (t : TracedBuffer) : Exec TracedBuffer := do
  let m_data ← Buffer.store t.m_data t.m_writePos data
  let m_writePos := add32 t.m_writePos data.length
  let m_validBytes := if t.m_validBytes < m_writePos then m_writePos else t.m_validBytes
  .ok { t with
    m_data, m_writePos, m_validBytes
    writes := (t.m_writePos, data.length) :: t.writes }

/-- Write bytes at the write position, aligned; ask for `amount` more if they do not fit. -/
def writeNext (align : ℕ → ℕ) (amount : ℕ) (data : List UInt8) (t : TracedBuffer) :
    Exec (Bool × TracedBuffer) := do
  let (ok, t) ← makeRoom data.length amount { t with m_writePos := align t.m_writePos }
  if ok then
    let t ← t.place data
    .ok (true, t)
  else
    .ok (false, t)

/-- `Buffer::writeNext8bit`. -/
def writeNext8bit (data : UInt8) : TracedBuffer → Exec (Bool × TracedBuffer) :=
  writeNext id 4 [data]

/-- `Buffer::writeNext16bit`. -/
def writeNext16bit (data : UInt16) : TracedBuffer → Exec (Bool × TracedBuffer) :=
  writeNext align16 4 (be16 data)

/-- `Buffer::writeNext32bit`. -/
def writeNext32bit (data : UInt32) : TracedBuffer → Exec (Bool × TracedBuffer) :=
  writeNext align32 8 (be32 data)

/-- `Buffer::writeNextUnaligned16bit`. -/
def writeNextUnaligned16bit (data : UInt16) : TracedBuffer → Exec (Bool × TracedBuffer) :=
  writeNext id 4 (be16 data)

/-- `Buffer::writeNextUnaligned32bit`. -/
def writeNextUnaligned32bit (data : UInt32) : TracedBuffer → Exec (Bool × TracedBuffer) :=
  writeNext id 8 (be32 data)

/-- `Buffer::writeNextFloat`. -/
def writeNextFloat (host : Endian) (data : UInt32) : TracedBuffer → Exec (Bool × TracedBuffer) :=
  writeNext align32 8 (bytesFloat host data)

/-- Two 32-bit writes, whose results are not looked at, once there is room for eight bytes. -/
def writeNextHalves (half : UInt32 → TracedBuffer → Exec (Bool × TracedBuffer)) (data : UInt64)
    (t : TracedBuffer) : Exec (Bool × TracedBuffer) := do
  let (ok, t) ← t.makeRoom 8 16
  if ok then
    let (_, t) ← half (high32bits data) t
    let (_, t) ← half (low32bits data) t
    .ok (true, t)
  else
    .ok (false, t)

/-- `Buffer::writeNextUnaligned64bit`. -/
def writeNextUnaligned64bit : UInt64 → TracedBuffer → Exec (Bool × TracedBuffer) :=
  writeNextHalves writeNextUnaligned32bit

/-- `Buffer::writeNext64bit`. -/
def writeNext64bit : UInt64 → TracedBuffer → Exec (Bool × TracedBuffer) :=
  writeNextHalves writeNext32bit

/-- `Buffer::writeNextByteArray`. -/
def writeNextByteArray (data : List UInt8) : TracedBuffer → Exec (Bool × TracedBuffer) :=
  writeNext id (add32 (align32 data.length) 4) data

/-- `Buffer::writeNextCharString`; `NULL` is written as the empty string. -/
def writeNextCharString (data : Option CString) (t : TracedBuffer) :
    Exec (ℕ × TracedBuffer) := do
  let data := data.getD CString.empty
  let len := data.val.length + 1
  let (ok, t) ← t.writeNextByteArray data.bytes
  .ok (if ok then len else 0, t)

/-- `Buffer::writeNextBuffer( data )` for another buffer. -/
def writeNextBuffer (data : Buffer) (t : TracedBuffer) : Exec (Bool × TracedBuffer) := do
  let n := data.getLength
  let (ok, t) ← t.makeRoom n (align32 n)
  if ok then
    let bytes ← data.readBytes 0 n
    let t ← t.place bytes
    .ok (true, t)
  else
    .ok (false, t)

/-- `Buffer::writeNextBuffer( *this )`.  Growing frees the memory that is copied next, if the
buffer deletes its data; `memcpy` takes no ranges that overlap. -/
def writeNextBufferItself (m_deleteData : Bool) (t : TracedBuffer) :
    Exec (Bool × TracedBuffer) := do
  let n := t.getLength
  let (ok, u) ← t.makeRoom n (align32 n)
  if ok then
    let grown := sub32 t.m_dataLength t.m_writePos < n
    if (grown ∧ m_deleteData) ∨ (¬grown ∧ t.m_writePos < n) then
      .error .outOfBounds
    else
      let bytes ← t.readBytes 0 n
      let u ← u.place bytes
      .ok (true, u)
  else
    .ok (false, u)

/-! ## Moving the positions -/

/-- `Buffer::clear`. -/
def clear (t : TracedBuffer) : TracedBuffer :=
  { t with m_readPos := 0, m_writePos := 0, m_validBytes := 0 }

/-- `Buffer::reserve`. -/
def reserve (size : ℤ) (t : TracedBuffer) : Exec TracedBuffer := do
  let size := ((size - t.m_dataLength + 3) % 2 ^ 32).toNat / 4 * 4
  if int32 size < 0 then
    .ok t
  else
    let (_, t) ← t.enlargeData size
    .ok t

/-- `Buffer::setReadPos`. -/
def setReadPos (newPos : ℕ) (t : TracedBuffer) : ℕ × TracedBuffer :=
  let newPos := if t.m_validBytes < newPos then t.m_validBytes else newPos
  (t.m_readPos, { t with m_readPos := newPos })

/-- `Buffer::setWritePos`. -/
def setWritePos (newPos : ℕ) (t : TracedBuffer) : ℕ × TracedBuffer :=
  let newPos := if t.m_validBytes < newPos then t.m_validBytes else newPos
  (t.m_writePos, { t with m_writePos := newPos })

/-- `Buffer::jumpReadPos`. -/
def jumpReadPos (offset : ℤ) (t : TracedBuffer) : Exec (ℕ × TracedBuffer) := do
  let m_readPos ← t.jump t.m_readPos offset
  .ok (t.m_readPos, { t with m_readPos })

/-- `Buffer::jumpWritePos`. -/
def jumpWritePos (offset : ℤ) (t : TracedBuffer) : Exec (ℕ × TracedBuffer) := do
  let m_writePos ← t.jump t.m_writePos offset
  .ok (t.m_writePos, { t with m_writePos })

/-- `Buffer::jumpReadPosTo`. -/
def jumpReadPosTo (value : UInt8) (t : TracedBuffer) : Exec (ℕ × TracedBuffer) := do
  let bytes ← t.readUntil (fun byte => byte = value) t.m_readPos (t.m_validBytes - t.m_readPos)
  .ok (t.m_readPos, { t with
    m_readPos := add32 t.m_readPos (bytes.idxOf value)
    reads := (t.m_readPos, bytes.length) :: t.reads })

/-- Align the read position; by how much it moved. -/
def alignReadPos (align : ℕ → ℕ) (t : TracedBuffer) : ℕ × TracedBuffer :=
  (sub32 (align t.m_readPos) t.m_readPos, { t with m_readPos := align t.m_readPos })

/-- Align the write position; by how much it moved. -/
def alignWritePos (align : ℕ → ℕ) (t : TracedBuffer) : ℕ × TracedBuffer :=
  (sub32 (align t.m_writePos) t.m_writePos, { t with m_writePos := align t.m_writePos })

/-- `Buffer::alignReadPos16bit`. -/
def alignReadPos16bit : TracedBuffer → ℕ × TracedBuffer := alignReadPos align16

/-- `Buffer::alignReadPos32bit`. -/
def alignReadPos32bit : TracedBuffer → ℕ × TracedBuffer := alignReadPos align32

/-- `Buffer::alignWritePos16bit`. -/
def alignWritePos16bit : TracedBuffer → ℕ × TracedBuffer := alignWritePos align16

/-- `Buffer::alignWritePos32bit`. -/
def alignWritePos32bit : TracedBuffer → ℕ × TracedBuffer := alignWritePos align32

end TracedBuffer

/-! ## What the loop reads -/

/-- The elements of a list up to the first that `stop` holds of, which is the last. -/
def takeThrough {α : Type} (stop : α → Bool) : List α → List α
  | [] => []
  | x :: l => if stop x then [x] else x :: takeThrough stop l

section TakeThrough

variable {α : Type} {stop : α → Bool} {l : List α}

theorem length_takeThrough_le : (takeThrough stop l).length ≤ l.length := by
  induction l with
  | nil => rfl
  | cons x l ih =>
    rw [takeThrough]
    split
    · simp
    · simpa using ih

theorem takeThrough_false : takeThrough (fun _ => false) l = l := by
  induction l with
  | nil => rfl
  | cons x l ih => simp [takeThrough, ih]

theorem length_takeThrough [DecidableEq α] {a : α} (h : a ∈ l) :
    (takeThrough (fun x => x = a) l).length = l.idxOf a + 1 := by
  induction l with
  | nil => simp at h
  | cons x l ih =>
    by_cases hx : x = a
    · simp [takeThrough, hx]
    · have hmem : a ∈ l := by simpa [Ne.symm hx] using h
      simp [takeThrough, hx, List.idxOf_cons_ne l hx, ih hmem]

end TakeThrough

namespace Buffer

/-- The bytes in the data area, up to one nobody has written. -/
def contents (b : Buffer) : List UInt8 := initialized (b.m_data.getD [])

/-- Every cell of the data area holds a byte. -/
def Settled (b : Buffer) : Prop :=
  ∀ cells, b.m_data = some cells → ∃ bytes : List UInt8, cells = bytes.map some

theorem Settled.length_contents {b : Buffer} (h : b.Settled) (hsized : b.Sized) :
    b.contents.length = b.m_dataLength := by
  rw [Sized] at hsized
  rw [← hsized, contents]
  cases hdata : b.m_data with
  | none => rfl
  | some cells =>
    obtain ⟨bytes, rfl⟩ := h cells hdata
    simp

theorem Settled.cell_eq {b : Buffer} (h : b.Settled) (hdata : b.m_data ≠ none) (i : ℕ) :
    b.cell i = byteAt b.contents i := by
  obtain ⟨cells, hcells⟩ := Option.ne_none_iff_exists'.mp hdata
  obtain ⟨bytes, rfl⟩ := h cells hcells
  simp [cell, contents, hcells, deref, byteAt, List.getElem?_drop]

/-- **What the loop reads**: the bytes to the first it stops at, and never past the end. -/
theorem Settled.readUntil_eq {b : Buffer} (h : b.Settled) (hsized : b.Sized)
    (hword : b.m_dataLength < 2 ^ 32) (stop : UInt8 → Bool) (n : ℕ) {pos : ℕ}
    (hpos : pos ≤ b.m_dataLength) :
    b.readUntil stop pos n =
      if pos + n ≤ b.m_dataLength ∨ (b.contents.drop pos).any stop then
        .ok (takeThrough stop ((b.contents.drop pos).take n))
      else .error (if b.m_data = none then .nullPointer else .outOfBounds) := by
  have hlen := h.length_contents hsized
  induction n generalizing pos with
  | zero => simp [readUntil, takeThrough, hpos]
  | succ n ih =>
    rw [readUntil]
    by_cases hlt : pos < b.m_dataLength
    · have hdata : b.m_data ≠ none := by
        intro hnone
        simp [Sized, hnone] at hsized
        omega
      have hcons : b.contents.drop pos = b.contents[pos] :: b.contents.drop (pos + 1) :=
        List.drop_eq_getElem_cons (by omega)
      rw [h.cell_eq hdata, byteAt_of_lt (by omega), Exec.ok_bind, hcons]
      generalize b.contents[pos] = byte
      by_cases hstop : stop byte
      · simp [hstop, takeThrough]
      · rw [if_neg hstop, add32_of_lt (by omega), ih (by omega)]
        have hiff : pos + (n + 1) ≤ b.m_dataLength ↔ pos + 1 + n ≤ b.m_dataLength := by omega
        simp only [List.any_cons, hstop, Bool.false_or, hiff, List.take_succ_cons, takeThrough]
        split
        · simp
        · simp
    · have hdrop : b.contents.drop pos = [] := List.drop_eq_nil_iff.mpr (by omega)
      have hgt : ¬pos + (n + 1) ≤ b.m_dataLength := by omega
      by_cases hdata : b.m_data = none
      · simp [cell, hdata, deref, hdrop, hgt]
      · have hnone : b.contents[pos]? = none := List.getElem?_eq_none (by omega)
        simp [h.cell_eq hdata, byteAt, hnone, hdrop, hgt, hdata]

end Buffer

/-! ## Without the ranges -/

namespace TracedBuffer

section Forget

/-- The result of an operation without the ranges. -/
def forget {α : Type} (x : Exec (α × TracedBuffer)) : Exec (α × Buffer) :=
  x.map (Prod.map id toBuffer)

variable (t : TracedBuffer)

theorem forget_readNext8bit : forget t.readNext8bit = t.toBuffer.readNext8bit := by
  simp only [readNext8bit, readNext, Buffer.readNext8bit]
  by_cases h : sub32 t.m_validBytes t.m_readPos < 1
  · simp [forget, h, Except.map, value8]
  · cases hcell : t.cell t.m_readPos <;>
      simp [forget, h, Except.map, Buffer.readBytes, Buffer.readUntil, hcell, value8]

theorem forget_readNextUnaligned16bit :
    forget t.readNextUnaligned16bit = t.toBuffer.readNextUnaligned16bit := by
  simp only [readNextUnaligned16bit, readNext, Buffer.readNextUnaligned16bit]
  by_cases h : sub32 t.m_validBytes t.m_readPos < 2
  · simp [forget, h, Except.map, value16]
  · cases h₀ : t.cell t.m_readPos <;> cases h₁ : t.cell (add32 t.m_readPos 1) <;>
      simp [forget, h, Except.map, Buffer.readBytes, Buffer.readUntil, h₀, h₁, value16]

theorem forget_readNextUnaligned32bit :
    forget t.readNextUnaligned32bit = t.toBuffer.readNextUnaligned32bit := by
  simp only [readNextUnaligned32bit, readNext, Buffer.readNextUnaligned32bit]
  by_cases h : sub32 t.m_validBytes t.m_readPos < 4
  · simp [forget, h, Except.map, value32]
  · cases h₀ : t.cell t.m_readPos <;> cases h₁ : t.cell (add32 t.m_readPos 1) <;>
      cases h₂ : t.cell (add32 t.m_readPos 2) <;> cases h₃ : t.cell (add32 t.m_readPos 3) <;>
      simp [forget, h, Except.map, Buffer.readBytes, Buffer.readUntil, h₀, h₁, h₂, h₃, value32,
        add32_add32]

theorem forget_getNextCharString :
    forget t.getNextCharString = t.toBuffer.getNextCharString := by
  simp only [getNextCharString, forget]
  cases t.toBuffer.getNextCharString <;> simp [Except.map]

theorem forget_enlargeData (amount : ℕ) :
    forget (t.enlargeData amount) = t.toBuffer.enlargeData amount := by
  simp only [enlargeData, forget]
  cases t.toBuffer.enlargeData amount <;> simp [Except.map]

theorem forget_makeRoom (n amount : ℕ) :
    forget (t.makeRoom n amount) = t.toBuffer.makeRoom n amount := by
  simp only [makeRoom, Buffer.makeRoom]
  by_cases h : !(sub32 t.m_dataLength t.m_writePos < n)
  · rw [if_pos h, if_pos h]
    rfl
  · rw [if_neg h, if_neg h, forget_enlargeData]

theorem forget_writeNextByteArray (data : List UInt8) :
    forget (writeNextByteArray data t) = t.toBuffer.writeNextByteArray data := by
  rw [Buffer.writeNextByteArray, ← forget_makeRoom]
  simp only [writeNextByteArray, writeNext]
  have heta : { t with m_writePos := id t.m_writePos } = t := rfl
  rw [heta]
  cases hroom : t.makeRoom data.length (add32 (align32 data.length) 4) with
  | error e => simp [forget, Except.map]
  | ok r =>
    obtain ⟨ok, u⟩ := r
    cases ok
    · simp [forget, Except.map]
    · cases hstore : Buffer.store u.m_data u.m_writePos data <;>
        simp [forget, Except.map, place, hstore]

theorem forget_writeNextCharString (data : Option CString) :
    forget (writeNextCharString data t) = t.toBuffer.writeNextCharString data := by
  simp only [writeNextCharString, Buffer.writeNextCharString, ← forget_writeNextByteArray]
  cases writeNextByteArray (data.getD CString.empty).bytes t <;> simp [forget, Except.map]

theorem forget_reserve (size : ℤ) :
    (t.reserve size).map toBuffer = t.toBuffer.reserve size := by
  simp only [reserve, Buffer.reserve]
  generalize ((size - t.m_dataLength + 3) % 2 ^ 32).toNat / 4 * 4 = amount
  simp only [← forget_enlargeData]
  by_cases h : int32 amount < 0
  · simp [h, Except.map]
  · cases t.enlargeData amount <;> simp [forget, h, Except.map]

end Forget

end TracedBuffer

end CppCore.Utils
