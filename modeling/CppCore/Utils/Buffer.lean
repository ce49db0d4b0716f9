import CppCore.Lib.Words
import CppCore.Lib.Machine

/-!
# Buffers

`Buffer` is a block of memory with a read position, a write position and a number of valid
bytes.  A `Buffer` of its own grows when a write does not fit; a `NonOwningBuffer` reads memory
of somebody else.  Growing allocates new memory, of which only the bytes below the write
position are initialized; a cell nobody has written is `none`.

Signed values are read as their bits.  Memory is never exhausted and freeing it, which is all
`m_deleteData` decides, is left out.

## Main definitions

* `Buffer`, `Buffer.ofLength`, `Buffer.nonOwning` — a buffer and its constructors.
* `Buffer.window` — a `NonOwningBuffer` between the bytes read and those still to be read; the
  readers move bytes from one to the other.
* `Buffer.Holds` — the valid bytes of a buffer are initialized and known.
-/

namespace CppCore.Utils

open Lib

/-- A buffer. -/
structure Buffer where
  /-- The memory behind the data pointer. -/
  m_data : Option (List (Option UInt8))
  /-- Actual size of the data area. -/
  m_dataLength : ℕ
  /-- Current read position. -/
  m_readPos : ℕ
  /-- Current write position. -/
  m_writePos : ℕ
  /-- Number of valid bytes in the buffer. -/
  m_validBytes : ℕ
  /-- Whether the buffer may resize on its own. -/
  m_resize : Bool
  deriving DecidableEq, Repr

/-- The initialized bytes at the start of a range of memory. -/
def initialized : List (Option UInt8) → List UInt8
  | some b :: cells => b :: initialized cells
  | _ => []

namespace Buffer

/-! ## The operations -/

/-- `Buffer::Buffer( length )`: zeroed memory, or none for the length zero. -/
def ofLength (length : ℕ := 4) : Buffer where
  m_data := if align32 length = 0 then none else some (List.replicate (align32 length) (some 0))
  m_dataLength := align32 length
  m_readPos := 0
  m_writePos := 0
  m_validBytes := 0
  m_resize := true

/-- `NonOwningBuffer::NonOwningBuffer( bufferData, len )`. -/
def nonOwning (bufferData : List UInt8) (len : ℕ) : Buffer where
  m_data := some (bufferData.map some)
  m_dataLength := len
  m_readPos := 0
  m_writePos := len
  m_validBytes := len
  m_resize := false

/-- Copy bytes to a position of the data area. -/
def store (m_data : Option (List (Option UInt8))) (pos : ℕ) (data : List UInt8) :
    Exec (Option (List (Option UInt8))) :=
  match m_data with
  | none => if data = [] then .ok none else .error .nullPointer
  | some cells =>
    if pos + data.length ≤ cells.length then
      .ok (some (cells.take pos ++ data.map some ++ cells.drop (pos + data.length)))
    else
      .error .outOfBounds

/-- `m_data[ i ]`, read. -/
def cell (b : Buffer) (i : ℕ) : Exec UInt8 := do
  let cells ← deref b.m_data
  byteAt (initialized (cells.drop i)) 0

/-- `Buffer::enlargeData`. -/
def enlargeData (b : Buffer) (amount : ℕ) : Exec (Bool × Buffer) := do
  let amount := max amount (b.m_dataLength / 4)
  if b.m_resize then
    let newLength := add32 b.m_dataLength amount
    let tmp := List.replicate newLength none
    match b.m_data with
    | none => .ok (true, { b with m_data := some tmp, m_dataLength := newLength })
    | some cells =>
      if b.m_writePos ≤ cells.length ∧ b.m_writePos ≤ newLength then
        .ok (true, { b with
          m_data := some (cells.take b.m_writePos ++ tmp.drop b.m_writePos)
          m_dataLength := newLength })
      else
        .error .outOfBounds
  else
    .ok (false, b)

/-- `Buffer::clear`. -/
def clear (b : Buffer) : Buffer := { b with m_readPos := 0, m_writePos := 0, m_validBytes := 0 }

/-- `Buffer::reserve`: the computation is unsigned, its result is looked at as signed. -/
def reserve (b : Buffer) (size : ℤ) : Exec Buffer := do
  let size := ((size - b.m_dataLength + 3) % 2 ^ 32).toNat / 4 * 4
  if int32 size < 0 then
    .ok b
  else
    let (_, b) ← b.enlargeData size
    .ok b

/-- `!( m_dataLength - m_writePos < n ) || enlargeData( amount )`, the test before a write. -/
def makeRoom (b : Buffer) (n amount : ℕ) : Exec (Bool × Buffer) :=
  if !(sub32 b.m_dataLength b.m_writePos < n) then .ok (true, b) else b.enlargeData amount

/-- `Buffer::writeNextByteArray`. -/
def writeNextByteArray (b : Buffer) (data : List UInt8) : Exec (Bool × Buffer) := do
  let n := data.length
  let (ok, b) ← b.makeRoom n (add32 (align32 n) 4)
  if ok then
    let m_data ← store b.m_data b.m_writePos data
    let m_writePos := add32 b.m_writePos n
    let m_validBytes := if b.m_validBytes < m_writePos then m_writePos else b.m_validBytes
    .ok (true, { b with m_data, m_writePos, m_validBytes })
  else
    .ok (false, b)

/-- `Buffer::writeNextCharString`; `NULL` is written as the empty string. -/
def writeNextCharString (b : Buffer) (data : Option CString) : Exec (ℕ × Buffer) := do
  let data := data.getD CString.empty
  let len := data.val.length + 1
  let (ok, b) ← b.writeNextByteArray data.bytes
  .ok (if ok then len else 0, b)

/-- `Buffer::readNext8bit`. -/
def readNext8bit (b : Buffer) : Exec (UInt8 × Buffer) := do
  if sub32 b.m_validBytes b.m_readPos < 1 then
    .ok (0, b)
  else
    let data ← b.cell b.m_readPos
    .ok (data, { b with m_readPos := add32 b.m_readPos 1 })

/-- `Buffer::readNextUnaligned16bit`. -/
def readNextUnaligned16bit (b : Buffer) : Exec (UInt16 × Buffer) := do
  if sub32 b.m_validBytes b.m_readPos < 2 then
    .ok (0, b)
  else
    let b₀ ← b.cell b.m_readPos
    let b₁ ← b.cell (add32 b.m_readPos 1)
    .ok (ofBE16 b₀ b₁, { b with m_readPos := add32 b.m_readPos 2 })

/-- `Buffer::readNextUnaligned32bit`. -/
def readNextUnaligned32bit (b : Buffer) : Exec (UInt32 × Buffer) := do
  if sub32 b.m_validBytes b.m_readPos < 4 then
    .ok (0, b)
  else
    let b₀ ← b.cell b.m_readPos
    let b₁ ← b.cell (add32 b.m_readPos 1)
    let b₂ ← b.cell (add32 b.m_readPos 2)
    let b₃ ← b.cell (add32 b.m_readPos 3)
    .ok (ofBE32 b₀ b₁ b₂ b₃, { b with m_readPos := add32 b.m_readPos 4 })

/-- `Buffer::getNextCharString`: the memory behind the pointer to the string, or `NULL` when no
NUL byte lies between the read position and the end of the valid bytes. -/
def getNextCharString (b : Buffer) : Exec (Option (List UInt8) × Buffer) := do
  if b.m_readPos < b.m_validBytes then
    let cells ← deref b.m_data
    let bytes := initialized (cells.drop b.m_readPos)
    let range := bytes.take (b.m_validBytes - b.m_readPos)
    if 0 ∈ range then
      .ok (some bytes, { b with m_readPos := b.m_readPos + range.idxOf 0 + 1 })
    else if range.length = b.m_validBytes - b.m_readPos then
      .ok (none, b)
    else
      .error .outOfBounds
  else
    .ok (none, b)

/-- `Buffer::getLength`. -/
def getLength (b : Buffer) : ℕ := b.m_validBytes

/-- `Buffer::remaining`. -/
def remaining (b : Buffer) : Exec ℕ := do
  let rem ← subInt32 (int32 b.m_validBytes) (int32 b.m_readPos)
  .ok (if 0 ≤ rem then rem.toNat else 0)

/-- `Buffer::accessRawData`: the initialized memory behind the pointer, or `NULL`. -/
def accessRawData (b : Buffer) (index : ℕ := 2 ^ 32 - 1) : Option (List UInt8) :=
  let index := if index = 2 ^ 32 - 1 then b.m_readPos else index
  match b.m_data with
  | some cells => if index < b.m_validBytes then some (initialized (cells.drop index)) else none
  | none => none

end Buffer

/-! ## Reading memory of somebody else -/

@[simp] theorem initialized_map_some (l : List UInt8) : initialized (l.map some) = l := by
  induction l with
  | nil => rfl
  | cons b l ih => simp [initialized, ih]

@[simp] theorem initialized_drop_map_some (l : List UInt8) (i : ℕ) :
    initialized ((l.map some).drop i) = l.drop i := by
  rw [← List.map_drop, initialized_map_some]

namespace Buffer

/-- A `NonOwningBuffer` that has read `pre` and has `post` still to read. -/
def window (pre post : List UInt8) : Buffer :=
  { nonOwning (pre ++ post) (pre ++ post).length with m_readPos := pre.length }

theorem nonOwning_eq_window (data : List UInt8) :
    nonOwning data data.length = window [] data := rfl

section Window

variable {pre post : List UInt8}

@[simp] theorem m_readPos_window : (window pre post).m_readPos = pre.length := rfl
@[simp] theorem m_validBytes_window :
    (window pre post).m_validBytes = pre.length + post.length := List.length_append

@[simp] theorem cell_window (k : ℕ) :
    (window pre post).cell (pre.length + k) = byteAt post k := by
  have hinit : initialized (((pre ++ post).map some).drop (pre.length + k)) = post.drop k := by
    rw [initialized_drop_map_some, List.drop_append]
    simp
  simp only [cell, window, nonOwning, deref, Exec.ok_bind, hinit, byteAt, List.getElem?_drop,
    Nat.add_zero]

/-- The bytes left to read, as the readers compute them. -/
private theorem sub32_window (h : pre.length + post.length < 2 ^ 32) :
    sub32 (window pre post).m_validBytes (window pre post).m_readPos = post.length := by
  rw [m_validBytes_window, m_readPos_window, sub32_of_le (by omega) h]
  omega

/-- Moving bytes from the unread to the read side only moves the read position. -/
private theorem advance_window (bs : List UInt8)
    (h : pre.length + (bs ++ post).length < 2 ^ 32) :
    { window pre (bs ++ post) with m_readPos := add32 pre.length bs.length } =
      window (pre ++ bs) post := by
  rw [List.length_append] at h
  rw [add32_of_lt (by omega)]
  simp [window, nonOwning]

theorem readNext8bit_window (pre : List UInt8) (x : UInt8) (post : List UInt8)
    (h : pre.length + (x :: post).length < 2 ^ 32) :
    (window pre (x :: post)).readNext8bit = .ok (x, window (pre ++ [x]) post) := by
  have hcell : (window pre (x :: post)).cell pre.length = .ok x := by
    rw [← Nat.add_zero pre.length, cell_window]
    rfl
  rw [readNext8bit, sub32_window h, if_neg (by simp), m_readPos_window, hcell, Exec.ok_bind]
  exact congrArg (fun b => Except.ok (x, b)) (advance_window [x] h)

theorem readNext8bit_window_nil (h : pre.length < 2 ^ 32) :
    (window pre []).readNext8bit = .ok (0, window pre []) := by
  rw [readNext8bit, sub32_window (by simpa using h)]
  rfl

theorem readNextUnaligned16bit_window (pre : List UInt8) (x y : UInt8) (post : List UInt8)
    (h : pre.length + (x :: y :: post).length < 2 ^ 32) :
    (window pre (x :: y :: post)).readNextUnaligned16bit =
      .ok (ofBE16 x y, window (pre ++ [x, y]) post) := by
  have hlen : pre.length + 2 < 2 ^ 32 := by
    simp only [List.length_cons] at h
    omega
  have h₀ : (window pre (x :: y :: post)).cell pre.length = .ok x := by
    rw [← Nat.add_zero pre.length, cell_window]
    rfl
  have h₁ : (window pre (x :: y :: post)).cell (pre.length + 1) = .ok y := by
    simp [byteAt]
  rw [readNextUnaligned16bit, sub32_window h, if_neg (by simp), m_readPos_window,
    add32_of_lt (show pre.length + 1 < 2 ^ 32 by omega), h₀, h₁]
  exact congrArg (fun b => Except.ok (ofBE16 x y, b)) (advance_window [x, y] h)

theorem readNextUnaligned32bit_window (pre : List UInt8) (x y z w : UInt8) (post : List UInt8)
    (h : pre.length + (x :: y :: z :: w :: post).length < 2 ^ 32) :
    (window pre (x :: y :: z :: w :: post)).readNextUnaligned32bit =
      .ok (ofBE32 x y z w, window (pre ++ [x, y, z, w]) post) := by
  have hlen : pre.length + 4 < 2 ^ 32 := by
    simp only [List.length_cons] at h
    omega
  have h₀ : (window pre (x :: y :: z :: w :: post)).cell pre.length = .ok x := by
    rw [← Nat.add_zero pre.length, cell_window]
    rfl
  have h₁ : (window pre (x :: y :: z :: w :: post)).cell (pre.length + 1) = .ok y := by
    simp [byteAt]
  have h₂ : (window pre (x :: y :: z :: w :: post)).cell (pre.length + 2) = .ok z := by
    simp [byteAt]
  have h₃ : (window pre (x :: y :: z :: w :: post)).cell (pre.length + 3) = .ok w := by
    simp [byteAt]
  rw [readNextUnaligned32bit, sub32_window h, if_neg (by simp), m_readPos_window,
    add32_of_lt (show pre.length + 1 < 2 ^ 32 by omega),
    add32_of_lt (show pre.length + 2 < 2 ^ 32 by omega),
    add32_of_lt (show pre.length + 3 < 2 ^ 32 by omega), h₀, h₁, h₂, h₃]
  exact congrArg (fun b => Except.ok (ofBE32 x y z w, b)) (advance_window [x, y, z, w] h)

/-- The unread bytes as `getNextCharString` looks at them. -/
private theorem getNextCharString_window_eq (hne : post ≠ []) :
    (window pre post).getNextCharString =
      if 0 ∈ post then
        .ok (some post, { window pre post with m_readPos := pre.length + post.idxOf 0 + 1 })
      else .ok (none, window pre post) := by
  have hpos := List.length_pos_of_ne_nil hne
  have hlt : (window pre post).m_readPos < (window pre post).m_validBytes := by
    rw [m_readPos_window, m_validBytes_window]
    omega
  have hrange : (window pre post).m_validBytes - (window pre post).m_readPos = post.length := by
    rw [m_readPos_window, m_validBytes_window]
    omega
  rw [getNextCharString, if_pos hlt, hrange]
  simp [window, nonOwning, deref]

/-- A string with its terminator is found and skipped. -/
theorem getNextCharString_window (pre : List UInt8) (s : CString) (post : List UInt8) :
    (window pre (s.bytes ++ post)).getNextCharString =
      .ok (some (s.bytes ++ post), window (pre ++ s.bytes) post) := by
  have hne : s.bytes ++ post ≠ [] := by simp [CString.bytes]
  have hidx : (s.bytes ++ post).idxOf 0 = s.val.length := by
    rw [CString.bytes, List.append_assoc, List.idxOf_append_of_notMem s.property.1]
    simp
  rw [getNextCharString_window_eq hne, if_pos (by simp [CString.bytes]), hidx]
  simp [window, nonOwning, CString.bytes, Nat.add_assoc]

/-- Without a NUL byte there is no string, and the read position stays. -/
theorem getNextCharString_window_none (hpost : (0 : UInt8) ∉ post) :
    (window pre post).getNextCharString = .ok (none, window pre post) := by
  by_cases hne : post = []
  · simp [getNextCharString, hne]
  · rw [getNextCharString_window_eq hne, if_neg hpost]

theorem remaining_window (pre post : List UInt8) (h : pre.length + post.length < 2 ^ 31) :
    (window pre post).remaining = .ok post.length := by
  have hvalid : int32 (window pre post).m_validBytes = pre.length + post.length := by
    rw [m_validBytes_window, int32]
    split <;> omega
  have hread : int32 (window pre post).m_readPos = pre.length := by
    rw [m_readPos_window, int32]
    split <;> omega
  rw [remaining, hvalid, hread, subInt32, if_pos (by omega)]
  simp

theorem accessRawData_window :
    (window pre post).accessRawData = if post = [] then none else some post := by
  have hindex : (window pre post).accessRawData =
      if pre.length < pre.length + post.length then some post else none := by
    simp [accessRawData, window, nonOwning]
  rw [hindex]
  by_cases hne : post = []
  · simp [hne]
  · have := List.length_pos_of_ne_nil hne
    rw [if_pos (by omega), if_neg hne]

end Window

/-! ## Writing a whole value into a cleared buffer -/

/-- The valid bytes of the buffer are `bytes`. -/
def Holds (b : Buffer) (bytes : List UInt8) : Prop :=
  b.m_validBytes = bytes.length ∧
    (bytes ≠ [] → ∃ cells, b.m_data = some cells ∧ bytes.map some <+: cells)

/-- The data area has the size the buffer records. -/
def Sized (b : Buffer) : Prop := (b.m_data.getD []).length = b.m_dataLength

theorem sized_ofLength (length : ℕ) : (ofLength length).Sized := by
  simp only [Sized, ofLength]
  by_cases h : align32 length = 0 <;> simp [h]

/-- The length of the data area after `enlargeData`. -/
def grownLength (b : Buffer) (amount : ℕ) : ℕ :=
  add32 b.m_dataLength (max amount (b.m_dataLength / 4))

/-- Growing copies the bytes below the write position, if they fit into the new memory. -/
theorem enlargeData_of_le {b : Buffer} {amount : ℕ} (hresize : b.m_resize = true) (hsized : b.Sized)
    (hwrite : b.m_writePos ≤ b.m_dataLength) (hle : b.m_writePos ≤ b.grownLength amount) :
    ∃ m_data, b.enlargeData amount =
        .ok (true, { b with m_data, m_dataLength := b.grownLength amount }) ∧
      (m_data.getD []).length = b.grownLength amount := by
  rw [Sized] at hsized
  simp only [grownLength] at hle ⊢
  simp only [enlargeData, hresize, if_true]
  cases hdata : b.m_data with
  | none => exact ⟨_, rfl, by simp⟩
  | some cells =>
    rw [hdata, Option.getD_some] at hsized
    simp only [if_pos (And.intro (show b.m_writePos ≤ cells.length by omega) hle)]
    refine ⟨_, rfl, ?_⟩
    simp only [Option.getD_some, List.length_append, List.length_take, List.length_drop,
      List.length_replicate]
    omega

theorem le_of_enlargeData {b : Buffer} {amount : ℕ} {r : Bool × Buffer}
    (hresize : b.m_resize = true) (hsized : b.Sized) (hwrite : b.m_writePos ≤ b.m_dataLength)
    (h : b.enlargeData amount = .ok r) : b.m_writePos ≤ b.grownLength amount := by
  rw [Sized] at hsized
  rw [grownLength]
  by_contra hlt
  cases hdata : b.m_data with
  | none =>
    rw [hdata, Option.getD_none, List.length_nil] at hsized
    omega
  | some cells => simp [enlargeData, hresize, hdata, hlt] at h

/-- A pointer to the valid bytes shows them. -/
theorem Holds.accessRawData {b : Buffer} {bytes : List UInt8} (h : b.Holds bytes)
    (hne : bytes ≠ []) : ∃ rest, b.accessRawData 0 = some (bytes ++ rest) := by
  obtain ⟨hvalid, hdata⟩ := h
  obtain ⟨cells, hcells, rest, rfl⟩ := hdata hne
  have hpos := List.length_pos_of_ne_nil hne
  refine ⟨initialized rest, ?_⟩
  have hinit : ∀ l : List UInt8, initialized (l.map some ++ rest) = l ++ initialized rest := by
    intro l
    induction l with
    | nil => rfl
    | cons x l ih => simp [initialized, ih]
  simp [Buffer.accessRawData, hcells, hvalid, hinit, hpos]

theorem store_eq_ok {m_data m_data' : Option (List (Option UInt8))} {data : List UInt8}
    (h : store m_data 0 data = .ok m_data') (hne : data ≠ []) :
    ∃ cells, m_data' = some cells ∧ data.map some <+: cells := by
  cases m_data with
  | none => simp [store, hne] at h
  | some cells =>
    simp only [store] at h
    split at h
    · obtain rfl := Except.ok.inj h
      exact ⟨_, rfl, by simp⟩
    · cases h

/-- Bytes are stored where the data area has room for them. -/
theorem store_of_le {b : Buffer} {pos : ℕ} {data : List UInt8} (hsized : b.Sized)
    (hle : pos + data.length ≤ b.m_dataLength) :
    ∃ m_data, store b.m_data pos data = .ok m_data ∧
      (m_data.getD []).length = b.m_dataLength := by
  rw [Sized] at hsized
  cases hdata : b.m_data with
  | none =>
    rw [hdata, Option.getD_none, List.length_nil] at hsized
    have hnil : data = [] := List.length_eq_zero_iff.mp (by omega)
    exact ⟨none, by simp [store, hnil], by simpa using hsized⟩
  | some cells =>
    rw [hdata, Option.getD_some] at hsized
    refine ⟨_, by rw [store, if_pos (by omega)], ?_⟩
    simp only [Option.getD_some, List.length_append, List.length_take, List.length_map,
      List.length_drop]
    omega

theorem enlargeData_fst {b b' : Buffer} {amount : ℕ} {ok : Bool}
    (h : b.enlargeData amount = .ok (ok, b')) :
    ok = b.m_resize ∧ b'.m_resize = b.m_resize ∧ b'.m_writePos = b.m_writePos ∧
      b'.m_validBytes = b.m_validBytes := by
  rw [enlargeData] at h
  cases hresize : b.m_resize <;> simp only [hresize, Bool.false_eq_true, if_false, if_true] at h
  · obtain ⟨rfl, rfl⟩ := Prod.mk.inj (Except.ok.inj h)
    exact ⟨rfl, hresize, rfl, rfl⟩
  · cases hdata : b.m_data <;> simp only [hdata] at h
    · obtain ⟨rfl, rfl⟩ := Prod.mk.inj (Except.ok.inj h)
      exact ⟨rfl, rfl, rfl, rfl⟩
    · split at h
      · obtain ⟨rfl, rfl⟩ := Prod.mk.inj (Except.ok.inj h)
        exact ⟨rfl, rfl, rfl, rfl⟩
      · cases h

/-- **A write into a cleared resizable buffer that returns has stored the value.** -/
theorem holds_of_writeNextByteArray {b b' : Buffer} {data : List UInt8} {ok : Bool}
    (hresize : b.m_resize = true) (hlen : data.length < 2 ^ 32)
    (h : b.clear.writeNextByteArray data = .ok (ok, b')) : b'.Holds data := by
  simp only [writeNextByteArray, Exec.bind_eq_ok, Prod.exists] at h
  obtain ⟨ok₁, b₁, hgrow, h⟩ := h
  have hb₁ : ok₁ = true ∧ b₁.m_writePos = 0 ∧ b₁.m_validBytes = 0 := by
    rw [makeRoom] at hgrow
    split at hgrow
    · obtain ⟨rfl, rfl⟩ := Prod.mk.inj (Except.ok.inj hgrow)
      exact ⟨rfl, rfl, rfl⟩
    · obtain ⟨hok, -, hw, hv⟩ := enlargeData_fst hgrow
      exact ⟨hok.trans hresize, hw, hv⟩
  obtain ⟨rfl, hw, hv⟩ := hb₁
  simp only [if_true, hw, hv, Exec.bind_eq_ok, Except.ok.injEq, Prod.mk.injEq] at h
  obtain ⟨m_data, hstore, -, rfl⟩ := h
  have hadd : add32 0 data.length = data.length := by
    rw [add32_of_lt (by omega), Nat.zero_add]
  refine ⟨?_, store_eq_ok hstore⟩
  simp only [hadd]
  split <;> omega

theorem writeNextByteArray_of_fits (b : Buffer) (data : List UInt8) (hsized : b.Sized)
    (hdata : b.m_dataLength < 2 ^ 32) (hfits : b.m_writePos + data.length ≤ b.m_dataLength) :
    ∃ b', b.writeNextByteArray data = .ok (true, b') := by
  have hroom : data.length ≤ sub32 b.m_dataLength b.m_writePos := by
    rw [sub32_of_le (by omega) hdata]
    omega
  obtain ⟨m_data, hstore, -⟩ := store_of_le hsized hfits
  have hmake (amount : ℕ) : b.makeRoom data.length amount = .ok (true, b) := by
    rw [makeRoom, if_pos (by simpa using hroom)]
  simp only [writeNextByteArray, hmake, Exec.ok_bind, hstore, if_true]
  exact ⟨_, rfl⟩

/-- **`reserve` makes room** for sizes whose distance to the capacity is a signed word. -/
theorem reserve_spec {b : Buffer} {size : ℕ} (hsized : b.Sized) (hresize : b.m_resize = true)
    (hwrite : b.m_writePos ≤ b.m_dataLength) (hdata : b.m_dataLength < 2 ^ 31)
    (hsize : size + 3 < 2 ^ 31 + b.m_dataLength) (hlt : size < 2 ^ 31) :
    ∃ b', b.reserve size = .ok b' ∧ b'.Sized ∧ size ≤ b'.m_dataLength ∧ b'.m_dataLength < 2 ^ 32 ∧
      b'.m_resize = true := by
  rw [reserve]
  generalize hgap : (((size : ℤ) - b.m_dataLength + 3) % 2 ^ 32).toNat / 4 * 4 = gap
  by_cases hneg : int32 gap < 0
  · rw [if_pos hneg]
    refine ⟨b, rfl, hsized, ?_, by omega, hresize⟩
    rw [int32] at hneg
    split at hneg <;> omega
  · rw [if_neg hneg]
    rw [int32] at hneg
    have hgap' : gap = (size + 3 - b.m_dataLength) / 4 * 4 ∧ b.m_dataLength ≤ size + 3 := by
      split at hneg <;> omega
    obtain ⟨hgap', hle⟩ := hgap'
    have hnew : b.grownLength gap = b.m_dataLength + max gap (b.m_dataLength / 4) :=
      add32_of_lt (by omega)
    obtain ⟨m_data, hgrow, hlen⟩ :=
      enlargeData_of_le hresize hsized hwrite (show b.m_writePos ≤ b.grownLength gap by omega)
    rw [hgrow, Exec.ok_bind]
    refine ⟨_, rfl, hlen, ?_, ?_, hresize⟩
    · simp only
      omega
    · simp only
      omega

end Buffer

end CppCore.Utils
