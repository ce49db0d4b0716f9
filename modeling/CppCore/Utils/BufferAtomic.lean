import CppCore.Utils.BufferArea

/-!
# Writes that do all or nothing

A writer reports whether it wrote.  When it did not, the buffer should be as it was; when it did,
the bytes of the value should stand behind one another and the write position behind them.  The
aligned writers move the write position before they look for room, and the aligned 64-bit one
looks for room before it aligns and does not look at what its two halves report.

## Main definitions

* `Buffer.onMemory` — a buffer over memory of the caller, which may not resize.
* `BufferWrite`, `BufferWrite.perform` — the calls of the writers.
* `BufferWrite.start`, `BufferWrite.bytes` — where the bytes should go, and the bytes.
* `AllOrNothing` — a write leaves the buffer as it was or has written its value.
* `BufferWrite.Whole`, `allOrNothing_iff` — when it does.
-/

namespace CppCore.Utils

open Lib

/-- `Buffer::Buffer( bufferData, len, valid )`. -/
def Buffer.onMemory (bufferData : List UInt8) (len valid : ℕ) : Buffer where
  m_data := some (bufferData.map some)
  m_dataLength := len
  m_readPos := 0
  m_writePos := valid
  m_validBytes := valid
  m_resize := false

theorem wellFormed_onMemory (bufferData : List UInt8) {valid : ℕ}
    (hvalid : valid ≤ bufferData.length) (hword : bufferData.length < 2 ^ 32) :
    (Buffer.onMemory bufferData bufferData.length valid).WellFormed :=
  ⟨List.length_map _, hword, Nat.zero_le _, hvalid, hvalid⟩

/-! ## Calls of the writers -/

/-- A call of a writer. -/
inductive BufferWrite
  | writeNext8bit (data : UInt8)
  | writeNext16bit (data : UInt16)
  | writeNext32bit (data : UInt32)
  | writeNext64bit (data : UInt64)
  | writeNextUnaligned16bit (data : UInt16)
  | writeNextUnaligned32bit (data : UInt32)
  | writeNextUnaligned64bit (data : UInt64)
  | writeNextByteArray (data : { l : List UInt8 // l.length ≤ maxObject })
  | writeNextBuffer
    (data : { b : Buffer // (b.WellFormed ∧ b.Defined) ∧ b.m_dataLength ≤ maxObject })
  | writeNextBufferItself (m_deleteData : Bool)
  | writeNextCharString (data : Option CString)

namespace BufferWrite

/-- Perform a write, and whether it reports success; zero bytes of a string report failure. -/
def perform (t : TracedBuffer) : BufferWrite → Exec (Bool × TracedBuffer)
  | writeNext8bit data => t.writeNext8bit data
  | writeNext16bit data => t.writeNext16bit data
  | writeNext32bit data => t.writeNext32bit data
  | writeNext64bit data => t.writeNext64bit data
  | writeNextUnaligned16bit data => t.writeNextUnaligned16bit data
  | writeNextUnaligned32bit data => t.writeNextUnaligned32bit data
  | writeNextUnaligned64bit data => t.writeNextUnaligned64bit data
  | writeNextByteArray data => t.writeNextByteArray data.val
  | writeNextBuffer data => t.writeNextBuffer data.val
  | writeNextBufferItself m_deleteData => t.writeNextBufferItself m_deleteData
  | writeNextCharString data => (t.writeNextCharString data).map (Prod.map (· != 0) id)

/-- The bytes a write should store. -/
def bytes (b : Buffer) : BufferWrite → List UInt8
  | writeNext8bit data => [data]
  | writeNext16bit data | writeNextUnaligned16bit data => be16 data
  | writeNext32bit data | writeNextUnaligned32bit data => be32 data
  | writeNext64bit data | writeNextUnaligned64bit data =>
    be32 (high32bits data) ++ be32 (low32bits data)
  | writeNextByteArray data => data.val
  | writeNextBuffer data => data.val.contents.take data.val.m_validBytes
  | writeNextBufferItself _ => b.contents.take b.m_validBytes
  | writeNextCharString data => (data.getD CString.empty).bytes

/-- The least multiple of `k` that is not less than `a`. -/
def roundUp (k a : ℕ) : ℕ := (a + (k - 1)) / k * k

/-- The position a write should store its bytes at, behind the padding of the aligned ones. -/
def start (b : Buffer) : BufferWrite → ℕ
  | writeNext16bit _ => roundUp 2 b.m_writePos
  | writeNext32bit _ | writeNext64bit _ => roundUp 4 b.m_writePos
  | _ => b.m_writePos

end BufferWrite

/-- The bytes of a write stand at its position, the write position behind them, and no byte
outside of the data area was written. -/
structure Stored (t : TracedBuffer) (start : ℕ) (bytes : List UInt8) : Prop where
  writePos : t.m_writePos = start + bytes.length
  bytes : bytes.map some <+: t.area.drop start
  writes : Below t.writes t.m_dataLength

/-- A result of a write at `start`: refused, with the buffer as it was, or done. -/
def Outcome (b : Buffer) (start : ℕ) (bytes : List UInt8) (x : Exec (Bool × TracedBuffer)) : Prop :=
  ∃ ok t, x = .ok (ok, t) ∧ if ok then Stored t start bytes else t.toBuffer = b

/-- A write has stored all of its value or done nothing. -/
def AllOrNothing (b : Buffer) (w : BufferWrite) : Prop :=
  Outcome b (w.start b) (w.bytes b) (w.perform b.traced)

/-! ## The condition -/

namespace Buffer

/-- A write of `n` bytes at `pos` starts in the data area.  If it does not fit there, a resizable
buffer can grow, and another one has not moved its write position. -/
def WholeAt (b : Buffer) (pos n amount : ℕ) : Prop :=
  pos ≤ b.m_dataLength ∧ (b.m_dataLength < pos + n →
    if b.m_resize then b.m_dataLength + max amount (b.m_dataLength / 4) < 2 ^ 32
    else pos = b.m_writePos)

/-- The same for a buffer written to itself.  Where it goes may not overlap with its valid bytes,
and it may not grow if that frees them. -/
def WholeItself (b : Buffer) (m_deleteData : Bool) : Prop :=
  (b.m_writePos + b.m_validBytes ≤ b.m_dataLength → b.m_validBytes ≤ b.m_writePos) ∧
    (b.m_dataLength < b.m_writePos + b.m_validBytes → b.m_resize = true → m_deleteData = false ∧
      b.m_dataLength + max (align32 b.m_validBytes) (b.m_dataLength / 4) < 2 ^ 32)

end Buffer

/-- The condition under which a write does all or nothing. -/
def BufferWrite.Whole (b : Buffer) : BufferWrite → Prop
  | writeNext8bit _ => b.WholeAt b.m_writePos 1 4
  | writeNext16bit _ => b.WholeAt (roundUp 2 b.m_writePos) 2 4
  | writeNext32bit _ => b.WholeAt (roundUp 4 b.m_writePos) 4 8
  | writeNext64bit _ => b.WholeAt b.m_writePos 8 16 ∧
      (b.m_writePos + 8 ≤ b.m_dataLength → b.m_dataLength < roundUp 4 b.m_writePos + 8 →
        b.m_resize = true ∧ b.m_dataLength + max 8 (b.m_dataLength / 4) < 2 ^ 32)
  | writeNextUnaligned16bit _ => b.WholeAt b.m_writePos 2 4
  | writeNextUnaligned32bit _ => b.WholeAt b.m_writePos 4 8
  | writeNextUnaligned64bit _ => b.WholeAt b.m_writePos 8 16
  | writeNextByteArray data =>
    b.WholeAt b.m_writePos data.val.length (add32 (align32 data.val.length) 4)
  | writeNextBuffer data =>
    b.WholeAt b.m_writePos data.val.m_validBytes (align32 data.val.m_validBytes)
  | writeNextBufferItself m_deleteData => b.WholeItself m_deleteData
  | writeNextCharString data =>
    let len := (data.getD CString.empty).bytes.length
    b.WholeAt b.m_writePos len (add32 (align32 len) 4)

/-! ## Positions -/

/-- An alignment rounds up, in words. -/
structure RoundsUp (k : ℕ) (align : ℕ → ℕ) : Prop where
  pos : 0 < k
  le : k ≤ 4
  eq : ∀ a < 2 ^ 32, align a = BufferWrite.roundUp k a % 2 ^ 32

theorem roundsUp_one : RoundsUp 1 id where
  pos := by decide
  le := by decide
  eq := by
    intro a ha
    rw [BufferWrite.roundUp, Nat.div_one, Nat.mul_one, Nat.sub_self, Nat.add_zero,
      Nat.mod_eq_of_lt ha]
    rfl

theorem roundsUp_two : RoundsUp 2 align16 where
  pos := by decide
  le := by decide
  eq := by
    intro a ha
    simp only [BufferWrite.roundUp, align16, add32]
    omega

theorem roundsUp_four : RoundsUp 4 align32 where
  pos := by decide
  le := by decide
  eq := by
    intro a ha
    simp only [BufferWrite.roundUp, align32, add32]
    omega

theorem roundUp_one (a : ℕ) : BufferWrite.roundUp 1 a = a := by
  simp [BufferWrite.roundUp]

theorem le_roundUp {k : ℕ} (hk : 0 < k) (a : ℕ) : a ≤ BufferWrite.roundUp k a := by
  have hdiv := Nat.div_add_mod (a + (k - 1)) k
  have hmod := Nat.mod_lt (a + (k - 1)) hk
  rw [Nat.mul_comm] at hdiv
  rw [BufferWrite.roundUp]
  omega

theorem roundUp_le {k : ℕ} (a : ℕ) : BufferWrite.roundUp k a ≤ a + (k - 1) :=
  Nat.div_mul_le_self _ _

/-- The alignment is the rounded position where that is a word. -/
theorem RoundsUp.eq_of_lt {k : ℕ} {align : ℕ → ℕ} (hk : RoundsUp k align) {a : ℕ}
    (h : BufferWrite.roundUp k a < 2 ^ 32) : align a = BufferWrite.roundUp k a := by
  have hle := le_roundUp hk.pos a
  rw [hk.eq a (by omega), Nat.mod_eq_of_lt h]

/-! ## Writes at an aligned position -/

open TracedBuffer

variable {b : Buffer} {align : ℕ → ℕ} {k : ℕ}

theorem TracedBuffer.Appended.stored {t : TracedBuffer} {pos : ℕ} {data : List UInt8}
    (h : b.traced.Appended t pos data) : Stored t pos data :=
  ⟨h.writePos, h.bytes, h.writes (below_nil _)⟩

/-- A write that does all or nothing starts in the data area. -/
private theorem roundUp_le_of_outcome (hb : b.WellFormed) (hk : RoundsUp k align)
    {data : List UInt8} {amount : ℕ}
    (hdata : k = 1 ∨ data ≠ [] ∧ data.length ≤ 4)
    (h : Outcome b (BufferWrite.roundUp k b.m_writePos) data
      (b.traced.writeNext align amount data)) :
    BufferWrite.roundUp k b.m_writePos ≤ b.m_dataLength := by
  have hw := hb.write
  have hword := hb.word
  have hle := roundUp_le (k := k) b.m_writePos
  have hk4 := hk.le
  have halign := hk.eq b.m_writePos (by omega)
  obtain rfl | ⟨hne, hshort⟩ := hdata
  · rwa [roundUp_one]
  by_contra hlt
  obtain ⟨ok, t, hwrite, hres⟩ := h
  by_cases hwrap : BufferWrite.roundUp k b.m_writePos < 2 ^ 32
  · rw [Nat.mod_eq_of_lt hwrap] at halign
    have hpos := le_of_writeNext (t := b.traced) hb.sized hw
      (show align b.m_writePos ≤ b.m_writePos + 3 by omega) (fun hnil => absurd hnil hne)
      (by omega) hwrite
    exact hlt (halign ▸ hpos)
  · -- the aligned position wraps to the start of the data area
    have hfits : align b.m_writePos + data.length ≤ b.m_dataLength := by omega
    obtain ⟨t', hwrite', hwrote⟩ := writeNext_of_fits (t := b.traced) hb.sized
      hword amount hfits
    obtain ⟨rfl, rfl⟩ := Prod.mk.inj (Exec.unique hwrite hwrite')
    have hpos := hwrote.writePos.symm.trans hres.writePos
    change align b.m_writePos + data.length = _ at hpos
    omega

/-- A write that does all or nothing meets its condition. -/
private theorem wholeAt_of_outcome (hb : b.WellFormed) (hk : RoundsUp k align) {data : List UInt8}
    {amount : ℕ} (hdata : k = 1 ∨ data ≠ [] ∧ data.length ≤ 4) (hword : amount < 2 ^ 32)
    (h : Outcome b (BufferWrite.roundUp k b.m_writePos) data
      (b.traced.writeNext align amount data)) :
    b.WholeAt (BufferWrite.roundUp k b.m_writePos) data.length amount := by
  have hpos := roundUp_le_of_outcome hb hk hdata h
  refine ⟨hpos, fun hfull => ?_⟩
  obtain ⟨ok, t, hwrite, hres⟩ := h
  have halign := hk.eq_of_lt (hpos.trans_lt hb.word)
  rw [← halign] at hpos hfull ⊢
  by_cases hresize : b.m_resize = true
  · rw [if_pos hresize]
    exact (hasRoom_of_writeNext_of_le (t := b.traced) hresize hb.sized hb.word hpos hword
      hwrite).2 hfull
  · have hfixed := writeNext_of_fixed (t := b.traced) (Bool.eq_false_iff.mpr hresize) hb.word
      hpos amount hfull
    obtain ⟨rfl, rfl⟩ := Prod.mk.inj (Exec.unique hwrite hfixed)
    rw [if_neg hresize]
    exact congrArg Buffer.m_writePos hres

/-- A write that meets its condition does all or nothing. -/
private theorem outcome_of_wholeAt (hb : b.WellFormed) (hk : RoundsUp k align) {data : List UInt8}
    {amount : ℕ}
    (hamount : b.m_dataLength + max amount (b.m_dataLength / 4) < 2 ^ 32 → data.length ≤ amount)
    (h : b.WholeAt (BufferWrite.roundUp k b.m_writePos) data.length amount) :
    Outcome b (BufferWrite.roundUp k b.m_writePos) data
      (b.traced.writeNext align amount data) := by
  obtain ⟨hpos, hfull⟩ := h
  have hge := le_roundUp hk.pos b.m_writePos
  have halign := hk.eq_of_lt (hpos.trans_lt hb.word)
  rw [← halign] at hpos hfull hge ⊢
  have happend (hroom : b.traced.Room (align b.m_writePos) data.length amount) :
      Outcome b (align b.m_writePos) data (b.traced.writeNext align amount data) := by
    obtain ⟨t, hwrite, happ⟩ := writeNext_of_room (t := b.traced) hb hge hroom
    exact ⟨true, t, hwrite, happ.stored⟩
  by_cases hfits : align b.m_writePos + data.length ≤ b.m_dataLength
  · exact happend (.inl hfits)
  · have hlt : b.m_dataLength < align b.m_writePos + data.length := by omega
    have hsame := hfull hlt
    by_cases hresize : b.m_resize = true
    · rw [if_pos hresize] at hsame
      exact happend (.inr ⟨hresize, hamount hsame, hpos, fun _ => hsame⟩)
    · rw [if_neg hresize] at hsame
      refine ⟨false, _, writeNext_of_fixed (t := b.traced) (Bool.eq_false_iff.mpr hresize) hb.word
        hpos amount hlt, ?_⟩
      rw [if_neg Bool.false_ne_true]
      change { b with m_writePos := align b.m_writePos } = b
      rw [hsame]

/-- **A write at an aligned position does all or nothing exactly under its condition.** -/
theorem outcome_writeNext_iff (hb : b.WellFormed) (hk : RoundsUp k align)
    (data : List UInt8) (amount : ℕ)
    (hdata : k = 1 ∨ data ≠ [] ∧ data.length ≤ 4) (hword' : amount < 2 ^ 32)
    (hamount : b.m_dataLength + max amount (b.m_dataLength / 4) < 2 ^ 32 → data.length ≤ amount) :
    Outcome b (BufferWrite.roundUp k b.m_writePos) data (b.traced.writeNext align amount data) ↔
      b.WholeAt (BufferWrite.roundUp k b.m_writePos) data.length amount :=
  ⟨wholeAt_of_outcome hb hk hdata hword', outcome_of_wholeAt hb hk hamount⟩

/-- A write that does not align. -/
private theorem outcome_writeNext_id_iff (hb : b.WellFormed) (data : List UInt8) (amount : ℕ)
    (hword : amount < 2 ^ 32)
    (hamount : b.m_dataLength + max amount (b.m_dataLength / 4) < 2 ^ 32 → data.length ≤ amount) :
    Outcome b b.m_writePos data (b.traced.writeNext id amount data) ↔
      b.WholeAt b.m_writePos data.length amount := by
  have hiff := outcome_writeNext_iff hb roundsUp_one data amount (.inl rfl) hword hamount
  rwa [roundUp_one] at hiff

/-! ## 64-bit words -/

/-- The second half of a 64-bit word that does not fit behind the padding is not written by a
buffer that may not resize, and that is not reported. -/
private theorem writeNextHalves_of_short (hb : b.WellFormed) (halign : Aligns align)
    {half : UInt32 → TracedBuffer → Exec (Bool × TracedBuffer)}
    (hhalf : ∀ data t, half data t = t.writeNext align 8 (be32 data)) (data : UInt64)
    (hresize : b.m_resize = false) (hfits : b.m_writePos + 8 ≤ b.m_dataLength)
    (hshort : b.m_dataLength < align b.m_writePos + 8) :
    ∃ t, b.traced.writeNextHalves half data = .ok (true, t) ∧
      t.m_writePos = align b.m_writePos + 4 := by
  have hword := hb.word
  have hle := halign.le b.m_writePos
  have hge := halign.ge b.m_writePos (by omega)
  have hfits₁ : align b.m_writePos + (be32 (high32bits data)).length ≤ b.m_dataLength := by
    rw [length_be32]
    omega
  obtain ⟨t₁, hhigh, h₁, hlength⟩ := writeNext_appended_of_fits (t := b.traced) hb hge 8 hfits₁
  have hagain : align t₁.m_writePos = align b.m_writePos + 4 := by
    rw [h₁.writePos, length_be32]
    exact halign.again b.m_writePos (by omega)
  have hfull : t₁.m_dataLength < align t₁.m_writePos + (be32 (low32bits data)).length := by
    rw [hagain, length_be32, hlength]
    exact hshort
  have hpos : align t₁.m_writePos ≤ t₁.m_dataLength := by
    rw [hagain, hlength]
    change align b.m_writePos + 4 ≤ b.m_dataLength
    omega
  have hlow := writeNext_of_fixed (h₁.resize.trans hresize) h₁.wellFormed.word hpos 8 hfull
  refine ⟨{ t₁ with m_writePos := align t₁.m_writePos }, ?_, hagain⟩
  simp only [writeNextHalves, makeRoom_of_fits (t := b.traced) hword _ hfits, Exec.ok_bind, if_true,
    hhalf, hhigh, hlow]

/-- The halves of a word in a buffer that may resize are both written, or the write has no value. -/
private theorem outcome_writeNextHalves_of_resize (hb : b.WellFormed) (hk : RoundsUp k align)
    (halign : Aligns align) {half : UInt32 → TracedBuffer → Exec (Bool × TracedBuffer)}
    (hhalf : ∀ data t, half data t = t.writeNext align 8 (be32 data)) (data : UInt64)
    (hresize : b.m_resize = true) :
    Outcome b (BufferWrite.roundUp k b.m_writePos)
        (be32 (high32bits data) ++ be32 (low32bits data)) (b.traced.writeNextHalves half data) ↔
      (b.m_dataLength < b.m_writePos + 8 →
        b.m_dataLength + max 16 (b.m_dataLength / 4) < 2 ^ 32) ∧
      (b.m_writePos + 8 ≤ b.m_dataLength →
        b.m_dataLength < BufferWrite.roundUp k b.m_writePos + 8 →
          b.m_dataLength + max 8 (b.m_dataLength / 4) < 2 ^ 32) := by
  have hw := hb.write
  have hword := hb.word
  have hle := roundUp_le (k := k) b.m_writePos
  have hk4 := hk.le
  have hgood : b.traced.Good := ⟨hb.sound hresize, below_nil _, below_nil _⟩
  constructor
  · rintro ⟨ok, t, hwrite, -⟩
    obtain ⟨hroom, hroom'⟩ := hasRoom_of_writeNextHalves hgood halign hhalf hwrite
    refine ⟨hroom.2, fun hfits hshort => (hroom' hfits).2 ?_⟩
    rwa [← hk.eq_of_lt (by omega)] at hshort
  · rintro ⟨hgrow, hgrow'⟩
    have hroom : b.traced.Room b.m_writePos 8 16 := .inr ⟨hresize, by decide, hw, hgrow⟩
    have hroom' : b.m_writePos + 8 ≤ b.m_dataLength →
        b.traced.Room (align b.m_writePos) 8 8 := by
      intro hfits
      have heq := hk.eq_of_lt (a := b.m_writePos) (by omega)
      refine .inr ⟨hresize, by decide, ?_, fun hlt => hgrow' hfits ?_⟩
      · change align b.m_writePos ≤ b.m_dataLength
        omega
      · rwa [← heq]
    obtain ⟨t, hwrite, happ⟩ := writeNextHalves_of_room (t := b.traced) hb halign hhalf data
      hroom hroom'
    have hpos : align b.m_writePos = BufferWrite.roundUp k b.m_writePos := by
      apply hk.eq_of_lt
      by_cases hlt : b.m_dataLength < b.m_writePos + 8
      · have := hgrow hlt
        omega
      · omega
    change b.traced.Appended t (align b.m_writePos) _ at happ
    rw [hpos] at happ
    exact ⟨true, t, hwrite, happ.stored⟩

/-- In a buffer that may not resize the second half is lost where the padding takes its room. -/
private theorem outcome_writeNextHalves_of_fixed (hb : b.WellFormed) (hk : RoundsUp k align)
    (halign : Aligns align) {half : UInt32 → TracedBuffer → Exec (Bool × TracedBuffer)}
    (hhalf : ∀ data t, half data t = t.writeNext align 8 (be32 data)) (data : UInt64)
    (hfixed : b.m_resize = false) :
    Outcome b (BufferWrite.roundUp k b.m_writePos)
        (be32 (high32bits data) ++ be32 (low32bits data)) (b.traced.writeNextHalves half data) ↔
      (b.m_writePos + 8 ≤ b.m_dataLength →
        ¬b.m_dataLength < BufferWrite.roundUp k b.m_writePos + 8) := by
  have hw := hb.write
  have hword := hb.word
  have hle := roundUp_le (k := k) b.m_writePos
  have hk4 := hk.le
  constructor
  · rintro ⟨ok, t, hwrite, hres⟩ hfits hshort
    have heq := hk.eq_of_lt (a := b.m_writePos) (by omega)
    obtain ⟨t', hwrite', hpos⟩ := writeNextHalves_of_short hb halign hhalf data hfixed hfits
      (by rwa [heq])
    obtain ⟨rfl, rfl⟩ := Prod.mk.inj (Exec.unique hwrite hwrite')
    have hdone := hres.writePos
    rw [hpos, heq, List.length_append, length_be32, length_be32] at hdone
    omega
  · intro hshort
    by_cases hfits : b.m_writePos + 8 ≤ b.m_dataLength
    · have hroom' := Nat.le_of_not_lt (hshort hfits)
      have heq := hk.eq_of_lt (a := b.m_writePos) (by omega)
      obtain ⟨t, hwrite, happ⟩ := writeNextHalves_of_room (t := b.traced) hb halign hhalf data
        (.inl hfits) fun _ => .inl (by
          change align b.m_writePos + 8 ≤ b.m_dataLength
          omega)
      change b.traced.Appended t (align b.m_writePos) _ at happ
      rw [heq] at happ
      exact ⟨true, t, hwrite, happ.stored⟩
    · have hroom := makeRoom_of_fixed (t := b.traced) (n := 8) hfixed hword hw 16
        (Nat.lt_of_not_le hfits)
      refine ⟨false, b.traced, ?_, rfl⟩
      simp only [writeNextHalves, hroom, Exec.ok_bind, Bool.false_eq_true, if_false]

/-- **A 64-bit write does all or nothing exactly under its condition.** -/
theorem outcome_writeNextHalves_iff (hb : b.WellFormed) (hk : RoundsUp k align)
    (halign : Aligns align) {half : UInt32 → TracedBuffer → Exec (Bool × TracedBuffer)}
    (hhalf : ∀ data t, half data t = t.writeNext align 8 (be32 data)) (data : UInt64) :
    Outcome b (BufferWrite.roundUp k b.m_writePos)
        (be32 (high32bits data) ++ be32 (low32bits data)) (b.traced.writeNextHalves half data) ↔
      b.WholeAt b.m_writePos 8 16 ∧ (b.m_writePos + 8 ≤ b.m_dataLength →
        b.m_dataLength < BufferWrite.roundUp k b.m_writePos + 8 →
          b.m_resize = true ∧ b.m_dataLength + max 8 (b.m_dataLength / 4) < 2 ^ 32) := by
  have hw := hb.write
  by_cases hresize : b.m_resize = true
  · rw [outcome_writeNextHalves_of_resize hb hk halign hhalf data hresize]
    simp only [Buffer.WholeAt, hresize, if_true, true_and, hw]
  · have hfixed := Bool.eq_false_iff.mpr hresize
    rw [outcome_writeNextHalves_of_fixed hb hk halign hhalf data hfixed]
    simp only [Buffer.WholeAt, hfixed, Bool.false_eq_true, if_false, false_and, implies_true,
      and_true, hw, true_and]

/-! ## Buffers and strings -/

/-- Writing another buffer is writing its valid bytes. -/
theorem writeNextBuffer_eq {data : Buffer} (hdef : data.Defined)
    (hvalid : data.m_validBytes < 2 ^ 32) (t : TracedBuffer) : t.writeNextBuffer data =
      t.writeNext id (align32 data.m_validBytes) (data.contents.take data.m_validBytes) := by
  obtain ⟨hread, hlen⟩ := hdef.readBytes hvalid
  have heta : ({ t with m_writePos := id t.m_writePos } : TracedBuffer) = t := rfl
  simp only [TracedBuffer.writeNextBuffer, writeNext, hlen, heta, Buffer.getLength, hread,
    Exec.ok_bind]

/-- The bytes of a string are written or not, and that is reported. -/
theorem perform_writeNextCharString (data : Option CString) (t : TracedBuffer) :
    BufferWrite.perform t (.writeNextCharString data) =
      t.writeNextByteArray (data.getD CString.empty).bytes := by
  simp only [BufferWrite.perform, TracedBuffer.writeNextCharString]
  cases t.writeNextByteArray (data.getD CString.empty).bytes with
  | error e => simp [Except.map]
  | ok r =>
    obtain ⟨ok, u⟩ := r
    cases ok <;> simp [Except.map]

/-- Writing a buffer to itself is writing its valid bytes, if its memory is not freed before they
are copied, nor overlaps with where they go. -/
private theorem writeNextBufferItself_eq {t : TracedBuffer} (ht : t.WellFormed) (hdef : t.Defined)
    {m_deleteData : Bool}
    (hfree : t.m_dataLength < t.m_writePos + t.m_validBytes →
      t.m_resize = true → m_deleteData = false)
    (hoverlap : t.m_writePos + t.m_validBytes ≤ t.m_dataLength → t.m_validBytes ≤ t.m_writePos) :
    t.writeNextBufferItself m_deleteData =
      t.writeNext id (align32 t.m_validBytes) (t.contents.take t.m_validBytes) := by
  have hw := ht.write
  have hvalid := ht.valid
  have hword := ht.word
  obtain ⟨hread, hlen⟩ := hdef.readBytes (by omega)
  have hgrown : sub32 t.m_dataLength t.m_writePos < t.m_validBytes ↔
      t.m_dataLength < t.m_writePos + t.m_validBytes := by
    rw [sub32_of_le hw hword]
    omega
  have heta : ({ t with m_writePos := id t.m_writePos } : TracedBuffer) = t := rfl
  simp only [writeNextBufferItself, writeNext, hlen, heta, Buffer.getLength, hgrown]
  cases hmake : t.makeRoom t.m_validBytes (align32 t.m_validBytes) with
  | error e => simp only [Exec.error_bind]
  | ok r =>
    obtain ⟨ok, u⟩ := r
    cases ok with
    | false => simp only [Exec.ok_bind, Bool.false_eq_true, if_false]
    | true =>
      have hdo : ¬((t.m_dataLength < t.m_writePos + t.m_validBytes ∧ m_deleteData = true) ∨
          (¬t.m_dataLength < t.m_writePos + t.m_validBytes ∧ t.m_writePos < t.m_validBytes)) := by
        rintro (⟨hlt, hdelete⟩ | ⟨hfits, hlt⟩)
        · by_cases hresize : t.m_resize = true
          · rw [hfree hlt hresize] at hdelete
            cases hdelete
          · have hfixed := makeRoom_of_fixed (Bool.eq_false_iff.mpr hresize) hword hw
              (align32 t.m_validBytes) hlt
            rw [hmake] at hfixed
            cases (Prod.mk.inj (Except.ok.inj hfixed)).1
        · have := hoverlap (Nat.le_of_not_lt hfits)
          omega
      simp only [Exec.ok_bind, if_true, hdo, if_false, hread]

/-- Otherwise it does not return. -/
private theorem writeNextBufferItself_ne_ok {t : TracedBuffer} (ht : t.WellFormed)
    {m_deleteData : Bool} (h : (t.m_dataLength < t.m_writePos + t.m_validBytes ∧
        t.m_resize = true ∧ m_deleteData = true) ∨
      (t.m_writePos + t.m_validBytes ≤ t.m_dataLength ∧ t.m_writePos < t.m_validBytes))
    (r : Bool × TracedBuffer) : t.writeNextBufferItself m_deleteData ≠ .ok r := by
  intro hwrite
  have hw := ht.write
  have hword := ht.word
  have hgrown : sub32 t.m_dataLength t.m_writePos < t.m_validBytes ↔
      t.m_dataLength < t.m_writePos + t.m_validBytes := by
    rw [sub32_of_le hw hword]
    omega
  simp only [writeNextBufferItself, Buffer.getLength, hgrown, Exec.bind_eq_ok] at hwrite
  obtain ⟨⟨ok, u⟩, hmake, hwrite⟩ := hwrite
  obtain ⟨hlt, hresize, hdelete⟩ | ⟨hfits, hlt⟩ := h
  · rw [makeRoom_fst hresize hmake] at hwrite
    simp [hlt, hdelete] at hwrite
  · rw [makeRoom_of_fits hword _ hfits] at hmake
    obtain ⟨rfl, rfl⟩ := Prod.mk.inj (Except.ok.inj hmake)
    simp [Nat.not_lt.mpr hfits, hlt] at hwrite

/-- **Writing a buffer to itself does all or nothing exactly under its condition.** -/
theorem outcome_writeNextBufferItself_iff (hb : b.WellFormed) (hdef : b.Defined)
    (m_deleteData : Bool) :
    Outcome b b.m_writePos (b.contents.take b.m_validBytes)
        (b.traced.writeNextBufferItself m_deleteData) ↔ b.WholeItself m_deleteData := by
  have hw := hb.write
  have hvalid := hb.valid
  have hword := hb.word
  obtain ⟨-, hlen⟩ := hdef.readBytes (by omega)
  by_cases hbad : (b.m_dataLength < b.m_writePos + b.m_validBytes ∧
      b.m_resize = true ∧ m_deleteData = true) ∨
      (b.m_writePos + b.m_validBytes ≤ b.m_dataLength ∧ b.m_writePos < b.m_validBytes)
  · refine iff_of_false ?_ ?_
    · rintro ⟨ok, t, hwrite, -⟩
      exact writeNextBufferItself_ne_ok (t := b.traced) hb hbad _ hwrite
    · rintro ⟨hoverlap, hfree⟩
      obtain ⟨hlt, hresize, hdelete⟩ | ⟨hfits, hlt⟩ := hbad
      · rw [hdelete] at hfree
        cases (hfree hlt hresize).1
      · have := hoverlap hfits
        omega
  · push Not at hbad
    obtain ⟨hfree, hoverlap⟩ := hbad
    have hfree' : b.m_dataLength < b.m_writePos + b.m_validBytes →
        b.m_resize = true → m_deleteData = false := by
      intro hlt hresize
      simpa using hfree hlt hresize
    have hwrite := writeNextBufferItself_eq (t := b.traced) hb hdef hfree' hoverlap
    change b.traced.writeNextBufferItself m_deleteData =
      b.traced.writeNext id (align32 b.m_validBytes) (b.contents.take b.m_validBytes) at hwrite
    have hiff := outcome_writeNext_id_iff hb (b.contents.take b.m_validBytes)
      (align32 b.m_validBytes) (by unfold align32 add32; omega) (by
        rw [hlen]
        simp only [align32, add32]
        omega)
    rw [hlen] at hiff
    rw [hwrite, hiff, Buffer.WholeAt, Buffer.WholeItself]
    by_cases hresize : b.m_resize = true
    · simp only [hresize, if_true, hw, true_and]
      exact ⟨fun h => ⟨hoverlap, fun hlt _ => ⟨hfree' hlt hresize, h hlt⟩⟩,
        fun h hlt => (h.2 hlt trivial).2⟩
    · simp only [hresize, hw, true_and]
      exact ⟨fun _ => ⟨hoverlap, fun _ h => absurd h (by simp)⟩, fun _ _ => by simp⟩

/-! ## Every writer -/

/-- **A write does all or nothing exactly under its condition**, whatever its value.  The bytes of
a buffer written to itself have values. -/
theorem allOrNothing_iff (hb : b.WellFormed) (w : BufferWrite)
    (hdef : ∀ m_deleteData, w = .writeNextBufferItself m_deleteData → b.Defined) :
    AllOrNothing b w ↔ w.Whole b := by
  rw [AllOrNothing]
  cases w with
  | writeNext8bit data => exact outcome_writeNext_id_iff hb [data] 4 (by decide) (by simp)
  | writeNext16bit data =>
    exact outcome_writeNext_iff hb roundsUp_two (be16 data) 4 (.inr (by simp [be16])) (by decide)
      (by simp)
  | writeNext32bit data =>
    exact outcome_writeNext_iff hb roundsUp_four (be32 data) 8 (.inr (by simp [be32])) (by decide)
      (by simp)
  | writeNext64bit data =>
    exact outcome_writeNextHalves_iff hb roundsUp_four aligns_align32 (fun _ _ => rfl) data
  | writeNextUnaligned16bit data =>
    exact outcome_writeNext_id_iff hb (be16 data) 4 (by decide) (by simp)
  | writeNextUnaligned32bit data =>
    exact outcome_writeNext_id_iff hb (be32 data) 8 (by decide) (by simp)
  | writeNextUnaligned64bit data =>
    have hiff := outcome_writeNextHalves_iff hb roundsUp_one aligns_id
      (fun _ _ => rfl : ∀ data t, writeNextUnaligned32bit data t = _) data
    rw [roundUp_one] at hiff
    refine hiff.trans (and_iff_left ?_)
    intro hfits hshort
    omega
  | writeNextByteArray data =>
    exact outcome_writeNext_id_iff hb data.val _ (byteArrayAmount_lt data.property).2
      fun _ => length_le_byteArrayAmount data.property
  | writeNextBuffer data =>
    obtain ⟨⟨hdata, hddef⟩, hmax⟩ := data.property
    have hvalid := hdata.valid
    simp only [maxObject] at hmax
    obtain ⟨-, hlen⟩ := hddef.readBytes (by omega)
    have hiff := outcome_writeNext_id_iff hb (data.val.contents.take data.val.m_validBytes)
      (align32 data.val.m_validBytes) (by unfold align32 add32; omega) (by
        rw [hlen]
        simp only [align32, add32]
        omega)
    rw [hlen, ← writeNextBuffer_eq hddef (by omega)] at hiff
    exact hiff
  | writeNextBufferItself m_deleteData =>
    exact outcome_writeNextBufferItself_iff hb (hdef m_deleteData rfl) m_deleteData
  | writeNextCharString data =>
    rw [perform_writeNextCharString]
    exact outcome_writeNext_id_iff hb (data.getD CString.empty).bytes _
      (byteArrayAmount_lt (length_bytes_le data)).2
      fun _ => length_le_byteArrayAmount (length_bytes_le data)

/-- A write that does not fit behind its padding, in memory of the caller that has been written
up to the fourth byte. -/
theorem allOrNothing_iff_onMemory :
    AllOrNothing (Buffer.onMemory [0, 0, 0, 0, 0] 5 4) (.writeNext32bit 7) := by
  refine (allOrNothing_iff (wellFormed_onMemory _ (by decide) (by decide)) (.writeNext32bit 7)
    fun _ h => absurd h (by simp)).mpr ⟨by decide, fun _ => ?_⟩
  rw [if_neg (by decide)]
  rfl

/-- **Not every write does all or nothing**: one that is refused may have moved the write position
to its alignment. -/
theorem not_forall_allOrNothing :
    ¬∀ (b : Buffer) (w : BufferWrite), b.WellFormed →
      (∀ m_deleteData, w = .writeNextBufferItself m_deleteData → b.Defined) →
      AllOrNothing b w := by
  intro h
  have hwhole := h (Buffer.onMemory [0, 0, 0, 0, 0] 5 1) (.writeNext32bit 7)
    (wellFormed_onMemory _ (by decide) (by decide)) fun _ h => absurd h (by simp)
  have hrefused : (Buffer.onMemory [0, 0, 0, 0, 0] 5 1).traced.writeNext32bit 7 =
      .ok (false, { (Buffer.onMemory [0, 0, 0, 0, 0] 5 1).traced with m_writePos := 4 }) := by
    decide
  obtain ⟨ok, t, hwrite, hres⟩ := hwhole
  obtain ⟨rfl, rfl⟩ := Prod.mk.inj (Exec.unique hwrite hrefused)
  exact absurd (congrArg Buffer.m_writePos hres) (by decide)

end CppCore.Utils
