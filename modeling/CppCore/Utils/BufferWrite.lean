import CppCore.Utils.BufferOp

/-!
# Writing a buffer stays within its bounds

For every operation that writes or grows the data area: it stays within the bounds of a sound
buffer under its condition (`good_…`), and only then.

## Main definitions

* `Grown`, `Placed` — what making room and storing bytes leave.
* `writeNext_of_hasRoom`, `hasRoom_of_writeNext` — the writers.
* `good_writeNextHalves`, `hasRoom_of_writeNextHalves` — the 64-bit writers.
* `good_reserve`, `fits_of_reserve` — growing on request.
-/

namespace CppCore.Utils

open Lib

namespace TracedBuffer

variable {t t' : TracedBuffer} {align : ℕ → ℕ}

/-! ## Making room and storing -/

/-- What making room leaves: the positions and a data area of some length. -/
structure Grown (t t' : TracedBuffer) (length : ℕ) : Prop where
  resize : t'.m_resize = t.m_resize
  sized : t'.Sized
  dataLength : t'.m_dataLength = length
  readPos : t'.m_readPos = t.m_readPos
  writePos : t'.m_writePos = t.m_writePos
  validBytes : t'.m_validBytes = t.m_validBytes
  reads : ∀ limit, t.m_writePos ≤ limit → Below t.reads limit → Below t'.reads limit
  writes : ∀ limit, t.m_writePos ≤ limit → Below t.writes limit → Below t'.writes limit

theorem Grown.sound {length : ℕ} (hg : t.Grown t' length) (hs : t.Sound) (hword : length < 2 ^ 32)
    (hvalid : t.m_validBytes ≤ length) (hwrite : t.m_writePos ≤ length) : t'.Sound where
  resize := hg.resize.trans hs.resize
  sized := hg.sized
  word := by rwa [hg.dataLength]
  read := by
    rw [hg.readPos, hg.validBytes]
    exact hs.read
  valid := by rwa [hg.validBytes, hg.dataLength]
  write := by rwa [hg.writePos, hg.dataLength]

/-- Growing with the ranges: the bytes below the write position are read and written. -/
theorem enlargeData_of_le (hresize : t.m_resize = true) (hsized : t.Sized)
    (hwrite : t.m_writePos ≤ t.m_dataLength) {amount : ℕ}
    (hle : t.m_writePos ≤ t.grownLength amount) :
    ∃ t', t.enlargeData amount = .ok (true, t') ∧ t.Grown t' (t.grownLength amount) ∧
      ∀ limit, Below t'.reads limit → t.m_writePos ≤ limit := by
  obtain ⟨m_data, hgrow, hlen⟩ := Buffer.enlargeData_of_le hresize hsized hwrite hle
  rw [enlargeData, hgrow, Exec.ok_bind]
  refine ⟨_, rfl, ⟨rfl, hlen, rfl, rfl, rfl, rfl, ?_, ?_⟩, ?_⟩
  · intro limit hlimit hreads
    split
    · simpa using ⟨.inr hlimit, hreads⟩
    · simpa using hreads
  · intro limit hlimit hwrites
    split
    · simpa using ⟨.inr hlimit, hwrites⟩
    · simpa using hwrites
  · intro limit hreads
    cases hdata : t.m_data with
    | none =>
      rw [Buffer.Sized, hdata, Option.getD_none, List.length_nil] at hsized
      omega
    | some cells =>
      simp only [hresize, hdata, Option.isSome_some, and_self, if_true, List.cons_append,
        List.nil_append, below_cons] at hreads
      omega

theorem le_of_enlargeData (hresize : t.m_resize = true) (hsized : t.Sized)
    (hwrite : t.m_writePos ≤ t.m_dataLength) {amount : ℕ} {r : Bool × TracedBuffer}
    (hgrow : t.enlargeData amount = .ok r) : t.m_writePos ≤ t.grownLength amount := by
  rw [enlargeData, Exec.bind_eq_ok] at hgrow
  obtain ⟨r', hgrow, -⟩ := hgrow
  exact Buffer.le_of_enlargeData hresize hsized hwrite hgrow

/-- What storing `n` bytes leaves. -/
structure Placed (t t' : TracedBuffer) (n : ℕ) : Prop where
  resize : t'.m_resize = t.m_resize
  sized : t'.Sized
  dataLength : t'.m_dataLength = t.m_dataLength
  readPos : t'.m_readPos = t.m_readPos
  writePos : t'.m_writePos = t.m_writePos + n
  validBytes : t'.m_validBytes = max t.m_validBytes (t.m_writePos + n)
  reads : t'.reads = t.reads
  writes : t'.writes = (t.m_writePos, n) :: t.writes

theorem Placed.sound {n : ℕ} (hp : t.Placed t' n) (hs : t.Sound)
    (hfits : t.m_writePos + n ≤ t.m_dataLength) : t'.Sound where
  resize := hp.resize.trans hs.resize
  sized := hp.sized
  word := by
    rw [hp.dataLength]
    exact hs.word
  read := by
    rw [hp.readPos, hp.validBytes]
    exact hs.read.trans (Nat.le_max_left _ _)
  valid := by
    rw [hp.validBytes, hp.dataLength]
    exact max_le hs.valid hfits
  write := by rwa [hp.writePos, hp.dataLength]

theorem place_of_le (hsized : t.Sized) (hword : t.m_dataLength < 2 ^ 32) {data : List UInt8}
    (hle : t.m_writePos + data.length ≤ t.m_dataLength) :
    ∃ t', t.place data = .ok t' ∧ t.Placed t' data.length := by
  obtain ⟨m_data, hstore, hlen⟩ := Buffer.store_of_le hsized hle
  have hadd : add32 t.m_writePos data.length = t.m_writePos + data.length :=
    add32_of_lt (by omega)
  simp only [place, hstore, Exec.ok_bind, hadd]
  refine ⟨_, rfl, rfl, hlen, rfl, rfl, rfl, ?_, rfl, rfl⟩
  simp only
  split <;> omega

theorem le_of_place (hsized : t.Sized) {data : List UInt8} (hne : data ≠ [])
    (hplace : t.place data = .ok t') : t.m_writePos + data.length ≤ t.m_dataLength := by
  rw [Buffer.Sized] at hsized
  simp only [place, Exec.bind_eq_ok] at hplace
  obtain ⟨m_data, hstore, -⟩ := hplace
  cases hdata : t.m_data with
  | none => simp [hdata, Buffer.store, hne] at hstore
  | some cells =>
    rw [hdata, Option.getD_some] at hsized
    by_contra hlt
    rw [hdata, Buffer.store, if_neg (by omega)] at hstore
    cases hstore

/-! ## Writers -/

/-- The length of the data area a write of `n` bytes at `pos` needs. -/
def lengthFor (t : TracedBuffer) (pos n amount : ℕ) : ℕ :=
  if t.m_dataLength < pos + n then t.m_dataLength + max amount (t.m_dataLength / 4)
  else t.m_dataLength

theorem makeRoom_of_hasRoom (hresize : t.m_resize = true) (hsized : t.Sized)
    (hword : t.m_dataLength < 2 ^ 32) {n amount : ℕ} (hroom : t.HasRoom t.m_writePos n amount) :
    ∃ t', t.makeRoom n amount = .ok (true, t') ∧
      t.Grown t' (t.lengthFor t.m_writePos n amount) := by
  obtain ⟨hpos, hgrow⟩ := hroom
  rw [makeRoom, sub32_of_le hpos hword, lengthFor]
  by_cases hlt : t.m_dataLength < t.m_writePos + n
  · have hlength : t.grownLength amount = t.m_dataLength + max amount (t.m_dataLength / 4) :=
      add32_of_lt (hgrow hlt)
    obtain ⟨t', hok, hgrown, -⟩ :=
      enlargeData_of_le hresize hsized hpos (show t.m_writePos ≤ t.grownLength amount by omega)
    have hfull : t.m_dataLength - t.m_writePos < n := by omega
    rw [if_pos hlt, ← hlength]
    exact ⟨t', by simpa [hfull] using hok, hgrown⟩
  · have hfits : ¬t.m_dataLength - t.m_writePos < n := by omega
    rw [if_neg hlt]
    exact ⟨t, by simp [hfits], rfl, hsized, rfl, rfl, rfl, rfl, fun _ _ h => h, fun _ _ h => h⟩

/-- A write that has room leaves the buffer within bounds, with its bytes stored. -/
theorem writeNext_of_hasRoom (hs : t.Sound) {data : List UInt8} {amount : ℕ}
    (hreads : Below t.reads (max t.m_validBytes (align t.m_writePos + data.length)))
    (hwrites : Below t.writes t.m_dataLength) (hamount : data.length ≤ amount)
    (hroom : t.HasRoom (align t.m_writePos) data.length amount) :
    ∃ t', t.writeNext align amount data = .ok (true, t') ∧ t'.Good ∧
      t'.m_writePos = align t.m_writePos + data.length ∧
      t'.m_dataLength = t.lengthFor (align t.m_writePos) data.length amount := by
  have hv := hs.valid
  have hword := hs.word
  have hmoved : ({ t with m_writePos := align t.m_writePos } : TracedBuffer).Sound :=
    { hs with write := hroom.1 }
  obtain ⟨u, hmake, hg⟩ := makeRoom_of_hasRoom hmoved.resize hmoved.sized hword hroom
  obtain ⟨hpos, hgrow⟩ := hroom
  change Grown _ u (t.lengthFor (align t.m_writePos) data.length amount) at hg
  have hlength :
      align t.m_writePos + data.length ≤ t.lengthFor (align t.m_writePos) data.length amount ∧
      t.m_dataLength ≤ t.lengthFor (align t.m_writePos) data.length amount ∧
      t.lengthFor (align t.m_writePos) data.length amount < 2 ^ 32 := by
    rw [lengthFor]
    split <;> omega
  obtain ⟨hfits, hge, hlt⟩ := hlength
  have hu := hg.sound hmoved hlt (hv.trans hge) (hpos.trans hge)
  have hw : u.m_writePos = align t.m_writePos := hg.writePos
  have hvalid : u.m_validBytes = t.m_validBytes := hg.validBytes
  rw [← hg.dataLength, ← hw] at hfits
  obtain ⟨t', hplace, hp⟩ := place_of_le hu.sized hu.word hfits
  refine ⟨t', ?_, ⟨hp.sound hu hfits, ?_, ?_⟩, ?_, ?_⟩
  · simp only [writeNext, hmake, Exec.ok_bind, if_true, hplace]
  · rw [hp.reads, hp.validBytes, hvalid, hw]
    exact hg.reads _ (by simp only; omega) hreads
  · rw [hp.writes, hp.dataLength, below_cons, hg.dataLength]
    exact ⟨.inr (hg.dataLength ▸ hfits), hg.writes _ (hpos.trans hge) (hwrites.mono hge)⟩
  · rw [hp.writePos, hw]
  · rw [hp.dataLength, hg.dataLength]

theorem good_writeNext (h : t.Good) {data : List UInt8} {amount : ℕ}
    (hamount : data.length ≤ amount) (hroom : t.HasRoom (align t.m_writePos) data.length amount) :
    ∃ t', after (t.writeNext align amount data) = .ok t' ∧ t'.Good := by
  obtain ⟨t', hwrite, hgood, -⟩ :=
    writeNext_of_hasRoom h.sound (h.reads.mono (le_max_left _ _)) h.writes hamount hroom
  exact ⟨t', after_eq_ok.mpr ⟨true, hwrite⟩, hgood⟩

/-- A new length that is not a word ends up below the old one. -/
theorem makeRoom_cases (hresize : t.m_resize = true) (hsized : t.Sized)
    (hword : t.m_dataLength < 2 ^ 32) (hpos : t.m_writePos ≤ t.m_dataLength) {n amount : ℕ}
    (hamount : amount < 2 ^ 32) {r : Bool × TracedBuffer}
    (hmake : t.makeRoom n amount = .ok r) (hlt : t.m_dataLength < t.m_writePos + n) :
    t.m_dataLength + max amount (t.m_dataLength / 4) < 2 ^ 32 ∨
      t.m_writePos ≤ t.m_dataLength + max amount (t.m_dataLength / 4) - 2 ^ 32 ∧
        ∃ t', r = (true, t') ∧
          t.Grown t' (t.m_dataLength + max amount (t.m_dataLength / 4) - 2 ^ 32) := by
  by_cases hword' : t.m_dataLength + max amount (t.m_dataLength / 4) < 2 ^ 32
  · exact .inl hword'
  · right
    have hfull : t.m_dataLength - t.m_writePos < n := by omega
    rw [makeRoom, sub32_of_le hpos hword, if_neg (by simpa using hfull)] at hmake
    have hle := le_of_enlargeData hresize hsized hpos hmake
    obtain ⟨t', hok, hgrown, -⟩ := enlargeData_of_le hresize hsized hpos hle
    have hlength : t.grownLength amount =
        t.m_dataLength + max amount (t.m_dataLength / 4) - 2 ^ 32 := by
      simp only [Buffer.grownLength, add32]
      omega
    rw [hlength] at hle hgrown
    exact ⟨hle, t', Exec.unique hmake hok, hgrown⟩

/-- Past the data area, the number of bytes left wraps and the writer stores. -/
theorem le_of_writeNext (hsized : t.Sized) (hw : t.m_writePos ≤ t.m_dataLength)
    {data : List UInt8} {amount : ℕ} (hpos : align t.m_writePos ≤ t.m_writePos + 3)
    (hne : data = [] → align = id) (hlen : data.length + 3 < 2 ^ 32) {r : Bool × TracedBuffer}
    (hwrite : t.writeNext align amount data = .ok r) : align t.m_writePos ≤ t.m_dataLength := by
  by_contra hlt
  have hdata : data ≠ [] := by
    intro h
    rw [hne h, id] at hlt
    omega
  have hleft : ¬sub32 t.m_dataLength (align t.m_writePos) < data.length := by
    rw [sub32]
    omega
  simp only [writeNext, makeRoom, hleft, decide_false, Bool.not_false, if_true, Exec.ok_bind,
    Exec.bind_eq_ok] at hwrite
  obtain ⟨t', hplace, -⟩ := hwrite
  have hfits :=
    le_of_place (t := { t with m_writePos := align t.m_writePos }) hsized hdata hplace
  simp only at hfits
  omega

/-- A writer that starts in the data area and returns had room. -/
theorem hasRoom_of_writeNext_of_le (hresize : t.m_resize = true) (hsized : t.Sized)
    (hword : t.m_dataLength < 2 ^ 32) {data : List UInt8} {amount : ℕ}
    (hle : align t.m_writePos ≤ t.m_dataLength) (hamount : amount < 2 ^ 32)
    {r : Bool × TracedBuffer} (hwrite : t.writeNext align amount data = .ok r) :
    t.HasRoom (align t.m_writePos) data.length amount := by
  refine ⟨hle, fun hlt => ?_⟩
  have hdata : data ≠ [] := by
    intro h
    rw [h, List.length_nil] at hlt
    omega
  simp only [writeNext, Exec.bind_eq_ok, Prod.exists] at hwrite
  obtain ⟨ok, u, hmake, hwrite⟩ := hwrite
  obtain hgrow | ⟨-, u', hu, hgrown⟩ :=
    makeRoom_cases (t := { t with m_writePos := align t.m_writePos }) hresize hsized hword hle
      hamount hmake hlt
  · exact hgrow
  · obtain ⟨rfl, rfl⟩ := Prod.mk.inj hu
    simp only [if_true, Exec.bind_eq_ok] at hwrite
    obtain ⟨t', hplace, -⟩ := hwrite
    have hfits := le_of_place hgrown.sized hdata hplace
    rw [hgrown.writePos, hgrown.dataLength] at hfits
    simp only at hfits
    omega

/-- A writer that returns had room. -/
theorem hasRoom_of_writeNext (hs : t.Sound) {data : List UInt8} {amount : ℕ}
    (hpos : align t.m_writePos ≤ t.m_writePos + 3) (hne : data = [] → align = id)
    (hamount : data.length + 3 < 2 ^ 32 ∧ amount < 2 ^ 32) {r : Bool × TracedBuffer}
    (hwrite : t.writeNext align amount data = .ok r) :
    t.HasRoom (align t.m_writePos) data.length amount :=
  hasRoom_of_writeNext_of_le hs.resize hs.sized hs.word
    (le_of_writeNext hs.sized hs.write hpos hne hamount.1 hwrite) hamount.2 hwrite

theorem fits_of_writeNext (h : t.Good) (halign : Aligns align) {data : List UInt8} {amount : ℕ}
    (hne : data = [] → align = id) (hamount : data.length + 3 < 2 ^ 32 ∧ amount < 2 ^ 32)
    (hwrite : after (t.writeNext align amount data) = .ok t') :
    t.HasRoom (align t.m_writePos) data.length amount := by
  obtain ⟨ok, hwrite⟩ := after_eq_ok.mp hwrite
  exact hasRoom_of_writeNext h.sound (halign.le _) hne hamount hwrite

theorem after_writeNextCharString (data : Option CString) (t : TracedBuffer) :
    after (t.writeNextCharString data) =
      after (t.writeNextByteArray (data.getD CString.empty).bytes) := by
  unfold writeNextCharString
  cases hwrite : t.writeNextByteArray (data.getD CString.empty).bytes <;>
    simp [after, Except.map, hwrite]

/-- The first of two 32-bit writes into eight bytes: it fits, and the second one is aligned. -/
private theorem writeNext_half (hs : t.Sound) (halign : Aligns align) (data : UInt32)
    (hreads : Below t.reads (max t.m_validBytes (align t.m_writePos + 4)))
    (hwrites : Below t.writes t.m_dataLength) (hfits : t.m_writePos + 8 ≤ t.m_dataLength) :
    ∃ t', t.writeNext align 8 (be32 data) = .ok (true, t') ∧ t'.Good ∧
      align t'.m_writePos = align t.m_writePos + 4 ∧ t'.m_dataLength = t.m_dataLength := by
  have hword := hs.word
  have hle := halign.le t.m_writePos
  have hroom : t.HasRoom (align t.m_writePos) (be32 data).length 8 := by
    rw [length_be32]
    exact ⟨by omega, by omega⟩
  obtain ⟨t', hwrite, hgood, hw, hlength⟩ :=
    writeNext_of_hasRoom hs (by simpa using hreads) hwrites (by simp) hroom
  rw [length_be32] at hw hlength
  refine ⟨t', hwrite, hgood, ?_, ?_⟩
  · rw [hw, halign.again _ (by omega)]
  · rw [hlength, lengthFor, if_neg (by omega)]

theorem good_writeNextHalves (h : t.Good) (halign : Aligns align)
    {half : UInt32 → TracedBuffer → Exec (Bool × TracedBuffer)}
    (hhalf : ∀ data t, half data t = t.writeNext align 8 (be32 data)) {data : UInt64}
    (hroom : t.HasRoom t.m_writePos 8 16)
    (hroom' : t.m_writePos + 8 ≤ t.m_dataLength → t.HasRoom (align t.m_writePos) 8 8) :
    ∃ t', after (t.writeNextHalves half data) = .ok t' ∧ t'.Good := by
  have hs := h.sound
  have hw := hs.write
  have hv := hs.valid
  have hword := hs.word
  have hle := halign.le t.m_writePos
  obtain ⟨u, hmake, hg⟩ := makeRoom_of_hasRoom hs.resize hs.sized hword hroom
  have hlength := hg.dataLength
  -- there is room for eight bytes, and for three more of alignment if it was made just now
  have hu : t.m_dataLength ≤ u.m_dataLength ∧ u.m_dataLength < 2 ^ 32 ∧
      t.m_writePos + 8 ≤ u.m_dataLength ∧
      (u.m_dataLength < align t.m_writePos + 8 →
        u.m_dataLength + max 8 (u.m_dataLength / 4) < 2 ^ 32) := by
    have hgrow := hroom.2
    rw [lengthFor] at hlength
    split at hlength
    · omega
    · rw [hlength]
      exact ⟨le_rfl, hword, by omega, (hroom' (by omega)).2⟩
  obtain ⟨hge, hlt, hfits, hgrow⟩ := hu
  have hge' := halign.ge t.m_writePos (by omega)
  have hwu : u.m_writePos = t.m_writePos := hg.writePos
  have hsu : u.Sound := hg.sound hs (by omega) (by omega) (by omega)
  have hreads : Below u.reads (max u.m_validBytes (align u.m_writePos + 4)) := by
    rw [hg.validBytes, hwu]
    exact hg.reads _ (by omega) (h.reads.mono (by omega))
  obtain ⟨t₁, hhigh, h₁, hagain, hl₁⟩ := writeNext_half hsu halign (high32bits data) hreads
    (hg.writes _ (by omega) (h.writes.mono hge)) (by omega)
  have hroom₁ : t₁.HasRoom (align t₁.m_writePos) (be32 (low32bits data)).length 8 := by
    rw [hagain, length_be32, hwu]
    refine ⟨by omega, fun hlt => ?_⟩
    rw [hl₁] at hlt ⊢
    exact hgrow (by omega)
  obtain ⟨t₂, hlow, h₂, -⟩ := writeNext_of_hasRoom h₁.sound (h₁.reads.mono (le_max_left _ _))
    h₁.writes (by simp) hroom₁
  refine ⟨t₂, after_eq_ok.mpr ⟨true, ?_⟩, h₂⟩
  simp only [writeNextHalves, hmake, Exec.ok_bind, if_true, hhalf, hhigh, hlow]

theorem hasRoom_of_writeNextHalves (h : t.Good) (halign : Aligns align)
    {half : UInt32 → TracedBuffer → Exec (Bool × TracedBuffer)}
    (hhalf : ∀ data t, half data t = t.writeNext align 8 (be32 data)) {data : UInt64}
    {r : Bool × TracedBuffer} (hwrite : t.writeNextHalves half data = .ok r) :
    t.HasRoom t.m_writePos 8 16 ∧
      (t.m_writePos + 8 ≤ t.m_dataLength → t.HasRoom (align t.m_writePos) 8 8) := by
  have hs := h.sound
  have hw := hs.write
  have hword := hs.word
  have hle := halign.le t.m_writePos
  simp only [writeNextHalves, Exec.bind_eq_ok, Prod.exists] at hwrite
  obtain ⟨ok, u, hmake, hwrite⟩ := hwrite
  by_cases hfits : t.m_writePos + 8 ≤ t.m_dataLength
  · have hleft : ¬t.m_dataLength - t.m_writePos < 8 := by omega
    simp only [makeRoom, sub32_of_le hw hword, hleft, decide_false, Bool.not_false,
      if_true] at hmake
    obtain ⟨rfl, rfl⟩ := Prod.mk.inj (Except.ok.inj hmake)
    obtain ⟨t₁, hhigh, h₁, hagain, hl₁⟩ := writeNext_half hs halign (high32bits data)
      (h.reads.mono (le_max_left _ _)) h.writes hfits
    simp only [if_true, hhalf, hhigh, Exec.ok_bind, Exec.bind_eq_ok] at hwrite
    obtain ⟨r', hlow, -⟩ := hwrite
    have hgrow := (hasRoom_of_writeNext h₁.sound (halign.le _) (by simp [be32]) (by simp) hlow).2
    rw [hagain, length_be32, hl₁] at hgrow
    exact ⟨⟨hw, by omega⟩, fun _ => ⟨by omega, fun hlt => hgrow (by omega)⟩⟩
  · refine ⟨⟨hw, fun hlt => ?_⟩, fun hle => absurd hle hfits⟩
    obtain hgrow | ⟨hshort, -⟩ :=
      makeRoom_cases hs.resize hs.sized hword hw (by decide) hmake hlt
    · exact hgrow
    · omega

/-! ## `reserve` -/

theorem reserve_eq (t : TracedBuffer) (size : ℤ) :
    t.reserve size =
      if int32 (t.reserveAmount size) < 0 then .ok t
      else after (t.enlargeData (t.reserveAmount size)) := by
  unfold reserve Buffer.reserveAmount
  generalize ((size - t.m_dataLength + 3) % 2 ^ 32).toNat / 4 * 4 = amount
  cases hgrow : t.enlargeData amount <;> simp [after, Except.map, hgrow]

theorem good_reserve (h : t.Good) (hwrites : t.writes = []) {size : ℤ}
    (hfits : int32 (t.reserveAmount size) < 0 ∨ t.m_writePos ≤ t.m_validBytes ∧
      t.m_validBytes ≤ t.grownLength (t.reserveAmount size)) :
    ∃ t', t.reserve size = .ok t' ∧ t'.Good := by
  have hs := h.sound
  rw [reserve_eq]
  by_cases hneg : int32 (t.reserveAmount size) < 0
  · rw [if_pos hneg]
    exact ⟨t, rfl, h⟩
  · rw [if_neg hneg]
    obtain ⟨hw, hv⟩ := hfits.resolve_left hneg
    obtain ⟨t', hgrow, hg, -⟩ := enlargeData_of_le hs.resize hs.sized hs.write (hw.trans hv)
    have hword : t.grownLength (t.reserveAmount size) < 2 ^ 32 := Nat.mod_lt _ (by decide)
    refine ⟨t', after_eq_ok.mpr ⟨_, hgrow⟩, hg.sound hs hword hv (hw.trans hv), ?_, ?_⟩
    · rw [hg.validBytes]
      exact hg.reads _ hw h.reads
    · rw [hg.dataLength]
      exact hg.writes _ (hw.trans hv) (by simp [hwrites])

theorem fits_of_reserve (h : t.Good) {size : ℤ} (hreserve : t.reserve size = .ok t')
    (hwithin : t'.WithinBounds) :
    int32 (t.reserveAmount size) < 0 ∨ t.m_writePos ≤ t.m_validBytes ∧
      t.m_validBytes ≤ t.grownLength (t.reserveAmount size) := by
  have hs := h.sound
  rw [reserve_eq] at hreserve
  by_cases hneg : int32 (t.reserveAmount size) < 0
  · exact .inl hneg
  · right
    rw [if_neg hneg] at hreserve
    obtain ⟨ok, hgrow⟩ := after_eq_ok.mp hreserve
    have hle := le_of_enlargeData hs.resize hs.sized hs.write hgrow
    obtain ⟨u, hgrow', hg, hcopy⟩ := enlargeData_of_le hs.resize hs.sized hs.write hle
    obtain ⟨-, rfl⟩ := Prod.mk.inj (Exec.unique hgrow hgrow')
    obtain ⟨⟨-, hvalid⟩, -, hreads, -⟩ := hwithin
    rw [hg.validBytes] at hreads hvalid
    rw [hg.dataLength] at hvalid
    exact ⟨hcopy _ hreads, hvalid⟩

end TracedBuffer

/-! ## Sizes -/

theorem length_le_byteArrayAmount {n : ℕ} (hn : n ≤ maxObject) :
    n ≤ add32 (align32 n) 4 := by
  rw [maxObject] at hn
  simp only [align32, add32]
  omega

theorem byteArrayAmount_lt {n : ℕ} (hn : n ≤ maxObject) :
    n + 3 < 2 ^ 32 ∧ add32 (align32 n) 4 < 2 ^ 32 := by
  rw [maxObject] at hn
  rw [add32]
  omega

theorem length_bytes_le (data : Option CString) :
    (data.getD CString.empty).bytes.length ≤ maxObject := by
  have := (data.getD CString.empty).property.2
  rw [CString.length_bytes]
  omega

end CppCore.Utils
