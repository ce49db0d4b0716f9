import CppCore.Utils.BufferRead
import CppCore.Utils.BufferWrite

/-!
# The positions of a buffer stay within its bounds

Every operation keeps the invariant of a buffer exactly if it fits, so a run stays within
bounds exactly if each of its steps fits.

## Main definitions

* `good_perform`, `fits_of_perform` — one operation, from the lemmas about each.
* `staysWithinBounds_iff`, `sound_step` — one step of a run.
* `allSteps_staysWithinBounds_iff` — a run.
-/

namespace CppCore.Utils

open Lib TracedBuffer

/-! ## One operation -/

theorem Buffer.Sound.good_traced {b : Buffer} (h : b.Sound) : b.traced.Good :=
  ⟨h, below_nil _, below_nil _⟩

variable {b : Buffer}

/-- **An operation that fits leaves the buffer sound, and touches it within bounds.** -/
theorem good_perform (host : Endian) (hb : b.Sound) (hset : b.Settled) {op : BufferOp}
    (hfits : op.Fits b) : ∃ t, op.perform host b.traced = .ok t ∧ t.Good := by
  have h := hb.good_traced
  cases op with
  | readNext8bit =>
    rw [BufferOp.perform, readNext8bit, after_map]
    exact good_readNext h hset 1 hb.read
  | readNext16bit =>
    rw [BufferOp.perform, readNext16bit, after_map]
    exact good_readNext h hset 2 hfits
  | readNext32bit =>
    rw [BufferOp.perform, readNext32bit, after_map]
    exact good_readNext h hset 4 hfits
  | readNextUnaligned16bit =>
    rw [BufferOp.perform, readNextUnaligned16bit, after_map]
    exact good_readNext h hset 2 hb.read
  | readNextUnaligned32bit =>
    rw [BufferOp.perform, readNextUnaligned32bit, after_map]
    exact good_readNext h hset 4 hb.read
  | readNextFloat =>
    rw [BufferOp.perform, readNextFloat, after_map]
    exact good_readNext h hset 4 hfits
  | readNext64bit =>
    exact good_readNextHalves h hset aligns_align32 fun t => after_map value32 _
  | readNextUnaligned64bit =>
    exact good_readNextHalves h hset aligns_id fun t => after_map value32 _
  | writeNext8bit data => exact good_writeNext h (by simp) hfits
  | writeNext16bit data => exact good_writeNext h (by simp) hfits
  | writeNext32bit data => exact good_writeNext h (by simp) hfits
  | writeNextUnaligned16bit data => exact good_writeNext h (by simp) hfits
  | writeNextUnaligned32bit data => exact good_writeNext h (by simp) hfits
  | writeNextFloat data =>
    exact good_writeNext h (by simp) (by rw [length_bytesFloat]; exact hfits)
  | writeNext64bit data =>
    exact good_writeNextHalves h aligns_align32 (fun _ _ => rfl) hfits.1 hfits.2
  | writeNextUnaligned64bit data =>
    exact good_writeNextHalves h aligns_id (fun _ _ => rfl) hfits
      fun hle => ⟨hb.write, fun hlt => absurd hle (by simp only [id] at hlt; omega)⟩
  | writeNextByteArray data =>
    exact good_writeNext h (length_le_byteArrayAmount data.property) hfits
  | writeNextCharString data =>
    rw [BufferOp.perform, after_writeNextCharString]
    exact good_writeNext h (length_le_byteArrayAmount (length_bytes_le data)) hfits
  | readNextByteArray n =>
    exact good_readNextByteArray h hset ⟨n.le_toInt, n.toInt_lt⟩ hfits
  | readNextCharString n => exact good_readNextCharString h hset hfits.1 hfits.2
  | getNextCharStringAlloc => exact good_getNextCharStringAlloc h hset hfits
  | getNextCharString => exact good_getNextCharString h hset
  | setReadPos newPos =>
    refine ⟨_, rfl, h.moveRead ?_⟩
    split
    · exact le_rfl
    · exact Nat.le_of_not_lt ‹_›
  | setWritePos newPos =>
    refine ⟨_, rfl, h.moveWrite (le_trans ?_ hb.valid)⟩
    split
    · exact le_rfl
    · exact Nat.le_of_not_lt ‹_›
  | jumpReadPos offset => exact good_jumpReadPos h hfits
  | jumpWritePos offset => exact good_jumpWritePos h hfits
  | jumpReadPosTo value => exact good_jumpReadPosTo h hset value
  | alignReadPos16bit => exact ⟨_, rfl, h.moveRead hfits⟩
  | alignReadPos32bit => exact ⟨_, rfl, h.moveRead hfits⟩
  | alignWritePos16bit => exact ⟨_, rfl, h.moveWrite hfits⟩
  | alignWritePos32bit => exact ⟨_, rfl, h.moveWrite hfits⟩
  | clear =>
    exact ⟨_, rfl, ⟨hb.resize, hb.sized, hb.word, le_rfl, Nat.zero_le _, Nat.zero_le _⟩,
      below_nil _, below_nil _⟩
  | reserve size => exact good_reserve h rfl hfits

/-- **An operation that leaves the buffer within bounds fitted it.** -/
theorem fits_of_perform {host : Endian} (hb : b.Sound) (hset : b.Settled) {op : BufferOp}
    {t : TracedBuffer} (hperform : op.perform host b.traced = .ok t) (hwithin : t.WithinBounds) :
    op.Fits b := by
  have h := hb.good_traced
  cases op with
  | readNext16bit =>
    rw [BufferOp.perform, readNext16bit, after_map] at hperform
    exact fits_of_readNext h aligns_align16 (by decide) hperform hwithin
  | readNext32bit =>
    rw [BufferOp.perform, readNext32bit, after_map] at hperform
    exact fits_of_readNext h aligns_align32 (by decide) hperform hwithin
  | readNextFloat =>
    rw [BufferOp.perform, readNextFloat, after_map] at hperform
    exact fits_of_readNext h aligns_align32 (by decide) hperform hwithin
  | writeNext8bit data => exact fits_of_writeNext h aligns_id (by simp) (by simp) hperform
  | writeNext16bit data =>
    exact fits_of_writeNext h aligns_align16 (by simp [be16]) (by simp) hperform
  | writeNext32bit data =>
    exact fits_of_writeNext h aligns_align32 (by simp [be32]) (by simp) hperform
  | writeNextUnaligned16bit data => exact fits_of_writeNext h aligns_id (by simp) (by simp) hperform
  | writeNextUnaligned32bit data => exact fits_of_writeNext h aligns_id (by simp) (by simp) hperform
  | writeNextFloat data =>
    have hroom := fits_of_writeNext h aligns_align32
      (fun hnil => by simpa [hnil] using length_bytesFloat host data) (by simp) hperform
    rw [length_bytesFloat] at hroom
    exact hroom
  | writeNext64bit data =>
    obtain ⟨ok, hwrite⟩ := after_eq_ok.mp hperform
    exact hasRoom_of_writeNextHalves h aligns_align32 (fun _ _ => rfl) hwrite
  | writeNextUnaligned64bit data =>
    obtain ⟨ok, hwrite⟩ := after_eq_ok.mp hperform
    exact (hasRoom_of_writeNextHalves h aligns_id (fun _ _ => rfl) hwrite).1
  | writeNextByteArray data =>
    exact fits_of_writeNext h aligns_id (fun _ => rfl) (byteArrayAmount_lt data.property) hperform
  | writeNextCharString data =>
    rw [BufferOp.perform, after_writeNextCharString] at hperform
    exact fits_of_writeNext h aligns_id (fun _ => rfl)
      (byteArrayAmount_lt (length_bytes_le data)) hperform
  | readNextByteArray n =>
    exact fits_of_readNextByteArray h ⟨n.le_toInt, n.toInt_lt⟩ hperform hwithin
  | readNextCharString n => exact fits_of_readNextCharString h hperform
  | getNextCharStringAlloc => exact fits_of_getNextCharStringAlloc h hset hperform hwithin
  | jumpReadPos offset =>
    obtain ⟨pos, hjump⟩ := after_eq_ok.mp hperform
    simp only [jumpReadPos, Exec.bind_eq_ok] at hjump
    obtain ⟨pos', hjump, -⟩ := hjump
    exact ne_of_jump hjump
  | jumpWritePos offset =>
    obtain ⟨pos, hjump⟩ := after_eq_ok.mp hperform
    simp only [jumpWritePos, Exec.bind_eq_ok] at hjump
    obtain ⟨pos', hjump, -⟩ := hjump
    exact ne_of_jump hjump
  | alignReadPos16bit | alignReadPos32bit =>
    obtain rfl := Except.ok.inj hperform
    exact hwithin.1.1
  | alignWritePos16bit | alignWritePos32bit =>
    obtain rfl := Except.ok.inj hperform
    exact hwithin.2.1
  | reserve size => exact fits_of_reserve h hperform hwithin
  | readNext8bit | readNextUnaligned16bit | readNextUnaligned32bit | readNextUnaligned64bit
  | readNext64bit | getNextCharString | setReadPos _ | setWritePos _ | jumpReadPosTo _ | clear =>
    trivial

/-! ## Runs -/

/-- **One step stays within bounds exactly if it fits.** -/
theorem staysWithinBounds_iff (host : Endian) (hb : b.Sound) (a : BufferAction) :
    StaysWithinBounds host b a ↔ a.Fits b := by
  have hs := hb.settle a.2
  have hset := b.settled_settle a.2
  constructor
  · intro h
    obtain ⟨t, hexec, hwithin⟩ := h
    exact fits_of_perform hs hset hexec hwithin
  · intro h
    obtain ⟨t, hexec, hgood⟩ := good_perform host hs hset h
    exact ⟨t, hexec, hgood.withinBounds⟩

/-- A step that fits keeps the invariant. -/
theorem sound_step (host : Endian) (hb : b.Sound) {a : BufferAction} {b' : Buffer}
    (hfits : a.Fits b) (hstep : b.step host a = some b') : b'.Sound := by
  obtain ⟨t, hexec, hgood⟩ := good_perform host (hb.settle a.2) (Buffer.settled_settle a.2 b) hfits
  have hexec' : BufferAction.exec host b a = .ok t := hexec
  simp only [Buffer.step, hexec', Except.toOption, Option.map_some, Option.some.injEq] at hstep
  exact hstep ▸ hgood.sound

/-- **The representation invariant of buffers.**  In a run from a resizable buffer of any length,
every step leaves the positions within the bounds and touches no byte outside them, exactly if
every step fits. -/
theorem allSteps_staysWithinBounds_iff (host : Endian) (length : ℕ) (actions : List BufferAction) :
    AllSteps (Buffer.step host) (StaysWithinBounds host) (Buffer.ofLength length) actions ↔
      AllSteps (Buffer.step host) (fun b a => a.Fits b) (Buffer.ofLength length) actions := by
  refine AllSteps.iff_of_inv ?_ ?_ (Buffer.sound_ofLength length)
  · intro b a b' hb hfits hstep
    exact sound_step host hb hfits hstep
  · intro b a hb
    exact staysWithinBounds_iff host hb a

/-- An aligned read moves the read position past the valid bytes and then reads there. -/
theorem not_forall_staysWithinBounds :
    ¬∀ (host : Endian) (length : ℕ) (actions : List BufferAction),
      AllSteps (Buffer.step host) (StaysWithinBounds host) (Buffer.ofLength length) actions := by
  intro h
  have hrun := h .little 8
    [(.writeNext8bit 1, fun _ => 0), (.readNext8bit, fun _ => 0), (.readNext32bit, fun _ => 0)]
  exact absurd hrun (by decide)

/-- Without alignment the same reads stay within bounds. -/
example : AllSteps (Buffer.step .little) (StaysWithinBounds .little) (Buffer.ofLength 4)
    [(.writeNext8bit 1, fun _ => 0), (.readNext8bit, fun _ => 0), (.readNext8bit, fun _ => 0)] := by
  decide

end CppCore.Utils
