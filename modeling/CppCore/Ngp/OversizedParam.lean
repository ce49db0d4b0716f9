import CppCore.Ngp.NParamBlock

/-!
# Params longer than their length field

A payload has any length: each call of an `add` function makes it longer.  `NParam::writeTo` writes
all of it behind a length field of sixteen bits, and the parser takes what the length field leaves
over for further params.

## Main definitions

* `NParamBlock.encodedSize` — how many bytes `writeParams` appends without compression.
* `NParamBlock.Recovers` — what was written is parsed as the params of the block.
* `NParamBlock.parsed_of_fits` — the params in front of the first long one are parsed.
* `NParamBlock.parsed_payload` — how a payload is parsed as params nobody added.
* `NParamBlock.recovers_iff` — when the params of a block are recovered.
-/

namespace CppCore.Ngp

open Lib

namespace NParamBlock

/-- The number of bytes `writeParams` appends: the flags word and each param behind its header. -/
def encodedSize (b : NParamBlock) (protVer : UInt8) : ℕ :=
  (if 0xc ≤ protVer then 4 else 0) + (b.m_params.toList.map fun p => p.m_buff.length + 4).sum

/-- If `writeParams` can append the block to the vector, without compression, then what it appends
is parsed as the params of the block. -/
def Recovers (zip : GunzipUtil) (b : NParamBlock) (buff : List UInt8) (protVer : UInt8) : Prop :=
  ∀ bytes, b.writeParams zip buff protVer = .ok (buff ++ bytes) →
    (buff ++ bytes).length ≤ vectorMaxSize →
      ∃ parsed, ofBuffer zip (some bytes) bytes.length protVer = .ok parsed ∧
        parsed.m_params = b.m_params

/-! ## What the parser makes of the bytes -/

/-- The params are parsed from the bytes of the records alone. -/
theorem perm_parsed {zip : GunzipUtil} {b parsed : NParamBlock} {protVer : UInt8}
    (hbound : (b.encoding zip protVer).length < 2 ^ 31)
    (h : ofBuffer zip (some (b.encoding zip protVer)) (b.encoding zip protVer).length protVer =
      .ok parsed) :
    parsed.m_params.toList.Perm
      ((parseRecords (encodeRecords (b.m_params.toList.map toRecord))).1.map ofRecord) := by
  rw [ofBuffer_encoding_eq zip b protVer _ List.prefix_rfl hbound] at h
  obtain rfl := Except.ok.inj h
  exact OrderedMultiset.perm_insertAll OrderedMultiset.empty _

/-- No param that is parsed is longer than the length field can say. -/
theorem length_le_of_parsed {zip : GunzipUtil} {b parsed : NParamBlock} {protVer : UInt8}
    (hbound : (b.encoding zip protVer).length < 2 ^ 31)
    (h : ofBuffer zip (some (b.encoding zip protVer)) (b.encoding zip protVer).length protVer =
      .ok parsed) {p : NParam} (hp : p ∈ parsed.m_params.toList) : p.m_buff.length ≤ 65535 := by
  obtain ⟨r, hr, rfl⟩ := List.mem_map.mp ((perm_parsed hbound h).mem_iff.mp hp)
  exact Nat.le_of_lt_succ ((parseRecords_spec _).1 r hr)

/-- **The params in front of the first long one are parsed**, whatever follows them. -/
theorem parsed_of_fits {zip : GunzipUtil} {b parsed : NParamBlock} {protVer : UInt8}
    (hbound : (b.encoding zip protVer).length < 2 ^ 31)
    (h : ofBuffer zip (some (b.encoding zip protVer)) (b.encoding zip protVer).length protVer =
      .ok parsed) {front back : List NParam} (hsplit : b.m_params.toList = front ++ back)
    (hfits : ∀ p ∈ front, p.m_buff.length ≤ 65535) : front.Subperm parsed.m_params.toList := by
  have hfront : front.map toRecord <+:
      (parseRecords (encodeRecords (b.m_params.toList.map toRecord))).1 := by
    apply prefix_parseRecords
    · intro r hr
      obtain ⟨p, hp, rfl⟩ := List.mem_map.mp hr
      exact Nat.lt_succ_of_le (hfits p hp)
    · rw [hsplit, List.map_append, encodeRecords_append]
      exact List.prefix_append _ _
  have hsub := (hfront.map ofRecord).sublist.subperm
  rw [map_ofRecord_toRecord] at hsub
  exact hsub.trans (perm_parsed hbound h).symm.subperm

/-- **A payload becomes params**: what stands behind the bytes the length field counts is parsed
together with the params that follow. -/
theorem parsed_payload (p : NParam) {rs : List Record} (hrs : ∀ r ∈ rs, r.Fits)
    (hrest : p.m_buff.drop (p.m_buff.length % 2 ^ 16) = encodeRecords rs)
    (following : List Record) :
    (parseRecords (encodeRecords (toRecord p :: following))).1 =
      (p.m_paramID, p.m_buff.take (p.m_buff.length % 2 ^ 16)) ::
        (rs ++ (parseRecords (encodeRecords following)).1) := by
  have hdrop : (toRecord p).2.drop ((toRecord p).2.length % 2 ^ 16) = encodeRecords rs := hrest
  rw [encodeRecords_cons, parseRecords_encodeRecord_append, hdrop, parseRecords_append hrs]
  rfl

/-! ## When the params are recovered -/

theorem length_encoding_eq (zip : GunzipUtil) (b : NParamBlock) (protVer : UInt8) :
    (b.encoding zip protVer).length = b.encodedSize protVer := length_encoding zip b protVer

/-- **When the params of a block are recovered**: exactly if no payload is longer than the length
field can say, as far as the block can be written at all. -/
theorem recovers_iff (zip : GunzipUtil) (b : NParamBlock) (buff : List UInt8) (protVer : UInt8) :
    b.Recovers zip buff protVer ↔
      (buff.length + b.encodedSize protVer ≤ vectorMaxSize →
        ∀ p ∈ b.m_params.toList, p.m_buff.length ≤ 65535) := by
  have hlength := length_encoding_eq zip b protVer
  have hmax : vectorMaxSize < 2 ^ 31 := by decide
  constructor
  · intro h hsize p hp
    have hbound : (b.encoding zip protVer).length < 2 ^ 31 := by omega
    obtain ⟨parsed, hparsed, hparams⟩ := h _ (writeParams_eq zip b buff protVer) (by
      rw [List.length_append, hlength]
      exact hsize)
    rw [← hparams] at hp
    exact length_le_of_parsed hbound hparsed hp
  · intro h bytes hwrite hsize
    obtain rfl : b.encoding zip protVer = bytes := by
      rw [writeParams_eq] at hwrite
      exact List.append_cancel_left (Except.ok.inj hwrite)
    rw [List.length_append, hlength] at hsize
    have hbound : (b.encoding zip protVer).length < 2 ^ 31 := by omega
    exact ⟨_, ofBuffer_encoding zip b protVer (h hsize) _ List.prefix_rfl hbound, rfl⟩

/-- A param whose payload is a record of 65536 bytes, in a block of its own: the record is parsed as
a param, which was never added. -/
theorem not_recovers_of_record (zip : GunzipUtil) (paramID : UInt16) {protVer : UInt8}
    (hver : protVer < 0xc) {r : Record} (hr : r.2.length = 65532) :
    ¬(empty.addParam ⟨paramID, encodeRecord r⟩).Recovers zip [] protVer := by
  intro h
  have hlist : (empty.addParam ⟨paramID, encodeRecord r⟩).m_params.toList =
      [⟨paramID, encodeRecord r⟩] := rfl
  have hlength : (encodeRecord r).length = 2 ^ 16 := by
    rw [length_encodeRecord, hr]
    rfl
  have hencoding : ((empty.addParam ⟨paramID, encodeRecord r⟩).encoding zip protVer).length =
      65540 := by
    rw [length_encoding, hlist, if_neg (UInt8.not_le.mpr hver), List.map_singleton,
      List.sum_singleton, hlength]
    rfl
  obtain ⟨parsed, hparsed, hparams⟩ := h _ (writeParams_eq _ _ _ _) (by
    rw [List.nil_append, hencoding]
    decide)
  have hperm := perm_parsed (by rw [hencoding]; decide) hparsed
  have hfits : ∀ r' ∈ [r], r'.Fits := by
    intro r' hr'
    rw [List.mem_singleton.mp hr', Record.Fits, hr]
    decide
  have hrest : (encodeRecord r).drop ((encodeRecord r).length % 2 ^ 16) = encodeRecords [r] := by
    rw [hlength, Nat.mod_self, List.drop_zero, encodeRecords_cons, encodeRecords_nil,
      List.append_nil]
  have hpayload := parsed_payload ⟨paramID, encodeRecord r⟩ hfits hrest []
  rw [hparams, hlist, List.map_singleton, hpayload] at hperm
  simpa using hperm.length_eq

/-- A param with the id 1, whose payload is a record with the id 9. -/
theorem not_forall_recovers :
    ¬∀ (zip : GunzipUtil) (b : NParamBlock) (buff : List UInt8) (protVer : UInt8),
      b.Recovers zip buff protVer := by
  intro h
  have hlength : (List.replicate 65532 (0 : UInt8)).length = 65532 := List.length_replicate
  exact not_recovers_of_record GunzipUtil.stub 1 (show (0xb : UInt8) < 0xc by decide)
    (r := (9, List.replicate 65532 0)) hlength (h _ _ _ _)

end NParamBlock

end CppCore.Ngp
