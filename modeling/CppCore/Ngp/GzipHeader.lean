import CppCore.Ngp.Zlib
import CppCore.Lib.PrefixFree

/-!
# The member header of a gzip stream

RFC 1952 puts a header in front of the compressed data: the magic bytes, the method, the flags, six
bytes for the time, the extra flags and the system, and then, as the flags say, an extra field
behind its length, a file name and a comment that a zero byte ends, and a header CRC.  The headers
are a prefix-free language, and each part of the scan takes a word of the language of its field.

The scan may run past the end of the buffer, and then `ok` stays false.  Its position is an `int`,
which overflows when no header that begins with the buffer is short enough: of a name, a comment and
a CRC that are cut off the scan asks for as many bytes as they need.

## Main definitions

* `memberHeader` — the language of headers, from those of the fields.
* `Skips` — a part of the scan takes a word of a language, or as many bytes as one needs.
* `Stops` — a part ends behind the buffer where no word is there.
* `FitsInt` — a header that begins with the buffer is no longer than an `int` can say.
* `checksHeader_iff` — `check_header` finds the headers and their lengths in such buffers.
-/

namespace CppCore.Ngp.Zlib

open Lib

/-! ## The language of headers -/

/-- Any bytes, so many of them. -/
def octets (n : ℕ) : Language UInt8 := {l | l.length = n}

/-- The extra field: its length, least significant byte first, and so many bytes. -/
def extra : Language UInt8 :=
  {l | ∃ lo hi : UInt8, ∃ data : List UInt8,
    l = lo :: hi :: data ∧ data.length = lo.toNat + 256 * hi.toNat}

/-- A text and the zero byte behind it. -/
def zeroTerminated : Language UInt8 := {l | ∃ text : List UInt8, 0 ∉ text ∧ l = text ++ [0]}

/-- A field that is there if its flag is set. -/
def flagged (flags flag : UInt8) (field : Language UInt8) : Language UInt8 :=
  if flags &&& flag ≠ 0 then field else 1

/-- What comes behind the flags. -/
def headerFields (flags : UInt8) : Language UInt8 :=
  octets 6 * (flagged flags 0x04 extra * (flagged flags 0x08 zeroTerminated *
    (flagged flags 0x10 zeroTerminated * flagged flags 0x02 (octets 2))))

/-- The headers: magic bytes, method 8, flags none of which is reserved, and what they ask for. -/
def memberHeader : Language UInt8 :=
  {l | ∃ flags : UInt8, ∃ fields ∈ headerFields flags,
    flags &&& 0xE0 = 0 ∧ l = 0x1f :: 0x8b :: 8 :: flags :: fields}

/-! ## The languages of the fields -/

theorem octets_zero : octets 0 = 1 := by
  ext l
  exact List.length_eq_zero_iff.trans (Language.mem_one l).symm

theorem cons_mem_octets {n : ℕ} (b : UInt8) (l : List UInt8) :
    b :: l ∈ octets (n + 1) ↔ l ∈ octets n := Nat.succ_inj

theorem nil_notMem_octets (n : ℕ) : [] ∉ octets (n + 1) := fun h => nomatch h

theorem prefixFree_octets (n : ℕ) : PrefixFree (octets n) := by
  intro l hl l' hl' hne hpre
  exact hne (hpre.eq_of_length (Eq.trans hl (Eq.symm hl')))

theorem within_octets (n : ℕ) : Within (octets n) n := by
  intro text
  by_cases hlen : n ≤ text.length
  · exact .inl ⟨text.take n, List.length_take_of_le hlen, List.take_prefix n text⟩
  · refine .inr ⟨text ++ List.replicate (n - text.length) 0, ?_, List.prefix_append _ _, ?_⟩
    · change (text ++ List.replicate (n - text.length) 0).length = n
      rw [List.length_append, List.length_replicate]
      omega
    · rw [List.length_append, List.length_replicate]
      omega

theorem cons_mem_zeroTerminated {b : UInt8} (hb : b ≠ 0) (l : List UInt8) :
    b :: l ∈ zeroTerminated ↔ l ∈ zeroTerminated := by
  refine ⟨?_, ?_⟩
  · rintro ⟨text, htext, h⟩
    cases text with
    | nil => exact absurd (List.cons.inj h).1 hb
    | cons c text =>
      exact ⟨text, fun hmem => htext (List.mem_cons_of_mem c hmem), (List.cons.inj h).2⟩
  · rintro ⟨text, htext, rfl⟩
    refine ⟨b :: text, ?_, rfl⟩
    rw [List.mem_cons, not_or]
    exact ⟨hb.symm, htext⟩

theorem zero_cons_mem_zeroTerminated (l : List UInt8) :
    0 :: l ∈ zeroTerminated ↔ l ∈ (1 : Language UInt8) := by
  rw [Language.mem_one]
  refine ⟨?_, ?_⟩
  · rintro ⟨text, htext, h⟩
    cases text with
    | nil => exact (List.cons.inj h).2
    | cons c text => exact absurd (List.mem_cons.mpr (.inl (List.cons.inj h).1)) htext
  · rintro rfl
    exact ⟨[], List.not_mem_nil, rfl⟩

theorem prefixFree_zeroTerminated : PrefixFree zeroTerminated := by
  intro l hl l' hl' hne hpre
  obtain ⟨text, -, rfl⟩ := hl
  obtain ⟨text', htext', rfl⟩ := hl'
  rcases List.prefix_concat_iff.mp hpre with heq | hinside
  · exact hne heq
  · exact htext' (hinside.subset (by simp))

theorem within_zeroTerminated : Within zeroTerminated 1 := by
  intro text
  by_cases hzero : 0 ∈ text
  · obtain ⟨front, back, rfl, hfront⟩ := List.eq_append_cons_of_mem hzero
    exact .inl ⟨front ++ [0], ⟨front, hfront, rfl⟩, ⟨back, by simp⟩⟩
  · exact .inr ⟨text ++ [0], ⟨text, hzero, rfl⟩, List.prefix_append _ _, by simp⟩

theorem prefixFree_extra : PrefixFree extra := by
  intro l hl l' hl' hne hpre
  obtain ⟨lo, hi, data, rfl, hlen⟩ := hl
  obtain ⟨lo', hi', data', rfl, hlen'⟩ := hl'
  simp only [List.cons_prefix_cons] at hpre
  obtain ⟨rfl, rfl, hdata⟩ := hpre
  exact hne (by rw [hdata.eq_of_length (hlen.trans hlen'.symm)])

/-- An extra field has at most 65535 bytes behind its length. -/
theorem length_extra_le {l : List UInt8} (hl : l ∈ extra) : l.length ≤ 65537 := by
  obtain ⟨lo, hi, data, rfl, hlen⟩ := hl
  have hlo := lo.toNat_lt
  have hhi := hi.toNat_lt
  simp only [List.length_cons, hlen]
  omega

section Flagged

variable {field : Language UInt8} (flags flag : UInt8)

theorem prefixFree_flagged (h : PrefixFree field) : PrefixFree (flagged flags flag field) := by
  rw [Zlib.flagged]
  split
  · exact h
  · exact prefixFree_one

theorem within_flagged {n : ℕ} (h : Within field n) : Within (flagged flags flag field) n := by
  rw [Zlib.flagged]
  split
  · exact h
  · exact fun text => .inl (front_one text)

end Flagged

/-! ## Parts of the scan -/

variable {header : List UInt8}

/-- A byte is not `EOF`. -/
theorem toUInt32_ne_EOF (b : UInt8) : b.toUInt32 ≠ EOF := by
  intro h
  have hb := b.toNat_lt
  have hnat : b.toUInt32.toNat = EOF.toNat := by rw [h]
  rw [UInt8.toNat_toUInt32, EOF] at hnat
  change b.toNat = 4294967295 at hnat
  omega

/-- At the end of the buffer there is no byte. -/
theorem get_byte_nil {s : HeaderScan} (h : header.drop s.headerPos = [])
    (hroom : s.headerPos + 1 < 2 ^ 31) :
    get_byte_func header header.length s = .ok (EOF, ⟨s.headerPos + 1, false⟩) := by
  have hend : header.length ≤ s.headerPos := List.drop_eq_nil_iff.mp h
  rw [get_byte_func, nextPos, if_pos hroom, Exec.ok_bind, if_pos (by omega), if_pos (by omega)]

/-- Behind the greatest `int` there is no position. -/
theorem get_byte_full (s : HeaderScan) (hfull : ¬s.headerPos + 1 < 2 ^ 31) :
    get_byte_func header header.length s = .error .signedOverflow := by
  rw [get_byte_func, nextPos, if_neg hfull, Exec.error_bind]

/-- Inside of the buffer there is a byte. -/
theorem get_byte_cons (hbound : header.length < 2 ^ 31) {s : HeaderScan} {b : UInt8}
    {rest : List UInt8} (h : header.drop s.headerPos = b :: rest) :
    get_byte_func header header.length s = .ok (b.toUInt32, ⟨s.headerPos + 1, s.ok⟩) := by
  have hlt : s.headerPos < header.length := by
    by_contra hge
    rw [List.drop_eq_nil_iff.mpr (by omega)] at h
    cases h
  rw [List.drop_eq_getElem_cons hlt, List.cons.injEq] at h
  rw [get_byte_func, nextPos, if_pos (by omega), Exec.ok_bind, if_neg (by omega),
    byteAt_of_lt hlt, Exec.ok_bind, h.1]

/-- There is a position behind a byte. -/
theorem room_of_cons (hbound : header.length < 2 ^ 31) {s : HeaderScan} {b : UInt8}
    {rest : List UInt8} (h : header.drop s.headerPos = b :: rest) :
    s.headerPos + 1 < 2 ^ 31 := by
  have hlen := congrArg List.length h
  rw [List.length_drop, List.length_cons] at hlen
  omega

/-- What is behind the next byte. -/
theorem drop_succ {s : HeaderScan} {b : UInt8} {rest : List UInt8}
    (h : header.drop s.headerPos = b :: rest) : header.drop (s.headerPos + 1) = rest := by
  rw [← List.drop_drop, h, List.drop_succ_cons, List.drop_zero]

/-- A part of the scan takes a word of the language that comes next. -/
def Takes (header : List UInt8) (part : HeaderScan → Exec HeaderScan)
    (field : Language UInt8) : Prop :=
  ∀ s, s.headerPos < 2 ^ 31 → ∀ l ∈ field, l <+: header.drop s.headerPos →
    part s = .ok ⟨s.headerPos + l.length, s.ok⟩

/-- A word that is taken is inside of the buffer. -/
theorem drop_of_prefix (hbound : header.length < 2 ^ 31) {pos : ℕ} (hpos : pos < 2 ^ 31)
    {l rest : List UInt8} (h : l ++ rest = header.drop pos) :
    pos + l.length < 2 ^ 31 ∧ header.drop (pos + l.length) = rest := by
  have hlen := congrArg List.length h
  rw [List.length_drop, List.length_append] at hlen
  exact ⟨by omega, by rw [← List.drop_drop, ← h, List.drop_left]⟩

theorem Takes.mul {part next : HeaderScan → Exec HeaderScan} {field field' : Language UInt8}
    (hbound : header.length < 2 ^ 31) (h : Takes header part field)
    (h' : Takes header next field') :
    Takes header (fun s => part s >>= next) (field * field') := by
  intro s hs l hl hpre
  obtain ⟨a, ha, m, hm, rfl⟩ := Language.mem_mul.mp hl
  obtain ⟨rest, hrest⟩ := hpre
  rw [List.append_assoc] at hrest
  obtain ⟨hroom, hdrop⟩ := drop_of_prefix hbound hs hrest
  have hsecond := h' ⟨s.headerPos + a.length, s.ok⟩ hroom m hm
    (by rw [hdrop]; exact List.prefix_append m rest)
  simp only [h s hs a ha ⟨m ++ rest, hrest⟩, Exec.ok_bind, hsecond, List.length_append,
    Nat.add_assoc]

/-- From `s` a part of the scan takes the word of the language that comes next, if there is one, and
otherwise asks for as many bytes as a shortest word has that begins with what is left. -/
structure SkipsFrom (header : List UInt8) (part : HeaderScan → Exec HeaderScan)
    (field : Language UInt8) (s : HeaderScan) : Prop where
  front : ∀ l ∈ field, l <+: header.drop s.headerPos →
    part s = .ok ⟨s.headerPos + l.length, s.ok⟩
  cut : ¬Front field (header.drop s.headerPos) → ∀ l, Shortest field (header.drop s.headerPos) l →
    part s = if s.headerPos + l.length < 2 ^ 31 then .ok ⟨s.headerPos + l.length, false⟩
      else .error .signedOverflow

/-- A part of the scan does so wherever it begins. -/
def Skips (header : List UInt8) (part : HeaderScan → Exec HeaderScan)
    (field : Language UInt8) : Prop :=
  ∀ s, s.headerPos < 2 ^ 31 → SkipsFrom header part field s

theorem Skips.takes {part : HeaderScan → Exec HeaderScan} {field : Language UInt8}
    (h : Skips header part field) : Takes header part field := fun s hs => (h s hs).front

/-- Nothing to take. -/
theorem skips_one : Skips header (fun s => .ok s) 1 := by
  refine fun s _ => ⟨fun l hl _ => ?_, fun hcut => absurd (front_one _) hcut⟩
  rw [(Language.mem_one l).mp hl]
  rfl

/-- At the end of the buffer a field that is not empty asks for `n` bytes. -/
theorem SkipsFrom.of_nil {part : HeaderScan → Exec HeaderScan} {field : Language UInt8}
    {s : HeaderScan} {n : ℕ} (hnil : [] ∉ field) (hdrop : header.drop s.headerPos = [])
    (hlen : ∀ l, Shortest field [] l → l.length = n)
    (hpart : part s = if s.headerPos + n < 2 ^ 31 then .ok ⟨s.headerPos + n, false⟩
      else .error .signedOverflow) : SkipsFrom header part field s := by
  refine ⟨fun l hl hpre => ?_, fun _ l hl => ?_⟩
  · rw [hdrop] at hpre
    exact absurd (List.prefix_nil.mp hpre ▸ hl) hnil
  · rw [hdrop] at hl
    rw [hlen l hl]
    exact hpart

/-- Where a byte is left a field goes on behind it. -/
theorem SkipsFrom.of_cons {part next : HeaderScan → Exec HeaderScan}
    {field behind : Language UInt8} {s : HeaderScan} {b : UInt8} {rest : List UInt8}
    (hnil : [] ∉ field) (hdrop : header.drop s.headerPos = b :: rest)
    (hpart : part s = next ⟨s.headerPos + 1, s.ok⟩) (hfield : ∀ l, b :: l ∈ field ↔ l ∈ behind)
    (hnext : SkipsFrom header next behind ⟨s.headerPos + 1, s.ok⟩) :
    SkipsFrom header part field s := by
  have hrest := drop_succ hdrop
  refine ⟨fun l hl hpre => ?_, fun hcut l hl => ?_⟩
  · rcases l with _ | ⟨c, l⟩
    · exact absurd hl hnil
    · rw [hdrop, List.cons_prefix_cons] at hpre
      obtain ⟨rfl, hpre⟩ := hpre
      rw [hpart, hnext.front l ((hfield l).mp hl) (by rw [hrest]; exact hpre), List.length_cons,
        Nat.add_assoc, Nat.add_comm 1]
  · obtain ⟨hl, hpre, hmin⟩ := hl
    rw [hdrop] at hcut hpre hmin
    rcases l with _ | ⟨c, l⟩
    · exact absurd hl hnil
    · obtain ⟨rfl, htail⟩ := List.cons_prefix_cons.mp hpre
      have hcut' : ¬Front behind rest := by
        rintro ⟨l', hl', hpre'⟩
        exact hcut ⟨b :: l', (hfield l').mpr hl', List.cons_prefix_cons.mpr ⟨rfl, hpre'⟩⟩
      have hshort : Shortest behind rest l := by
        refine ⟨(hfield l).mp hl, htail, fun l' hl' hpre' => ?_⟩
        have hle := hmin (b :: l') ((hfield l').mpr hl') (List.cons_prefix_cons.mpr ⟨rfl, hpre'⟩)
        simpa using hle
      rw [hpart, hnext.cut (by rw [hrest]; exact hcut') l (by rw [hrest]; exact hshort),
        List.length_cons, Nat.add_assoc, Nat.add_comm 1]

/-- **Two parts after each other** take a word of each language. -/
theorem Skips.mul {part next : HeaderScan → Exec HeaderScan} {field field' : Language UInt8}
    (hfree : PrefixFree field) (hbound : header.length < 2 ^ 31) (h : Skips header part field)
    (h' : Skips header next field') :
    Skips header (fun s => part s >>= next) (field * field') := by
  intro s hs
  have hpart := h s hs
  refine ⟨h.takes.mul hbound h'.takes s hs, fun hcut l hl => ?_⟩
  by_cases hfront : Front field (header.drop s.headerPos)
  · obtain ⟨a, ha, rest, hrest⟩ := hfront
    obtain ⟨hroom, hdrop⟩ := drop_of_prefix hbound hs hrest
    rw [← hrest] at hcut hl
    obtain ⟨m, rfl, hm⟩ := hl.mul_front hfree ha
    have hcut' : ¬Front field' rest := mt (front_mul_iff hfree ha).mpr hcut
    have hsecond := (h' ⟨s.headerPos + a.length, s.ok⟩ hroom).cut (by rw [hdrop]; exact hcut') m
      (by rw [hdrop]; exact hm)
    rw [hpart.front a ha ⟨rest, hrest⟩, Exec.ok_bind, hsecond, List.length_append,
      Nat.add_assoc]
  · obtain ⟨a, m, rfl, ha, hm⟩ := hl.mul_cut hfront
    have hdrop : header.drop (s.headerPos + a.length) = [] := by
      have hle := ha.2.1.length_le
      rw [List.length_drop] at hle
      exact List.drop_eq_nil_iff.mpr (by omega)
    rw [hpart.cut hfront a ha, List.length_append, ← Nat.add_assoc]
    by_cases hroom : s.headerPos + a.length < 2 ^ 31
    · have hsecond := h' ⟨s.headerPos + a.length, false⟩ hroom
      rw [if_pos hroom, Exec.ok_bind]
      by_cases hnil : [] ∈ field'
      · obtain rfl : m = [] := List.length_eq_zero_iff.mp
          (Nat.le_zero.mp (hm.2.2 [] hnil List.nil_prefix))
        rw [hsecond.front [] hnil List.nil_prefix, List.length_nil, Nat.add_zero, if_pos hroom]
      · have hnone : ¬Front field' (header.drop (s.headerPos + a.length)) := by
          rw [hdrop]
          rintro ⟨l, hl, hpre⟩
          exact hnil (List.prefix_nil.mp hpre ▸ hl)
        exact hsecond.cut hnone m (by rw [hdrop]; exact hm)
    · rw [if_neg hroom, Exec.error_bind, if_neg (by omega)]

/-! ## The fields -/

/-- Bytes that are discarded, at the end of the buffer. -/
theorem skipBytes_nil {s : HeaderScan} (hdrop : header.drop s.headerPos = [])
    (hs : s.headerPos < 2 ^ 31) (n : ℕ) :
    skipBytes header header.length (n + 1) s =
      if s.headerPos + (n + 1) < 2 ^ 31 then .ok ⟨s.headerPos + (n + 1), false⟩
      else .error .signedOverflow := by
  induction n generalizing s with
  | zero =>
    by_cases hroom : s.headerPos + 1 < 2 ^ 31
    · rw [skipBytes, get_byte_nil hdrop hroom, if_pos hroom]
      rfl
    · rw [skipBytes, get_byte_full s hroom, if_neg hroom]
      rfl
  | succ n ih =>
    rw [skipBytes]
    by_cases hroom : s.headerPos + 1 < 2 ^ 31
    · have hdrop' : header.drop (s.headerPos + 1) = [] := by
        rw [← List.drop_drop, hdrop, List.drop_nil]
      have hrest := ih (s := ⟨s.headerPos + 1, false⟩) hdrop' hroom
      rw [get_byte_nil hdrop hroom, Exec.ok_bind,
        show s.headerPos + (n + 1 + 1) = s.headerPos + 1 + (n + 1) by omega]
      exact hrest
    · rw [get_byte_full s hroom, if_neg (by omega)]
      rfl

/-- Bytes that are discarded. -/
theorem skips_bytes (hbound : header.length < 2 ^ 31) (n : ℕ) :
    Skips header (skipBytes header header.length n) (octets n) := by
  induction n with
  | zero =>
    rw [octets_zero]
    exact skips_one
  | succ n ih =>
    intro s hs
    cases hdrop : header.drop s.headerPos with
    | nil =>
      exact SkipsFrom.of_nil (nil_notMem_octets n) hdrop (fun l hl => hl.1)
        (skipBytes_nil hdrop hs n)
    | cons b rest =>
      refine SkipsFrom.of_cons (nil_notMem_octets n) hdrop ?_ (cons_mem_octets b)
        (ih _ (room_of_cons hbound hdrop))
      rw [skipBytes, get_byte_cons hbound hdrop]
      rfl

/-- A text and its zero byte, if the loop has a turn for each byte that is left and one more. -/
theorem skipsFrom_string (hbound : header.length < 2 ^ 31) {fuel : ℕ} {s : HeaderScan}
    (hfuel : header.length < fuel + s.headerPos) (hpos : 0 < fuel) (hs : s.headerPos < 2 ^ 31) :
    SkipsFrom header (skipString header header.length fuel) zeroTerminated s := by
  have hnil : [] ∉ zeroTerminated := by
    rintro ⟨text, -, h⟩
    cases text <;> cases h
  induction fuel generalizing s with
  | zero => omega
  | succ fuel ih =>
    cases hdrop : header.drop s.headerPos with
    | nil =>
      have hone : ∀ l, Shortest zeroTerminated [] l → l.length = 1 := by
        intro l hl
        have hle := hl.2.2 [0] ⟨[], List.not_mem_nil, rfl⟩ List.nil_prefix
        have hne : l.length ≠ 0 := fun h => hnil (List.length_eq_zero_iff.mp h ▸ hl.1)
        rw [List.length_singleton] at hle
        omega
      refine SkipsFrom.of_nil hnil hdrop hone ?_
      rw [skipString]
      by_cases hroom : s.headerPos + 1 < 2 ^ 31
      · rw [get_byte_nil hdrop hroom, if_pos hroom]
        rfl
      · rw [get_byte_full s hroom, if_neg hroom]
        rfl
    | cons b rest =>
      have hroom := room_of_cons hbound hdrop
      have hlen := congrArg List.length hdrop
      rw [List.length_drop, List.length_cons] at hlen
      by_cases hb : b = 0
      · subst hb
        refine SkipsFrom.of_cons hnil hdrop ?_ zero_cons_mem_zeroTerminated (skips_one _ hroom)
        rw [skipString, get_byte_cons hbound hdrop]
        rfl
      · have hnext : SkipsFrom header (skipString header header.length fuel) zeroTerminated
            ⟨s.headerPos + 1, s.ok⟩ := by
          apply ih _ _ hroom
          · change header.length < fuel + (s.headerPos + 1)
            omega
          · omega
        refine SkipsFrom.of_cons hnil hdrop ?_ (cons_mem_zeroTerminated hb) hnext
        have hne : b.toUInt32 ≠ 0 := fun h => hb (UInt8.toUInt32_inj.mp h)
        simp only [skipString, get_byte_cons hbound hdrop, Exec.ok_bind]
        rw [if_pos ⟨hne, toUInt32_ne_EOF b⟩]

theorem skips_string (hbound : header.length < 2 ^ 31) :
    Skips header (skipString header header.length ((header.length : ℤ).toNat + 1))
      zeroTerminated := by
  intro s hs
  apply skipsFrom_string hbound _ _ hs <;> omega

/-! ## The extra field -/

/-- Where no word comes next a part of the scan stops behind the buffer, at most `n` further. -/
def Stops (header : List UInt8) (part : HeaderScan → Exec HeaderScan) (field : Language UInt8)
    (n : ℕ) : Prop :=
  ∀ s, s.headerPos + n < 2 ^ 31 → ¬Front field (header.drop s.headerPos) →
    ∃ s', part s = .ok s' ∧ s'.ok = false ∧ header.drop s'.headerPos = [] ∧
      s'.headerPos ≤ s.headerPos + n

/-- A field that asks for what is missing stops. -/
theorem Skips.stops {part : HeaderScan → Exec HeaderScan} {field : Language UInt8} {n k : ℕ}
    (h : Skips header part field) (hwithin : Within field k) (hlen : ∀ l ∈ field, l.length ≤ n) :
    Stops header part field n := by
  intro s hs hcut
  obtain ⟨l, hl, -⟩ := hwithin.exists_shortest hcut
  have hle := hlen l hl.1
  refine ⟨⟨s.headerPos + l.length, false⟩, ?_, rfl, ?_, by simp only; omega⟩
  · rw [(h s (by omega)).cut hcut l hl, if_pos (by omega)]
  · have hpre := hl.2.1.length_le
    rw [List.length_drop] at hpre
    exact List.drop_eq_nil_iff.mpr (by simp only; omega)

theorem Stops.mul {part next : HeaderScan → Exec HeaderScan} {field field' : Language UInt8}
    {n k : ℕ} (hbound : header.length < 2 ^ 31) (hfree : PrefixFree field)
    (hlen : ∀ l ∈ field, l.length ≤ n) (htakes : Takes header part field)
    (h : Stops header part field n) (htakes' : Takes header next field')
    (h' : Stops header next field' k) :
    Stops header (fun s => part s >>= next) (field * field') (n + k) := by
  intro s hs hcut
  by_cases hfront : Front field (header.drop s.headerPos)
  · obtain ⟨a, ha, rest, hrest⟩ := hfront
    have hle := hlen a ha
    obtain ⟨-, hdrop⟩ := drop_of_prefix hbound (by omega) hrest
    rw [← hrest, front_mul_iff hfree ha, ← hdrop] at hcut
    obtain ⟨s', hrun, hok, hend, hpos⟩ :=
      h' ⟨s.headerPos + a.length, s.ok⟩ (by simp only; omega) hcut
    refine ⟨s', ?_, hok, hend, hpos.trans (by simp only; omega)⟩
    simp only [htakes s (by omega) a ha ⟨rest, hrest⟩, Exec.ok_bind, hrun]
  · obtain ⟨s₁, hpart, hok₁, hend₁, hpos₁⟩ := h s (by omega) hfront
    simp only [hpart, Exec.ok_bind]
    by_cases hnil : [] ∈ field'
    · refine ⟨s₁, ?_, hok₁, hend₁, by omega⟩
      exact htakes' s₁ (by omega) [] hnil List.nil_prefix
    · have hnone : ¬Front field' (header.drop s₁.headerPos) := by
        rw [hend₁]
        rintro ⟨l, hl, hpre⟩
        exact hnil (List.prefix_nil.mp hpre ▸ hl)
      obtain ⟨s', hrun, hok, hend, hpos⟩ := h' s₁ (by omega) hnone
      exact ⟨s', hrun, hok, hend, by omega⟩

/-- The bytes of an extra field are taken. -/
theorem takes_extraBytes (hbound : header.length < 2 ^ 31) (n : ℕ) :
    Takes header (skipExtraField header header.length n) (octets n) := by
  induction n with
  | zero =>
    intro s _ l hl _
    rw [List.length_eq_zero_iff.mp hl]
    rfl
  | succ n ih =>
    rintro s hs (_ | ⟨b, l⟩) hl ⟨rest, hrest⟩
    · exact absurd hl (nil_notMem_octets n)
    · have hdrop : header.drop s.headerPos = b :: (l ++ rest) := hrest.symm
      have hbytes := ih ⟨s.headerPos + 1, s.ok⟩ (room_of_cons hbound hdrop) l
        ((cons_mem_octets b l).mp hl) (by rw [drop_succ hdrop]; exact List.prefix_append l rest)
      simp only [skipExtraField, get_byte_cons hbound hdrop, Exec.ok_bind, ne_eq,
        toUInt32_ne_EOF, not_false_eq_true, if_true, hbytes, List.length_cons, Nat.add_assoc,
        Nat.add_comm 1]

/-- The loop leaves off at the end of the buffer. -/
theorem stops_extraBytes (hbound : header.length < 2 ^ 31) (n : ℕ) :
    Stops header (skipExtraField header header.length n) (octets n) n := by
  induction n with
  | zero =>
    intro s _ hcut
    exact absurd ⟨[], rfl, List.nil_prefix⟩ hcut
  | succ n ih =>
    intro s hs hcut
    cases hdrop : header.drop s.headerPos with
    | nil =>
      refine ⟨⟨s.headerPos + 1, false⟩, ?_, rfl, ?_, by simp only; omega⟩
      · rw [skipExtraField, get_byte_nil hdrop (by omega)]
        rfl
      · rw [← List.drop_drop, hdrop, List.drop_nil]
    | cons b rest =>
      have hcut' : ¬Front (octets n) (header.drop (s.headerPos + 1)) := by
        rw [drop_succ hdrop]
        rintro ⟨l, hl, hpre⟩
        refine hcut ⟨b :: l, (cons_mem_octets b l).mpr hl, ?_⟩
        rw [hdrop]
        exact List.cons_prefix_cons.mpr ⟨rfl, hpre⟩
      obtain ⟨s', hrun, hok, hend, hpos⟩ := ih ⟨s.headerPos + 1, s.ok⟩ (by simp only; omega) hcut'
      refine ⟨s', ?_, hok, hend, hpos.trans (by simp only; omega)⟩
      simp only [skipExtraField, get_byte_cons hbound hdrop, Exec.ok_bind, ne_eq,
        toUInt32_ne_EOF, not_false_eq_true, if_true, hrun]

/-- The two bytes of a length. -/
theorem toNat_flaglen (lo hi : UInt8) :
    (lo.toUInt32 + hi.toUInt32 <<< 8).toNat = lo.toNat + 256 * hi.toNat := by
  have hlo := lo.toNat_lt
  have hhi := hi.toNat_lt
  have hshift : (hi.toUInt32 <<< 8).toNat = 256 * hi.toNat := by
    rw [UInt32.toNat_shiftLeft, UInt8.toNat_toUInt32, Nat.shiftLeft_eq]
    change hi.toNat * 2 ^ 8 % 2 ^ 32 = _
    omega
  rw [UInt32.toNat_add, hshift, UInt8.toNat_toUInt32]
  omega

/-- Behind the end the loop asks for one byte at most. -/
theorem skipExtraField_nil {s : HeaderScan} (hdrop : header.drop s.headerPos = [])
    (hok : s.ok = false) (hroom : s.headerPos + 1 < 2 ^ 31) (n : ℕ) :
    ∃ s', skipExtraField header header.length n s = .ok s' ∧ s'.ok = false ∧
      header.drop s'.headerPos = [] ∧ s'.headerPos ≤ s.headerPos + 1 := by
  cases n with
  | zero => exact ⟨s, rfl, hok, hdrop, Nat.le_succ _⟩
  | succ n =>
    refine ⟨⟨s.headerPos + 1, false⟩, ?_, rfl, ?_, le_rfl⟩
    · rw [skipExtraField, get_byte_nil hdrop hroom]
      rfl
    · rw [← List.drop_drop, hdrop, List.drop_nil]

/-- The extra field is taken with its length. -/
theorem takes_extraField (hbound : header.length < 2 ^ 31) :
    Takes header (extraField header header.length) extra := by
  rintro s hs l ⟨lo, hi, data, rfl, hlen⟩ ⟨rest, hrest⟩
  have hdrop : header.drop s.headerPos = lo :: hi :: (data ++ rest) := hrest.symm
  have hlo := get_byte_cons hbound hdrop
  have hdrop₁ : header.drop (HeaderScan.mk (s.headerPos + 1) s.ok).headerPos =
      hi :: (data ++ rest) := drop_succ hdrop
  have hhi := get_byte_cons hbound hdrop₁
  have hdata := takes_extraBytes hbound (lo.toNat + 256 * hi.toNat) ⟨s.headerPos + 1 + 1, s.ok⟩
    (room_of_cons hbound hdrop₁) data hlen
    (by rw [drop_succ hdrop₁]; exact List.prefix_append data rest)
  simp only [extraField, hlo, hhi, Exec.ok_bind, toNat_flaglen, hdata, List.length_cons]
  congr 2
  omega

/-- Where the length of the extra field is cut off the number read is garbage, and the scan has
failed already. -/
theorem stops_extraField (hbound : header.length < 2 ^ 31) :
    Stops header (extraField header header.length) extra 65537 := by
  intro s hs hcut
  have hstop : ∀ s₂ : HeaderScan, header.drop s₂.headerPos = [] → s₂.ok = false →
      s₂.headerPos = s.headerPos + 2 → ∀ n, ∃ s',
        skipExtraField header header.length n s₂ = .ok s' ∧ s'.ok = false ∧
        header.drop s'.headerPos = [] ∧ s'.headerPos ≤ s.headerPos + 65537 := by
    intro s₂ hdrop hok hpos n
    obtain ⟨s', hrun, hok', hend, hle⟩ := skipExtraField_nil hdrop hok (by omega) n
    exact ⟨s', hrun, hok', hend, by omega⟩
  have hnil : ∀ n, header.drop s.headerPos = [] → header.drop (s.headerPos + n) = [] := by
    intro n hdrop
    rw [← List.drop_drop, hdrop, List.drop_nil]
  cases hdrop : header.drop s.headerPos with
  | nil =>
    have hlo := get_byte_nil hdrop (by omega)
    have hhi := get_byte_nil (s := ⟨s.headerPos + 1, false⟩) (hnil 1 hdrop) (by simp only; omega)
    simp only [extraField, hlo, hhi, Exec.ok_bind]
    exact hstop ⟨s.headerPos + 1 + 1, false⟩ (hnil 2 hdrop) rfl rfl _
  | cons lo rest =>
    have hlo := get_byte_cons hbound hdrop
    have hdrop₁ : header.drop (HeaderScan.mk (s.headerPos + 1) s.ok).headerPos = rest :=
      drop_succ hdrop
    cases rest with
    | nil =>
      have hhi := get_byte_nil hdrop₁ (by simp only; omega)
      have hdrop₂ : header.drop (s.headerPos + 1 + 1) = [] := by
        rw [← List.drop_drop, hdrop₁, List.drop_nil]
      simp only [extraField, hlo, hhi, Exec.ok_bind]
      exact hstop ⟨s.headerPos + 1 + 1, false⟩ hdrop₂ rfl rfl _
    | cons hi rest =>
      have hhi := get_byte_cons hbound hdrop₁
      have hloLt := lo.toNat_lt
      have hhiLt := hi.toNat_lt
      have hcut' : ¬Front (octets (lo.toNat + 256 * hi.toNat))
          (header.drop (s.headerPos + 1 + 1)) := by
        rw [drop_succ hdrop₁]
        rintro ⟨data, hlen, hpre⟩
        refine hcut ⟨lo :: hi :: data, ⟨lo, hi, data, rfl, hlen⟩, ?_⟩
        rw [hdrop]
        simpa only [List.cons_prefix_cons, true_and] using hpre
      obtain ⟨s', hrun, hok, hend, hpos⟩ := stops_extraBytes hbound _
        ⟨s.headerPos + 1 + 1, s.ok⟩ (by simp only; omega) hcut'
      refine ⟨s', ?_, hok, hend, hpos.trans (by simp only; omega)⟩
      simp only [extraField, hlo, hhi, Exec.ok_bind, toNat_flaglen, hrun]

/-! ## The fields behind the flags -/

/-- A flag is set in the `int` if it is set in the byte. -/
theorem toUInt32_and_ne_zero (flags flag : UInt8) :
    flags.toUInt32 &&& flag.toUInt32 ≠ 0 ↔ flags &&& flag ≠ 0 := by
  have hinj : (flags &&& flag).toUInt32 = (0 : UInt8).toUInt32 ↔ flags &&& flag = 0 :=
    UInt8.toUInt32_inj
  rw [← UInt8.toUInt32_and]
  exact not_congr hinj

/-- A field is scanned if its flag is set. -/
theorem optionalField_eq (part : HeaderScan → Exec HeaderScan) (flags flag : UInt8) :
    optionalField flags.toUInt32 flag.toUInt32 part =
      if flags &&& flag ≠ 0 then part else fun s => .ok s := by
  funext s
  simp only [optionalField, toUInt32_and_ne_zero]
  split <;> rfl

section Optional

variable {part : HeaderScan → Exec HeaderScan} {field : Language UInt8} (flags flag : UInt8)

theorem Skips.optionalField (h : Skips header part field) :
    Skips header (optionalField flags.toUInt32 flag.toUInt32 part) (flagged flags flag field) := by
  rw [optionalField_eq, Zlib.flagged]
  split
  · exact h
  · exact skips_one

theorem Takes.optionalField (h : Takes header part field) :
    Takes header (Zlib.optionalField flags.toUInt32 flag.toUInt32 part)
      (flagged flags flag field) := by
  rw [optionalField_eq, Zlib.flagged]
  split
  · exact h
  · exact skips_one.takes

theorem Stops.optionalField {n : ℕ} (h : Stops header part field n) :
    Stops header (Zlib.optionalField flags.toUInt32 flag.toUInt32 part)
      (flagged flags flag field) n := by
  rw [optionalField_eq, Zlib.flagged]
  split
  · exact h
  · exact fun s _ hcut => absurd (front_one _) hcut

end Optional

/-- The six bytes and the extra field. -/
def fixedFields (flags : UInt8) : Language UInt8 := octets 6 * flagged flags 0x04 extra

/-- The name, the comment and the header CRC. -/
def openFields (flags : UInt8) : Language UInt8 :=
  flagged flags 0x08 zeroTerminated *
    (flagged flags 0x10 zeroTerminated * flagged flags 0x02 (octets 2))

theorem headerFields_eq (flags : UInt8) :
    headerFields flags = fixedFields flags * openFields flags :=
  (mul_assoc _ _ _).symm

theorem prefixFree_fixedFields (flags : UInt8) : PrefixFree (fixedFields flags) :=
  (prefixFree_octets 6).mul (prefixFree_flagged flags 0x04 prefixFree_extra)

theorem prefixFree_headerFields (flags : UInt8) : PrefixFree (headerFields flags) := by
  rw [headerFields_eq]
  exact (prefixFree_fixedFields flags).mul
    ((prefixFree_flagged flags 0x08 prefixFree_zeroTerminated).mul
      ((prefixFree_flagged flags 0x10 prefixFree_zeroTerminated).mul
        (prefixFree_flagged flags 0x02 (prefixFree_octets 2))))

/-- The fixed fields are short. -/
theorem length_fixedFields_le {flags : UInt8} {l : List UInt8} (hl : l ∈ fixedFields flags) :
    l.length ≤ 65543 := by
  obtain ⟨a, ha, m, hm, rfl⟩ := Language.mem_mul.mp hl
  have hsix : a.length = 6 := ha
  have hextra : m.length ≤ 65537 := by
    rw [flagged] at hm
    split at hm
    · exact length_extra_le hm
    · rw [(Language.mem_one m).mp hm]
      exact Nat.zero_le _
  rw [List.length_append]
  omega

/-- At most four bytes of the others are missing. -/
theorem within_openFields (flags : UInt8) : Within (openFields flags) 4 :=
  (within_flagged flags 0x08 within_zeroTerminated).mul
    ((within_flagged flags 0x10 within_zeroTerminated).mul
      (within_flagged flags 0x02 (within_octets 2)))

/-- The part of `check_header` for the fixed fields. -/
def skipFixed (header : List UInt8) (len : ℤ) (flags : UInt32) (s : HeaderScan) : Exec HeaderScan :=
  skipBytes header len 6 s >>= optionalField flags 0x04 (extraField header len)

/-- The part of `check_header` for the others. -/
def skipOpen (header : List UInt8) (len : ℤ) (flags : UInt32) (s : HeaderScan) : Exec HeaderScan :=
  optionalField flags 0x08 (skipString header len (len.toNat + 1)) s >>= fun s =>
    optionalField flags 0x10 (skipString header len (len.toNat + 1)) s >>=
      optionalField flags 0x02 (skipBytes header len 2)

theorem skipFields_eq (len : ℤ) (flags : UInt32) (s : HeaderScan) :
    skipFields header len flags s =
      skipFixed header len flags s >>= skipOpen header len flags := by
  rw [skipFixed, bind_assoc]
  rfl

section Fields

variable (hbound : header.length < 2 ^ 31) (flags : UInt8)
include hbound

theorem takes_fixed :
    Takes header (skipFixed header header.length flags.toUInt32) (fixedFields flags) :=
  (skips_bytes hbound 6).takes.mul hbound ((takes_extraField hbound).optionalField flags 0x04)

theorem stops_fixed :
    Stops header (skipFixed header header.length flags.toUInt32) (fixedFields flags) 65543 :=
  ((skips_bytes hbound 6).stops (within_octets 6) fun _ hl => Nat.le_of_eq hl).mul hbound
    (prefixFree_octets 6) (fun _ hl => Nat.le_of_eq hl) (skips_bytes hbound 6).takes
    ((takes_extraField hbound).optionalField flags 0x04)
    ((stops_extraField hbound).optionalField flags 0x04)

theorem skips_open :
    Skips header (skipOpen header header.length flags.toUInt32) (openFields flags) :=
  ((skips_string hbound).optionalField flags 0x08).mul
    (prefixFree_flagged flags 0x08 prefixFree_zeroTerminated) hbound
    (((skips_string hbound).optionalField flags 0x10).mul
      (prefixFree_flagged flags 0x10 prefixFree_zeroTerminated) hbound
      ((skips_bytes hbound 2).optionalField flags 0x02))

/-- **The part of `check_header` behind the flags** takes the fields they ask for. -/
theorem takes_fields :
    Takes header (skipFields header header.length flags.toUInt32) (headerFields flags) := by
  have heq : skipFields header header.length flags.toUInt32 = fun s =>
      skipFixed header header.length flags.toUInt32 s >>=
        skipOpen header header.length flags.toUInt32 := by
    funext s
    exact skipFields_eq header.length flags.toUInt32 s
  rw [heq, headerFields_eq]
  exact (takes_fixed hbound flags).mul hbound (skips_open hbound flags).takes

end Fields

/-- The fields a text begins can be completed so that the position stays an `int`. -/
def Completes (flags : UInt8) (text : List UInt8) : Prop :=
  ∀ l ∈ headerFields flags, text <+: l →
    ∃ l' ∈ headerFields flags, text <+: l' ∧ 4 + l'.length < 2 ^ 31

/-- Fields that are cut off among the fixed ones can be completed. -/
theorem completes_of_not_front {flags : UInt8} {text : List UInt8}
    (hcut : ¬Front (fixedFields flags) text) : Completes flags text := by
  intro l hl hpre
  rw [headerFields_eq] at hl
  obtain ⟨a, ha, m, -, rfl⟩ := Language.mem_mul.mp hl
  obtain ⟨m', hm', hlen'⟩ := (within_openFields flags).exists_length_le
  have hlen := length_fixedFields_le ha
  refine ⟨a ++ m', ?_, (prefix_of_not_front hcut ha hpre).trans (List.prefix_append a m'), ?_⟩
  · rw [headerFields_eq]
    exact Language.append_mem_mul ha hm'
  · rw [List.length_append]
    omega

/-- At most four bytes have to be added. -/
theorem completes_of_lt {flags : UInt8} {text : List UInt8} (h : text.length + 8 < 2 ^ 31) :
    Completes flags text := by
  by_cases hfixed : Front (fixedFields flags) text
  · intro l hl hpre
    obtain ⟨a, ha, rest, rfl⟩ := hfixed
    rw [List.length_append] at h
    have hmem : ∀ b ∈ openFields flags, a ++ b ∈ headerFields flags := by
      intro b hb
      rw [headerFields_eq]
      exact Language.append_mem_mul ha hb
    rcases within_openFields flags rest with ⟨b, hb, hfront⟩ | ⟨b, hb, hpre', hlen⟩
    · have hshort := hfront.length_le
      obtain rfl := (prefixFree_headerFields flags).eq (hmem b hb) hl
        (((List.prefix_append_right_inj a).mpr hfront).trans hpre)
      refine ⟨a ++ b, hl, hpre, ?_⟩
      rw [List.length_append]
      omega
    · refine ⟨a ++ b, hmem b hb, (List.prefix_append_right_inj a).mpr hpre', ?_⟩
      rw [List.length_append]
      omega
  · exact completes_of_not_front hfixed

/-- A part that has failed before goes on behind the end. -/
theorem Skips.idles {part : HeaderScan → Exec HeaderScan} {field : Language UInt8} {n : ℕ}
    (h : Skips header part field) (hwithin : Within field n) {s : HeaderScan}
    (hdrop : header.drop s.headerPos = []) (hok : s.ok = false) (hroom : s.headerPos + n < 2 ^ 31) :
    ∃ s', part s = .ok s' ∧ s'.ok = false := by
  have hpart := h s (by omega)
  by_cases hcut : Front field (header.drop s.headerPos)
  · obtain ⟨l, hl, hpre⟩ := hcut
    exact ⟨_, hpart.front l hl hpre, hok⟩
  · obtain ⟨l, hl, hlen⟩ := hwithin.exists_shortest hcut
    rw [hdrop, List.length_nil, Nat.zero_add] at hlen
    exact ⟨_, (hpart.cut hcut l hl).trans (if_pos (by omega)), rfl⟩

/-- **Fields that are cut off**: the scan fails, or it leaves the range of an `int` if no fields
that could have been meant are short enough. -/
theorem skipFields_cut (hbound : header.length < 2 ^ 31) (flags : UInt8)
    (hcut : ¬Front (headerFields flags) (header.drop 4)) :
    (Completes flags (header.drop 4) ∧ ∃ s',
      skipFields header header.length flags.toUInt32 ⟨4, true⟩ = .ok s' ∧ s'.ok = false) ∨
    (¬Completes flags (header.drop 4) ∧
      skipFields header header.length flags.toUInt32 ⟨4, true⟩ = .error .signedOverflow) := by
  rw [skipFields_eq]
  by_cases hfixed : Front (fixedFields flags) (header.drop 4)
  · obtain ⟨a, ha, rest, hrest⟩ := hfixed
    have hfree := prefixFree_fixedFields flags
    obtain ⟨hroom, hdrop⟩ := drop_of_prefix hbound (by decide) hrest
    rw [headerFields_eq, ← hrest, front_mul_iff hfree ha, ← hdrop] at hcut
    obtain ⟨b, hb, -⟩ := (within_openFields flags).exists_shortest hcut
    have hopen := (skips_open hbound flags ⟨4 + a.length, true⟩ hroom).cut hcut b hb
    rw [takes_fixed hbound flags ⟨4, true⟩ (by decide) a ha ⟨rest, hrest⟩, Exec.ok_bind, hopen]
    rw [hdrop] at hb
    have hpre : header.drop 4 <+: a ++ b := by
      rw [← hrest]
      exact (List.prefix_append_right_inj a).mpr hb.2.1
    have hmem : a ++ b ∈ headerFields flags := by
      rw [headerFields_eq]
      exact Language.append_mem_mul ha hb.1
    by_cases hfits : 4 + a.length + b.length < 2 ^ 31
    · refine .inl ⟨fun _ _ _ => ⟨a ++ b, hmem, hpre, ?_⟩, _, if_pos hfits, rfl⟩
      rw [List.length_append]
      omega
    · refine .inr ⟨fun h => ?_, if_neg hfits⟩
      obtain ⟨l, hl, hpre', hlen⟩ := h (a ++ b) hmem hpre
      rw [headerFields_eq] at hl
      obtain ⟨a', ha', b', hb', rfl⟩ := Language.mem_mul.mp hl
      rw [← hrest] at hpre'
      obtain rfl : a' = a := hfree.unique ha' ha (List.prefix_append a' b')
        ((List.prefix_append a rest).trans hpre')
      have hle := hb.2.2 b' hb' ((List.prefix_append_right_inj a').mp hpre')
      rw [List.length_append] at hlen
      omega
  · obtain ⟨s₁, hrun, hok, hdrop, hpos⟩ := stops_fixed hbound flags ⟨4, true⟩ (by decide) hfixed
    rw [hrun, Exec.ok_bind]
    simp only at hpos
    exact .inl ⟨completes_of_not_front hfixed,
      (skips_open hbound flags).idles (within_openFields flags) hdrop hok (by omega)⟩

/-! ## The whole header -/

/-- Behind the magic bytes `check_header` looks at the method and the flags, and then at what they
ask for. -/
theorem check_header_magic (hbound : header.length < 2 ^ 31) {method flags : UInt8}
    {rest : List UInt8} (h : header = 0x1f :: 0x8b :: method :: flags :: rest) :
    check_header header header.length =
      if method ≠ 8 ∨ flags &&& 0xE0 ≠ 0 then .ok (-1)
      else skipFields header header.length flags.toUInt32 ⟨4, true⟩ >>= fun s =>
        (if s.ok then .ok s.headerPos else .ok (-2) : Exec ℤ) := by
  have hlen : (4 : ℤ) ≤ header.length := by
    simp only [h, List.length_cons]
    omega
  have hgz : isGzip header = .ok true := by simp [isGzip, byteAt, h]
  have hdrop₂ : header.drop 2 = method :: flags :: rest := by simp [h]
  have hdrop₃ : header.drop 3 = flags :: rest := by simp [h]
  have hmethod : get_byte_func header header.length ⟨2, true⟩ =
      .ok (method.toUInt32, ⟨3, true⟩) :=
    get_byte_cons hbound (s := ⟨2, true⟩) hdrop₂
  have hflags : get_byte_func header header.length ⟨3, true⟩ = .ok (flags.toUInt32, ⟨4, true⟩) :=
    get_byte_cons hbound (s := ⟨3, true⟩) hdrop₃
  have hbad : method.toUInt32 ≠ Z_DEFLATED ∨ flags.toUInt32 &&& 0xE0 ≠ 0 ↔
      method ≠ 8 ∨ flags &&& 0xE0 ≠ 0 := by
    have hinj : method.toUInt32 = (8 : UInt8).toUInt32 ↔ method = 8 := UInt8.toUInt32_inj
    exact or_congr (not_congr hinj) (toUInt32_and_ne_zero flags 0xE0)
  rw [check_header, if_neg (by omega), hgz, Exec.ok_bind, if_neg (by simp), if_neg (by omega)]
  simp only [hmethod, hflags, Exec.ok_bind, hbad]

/-- What begins like a header and is too short for the flags. -/
theorem check_header_short (h : header.length < 4) (hmagic : header <+: [0x1f, 0x8b] ∨
    [0x1f, 0x8b] <+: header) : check_header header header.length = .ok (-2) := by
  by_cases hlen : (header.length : ℤ) < 2
  · rw [check_header, if_pos hlen]
  · have hpre : [0x1f, 0x8b] <+: header := by
      rcases hmagic with hsub | hpre
      · rw [hsub.eq_of_length_le (by simp; omega)]
      · exact hpre
    obtain ⟨rest, rfl⟩ := hpre
    have hgz : isGzip ([0x1f, 0x8b] ++ rest) = .ok true := by simp [isGzip, byteAt]
    rw [check_header, if_neg hlen, hgz, Exec.ok_bind, if_neg (by simp), if_pos (by omega)]

/-- What does not begin with the magic bytes. -/
theorem check_header_noMagic (h : ¬[0x1f, 0x8b] <+: header) :
    ∃ r, check_header header header.length = .ok r ∧ r < 0 := by
  by_cases hlen : (header.length : ℤ) < 2
  · exact ⟨-2, by rw [check_header, if_pos hlen], by decide⟩
  · rcases header with _ | ⟨a, _ | ⟨b, rest⟩⟩
    · simp at hlen
    · simp at hlen
    · have hgz : isGzip (a :: b :: rest) = .ok false := by
        simp only [List.cons_prefix_cons, List.nil_prefix, and_true, not_and] at h
        by_cases ha : a = 0x1f
        · simp [isGzip, byteAt, ha, Ne.symm (h ha.symm)]
        · simp [isGzip, byteAt, ha]
      exact ⟨-1, by rw [check_header, if_neg hlen, hgz, Exec.ok_bind]; rfl, by decide⟩

theorem prefixFree_memberHeader : PrefixFree memberHeader := by
  intro l hl l' hl' hne hpre
  obtain ⟨flags, fields, hfields, -, rfl⟩ := hl
  obtain ⟨flags', fields', hfields', -, rfl⟩ := hl'
  simp only [List.cons_prefix_cons, true_and] at hpre
  obtain ⟨rfl, hpre⟩ := hpre
  exact hne (by rw [(prefixFree_headerFields flags).eq hfields hfields' hpre])

/-- Some header that begins with what there is has a length that is an `int`, if there is one. -/
def FitsInt (header : List UInt8) : Prop :=
  ∀ l ∈ memberHeader, header <+: l → ∃ l' ∈ memberHeader, header <+: l' ∧ l'.length < 2 ^ 31

/-- Behind the flags it is the fields that have to be completed. -/
theorem fitsInt_iff {flags : UInt8} (hflags : flags &&& 0xE0 = 0) {rest : List UInt8} :
    FitsInt (0x1f :: 0x8b :: 8 :: flags :: rest) ↔ Completes flags rest := by
  constructor
  · intro h l hl hpre
    obtain ⟨-, ⟨flags', fields, hmem, -, rfl⟩, hpre', hlen'⟩ :=
      h (0x1f :: 0x8b :: 8 :: flags :: l) ⟨flags, l, hl, hflags, rfl⟩ (by simpa using hpre)
    simp only [List.cons_prefix_cons, true_and] at hpre'
    obtain ⟨rfl, hpre'⟩ := hpre'
    simp only [List.length_cons] at hlen'
    exact ⟨fields, hmem, hpre', by omega⟩
  · rintro h l ⟨flags', fields, hmem, -, rfl⟩ hpre
    simp only [List.cons_prefix_cons, true_and] at hpre
    obtain ⟨rfl, hpre⟩ := hpre
    obtain ⟨l', hl', hpre', hlen'⟩ := h fields hmem hpre
    refine ⟨0x1f :: 0x8b :: 8 :: flags :: l', ⟨flags, l', hl', hflags, rfl⟩,
      by simpa using hpre', ?_⟩
    simp only [List.length_cons]
    omega

/-- What `check_header` has to do: it returns `n` if the buffer begins with a header of length `n`,
and `-2` for what is cut off inside of one; it ends and reads inside of the buffer only. -/
def ChecksHeader (header : List UInt8) : Prop :=
  ∃ r, check_header header header.length = .ok r ∧
    (∀ n : ℕ, r = n ↔ ∃ l ∈ memberHeader, l <+: header ∧ l.length = n) ∧
    ∀ l ∈ memberHeader, header <+: l → header ≠ l → r = -2

/-- A buffer that has nothing to do with a header is refused. -/
theorem checksHeader_of_unlike {r : ℤ} (hrun : check_header header header.length = .ok r)
    (hr : r < 0) (hfront : ¬Front memberHeader header) (hcut : ∀ l ∈ memberHeader, ¬header <+: l) :
    ChecksHeader header ∧ FitsInt header := by
  refine ⟨⟨r, hrun, fun n => iff_of_false (by omega) ?_, fun l hl hpre => ?_⟩, fun l hl hpre => ?_⟩
  · rintro ⟨l, hl, hpre, -⟩
    exact hfront ⟨l, hl, hpre⟩
  · exact absurd hpre (hcut l hl)
  · exact absurd hpre (hcut l hl)

/-- A buffer that is cut off inside of a header. -/
theorem checksHeader_of_cut (hrun : check_header header header.length = .ok (-2))
    (hfront : ¬Front memberHeader header) : ChecksHeader header := by
  refine ⟨-2, hrun, fun n => iff_of_false (by omega) ?_, fun _ _ _ _ => rfl⟩
  rintro ⟨l, hl, hpre, -⟩
  exact hfront ⟨l, hl, hpre⟩

/-- A buffer that begins with a header. -/
theorem checksHeader_of_front (hbound : header.length < 2 ^ 31) {l : List UInt8}
    (hl : l ∈ memberHeader) (hpre : l <+: header)
    (hrun : check_header header header.length = .ok l.length) :
    ChecksHeader header ∧ FitsInt header := by
  have hwhole : ∀ l' ∈ memberHeader, header <+: l' → header = l' := by
    intro l' hl' hpre'
    obtain rfl := prefixFree_memberHeader.eq hl hl' (hpre.trans hpre')
    exact hpre'.eq_of_length_le hpre.length_le
  refine ⟨⟨l.length, hrun, fun n => ⟨fun h => ?_, ?_⟩, fun l' hl' hpre' hne => ?_⟩, ?_⟩
  · exact ⟨l, hl, hpre, Int.natCast_inj.mp h⟩
  · rintro ⟨l', hl', hpre', rfl⟩
    rw [prefixFree_memberHeader.unique hl hl' hpre hpre']
  · exact absurd (hwhole l' hl' hpre') hne
  · intro l' hl' hpre'
    exact ⟨l', hl', hpre', hwhole l' hl' hpre' ▸ hbound⟩

/-- A buffer that is shorter than the fixed part of a header. -/
theorem checksHeader_of_short (h : header.length < 4) : ChecksHeader header ∧ FitsInt header := by
  have hfront : ¬Front memberHeader header := by
    rintro ⟨l, ⟨flags, fields, -, -, rfl⟩, hpre⟩
    have hlen := hpre.length_le
    simp only [List.length_cons] at hlen
    omega
  have hfits : FitsInt header := by
    rintro l ⟨flags, fields, hfields, hflags, rfl⟩ hpre
    have hfour : header <+: [0x1f, 0x8b, 8, flags] :=
      List.prefix_of_prefix_length_le hpre ⟨fields, rfl⟩ h.le
    rw [headerFields_eq] at hfields
    obtain ⟨a, ha, -, -, -⟩ := Language.mem_mul.mp hfields
    obtain ⟨b, hb, hlenb⟩ := (within_openFields flags).exists_length_le
    have hlena := length_fixedFields_le ha
    refine ⟨0x1f :: 0x8b :: 8 :: flags :: (a ++ b), ⟨flags, a ++ b, ?_, hflags, rfl⟩,
      hfour.trans ⟨a ++ b, rfl⟩, ?_⟩
    · rw [headerFields_eq]
      exact Language.append_mem_mul ha hb
    · simp only [List.length_cons, List.length_append]
      omega
  by_cases hmagic : header <+: [0x1f, 0x8b] ∨ [0x1f, 0x8b] <+: header
  · exact ⟨checksHeader_of_cut (check_header_short h hmagic) hfront, hfits⟩
  · obtain ⟨r, hrun, hr⟩ := check_header_noMagic fun hpre => hmagic (.inr hpre)
    refine checksHeader_of_unlike hrun hr hfront ?_
    rintro l ⟨flags, fields, -, -, rfl⟩ hpre
    exact hmagic (List.prefix_or_prefix_of_prefix hpre ⟨8 :: flags :: fields, rfl⟩)

/-- **Either `check_header` does what it has to, or its position leaves the range of an `int`.** -/
theorem checksHeader_or_overflow (hbound : header.length < 2 ^ 31) :
    (ChecksHeader header ∧ FitsInt header) ∨
      (check_header header header.length = .error .signedOverflow ∧ ¬FitsInt header) := by
  by_cases hlen : header.length < 4
  · exact .inl (checksHeader_of_short hlen)
  obtain ⟨a, b, method, flags, rest, rfl⟩ : ∃ a b method flags rest,
      header = a :: b :: method :: flags :: rest := exists_eq_header (by omega)
  by_cases hlike : a = 0x1f ∧ b = 0x8b ∧ method = 8 ∧ flags &&& 0xE0 = 0
  · obtain ⟨rfl, rfl, rfl, hflags⟩ := hlike
    have hrun := check_header_magic hbound rfl
    rw [if_neg (by simp [hflags])] at hrun
    by_cases hfields : Front (headerFields flags) rest
    · obtain ⟨l, hl, hpre⟩ := hfields
      have htake := takes_fields hbound flags ⟨4, true⟩ (by decide) l hl hpre
      rw [htake, Exec.ok_bind, if_pos rfl] at hrun
      refine .inl (checksHeader_of_front hbound ⟨flags, l, hl, hflags, rfl⟩
        (by simpa using hpre) ?_)
      rw [hrun]
      congr 1
      simp only [List.length_cons]
      push_cast
      omega
    · have hfront : ¬Front memberHeader (0x1f :: 0x8b :: 8 :: flags :: rest) := by
        rintro ⟨l, ⟨flags', fields, hmem, -, rfl⟩, hpre⟩
        simp only [List.cons_prefix_cons, true_and] at hpre
        obtain ⟨rfl, hpre⟩ := hpre
        exact hfields ⟨fields, hmem, hpre⟩
      rcases skipFields_cut hbound flags hfields with
        ⟨hcompletes, ⟨pos, ok⟩, hskip, hok⟩ | ⟨hnot, hskip⟩
      · obtain rfl : ok = false := hok
        rw [hskip, Exec.ok_bind, if_neg Bool.false_ne_true] at hrun
        exact .inl ⟨checksHeader_of_cut hrun hfront, (fitsInt_iff hflags).mpr hcompletes⟩
      · rw [hskip, Exec.error_bind] at hrun
        exact .inr ⟨hrun, mt (fitsInt_iff hflags).mp hnot⟩
  · obtain ⟨r, hrun, hr⟩ : ∃ r, check_header (a :: b :: method :: flags :: rest)
        (a :: b :: method :: flags :: rest).length = .ok r ∧ r < 0 := by
      by_cases hmagic : [0x1f, 0x8b] <+: a :: b :: method :: flags :: rest
      · simp only [List.cons_prefix_cons, List.nil_prefix, and_true] at hmagic
        obtain ⟨rfl, rfl⟩ := hmagic
        refine ⟨-1, (check_header_magic hbound rfl).trans (if_pos ?_), by decide⟩
        by_contra hgood
        exact hlike ⟨rfl, rfl, by simpa using hgood⟩
      · exact check_header_noMagic hmagic
    refine .inl (checksHeader_of_unlike hrun hr ?_ ?_)
    · rintro ⟨l, ⟨flags', fields, -, hflags', rfl⟩, hpre⟩
      simp only [List.cons_prefix_cons] at hpre
      obtain ⟨rfl, rfl, rfl, rfl, -⟩ := hpre
      exact hlike ⟨rfl, rfl, rfl, hflags'⟩
    · rintro l ⟨flags', fields, -, hflags', rfl⟩ hpre
      simp only [List.cons_prefix_cons] at hpre
      obtain ⟨rfl, rfl, rfl, rfl, -⟩ := hpre
      exact hlike ⟨rfl, rfl, rfl, hflags'⟩

/-- The position is an `int` for all but the longest buffers. -/
theorem fitsInt_of_lt (h : header.length + 4 < 2 ^ 31) : FitsInt header := by
  intro l hl hpre
  by_cases hlen : header.length < 4
  · exact (checksHeader_of_short hlen).2 l hl hpre
  · obtain ⟨a, b, method, flags, rest, rfl⟩ : ∃ a b method flags rest,
        header = a :: b :: method :: flags :: rest := exists_eq_header (by omega)
    have hflags : ∃ fields, flags &&& 0xE0 = 0 ∧ l = 0x1f :: 0x8b :: 8 :: flags :: fields := by
      obtain ⟨flags', fields, -, hflags', rfl⟩ := hl
      simp only [List.cons_prefix_cons] at hpre
      obtain ⟨-, -, -, rfl, -⟩ := hpre
      exact ⟨fields, hflags', rfl⟩
    obtain ⟨fields, hflags, rfl⟩ := hflags
    simp only [List.length_cons] at h
    have hall := (fitsInt_iff hflags).mpr (completes_of_lt (show rest.length + 8 < 2 ^ 31 by omega))
    simp only [List.cons_prefix_cons] at hpre
    obtain ⟨rfl, rfl, rfl, -, hpre⟩ := hpre
    exact hall _ hl (by simpa using hpre)

/-- **The check of a header stays in the buffer**: it is refused with a negative number, or its
length, which is not zero, is that of a part of the buffer. -/
theorem check_header_spec (h : header.length + 4 < 2 ^ 31) :
    ∃ r, check_header header header.length = .ok r ∧ (r < 0 ∨ 0 < r ∧ r ≤ header.length) := by
  rcases checksHeader_or_overflow (show header.length < 2 ^ 31 by omega) with
    ⟨⟨r, hrun, hfinds, -⟩, -⟩ | ⟨-, hnot⟩
  · refine ⟨r, hrun, ?_⟩
    by_cases hneg : r < 0
    · exact .inl hneg
    · obtain ⟨l, ⟨flags, fields, -, -, rfl⟩, hpre, hlen⟩ := (hfinds r.toNat).mp (by omega)
      have hle := hpre.length_le
      simp only [List.length_cons] at hlen hle
      exact .inr ⟨by omega, by omega⟩
  · exact absurd (fitsInt_of_lt h) hnot

/-- **`check_header` accepts exactly the member headers, as long as its position is an `int`**: for
a buffer that is cut off inside of a header the scan asks for the bytes that the shortest header
needs, and when there are more than an `int` counts it overflows. -/
theorem checksHeader_iff (hbound : header.length < 2 ^ 31) :
    ChecksHeader header ↔ FitsInt header := by
  rcases checksHeader_or_overflow hbound with ⟨hchecks, hfits⟩ | ⟨hrun, hnot⟩
  · exact iff_of_true hchecks hfits
  · refine iff_of_false (fun h => ?_) hnot
    obtain ⟨r, hrun', -⟩ := h
    cases hrun.symm.trans hrun'

/-- What `gzip` writes is a header without optional fields. -/
theorem gzipHeader_mem : gzipHeader ∈ memberHeader := by
  have hopen : [] ++ ([] ++ []) ∈ openFields 0 :=
    Language.append_mem_mul Language.nil_mem_one
      (Language.append_mem_mul Language.nil_mem_one Language.nil_mem_one)
  exact ⟨0, [0, 0, 0, 0, 0, 3] ++ ([] ++ ([] ++ ([] ++ []))),
    Language.append_mem_mul rfl (Language.append_mem_mul Language.nil_mem_one hopen), rfl, rfl⟩

/-- The header of `gzip` with a byte behind it, and without its last one. -/
theorem checksHeader_iff_gzipHeader :
    check_header (gzipHeader ++ [0x63]) 11 = .ok 10 ∧
      check_header (gzipHeader.take 9) 9 = .ok (-2) := by
  constructor
  · obtain ⟨r, hrun, hfinds, -⟩ :=
      (checksHeader_iff (by decide)).mpr
        (fitsInt_of_lt (show (gzipHeader ++ [0x63]).length + 4 < 2 ^ 31 by decide))
    have hten := (hfinds 10).mpr ⟨gzipHeader, gzipHeader_mem, List.prefix_append _ _, rfl⟩
    rw [hten] at hrun
    exact hrun
  · obtain ⟨r, hrun, -, hcut⟩ :=
      (checksHeader_iff (by decide)).mpr
        (fitsInt_of_lt (show (gzipHeader.take 9).length + 4 < 2 ^ 31 by decide))
    rw [hcut gzipHeader gzipHeader_mem (List.take_prefix 9 gzipHeader) (by decide)] at hrun
    exact hrun

/-- A header with a name that does not end. -/
def longName (n : ℕ) : List UInt8 :=
  [0x1f, 0x8b, 8, 0x08, 0, 0, 0, 0, 0, 3] ++ List.replicate n 0x61

theorem length_longName (n : ℕ) : (longName n).length = n + 10 := by
  simp only [longName, List.length_append, List.length_cons, List.length_nil,
    List.length_replicate]
  omega

/-- With a zero byte behind it, it is a header. -/
theorem longName_mem (n : ℕ) : longName n ++ [0] ∈ memberHeader := by
  have hname : List.replicate n (0x61 : UInt8) ++ [0] ∈ zeroTerminated := by
    refine ⟨List.replicate n 0x61, fun h => ?_, rfl⟩
    have heq := List.eq_of_mem_replicate h
    revert heq
    decide
  have hopen : List.replicate n (0x61 : UInt8) ++ [0] ++ [] ∈ openFields 0x08 :=
    Language.append_mem_mul hname
      (Language.append_mem_mul Language.nil_mem_one Language.nil_mem_one)
  refine ⟨0x08, [0, 0, 0, 0, 0, 3] ++ ([] ++ (List.replicate n 0x61 ++ [0] ++ [])), ?_, rfl, ?_⟩
  · exact Language.append_mem_mul rfl (Language.append_mem_mul Language.nil_mem_one hopen)
  · simp [longName]

/-- A name that fills a buffer of the greatest length. -/
theorem not_checksHeader_longName : ¬ChecksHeader (longName (2 ^ 31 - 11)) := by
  have hlen : (longName (2 ^ 31 - 11)).length = 2 ^ 31 - 1 := length_longName _
  rcases checksHeader_or_overflow (show (longName (2 ^ 31 - 11)).length < 2 ^ 31 by omega) with
    ⟨-, hfits⟩ | ⟨hrun, -⟩
  · exfalso
    have hmem := longName_mem (2 ^ 31 - 11)
    obtain ⟨l, hl, hpre, hshort⟩ := hfits _ hmem (List.prefix_append _ _)
    obtain rfl : longName (2 ^ 31 - 11) = l := hpre.eq_of_length_le (by omega)
    have heq := prefixFree_memberHeader.eq hl hmem (List.prefix_append _ _)
    simpa using congrArg List.length heq
  · rintro ⟨r, hrun', -⟩
    cases hrun.symm.trans hrun'

end CppCore.Ngp.Zlib
