import CppCore.Ngp.TextParams
import Mathlib.Logic.Relation

/-!
# Reading a text to its end

The loop of `readParams` goes on while `pos + 1 < data.size()`.  A param that cannot be read moves
the cursor to `MAX_UINT32`, and `MAX_UINT32 + 1` is `0`: the loop goes on, finds no `:` behind the
cursor, and moves it to `MAX_UINT32` again.  So behind an accepted header the function returns true
or not at all.

The other way not to end is a cursor that stays in front of its `:`, since it moves by the digits of
the id as a number and not by those in the text.

## Main definitions

* `Follows` — from a cursor to the one behind its param.
* `ParamReadable`, `Readable` — a param that the loop gets past; a text of such params.
* `ReadsText` — the text is read to its end and in bounds, and what is malformed is reported.
* `readsText_iff` — when it is.
-/

namespace CppCore.Ngp.NParamBlock

open Lib Scanf

variable {lib : Scanf} {data : List UInt8} {pos c s : ℕ} {x : Scanned}

/-! ## Cursors -/

/-- From a cursor with characters to read to the one behind the param it is in front of. -/
def Follows (lib : Scanf) (data : List UInt8) (pos pos' : ℕ) : Prop :=
  pos + 1 < data.length ∧ ∃ c s x, Meets lib data pos c s x ∧ pos' = behind data s x

/-- The cursor is in front of no param: there is no `:`, or no space in front of it, or the word is
not a number and a `:`. -/
def Malformed (data : List UInt8) (pos : ℕ) : Prop :=
  ∀ c s, indexFrom data 58 pos = some c → wordStart data c = some s →
    ∀ id rest, readNumber 10 (paramText data c s) ≠ some (id, 58 :: rest)

/-- A cursor is behind a `:`, or there is nothing more to read. -/
def Past (data : List UInt8) (c pos : ℕ) : Prop := c < pos ∨ data.length ≤ pos + 1

/-- The param in front of a cursor is read without a fault, and the cursor gets past its `:`, if not
with this param then with the next. -/
def ParamReadable (lib : Scanf) (data : List UInt8) (pos : ℕ) : Prop :=
  ∃ c s x, Meets lib data pos c s x ∧ x.Sound ∧
    (Past data c (behind data s x) ∨
      ∃ pos', Follows lib data (behind data s x) pos' ∧ Past data c pos')

theorem le_behind : s ≤ behind data s x := by
  rw [behind, skipSpace, Scanned.width]
  omega

/-- The cursor is no sentinel. -/
theorem behind_lt (hlen : data.length < 2 ^ 31) (h : Meets lib data pos c s x) (hsound : x.Sound) :
    behind data s x + 1 < 2 ^ 32 := by
  have hc := indexFrom_lt_length h.colon
  have hs := h.start_le
  have hwidth := hsound.width
  have hspace := (List.takeWhile_prefix (l := data.drop (s + x.width)) isspace).length_le
  rw [List.length_drop] at hspace
  rw [behind, skipSpace]
  omega

theorem unread_iff (hpos : pos + 1 < 2 ^ 32) {params : NParamBlock} :
    unread data (pos, params) = true ↔ pos + 1 < data.length := by
  rw [unread, decide_eq_true_iff, add32_of_lt hpos]

/-! ## A loop that ends -/

/-- The loop for a cursor and a block. -/
abbrev Ends (lib : Scanf) (data : List UInt8) (pos : ℕ) (params : NParamBlock) : Prop :=
  Halts (unread data) (readNext lib data) (pos, params)

/-- **The sentinel does not end the loop.** -/
theorem not_ends_of_lost (hlen : data.length < 2 ^ 31) (hne : 0 < data.length)
    (params : NParamBlock) : ¬Ends lib data MAX_UINT32 params := by
  apply not_halts_of_inv (I := fun state => state.1 = MAX_UINT32)
  · rintro ⟨_, params⟩ rfl
    simpa [unread, add32, MAX_UINT32] using hne
  · rintro ⟨_, params⟩ r rfl hr
    rcases meets_of_readNext hlen hr with h | ⟨c, s, x, hmeets, _, _⟩
    · exact h
    · -- nothing is found from the sentinel on
      have hle := (indexFrom_eq_some.mp hmeets.colon).1
      have hlt := indexFrom_lt_length hmeets.colon
      rw [MAX_UINT32] at hle
      omega
  · rfl

/-- **A loop that ends** has read the param in front of the cursor. -/
theorem meets_of_ends (hlen : data.length < 2 ^ 31) (hpos : pos + 1 < data.length)
    {params : NParamBlock} (h : Ends lib data pos params) :
    ∃ c s x params', Meets lib data pos c s x ∧ x.Sound ∧
      Ends lib data (behind data s x) params' := by
  have hunread : unread data (pos, params) = true := (unread_iff (by omega)).mpr hpos
  obtain ⟨r, hnext, hrest⟩ := (halts_iff_of_guard hunread).mp h
  obtain ⟨pos', params'⟩ := r
  rcases meets_of_readNext hlen hnext with hlost | ⟨c, s, x, hmeets, hsound, hbehind⟩
  · dsimp only at hlost
    subst hlost
    exact (not_ends_of_lost hlen (by omega) params' hrest).elim
  · dsimp only at hbehind
    subst hbehind
    exact ⟨c, s, x, params', hmeets, hsound, hrest⟩

/-- The loop gets to every cursor that follows. -/
theorem ends_of_reached (hlen : data.length < 2 ^ 31) {start : ℕ} {params : NParamBlock}
    (h : Ends lib data start params)
    (hreached : Relation.ReflTransGen (Follows lib data) start pos) :
    ∃ params', Ends lib data pos params' := by
  induction hreached with
  | refl => exact ⟨params, h⟩
  | tail _ hfollows ih =>
    obtain ⟨params', hends⟩ := ih
    obtain ⟨hlt, c, s, x, hmeets, rfl⟩ := hfollows
    obtain ⟨c', s', x', params'', hmeets', _, hrest⟩ := meets_of_ends hlen hlt hends
    obtain ⟨_, rfl, rfl⟩ := hmeets.unique hmeets'
    exact ⟨params'', hrest⟩

/-- It goes on from behind a param. -/
theorem ends_of_meets (hlen : data.length < 2 ^ 31) (hpos : pos + 1 < data.length)
    (h : Meets lib data pos c s x) (hsound : x.Sound)
    (hrest : ∀ params, Ends lib data (behind data s x) params) (params : NParamBlock) :
    Ends lib data pos params := by
  obtain ⟨params', hnext⟩ := readNext_of_meets hlen h hsound params
  apply (halts_iff_of_guard ((unread_iff (by omega)).mpr hpos)).mpr
  exact ⟨_, hnext, hrest params'⟩

/-- It ends at the end. -/
theorem ends_of_le (hpos : pos + 1 < 2 ^ 32) (h : data.length ≤ pos + 1) (params : NParamBlock) :
    Ends lib data pos params := by
  apply halts_of_not_guard
  rw [← Bool.not_eq_true, unread_iff hpos]
  omega

/-! ## Words with several colons -/

variable {pos' c' s' : ℕ} {x' : Scanned}

/-- A `:` before `c` and behind the start of its word is in the same word. -/
theorem Meets.start_eq (h : Meets lib data pos c s x) (h' : Meets lib data pos' c' s' x')
    (hstart : s ≤ pos') (hle : c' ≤ c) : s' = s := by
  obtain ⟨e, he, rfl⟩ := Option.map_eq_some_iff.mp h.word
  have hcolon := (indexFrom_eq_some.mp h'.colon).1
  have hword : wordStart data c' = some (e + 1) := by
    rw [wordStart, indexUpTo_eq_of_le he hle (by omega), Option.map_some]
  exact Option.some.inj (h'.word.symm.trans hword)

/-- In front of another `:` of its word the text of a param is all there is. -/
theorem Meets.paramText_eq (h : Meets lib data pos c s x) (hstart : s ≤ c') (hlt : c' < c) :
    paramText data c' s = data.drop s := by
  obtain ⟨e, he, rfl⟩ := Option.map_eq_some_iff.mp h.word
  have hget := (indexFrom_eq_some.mp h.colon).2.1
  obtain ⟨n, hn, hle⟩ := indexFrom_le hget (show c' + 1 ≤ c by omega)
  have hcn := (indexFrom_eq_some.mp hn).1
  have hspace : indexUpTo data 32 n = some e := indexUpTo_eq_of_le he hle (by omega)
  rw [paramText, hn, Option.bind_some, hspace]
  exact if_pos (Nat.lt_succ_self e)

/-- **Cursors that stay in front of a `:`** are two at most. -/
theorem Meets.behind_eq_or {c₁ s₁ c₂ s₂ : ℕ} {x₁ x₂ : Scanned} (h : Meets lib data pos c s x)
    (h₁ : Meets lib data (behind data s x) c₁ s₁ x₁) (hle₁ : c₁ ≤ c)
    (h₂ : Meets lib data (behind data s₁ x₁) c₂ s₂ x₂) (hle₂ : c₂ ≤ c) :
    behind data s₂ x₂ = behind data s x ∨ behind data s₂ x₂ = behind data s₁ x₁ := by
  obtain rfl := h.start_eq h₁ le_behind hle₁
  obtain rfl := h.start_eq h₂ le_behind hle₂
  by_cases hc₂ : c₂ = c
  · left
    subst hc₂
    rw [Option.some.inj (h.scanned.symm.trans h₂.scanned)]
  · right
    have hstart₂ := le_behind.trans (indexFrom_eq_some.mp h₂.colon).1
    have htext₂ := h.paramText_eq hstart₂ (lt_of_le_of_ne hle₂ hc₂)
    by_cases hc₁ : c₁ = c
    · -- the first of them is where the second is
      subst hc₁
      obtain rfl := Option.some.inj (h.scanned.symm.trans h₁.scanned)
      obtain ⟨_, _, rfl⟩ := h₁.unique h₂
      rfl
    · have hstart₁ := le_behind.trans (indexFrom_eq_some.mp h₁.colon).1
      have htext₁ := h.paramText_eq hstart₁ (lt_of_le_of_ne hle₁ hc₁)
      have hscan₁ := h₁.scanned
      have hscan₂ := h₂.scanned
      rw [htext₁] at hscan₁
      rw [htext₂] at hscan₂
      rw [Option.some.inj (hscan₁.symm.trans hscan₂)]

/-! ## When the loop ends -/

/-- **Necessity**: a loop that ends has read the param, and got past its `:`. -/
theorem paramReadable_of_ends (hlen : data.length < 2 ^ 31) (hpos : pos + 1 < data.length)
    {params : NParamBlock} (h : Ends lib data pos params) : ParamReadable lib data pos := by
  obtain ⟨c, s, x, params₁, hmeets, hsound, hends₁⟩ := meets_of_ends hlen hpos h
  refine ⟨c, s, x, hmeets, hsound, ?_⟩
  by_contra hstuck
  obtain ⟨hnot₁, hnot₂⟩ := not_or.mp hstuck
  obtain ⟨hle₁, hpos₁⟩ := not_or.mp hnot₁
  obtain ⟨c₁, s₁, x₁, params₂, hmeets₁, hsound₁, hends₂⟩ :=
    meets_of_ends hlen (not_le.mp hpos₁) hends₁
  have hfollows : Follows lib data (behind data s x) (behind data s₁ x₁) :=
    ⟨not_le.mp hpos₁, c₁, s₁, x₁, hmeets₁, rfl⟩
  obtain ⟨hle₂, hpos₂⟩ := not_or.mp (not_and.mp (not_exists.mp hnot₂ _) hfollows)
  obtain ⟨c₂, s₂, x₂, _, hmeets₂, hsound₂, _⟩ := meets_of_ends hlen (not_le.mp hpos₂) hends₂
  -- from either of the two cursors the loop gets to one of them
  have hget := (indexFrom_eq_some.mp hmeets.colon).2.1
  have hbefore : ∀ {pos' c' : ℕ}, ¬c < pos' → indexFrom data 58 pos' = some c' → c' ≤ c := by
    intro pos' c' hle hcolon
    obtain ⟨j, hj, hjle⟩ := indexFrom_le hget (not_lt.mp hle)
    rwa [Option.some.inj (hcolon.symm.trans hj)]
  have hback := hmeets.behind_eq_or hmeets₁ (hbefore hle₁ hmeets₁.colon) hmeets₂
    (hbefore hle₂ hmeets₂.colon)
  refine not_halts_of_inv (I := fun state => state.1 = behind data s x ∨
    state.1 = behind data s₁ x₁) ?_ ?_ (Or.inl rfl) hends₁
  · rintro ⟨_, params⟩ (rfl | rfl)
    · exact (unread_iff (behind_lt hlen hmeets hsound)).mpr (not_le.mp hpos₁)
    · exact (unread_iff (behind_lt hlen hmeets₁ hsound₁)).mpr (not_le.mp hpos₂)
  · rintro ⟨_, params⟩ r (rfl | rfl) hr
    · obtain ⟨params', hnext⟩ := readNext_of_meets hlen hmeets₁ hsound₁ params
      right
      rw [Exec.unique hr hnext]
    · obtain ⟨params', hnext⟩ := readNext_of_meets hlen hmeets₂ hsound₂ params
      rw [Exec.unique hr hnext]
      exact hback

/-- **Sufficiency**: the loop ends if every param that it comes to can be read. -/
theorem ends_of_paramReadable (hlen : data.length < 2 ^ 31) {start : ℕ}
    (hall : ∀ pos, Relation.ReflTransGen (Follows lib data) start pos → pos + 1 < data.length →
      ParamReadable lib data pos)
    (hreached : Relation.ReflTransGen (Follows lib data) start pos) (hpos : pos + 1 < 2 ^ 32)
    (params : NParamBlock) : Ends lib data pos params := by
  induction hn : data.length - pos using Nat.strong_induction_on generalizing pos params with
  | _ n ih =>
    by_cases hlt : pos + 1 < data.length
    · obtain ⟨c, s, x, hmeets, hsound, hprogress⟩ := hall pos hreached hlt
      have hcolon := (indexFrom_eq_some.mp hmeets.colon).1
      have hfollows : Follows lib data pos (behind data s x) := ⟨hlt, c, s, x, hmeets, rfl⟩
      -- behind the `:` there is less to read
      have hpast : ∀ {pos' : ℕ}, Relation.ReflTransGen (Follows lib data) start pos' →
          pos' + 1 < 2 ^ 32 → Past data c pos' → ∀ params, Ends lib data pos' params := by
        intro pos' hreached' hpos' h params'
        rcases h with h | h
        · exact ih (data.length - pos') (by omega) hreached' hpos' params' rfl
        · exact ends_of_le hpos' h params'
      have hbehind := behind_lt hlen hmeets hsound
      apply ends_of_meets hlen hlt hmeets hsound
      rcases hprogress with h | ⟨pos', hfollows', h⟩
      · exact hpast (hreached.tail hfollows) hbehind h
      · obtain ⟨hlt', c', s', x', hmeets', rfl⟩ := hfollows'
        have hreached' := hreached.tail hfollows
        obtain ⟨_, _, _, hmeets'', hsound', _⟩ := hall _ hreached' hlt'
        obtain ⟨rfl, rfl, rfl⟩ := hmeets'.unique hmeets''
        apply ends_of_meets hlen hlt' hmeets' hsound'
        exact hpast (hreached'.tail ⟨hlt', _, _, _, hmeets', rfl⟩)
          (behind_lt hlen hmeets' hsound') h
    · exact ends_of_le hpos (not_lt.mp hlt) params

/-- **The loop ends exactly if** every param that it comes to can be read. -/
theorem ends_iff (hlen : data.length < 2 ^ 31) {start : ℕ} (hstart : start + 1 < 2 ^ 32)
    (params : NParamBlock) : Ends lib data start params ↔
      ∀ pos, Relation.ReflTransGen (Follows lib data) start pos → pos + 1 < data.length →
        ParamReadable lib data pos := by
  constructor
  · intro h pos hreached hpos
    obtain ⟨params', hends⟩ := ends_of_reached hlen h hreached
    exact paramReadable_of_ends hlen hpos hends
  · intro h
    exact ends_of_paramReadable hlen h .refl hstart params

/-! ## Texts -/

/-- A cursor that the loop comes to, with characters to read. -/
def ComesTo (lib : Scanf) (str : List UInt8) (pos : ℕ) : Prop :=
  pos + 1 < str.length ∧
    ∃ start, ParamsAt str start ∧ Relation.ReflTransGen (Follows lib str) start pos

/-- `readParams` ends without a fault, and it returns false if a malformed param is come to. -/
def ReadsText (lib : Scanf) (str : Text) : Prop :=
  ∀ header params, ∃ fuel r, readParams lib fuel str.val header params = .ok r ∧
    ((∃ pos, ComesTo lib str.val pos ∧ Malformed str.val pos) → r.1 = false)

/-- There is something behind `NavRequest`, and the params that are come to are not malformed and
can be read. -/
structure Readable (lib : Scanf) (str : List UInt8) : Prop where
  continues : Continues str
  wellFormed : ∀ pos, ComesTo lib str pos → ¬Malformed str pos
  readable : ∀ pos, ComesTo lib str pos → ParamReadable lib str pos

theorem ParamsAt.le_length {str : List UInt8} {start : ℕ} (h : ParamsAt str start) :
    start ≤ str.length := by
  obtain ⟨_, _, _, _, _, _, _, hheader⟩ := h.header
  obtain ⟨j, hj, rfl⟩ := h.block
  obtain ⟨j', hj', hle⟩ := block_of_scan (congrArg List.length hheader)
  obtain rfl := Option.some.inj (hj.symm.trans hj')
  exact hle

/-- **Behind an accepted header** the function returns exactly if the loop ends, and then it returns
true. -/
theorem readParams_eq_ok {str : List UInt8} {start : ℕ} (hne : 0 < str.length)
    (hcontinues : Continues str) (h : ParamsAt str start) (header : TextHeader)
    (params : NParamBlock) :
    (Ends lib str start params ↔ ∃ fuel r, readParams lib fuel str header params = .ok r) ∧
      ∀ fuel r, readParams lib fuel str header params = .ok r → r.1 = true := by
  obtain ⟨header', hread⟩ := readParams_of_paramsAt lib hcontinues h header params
  refine ⟨⟨?_, ?_⟩, ?_⟩
  · rintro ⟨fuel, t, hrun⟩
    refine ⟨fuel, (t.1 != MAX_UINT32, header', t.2), ?_⟩
    rw [hread, hrun]
    rfl
  · rintro ⟨fuel, r, hr⟩
    rw [hread] at hr
    obtain ⟨t, hrun, _⟩ := Exec.bind_eq_ok.mp hr
    exact ⟨fuel, t, hrun⟩
  · intro fuel r hr
    rw [hread] at hr
    obtain ⟨t, hrun, hreturn⟩ := Exec.bind_eq_ok.mp hr
    obtain rfl := Except.ok.inj hreturn
    have hguard := guard_of_whileLoop hrun
    -- at the sentinel the loop would go on
    have hlost : t.1 ≠ MAX_UINT32 := by
      intro hlost
      have hwrap : add32 MAX_UINT32 1 = 0 := by decide
      rw [unread, hlost, hwrap, decide_eq_false_iff_not] at hguard
      exact hguard hne
    simpa using hlost

/-- What is read has all it needs. -/
theorem readable_of_readsText {str : Text} (h : ReadsText lib str) : Readable lib str.val := by
  have hlen := str.property.2
  obtain ⟨fuel, r, hr, hfalse⟩ := h ⟨0, 0, 0, 0⟩ NParamBlock.empty
  have hcontinues : Continues str.val := by
    by_contra hnot
    rw [readParams_of_not_continues hnot] at hr
    cases hr
  refine ⟨hcontinues, ?_, ?_⟩
  · intro pos hcomes hmalformed
    have hreported := hfalse ⟨pos, hcomes, hmalformed⟩
    obtain ⟨hpos, start, hstart, _⟩ := hcomes
    have htrue := (readParams_eq_ok (by omega) hcontinues hstart _ _).2 fuel r hr
    rw [hreported] at htrue
    cases htrue
  · intro pos hcomes
    obtain ⟨hpos, start, hstart, hreached⟩ := hcomes
    have hends := (readParams_eq_ok (by omega) hcontinues hstart _ _).1.mpr ⟨fuel, r, hr⟩
    have hle := hstart.le_length
    exact (ends_iff hlen (by omega) _).mp hends pos hreached hpos

/-- What has all it needs is read. -/
theorem readsText_of_readable {str : Text} (h : Readable lib str.val) : ReadsText lib str := by
  have hlen := str.property.2
  intro header params
  by_cases hparams : ∃ start, ParamsAt str.val start
  · obtain ⟨start, hstart⟩ := hparams
    have hle := hstart.le_length
    obtain ⟨_, hnav, _⟩ := hstart.header
    have hlt := h.continues _ hnav
    have hends : Ends lib str.val start params := by
      apply (ends_iff hlen (by omega) params).mpr
      intro pos hreached hpos
      exact h.readable pos ⟨hpos, start, hstart, hreached⟩
    obtain ⟨fuel, r, hr⟩ :=
      (readParams_eq_ok (by omega) h.continues hstart header params).1.mp hends
    refine ⟨fuel, r, hr, ?_⟩
    rintro ⟨pos, hcomes, hmalformed⟩
    exact (h.wellFormed pos hcomes hmalformed).elim
  · have hnone : ∀ start, ¬ParamsAt str.val start := not_exists.mp hparams
    obtain ⟨header', hr⟩ := readParams_of_rejected lib h.continues hnone 0 header params
    exact ⟨0, _, hr, fun _ => rfl⟩

/-- **A text is read exactly if** there is something behind its `NavRequest`, and every param that
the loop comes to is a number and a `:`, has its digits in pairs, and takes the cursor past its
`:`. -/
theorem readsText_iff (lib : Scanf) (str : Text) : ReadsText lib str ↔ Readable lib str.val := by
  constructor
  · intro h
    exact readable_of_readsText h
  · intro h
    exact readsText_of_readable h

/-- A request with one param, whose id is not a number. -/
def malformedText : Text :=
  ⟨chars "NavRequest " ++ chars "protoVer 0xc " ++ chars "type 0x46 " ++ chars "reqID 0x0 " ++
    chars "reqVer 0x1 " ++ chars "NParamBlock " ++ chars "1 params " ++ chars "x:1", by decide⟩

/-- Its header is accepted. -/
theorem paramsAt_malformedText : ParamsAt malformedText.val 67 where
  header := ⟨0, by decide +kernel, 12, 70, 0, 1, chars "1", by decide +kernel⟩
  block := ⟨55, by decide +kernel, rfl⟩
  params := ⟨1, chars "x:1", by decide +kernel⟩

/-- **A malformed param is not reported**: the loop goes on for ever. -/
theorem not_forall_readsText : ¬∀ (lib : Scanf) (str : Text), ReadsText lib str := by
  intro h
  obtain ⟨fuel, r, hr, _⟩ := h Scanf.truncating malformedText ⟨0, 0, 0, 0⟩ NParamBlock.empty
  have hcontinues : Continues malformedText.val := by
    intro startChar hstart
    have hzero : indexOfWord (chars "NavRequest") malformedText.val = some 0 := by decide +kernel
    obtain rfl := Option.some.inj (hzero.symm.trans hstart)
    decide
  have hends := (readParams_eq_ok (by decide) hcontinues paramsAt_malformedText _ _).1.mpr
    ⟨fuel, r, hr⟩
  obtain ⟨c, s, x, _, hmeets, _, _⟩ := meets_of_ends malformedText.property.2 (by decide) hends
  have hcolon : indexFrom malformedText.val 58 67 = some 77 := by decide +kernel
  obtain rfl := Option.some.inj (hcolon.symm.trans hmeets.colon)
  have hword : wordStart malformedText.val 77 = some 76 := by decide +kernel
  obtain rfl := Option.some.inj (hword.symm.trans hmeets.word)
  have hscan : NParam.scanParam Scanf.truncating (paramText malformedText.val 77 76) = none := by
    decide +kernel
  have hscanned := hmeets.scanned
  rw [hscan] at hscanned
  cases hscanned

/-- What `dump` writes of five params is read. -/
example : (readParams Scanf.truncating 6 (chars "NavRequest " ++ chars "protoVer 0xc " ++
    chars "type 0x46 " ++ chars "reqID 0x0 " ++ chars "reqVer 0x1 " ++ chars "NParamBlock " ++
    chars "5 params " ++ chars "3:004400471620441 " ++ chars "4:wf6-s-60-v2-br. " ++
    chars "5:none. " ++ chars "6:0x0001 " ++ chars "28:NoCRC!.")
      ⟨0, 0, 0, 0⟩ NParamBlock.empty).toOption.map (fun r => (r.1, r.2.1)) =
        some (true, ⟨0xc, 0x46, 0, 1⟩) := by
  decide +kernel

end CppCore.Ngp.NParamBlock
