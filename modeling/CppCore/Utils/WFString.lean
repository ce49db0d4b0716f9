import CppCore.Lib.Objects
import CppCore.Lib.Run

/-!
# Strings of the API

A `WFString` is a copy of a C string.  The empty string is a static one, `c_emptyString`, which is
never deleted; every other has an array of its own.  Strings are copied, assigned and cleared; what
they are constructed from or assigned may be an array of the rest of the program, the client, a
`std::string`, or a piece of what `c_str` of another one returns.

To a user a string is what it reads, up to the first NUL: `m_len` is its length, no array is deleted
twice, used after it was deleted, or lost.  There is one exception: a string that is assigned from
its own `c_str` reads what it has just deleted, unless it is empty.

## Main definitions

* `WFString`, `WFString.init` — a string with its pointer.
* `WFStrings.World`, `WFStrings.Action`, `WFStrings.World.step` — any number of strings, and the
  client.
* `WFStrings.Strings`, `WFStrings.Strings.step` — the same, for strings that are values.
* `WFStrings.World.Allowed` — what the language, the allocator and the client see to.
* `WFStrings.World.ReadsItself` — the exception.
* `WFStrings.strings_of_run`, `WFStrings.compare_of_run` — what a user sees, in every run.
-/

namespace CppCore.Utils

open Lib Function

/-- A `const char*`. -/
inductive CharPtr
  | null
  /-- To a text that is in no array. -/
  | static (text : List UInt8)
  /-- To a position of an array. -/
  | array (a offset : ℕ)
  deriving DecidableEq, Repr

namespace CharPtr

/-- What is there to be read. -/
def memory (heap : Heap UInt8) : CharPtr → Exec (List UInt8)
  | null => .error .nullPointer
  | static text => .ok text
  | array a offset =>
    match heap a with
    | some cells => .ok (cells.drop offset)
    | none => .error .outOfBounds

/-- `str + n`. -/
def add (n : ℕ) : CharPtr → CharPtr
  | null => null
  | static text => static (text.drop n)
  | array a offset => array a (offset + n)

@[simp] theorem add_zero (p : CharPtr) : p.add 0 = p := by
  cases p <;> rfl

end CharPtr

/-- `strcmp`. -/
def strcmp : List UInt8 → List UInt8 → Exec ℤ
  | a :: s, b :: t =>
    if a = b then
      if a = 0 then .ok 0 else strcmp s t
    else
      .ok (a.toNat - b.toNat)
  | _, _ => .error .outOfBounds

/-- **`strcmp` compares** two strings, whatever follows them. -/
theorem strcmp_append {s : List UInt8} (hs : (0 : UInt8) ∉ s) {t : List UInt8}
    (ht : (0 : UInt8) ∉ t) (rest rest' : List UInt8) :
    ∃ r, strcmp (s ++ 0 :: rest) (t ++ 0 :: rest') = .ok r ∧ (r < 0 ↔ s < t) ∧ (0 < r ↔ t < s) ∧
      (r = 0 ↔ s = t) := by
  induction s generalizing t with
  | nil =>
    cases t with
    | nil => exact ⟨0, by simp [strcmp], by simp, by simp, by simp⟩
    | cons b t =>
      have hb : b ≠ 0 := fun h => ht (h ▸ List.mem_cons_self)
      have hpos : 0 < b.toNat := by
        rw [Nat.pos_iff_ne_zero]
        exact fun h => hb (UInt8.toNat_inj.mp h)
      refine ⟨(0 : UInt8).toNat - b.toNat, by simp [strcmp, hb.symm], ?_, ?_, ?_⟩
      · simp [hpos]
      · simp
      · simp [hpos.ne']
  | cons a s ih =>
    have ha : a ≠ 0 := fun h => hs (h ▸ List.mem_cons_self)
    have hpos : 0 < a.toNat := by
      rw [Nat.pos_iff_ne_zero]
      exact fun h => ha (UInt8.toNat_inj.mp h)
    cases t with
    | nil =>
      refine ⟨a.toNat - (0 : UInt8).toNat, by simp [strcmp, ha], ?_, ?_, ?_⟩
      · simp
      · simp [hpos]
      · simp [hpos.ne']
    | cons b t =>
      by_cases hab : a = b
      · subst hab
        obtain ⟨r, hr, hlt, hgt, heq⟩ := ih (fun h => hs (List.mem_cons_of_mem a h))
          (t := t) fun h => ht (List.mem_cons_of_mem a h)
        refine ⟨r, by simpa [strcmp, ha] using hr, ?_, ?_, ?_⟩
        · simpa [List.cons_lt_cons_iff] using hlt
        · simpa [List.cons_lt_cons_iff] using hgt
        · simpa using heq
      · have hne : a.toNat ≠ b.toNat := fun h => hab (UInt8.toNat_inj.mp h)
        refine ⟨a.toNat - b.toNat, by simp [strcmp, hab], ?_, ?_, ?_⟩
        · rw [List.cons_lt_cons_iff, UInt8.lt_iff_toNat_lt]
          simp only [hab, false_and, or_false]
          omega
        · rw [List.cons_lt_cons_iff, UInt8.lt_iff_toNat_lt]
          simp only [Ne.symm hab, false_and, or_false]
          omega
        · simp only [List.cons.injEq, hab, false_and, iff_false]
          omega

/-- A `WFString`; a null `m_str` stands for `c_emptyString`. -/
structure WFString where
  m_str : Option ℕ
  m_len : ℕ
  deriving DecidableEq, Repr

namespace WFString

/-- `WFString::WFString()`. -/
def construct : WFString := ⟨none, 0⟩

/-- `WFString::c_str`. -/
def c_str (o : WFString) : CharPtr :=
  match o.m_str with
  | none => .static [0]
  | some a => .array a 0

/-- What both `init` functions do with a text and its length, if `new` returns `a`. -/
def initWith (heap : Heap UInt8) (text : List UInt8) (len : Exec ℕ) (a : ℕ) :
    Exec (Heap UInt8 × WFString) := do
  let c ← byteAt text 0
  if c ≠ 0 then do
    let m_len := add32 (← len) 1
    let cells ← slice text 0 m_len
    .ok (update heap a (some cells), ⟨some a, sub32 m_len 1⟩)
  else
    .ok (heap, ⟨none, 0⟩)

/-- `WFString::init( str )`. -/
def init (heap : Heap UInt8) (str : CharPtr) (a : ℕ) : Exec (Heap UInt8 × WFString) :=
  match str with
  | .null => .ok (heap, ⟨none, 0⟩)
  | str => do
    let text ← str.memory heap
    initWith heap text (strlen text) a

/-- `WFString::init( other )`. -/
def initCopy (heap : Heap UInt8) (other : WFString) (a : ℕ) : Exec (Heap UInt8 × WFString) := do
  let text ← other.c_str.memory heap
  initWith heap text (.ok other.m_len) a

/-- `if ( m_str != c_emptyString ) delete [] m_str`. -/
def deleteStr (o : WFString) (heap : Heap UInt8) : Exec (Heap UInt8) := heap.delete o.m_str

/-- `WFString::length`. -/
def length (o : WFString) : ℕ := o.m_len

/-- `WFString::empty`. -/
def isEmpty (o : WFString) : Bool := o.m_len = 0

/-- `WFString::operator[]`. -/
def charAt (o : WFString) (heap : Heap UInt8) (i : ℤ) : Exec UInt8 := do
  let text ← o.c_str.memory heap
  if 0 ≤ i then byteAt text i.toNat else .error .outOfBounds

/-- The `strcmp` of the comparison operators. -/
def compare (o : WFString) (heap : Heap UInt8) (str : CharPtr) : Exec ℤ := do
  let s ← o.c_str.memory heap
  let t ← str.memory heap
  strcmp s t

/-- `WFString::operator<`. -/
def less (o : WFString) (heap : Heap UInt8) (str : CharPtr) : Exec Bool := do
  let r ← o.compare heap str
  .ok (r < 0)

/-- `WFString::operator>`. -/
def greater (o : WFString) (heap : Heap UInt8) (str : CharPtr) : Exec Bool := do
  let r ← o.compare heap str
  .ok (r > 0)

/-- `WFString::operator==`. -/
def equal (o : WFString) (heap : Heap UInt8) (str : CharPtr) : Exec Bool := do
  let r ← o.compare heap str
  .ok (r = 0)

/-- `WFString::operator!=`. -/
def notEqual (o : WFString) (heap : Heap UInt8) (str : CharPtr) : Exec Bool := do
  let r ← o.equal heap str
  .ok (!r)

end WFString

namespace WFStrings

/-! ## Any number of them -/

/-- The array of a string and its length. -/
structure Text where
  m_str : Option (List UInt8)
  m_len : ℕ
  deriving DecidableEq, Repr

/-- What there is to know about the pointer of a string. -/
def type : ObjectType UInt8 WFString Text where
  refers := WFString.m_str
  owns := WFString.m_str
  value o heap := ⟨o.m_str.bind heap, o.m_len⟩
  refers_of_owns _ _ h := h
  value_congr o heap heap' h := by
    cases hstr : o.m_str with
    | none => simp
    | some a => simp [h a hstr]

/-- The strings of a program, and the arrays of the client. -/
abbrev World (ι : Type) := Lib.World UInt8 WFString ι

/-- What strings are constructed from and assigned. -/
inductive Source (ι : Type)
  | null
  | client (a offset : ℕ)
  /-- What `c_str` of a `std::string` returns. -/
  | std (other : List UInt8)
  /-- What `c_str` of a string returns, or some characters behind it. -/
  | c_str (j : ι) (offset : ℕ)
  deriving DecidableEq, Repr

/-- What a program does with strings; `a` is what `new` returns. -/
inductive Action (ι : Type)
  | construct (i : ι)
  | constructFrom (i : ι) (str : Source ι) (a : ℕ)
  | copy (i other : ι) (a : ℕ)
  | assign (i : ι) (str : Source ι) (a : ℕ)
  | assignCopy (i other : ι) (a : ℕ)
  | clear (i : ι)
  | destroy (i : ι)
  | allocate (a : ℕ) (cells : List UInt8)
  | delete (a : ℕ)
  deriving DecidableEq, Repr

namespace World

variable {ι : Type}

/-- The pointer. -/
def charPtr (w : World ι) : Source ι → Exec CharPtr
  | .null => .ok .null
  | .client a offset => .ok (.array a offset)
  | .std other => .ok (.static (other ++ [0]))
  | .c_str j offset => do
    let o ← deref (w.objects j)
    .ok (o.c_str.add offset)

variable [DecidableEq ι]

/-- What an action does. -/
def step (w : World ι) : Action ι → Exec (World ι)
  | .construct i => .ok { w with objects := update w.objects i (some WFString.construct) }
  | .constructFrom i str a => do
    let str ← w.charPtr str
    let (heap, o) ← WFString.init w.heap str a
    .ok { w with heap, objects := update w.objects i (some o) }
  | .copy i other a => do
    let other ← deref (w.objects other)
    let (heap, o) ← WFString.initCopy w.heap other a
    .ok { w with heap, objects := update w.objects i (some o) }
  | .assign i str a => do
    let str ← w.charPtr str
    let o ← deref (w.objects i)
    let heap ← o.deleteStr w.heap
    let (heap, o) ← WFString.init heap str a
    .ok { w with heap, objects := update w.objects i (some o) }
  | .assignCopy i j a => do
    let other ← deref (w.objects j)
    let o ← deref (w.objects i)
    if j ≠ i then do
      let heap ← o.deleteStr w.heap
      let (heap, o) ← WFString.initCopy heap other a
      .ok { w with heap, objects := update w.objects i (some o) }
    else
      .ok w
  | .clear i => do
    let o ← deref (w.objects i)
    let heap ← o.deleteStr w.heap
    .ok { w with heap, objects := update w.objects i (some ⟨none, 0⟩) }
  | .destroy i => do
    let o ← deref (w.objects i)
    let heap ← o.deleteStr w.heap
    .ok { w with heap, objects := update w.objects i none }
  | .allocate a cells =>
    .ok { w with heap := update w.heap a (some cells), client := insert a w.client }
  | .delete a => do
    let heap ← w.heap.delete (some a)
    .ok { w with heap, client := w.client.erase a }

/-- A source that is there: an array of the client, or a string. -/
def Readable (w : World ι) : Source ι → Prop
  | .null | .std _ => True
  | .client a _ => a ∈ w.client
  | .c_str j _ => (w.objects j).isSome

/-- An address where nothing is once a string has deleted its array. -/
def Free (w : World ι) (i : ι) (a : ℕ) : Prop :=
  w.heap a = none ∨ ∃ o ∈ w.objects i, o.m_str = some a

/-- What the language, the allocator and the client see to: that strings are constructed once and
used while they exist, as are the arrays of the client, and that `new` returns what is free. -/
def Allowed (w : World ι) : Action ι → Prop
  | .construct i => w.objects i = none
  | .constructFrom i str a => w.objects i = none ∧ w.Readable str ∧ w.heap a = none
  | .copy i other a => w.objects i = none ∧ (w.objects other).isSome ∧ w.heap a = none
  | .assign i str a => (w.objects i).isSome ∧ w.Readable str ∧ w.Free i a
  | .assignCopy i other a => (w.objects i).isSome ∧ (w.objects other).isSome ∧ w.Free i a
  | .clear i | .destroy i => (w.objects i).isSome
  | .allocate a _ => w.heap a = none
  | .delete a => a ∈ w.client

instance (w : World ι) : ∀ str, Decidable (w.Readable str)
  | .null | .std _ => isTrue trivial
  | .client a _ => inferInstanceAs (Decidable (a ∈ w.client))
  | .c_str j _ => inferInstanceAs (Decidable ((w.objects j).isSome))

instance (w : World ι) (i : ι) (a : ℕ) : Decidable (w.Free i a) :=
  inferInstanceAs (Decidable (w.heap a = none ∨ ∃ o ∈ w.objects i, o.m_str = some a))

instance (w : World ι) : ∀ act, Decidable (w.Allowed act)
  | .construct i => inferInstanceAs (Decidable (w.objects i = none))
  | .constructFrom i str a =>
    inferInstanceAs (Decidable (w.objects i = none ∧ w.Readable str ∧ w.heap a = none))
  | .copy i other a =>
    inferInstanceAs (Decidable (w.objects i = none ∧ (w.objects other).isSome ∧ w.heap a = none))
  | .assign i str a =>
    inferInstanceAs (Decidable ((w.objects i).isSome ∧ w.Readable str ∧ w.Free i a))
  | .assignCopy i other a =>
    inferInstanceAs (Decidable ((w.objects i).isSome ∧ (w.objects other).isSome ∧ w.Free i a))
  | .clear i | .destroy i => inferInstanceAs (Decidable ((w.objects i).isSome))
  | .allocate a _ => inferInstanceAs (Decidable (w.heap a = none))
  | .delete a => inferInstanceAs (Decidable (a ∈ w.client))

/-- A string that is not empty is assigned from its own `c_str`. -/
def ReadsItself (w : World ι) : Action ι → Prop
  | .assign i (.c_str j _) _ => i = j ∧ ∃ o ∈ w.objects i, o.m_str ≠ none
  | _ => False

end World

/-! ## Strings that are values -/

/-- The strings of a program as values, and the arrays of the client. -/
abbrev Strings (ι : Type) := Lib.Values UInt8 CString ι

namespace Strings

variable {ι : Type}

/-- What is read at a source. -/
def text (v : Strings ι) : Source ι → Exec CString
  | .null => .ok .empty
  | .client a offset =>
    match v.blocks a with
    | some cells => cstring (cells.drop offset)
    | none => .error .outOfBounds
  | .std other => cstring (other ++ [0])
  | .c_str j offset => do
    let s ← deref (v.objects j)
    cstring (s.bytes.drop offset)

variable [DecidableEq ι]

/-- What an action does to values: what `new` returns does not matter. -/
def step (v : Strings ι) : Action ι → Exec (Strings ι)
  | .construct i => .ok { v with objects := update v.objects i (some .empty) }
  | .constructFrom i str _ | .assign i str _ => do
    let s ← v.text str
    .ok { v with objects := update v.objects i (some s) }
  | .copy i other _ | .assignCopy i other _ => do
    let s ← deref (v.objects other)
    .ok { v with objects := update v.objects i (some s) }
  | .clear i => .ok { v with objects := update v.objects i (some .empty) }
  | .destroy i => .ok { v with objects := update v.objects i none }
  | .allocate a cells => .ok { v with blocks := update v.blocks a (some cells) }
  | .delete a => .ok { v with blocks := update v.blocks a none }

end Strings

/-! ## One string -/

/-- How a string is stored. -/
def Text.of (s : CString) : Text := if s.val = [] then ⟨none, 0⟩ else ⟨some s.bytes, s.val.length⟩

/-- The string that is stored. -/
def Text.string (t : Text) : CString := (cstring (t.m_str.getD [0])).toOption.getD .empty

theorem cstring_bytes (s : CString) : cstring s.bytes = .ok s := by
  simpa using cstring_bytes_append s []

theorem eq_empty_of_nil {s : CString} (h : s.val = []) : s = .empty := Subtype.ext h

@[simp] theorem Text.string_of (s : CString) : (Text.of s).string = s := by
  rw [of]
  split
  · next hnil =>
    obtain rfl := eq_empty_of_nil hnil
    rfl
  · rw [string, Option.getD_some, cstring_bytes]
    rfl

/-- What a new string is stored as, if `new` returns `a`. -/
def place (heap : Heap UInt8) (a : ℕ) (s : CString) : Heap UInt8 × WFString :=
  if s.val = [] then (heap, ⟨none, 0⟩)
  else (update heap a (some s.bytes), ⟨some a, s.val.length⟩)

/-- **The text in front of the NUL** is copied, with its length. -/
theorem initWith_of_cstring {heap : Heap UInt8} {a : ℕ} {text : List UInt8} {s : CString}
    (h : cstring text = .ok s) :
    WFString.initWith heap text (.ok s.val.length) a = .ok (place heap a s) := by
  obtain ⟨rest, rfl⟩ := cstring_eq_ok.mp h
  have hlen : s.val.length + 1 < 2 ^ 32 := by
    have hmax : s.val.length < 2 ^ 31 - 1 := s.property.2
    omega
  by_cases hnil : s.val = []
  · obtain rfl := eq_empty_of_nil hnil
    simp [WFString.initWith, place, CString.empty, CString.bytes, byteAt]
  · obtain ⟨c, tail, hs⟩ := List.exists_cons_of_ne_nil hnil
    have hc : c ≠ 0 := by
      rintro rfl
      exact s.property.1 (hs ▸ List.mem_cons_self)
    have hfirst : byteAt (s.bytes ++ rest) 0 = .ok c := by
      rw [byteAt_eq_ok, CString.bytes, hs]
      rfl
    have hslice : slice (s.bytes ++ rest) 0 (s.val.length + 1) = .ok s.bytes := by
      rw [slice_eq_ok]
      refine ⟨by simp, ?_⟩
      rw [List.drop_zero, List.take_left' s.length_bytes]
    rw [WFString.initWith, hfirst]
    simp only [Exec.ok_bind, if_pos hc, add32_of_lt hlen, hslice,
      sub32_of_le (Nat.le_add_left 1 _) hlen, Nat.add_sub_cancel, place, if_neg hnil]

/-- Without a NUL there is nothing to copy. -/
theorem initWith_of_error {heap : Heap UInt8} {a : ℕ} {text : List UInt8} {f : Fault}
    (h : cstring text = .error f) : WFString.initWith heap text (strlen text) a = .error f := by
  rw [WFString.initWith]
  cases text with
  | nil =>
    obtain rfl := Except.error.inj h
    rfl
  | cons c text =>
    have hc : c ≠ 0 := by
      rintro rfl
      have hempty : cstring (0 :: text) = .ok .empty :=
        cstring_eq_ok.mpr ⟨text, rfl⟩
      cases hempty.symm.trans h
    simp [byteAt, hc, strlen, h]

/-- **`init`** reads a string. -/
theorem init_eq {heap : Heap UInt8} {a : ℕ} {str : CharPtr} {text : List UInt8}
    (h : str.memory heap = .ok text) :
    WFString.init heap str a = (cstring text).map (place heap a) := by
  have hinit : WFString.init heap str a = WFString.initWith heap text (strlen text) a := by
    cases str with
    | null => cases h
    | static | array => simp only [WFString.init, h, Exec.ok_bind]
  rw [hinit]
  cases hs : cstring text with
  | error f => exact initWith_of_error hs
  | ok s =>
    rw [strlen, hs, Exec.ok_bind]
    exact initWith_of_cstring hs

variable {o : WFString} {heap : Heap UInt8} {s : CString}

/-- **`c_str`** is what is stored. -/
theorem memory_c_str (hlive : ∀ a, o.m_str = some a → (heap a).isSome)
    (h : type.value o heap = Text.of s) (n : ℕ) :
    (o.c_str.add n).memory heap = .ok (s.bytes.drop n) := by
  have hvalue : o.m_str.bind heap = (Text.of s).m_str := congrArg Text.m_str h
  rw [Text.of] at hvalue
  cases hstr : o.m_str with
  | none =>
    have hnil : s.val = [] := by
      by_contra hne
      rw [if_neg hne, hstr] at hvalue
      cases hvalue
    obtain rfl := eq_empty_of_nil hnil
    simp [WFString.c_str, hstr, CharPtr.add, CharPtr.memory]
  | some a =>
    obtain ⟨cells, hcells⟩ := Option.isSome_iff_exists.mp (hlive a hstr)
    rw [hstr, Option.bind_some, hcells] at hvalue
    have hbytes : cells = s.bytes := by
      split at hvalue
      · cases hvalue
      · exact Option.some.inj hvalue
    simp [WFString.c_str, hstr, CharPtr.add, CharPtr.memory, hcells, hbytes]

/-- The length is the one of the string. -/
theorem m_len_eq (h : type.value o heap = Text.of s) : o.m_len = s.val.length := by
  have hlen : o.m_len = (Text.of s).m_len := congrArg Text.m_len h
  rw [hlen, Text.of]
  split
  · next hnil => rw [hnil, List.length_nil]
  · rfl

/-- **The copy of a string** is the string. -/
theorem initCopy_eq (hlive : ∀ a, o.m_str = some a → (heap a).isSome)
    (h : type.value o heap = Text.of s) (a : ℕ) :
    WFString.initCopy heap o a = .ok (place heap a s) := by
  have hmemory := memory_c_str hlive h 0
  rw [CharPtr.add_zero, List.drop_zero] at hmemory
  rw [WFString.initCopy, hmemory, Exec.ok_bind, m_len_eq h]
  exact initWith_of_cstring (cstring_bytes s)

/-! ## Every action -/

namespace World

open Lib.World (Changes owns_eq owns_eq_none values_blocks)

variable {ι : Type} {w : World ι} {i j : ι} {a : ℕ}

/-- The pointers of the strings are sound. -/
abbrev Sound (w : World ι) : Prop := Lib.World.Sound type w

/-- The arrays and lengths of the strings, and what is in the arrays of the client. -/
abbrev values (w : World ι) : Lib.Values UInt8 Text ι := Lib.World.values type w

/-- The strings, and what is in the arrays of the client. -/
def strings (w : World ι) : Strings ι where
  objects i := ((values w).objects i).map Text.string
  blocks := (values w).blocks

/-- **The invariant**: the pointers are sound, and every string is stored as it should be. -/
structure Inv (w : World ι) : Prop where
  sound : Sound w
  formed : ∀ i t, (values w).objects i = some t → ∃ s, t = Text.of s

theorem owns_eq_m_str (hi : w.objects i = some o) :
    Lib.World.owns type w.objects i = o.m_str := owns_eq hi

theorem Inv.string (h : Inv w) (hi : w.objects i = some o) :
    ∃ s, type.value o w.heap = Text.of s ∧ (strings w).objects i = some s := by
  have hvalue := Lib.World.values_of_object (T := type) hi
  obtain ⟨s, hs⟩ := h.formed i _ hvalue
  exact ⟨s, hs, by simp [strings, hvalue, hs]⟩

/-- **What a source reads** is a string, if its array is still there. -/
theorem Inv.memory_charPtr (h : Inv w) {str : Source ι} (hstr : w.Readable str)
    (hnull : str ≠ .null) {m : Heap UInt8} (hclient : ∀ a ∈ w.client, m a = w.heap a)
    (hkept : ∀ j n, str = .c_str j n → ∀ o, w.objects j = some o → ∀ a, o.m_str = some a →
      m a = w.heap a) :
    ∃ p text, w.charPtr str = .ok p ∧ p.memory m = .ok text ∧
      (strings w).text str = cstring text := by
  cases str with
  | null => exact absurd rfl hnull
  | client a n =>
    obtain ⟨cells, hcells⟩ := Option.isSome_iff_exists.mp (h.sound.owned.held a hstr)
    refine ⟨.array a n, cells.drop n, rfl, ?_, ?_⟩
    · simp [CharPtr.memory, hclient a hstr, hcells]
    · simp [Strings.text, strings, Lib.World.values, show a ∈ w.client from hstr, hcells]
  | std other => exact ⟨.static (other ++ [0]), other ++ [0], rfl, rfl, rfl⟩
  | c_str j n =>
    obtain ⟨o, hj⟩ := Option.isSome_iff_exists.mp hstr
    obtain ⟨s, hs, hstring⟩ := h.string hj
    have hsame := hkept j n rfl o hj
    have hlive : ∀ a, o.m_str = some a → (m a).isSome := by
      intro a ha
      rw [hsame a ha]
      exact h.sound.live hj ha
    have hvalue := (type.value_congr o w.heap m hsame).trans hs
    refine ⟨o.c_str.add n, s.bytes.drop n, ?_, memory_c_str hlive hvalue n, ?_⟩
    · simp [charPtr, hj, deref]
    · simp [Strings.text, hstring, deref]

/-- So a string is constructed from it. -/
theorem Inv.init_charPtr (h : Inv w) {str : Source ι} (hstr : w.Readable str) {m : Heap UInt8}
    (hclient : ∀ a ∈ w.client, m a = w.heap a)
    (hkept : ∀ j n, str = .c_str j n → ∀ o, w.objects j = some o → ∀ a, o.m_str = some a →
      m a = w.heap a) :
    ∃ p, w.charPtr str = .ok p ∧
      ∀ a, WFString.init m p a = ((strings w).text str).map (place m a) := by
  by_cases hnull : str = .null
  · subst hnull
    exact ⟨.null, rfl, fun a => rfl⟩
  · obtain ⟨p, text, hp, hmemory, htext⟩ := h.memory_charPtr hstr hnull hclient hkept
    exact ⟨p, hp, fun a => htext ▸ init_eq hmemory⟩

/-- **A comparison** is one of the strings. -/
theorem Inv.compare (h : Inv w) (hi : w.objects i = some o) {s t : CString}
    (hs : (strings w).objects i = some s) {str : Source ι} (hstr : w.Readable str)
    (hnull : str ≠ .null) (ht : (strings w).text str = .ok t) {p : CharPtr}
    (hp : w.charPtr str = .ok p) :
    ∃ r, o.compare w.heap p = .ok r ∧ (r < 0 ↔ s.val < t.val) ∧ (0 < r ↔ t.val < s.val) ∧
      (r = 0 ↔ s = t) := by
  obtain ⟨s', hvalue, hs'⟩ := h.string hi
  obtain rfl := Option.some.inj (hs.symm.trans hs')
  have hleft := memory_c_str (fun _ => h.sound.live hi) hvalue 0
  rw [CharPtr.add_zero, List.drop_zero] at hleft
  obtain ⟨p', text, hp', hright, htext⟩ := h.memory_charPtr hstr hnull (m := w.heap)
    (fun _ _ => rfl) fun _ _ _ _ _ _ _ => rfl
  obtain rfl := Except.ok.inj (hp.symm.trans hp')
  obtain ⟨rest, rfl⟩ := cstring_eq_ok.mp (htext.symm.trans ht)
  obtain ⟨r, hr, hlt, hgt, heq⟩ := strcmp_append s.property.1 t.property.1 [] rest
  refine ⟨r, ?_, hlt, hgt, heq.trans Subtype.ext_iff.symm⟩
  rw [WFString.compare, hleft, Exec.ok_bind, hright, Exec.ok_bind]
  simpa [CString.bytes] using hr

variable [DecidableEq ι]

/-- A step of the world is one of the strings, and keeps the invariant. -/
def Refines (w : World ι) (act : Action ι) : Prop :=
  (step w act).map strings = Strings.step (strings w) act ∧ ∀ w', step w act = .ok w' → Inv w'

/-- Both are a fault. -/
theorem refines_of_error {f : Fault} {act : Action ι} (hstep : step w act = .error f)
    (hstrings : Strings.step (strings w) act = .error f) : Refines w act := by
  rw [Refines, hstep, hstrings]
  exact ⟨rfl, by simp⟩

/-- Both have a value. -/
theorem refines_of_ok {w' : World ι} {v : Strings ι} {act : Action ι} (hstep : step w act = .ok w')
    (hstrings : Strings.step (strings w) act = .ok v) (hinv : Inv w') (heq : strings w' = v) :
    Refines w act := by
  rw [Refines, hstep, hstrings]
  refine ⟨congrArg Except.ok heq, fun w'' h => ?_⟩
  obtain rfl := Except.ok.inj h
  exact hinv

/-- **A change of one string** is one of what it reads. -/
theorem refines_of_changes (h : Inv w) {w' : World ι} {o : Option WFString} {s : Option CString}
    {act : Action ι} (hstep : step w act = .ok w')
    (hstrings : Strings.step (strings w) act = .ok { strings w with
      objects := update (strings w).objects i s }) (hchanges : Changes type w w' i o)
    (hvalue : (o.map fun o => type.value o w'.heap) = s.map Text.of)
    (hblocks : (values w').blocks = (values w).blocks) : Refines w act := by
  have hobjects : (Lib.World.values type w').objects =
      update (Lib.World.values type w).objects i (s.map Text.of) :=
    congrArg Lib.Values.objects (hchanges.values_eq hvalue hblocks)
  refine refines_of_ok hstep hstrings ⟨hchanges.sound, ?_⟩ ?_
  · intro j t hj
    change (Lib.World.values type w').objects j = some t at hj
    rw [hobjects] at hj
    rcases eq_or_ne j i with rfl | hne
    · rw [update_self] at hj
      obtain ⟨s, -, rfl⟩ := Option.map_eq_some_iff.mp hj
      exact ⟨s, rfl⟩
    · rw [update_of_ne hne] at hj
      exact h.formed j t hj
  · refine Lib.Values.ext (funext fun j => ?_) hblocks
    change Option.map Text.string ((Lib.World.values type w').objects j) = _
    rw [hobjects]
    rcases eq_or_ne j i with rfl | hne
    · cases s <;> simp
    · simp only [update_of_ne hne]
      rfl

/-- **A string is stored**, after the old one was deleted. -/
theorem refines_of_place (h : Inv w) {p : Option ℕ} {heap : Heap UInt8} {s : CString}
    {act : Action ι} (hi : Lib.World.owns type w.objects i = p)
    (hheap : Heap.delete w.heap p = .ok heap) (ha : heap a = none)
    (hstep : step w act = .ok { w with
      heap := (place heap a s).1, objects := update w.objects i (some (place heap a s).2) })
    (hstrings : Strings.step (strings w) act = .ok { strings w with
      objects := update (strings w).objects i (some s) }) : Refines w act := by
  by_cases hnil : s.val = []
  · rw [place, if_pos hnil] at hstep
    obtain ⟨heap', hheap', -, -, hclient, -⟩ := h.sound.delete hi
    obtain rfl := Except.ok.inj (hheap.symm.trans hheap')
    refine refines_of_changes h hstep hstrings (h.sound.changes_of_delete hi hheap ?_) ?_
      (values_blocks rfl hclient)
    · rintro _ ⟨⟩
      rfl
    · simp [type, Text.of, hnil]
  · rw [place, if_neg hnil] at hstep
    obtain ⟨hchanges, hclient⟩ := h.sound.replace (T := type) hi hheap ha
      (o := ⟨some a, s.val.length⟩) s.bytes rfl fun b hb => (Option.some.inj hb).symm
    refine refines_of_changes h hstep hstrings hchanges ?_ (values_blocks rfl hclient)
    simp [type, Text.of, hnil]

theorem refines_construct (h : Inv w) (hi : w.objects i = none) : Refines w (.construct i) := by
  refine refines_of_changes (o := some WFString.construct) (s := some .empty) h rfl rfl
    (h.sound.changes_of_delete (owns_eq_none hi) rfl ?_) rfl rfl
  rintro _ ⟨⟩
  rfl

theorem refines_constructFrom (h : Inv w) {str : Source ι} (hi : w.objects i = none)
    (hstr : w.Readable str) (ha : w.heap a = none) : Refines w (.constructFrom i str a) := by
  obtain ⟨p, hp, hinit⟩ := h.init_charPtr hstr (m := w.heap) (fun _ _ => rfl)
    fun _ _ _ _ _ _ _ => rfl
  cases htext : (strings w).text str with
  | error f =>
    refine refines_of_error (f := f) ?_ ?_
    · simp [step, hp, hinit, htext, Except.map]
    · simp [Strings.step, htext]
  | ok s =>
    refine refines_of_place h (owns_eq_none hi) rfl ha (s := s) ?_ ?_
    · simp [step, hp, hinit, htext, Except.map]
    · simp [Strings.step, htext]

theorem refines_copy (h : Inv w) (hi : w.objects i = none) (hj : w.objects j = some o)
    (ha : w.heap a = none) : Refines w (.copy i j a) := by
  obtain ⟨s, hs, hstring⟩ := h.string hj
  refine refines_of_place h (owns_eq_none hi) rfl ha (s := s) ?_ ?_
  · simp [step, hj, deref, initCopy_eq (fun a => h.sound.live hj) hs a]
  · simp [Strings.step, hstring, deref]

/-- What is free after a deletion. -/
theorem Inv.free (h : Inv w) (hi : w.objects i = some o) (ha : w.Free i a) {heap : Heap UInt8}
    (hheap : Heap.delete w.heap o.m_str = .ok heap) : heap a = none := by
  rcases ha with ha | ⟨o', ho', ha⟩
  · obtain ⟨heap', hheap', -, -, -, hfree⟩ := h.sound.delete (owns_eq_m_str hi)
    obtain rfl := Except.ok.inj (hheap.symm.trans hheap')
    exact hfree a ha
  · obtain rfl := Option.some.inj (hi.symm.trans ho')
    rw [ha] at hheap
    exact Heap.eq_none_of_delete hheap

theorem refines_assign (h : Inv w) {str : Source ι} (hi : w.objects i = some o)
    (hstr : w.Readable str) (ha : w.Free i a) (hself : ¬w.ReadsItself (.assign i str a)) :
    Refines w (.assign i str a) := by
  obtain ⟨heap, hheap, -, hothers, hclient, -⟩ := h.sound.delete (owns_eq_m_str hi)
  have hfree := h.free hi ha hheap
  obtain ⟨p, hp, hinit⟩ := h.init_charPtr hstr hclient fun j n hj o' ho' b hb => by
    by_cases hij : j = i
    · subst hij
      exact absurd ⟨rfl, o', ho', by simp [hb]⟩ (hj ▸ hself)
    · exact hothers j hij o' ho' b hb
  cases htext : (strings w).text str with
  | error f =>
    refine refines_of_error (f := f) ?_ ?_
    · simp [step, hp, hi, deref, WFString.deleteStr, hheap, hinit, htext, Except.map]
    · simp [Strings.step, htext]
  | ok s =>
    refine refines_of_place h (owns_eq_m_str hi) hheap hfree (s := s) ?_ ?_
    · simp [step, hp, hi, deref, WFString.deleteStr, hheap, hinit, htext, Except.map]
    · simp [Strings.step, htext]

/-- **A string that reads itself** reads what is not there any more. -/
theorem step_of_readsItself (h : Inv w) {act : Action ι} (hself : w.ReadsItself act) :
    step w act = .error .outOfBounds := by
  cases act with
  | assign i str a =>
    cases str with
    | c_str j n =>
      obtain ⟨rfl, o, hi, hstr⟩ := hself
      obtain ⟨b, hb⟩ := Option.ne_none_iff_exists'.mp hstr
      obtain ⟨heap, hheap, -⟩ := h.sound.delete (owns_eq_m_str hi)
      rw [hb] at hheap
      have hgone : heap b = none := Heap.eq_none_of_delete hheap
      have hi : w.objects i = some o := hi
      simp [step, charPtr, hi, deref, WFString.deleteStr, hheap, WFString.c_str, hb, CharPtr.add,
        WFString.init, CharPtr.memory, hgone]
    | _ => exact hself.elim
  | _ => exact hself.elim

theorem refines_assignCopy (h : Inv w) {other : WFString} (hi : w.objects i = some o)
    (hj : w.objects j = some other) (ha : w.Free i a) : Refines w (.assignCopy i j a) := by
  obtain ⟨s, hs, hstring⟩ := h.string hj
  have hstrings : Strings.step (strings w) (.assignCopy i j a) = .ok { strings w with
      objects := update (strings w).objects i (some s) } := by
    simp [Strings.step, hstring, deref]
  by_cases hij : j = i
  · subst hij
    have hstep : step w (.assignCopy j j a) = .ok w := by simp [step, hj, deref]
    refine refines_of_ok hstep hstrings h ?_
    rw [← hstring, update_eq_self]
  · obtain ⟨heap, hheap, -, hothers, -⟩ := h.sound.delete (owns_eq_m_str hi)
    have hsame := hothers j hij other hj
    have hlive : ∀ b, other.m_str = some b → (heap b).isSome := by
      intro b hb
      rw [hsame b hb]
      exact h.sound.live hj hb
    have hcopy := initCopy_eq hlive ((type.value_congr other w.heap heap hsame).trans hs) a
    refine refines_of_place h (owns_eq_m_str hi) hheap (h.free hi ha hheap) (s := s) ?_ hstrings
    simp [step, hj, hi, deref, hij, WFString.deleteStr, hheap, hcopy]

theorem refines_clear (h : Inv w) (hi : w.objects i = some o) : Refines w (.clear i) := by
  obtain ⟨heap, hheap, -, -, hclient, -⟩ := h.sound.delete (owns_eq_m_str hi)
  have hstep : step w (.clear i) = .ok { w with
      heap, objects := update w.objects i (some ⟨none, 0⟩) } := by
    simp [step, hi, deref, WFString.deleteStr, hheap]
  refine refines_of_changes (s := some .empty) h hstep rfl
    (h.sound.changes_of_delete (owns_eq_m_str hi) hheap ?_) rfl (values_blocks rfl hclient)
  rintro _ ⟨⟩
  rfl

theorem refines_destroy (h : Inv w) (hi : w.objects i = some o) : Refines w (.destroy i) := by
  obtain ⟨heap, hheap, -, -, hclient, -⟩ := h.sound.delete (owns_eq_m_str hi)
  have hstep : step w (.destroy i) = .ok { w with heap, objects := update w.objects i none } := by
    simp [step, hi, deref, WFString.deleteStr, hheap]
  exact refines_of_changes (s := none) h hstep rfl
    (h.sound.changes_of_delete (owns_eq_m_str hi) hheap (by simp)) rfl (values_blocks rfl hclient)

theorem refines_allocate (h : Inv w) (ha : w.heap a = none) (cells : List UInt8) :
    Refines w (.allocate a cells) := by
  obtain ⟨hsound, hvalues⟩ := h.sound.allocate ha cells
  refine refines_of_ok rfl rfl ⟨hsound, ?_⟩ ?_
  · rw [values, hvalues]
    exact h.formed
  · rw [strings, values, hvalues]
    rfl

theorem refines_delete (h : Inv w) (ha : a ∈ w.client) : Refines w (.delete a) := by
  have hunused : w.Unused type a := by
    intro j o hj hrefers
    exact h.sound.owned.apart j a ((owns_eq hj).trans hrefers) ha
  obtain ⟨hsound, hvalues⟩ := h.sound.discard ha hunused
  have hstep : step w (.delete a) = .ok { w with
      heap := update w.heap a none, client := w.client.erase a } := by
    simp [step, Heap.delete, h.sound.owned.held a ha]
  refine refines_of_ok hstep rfl ⟨hsound, ?_⟩ ?_
  · rw [values, hvalues]
    exact h.formed
  · rw [strings, values, hvalues]
    rfl

/-- **Every action** does to the world what it does to the strings. -/
theorem refines_of_allowed (h : Inv w) {act : Action ι} (hok : w.Allowed act)
    (hself : ¬w.ReadsItself act) : Refines w act := by
  cases act with
  | construct i => exact refines_construct h hok
  | constructFrom i str a => exact refines_constructFrom h hok.1 hok.2.1 hok.2.2
  | copy i other a =>
    obtain ⟨hi, hother, ha⟩ := hok
    obtain ⟨o, ho⟩ := Option.isSome_iff_exists.mp hother
    exact refines_copy h hi ho ha
  | assign i str a =>
    obtain ⟨hi, hstr, ha⟩ := hok
    obtain ⟨o, ho⟩ := Option.isSome_iff_exists.mp hi
    exact refines_assign h ho hstr ha hself
  | assignCopy i other a =>
    obtain ⟨hi, hother, ha⟩ := hok
    obtain ⟨o, ho⟩ := Option.isSome_iff_exists.mp hi
    obtain ⟨o', ho'⟩ := Option.isSome_iff_exists.mp hother
    exact refines_assignCopy h ho ho' ha
  | clear i =>
    obtain ⟨o, ho⟩ := Option.isSome_iff_exists.mp hok
    exact refines_clear h ho
  | destroy i =>
    obtain ⟨o, ho⟩ := Option.isSome_iff_exists.mp hok
    exact refines_destroy h ho
  | allocate a cells => exact refines_allocate h hok cells
  | delete a => exact refines_delete h hok

end World

/-! ## Every run -/

section Run

variable {ι : Type} [DecidableEq ι]

/-- A step of the strings. -/
def World.next (w : World ι) (act : Action ι) : Option (World ι) := (w.step act).toOption

/-- A step of the values. -/
def Strings.next (v : Strings ι) (act : Action ι) : Option (Strings ι) := (v.step act).toOption

/-- No strings. -/
def Strings.empty : Strings ι := ⟨fun _ => none, fun _ => none⟩

/-- The runs that the language and the client allow. -/
def Run (acts : List (Action ι)) (w : World ι) : Prop :=
  AllSteps World.next World.Allowed Lib.World.empty acts ∧
    run World.next Lib.World.empty acts = some w

omit [DecidableEq ι] in
theorem inv_empty : World.Inv (Lib.World.empty : World ι) where
  sound := Lib.World.Sound.empty
  formed i t h := by cases h

theorem World.Inv.next {w w' : World ι} {act : Action ι} (h : w.Inv) (hok : w.Allowed act)
    (hnext : w.next act = some w') : w'.Inv ∧ w.strings.next act = some w'.strings := by
  have hstep := Exec.toOption_eq_some.mp hnext
  have hself : ¬w.ReadsItself act := by
    intro hself
    cases (step_of_readsItself h hself).symm.trans hstep
  obtain ⟨hvalues, hinv⟩ := refines_of_allowed h hok hself
  refine ⟨hinv w' hstep, ?_⟩
  rw [Strings.next, Exec.toOption_eq_some, ← hvalues, hstep]
  rfl

theorem Run.inv {acts : List (Action ι)} {w : World ι} (h : Run acts w) : w.Inv :=
  run_invariant (fun _ _ _ hs hok hnext => (hs.next hok hnext).1) inv_empty h.1 h.2

/-- **Strings are values**: in every run that the language and the client allow, what is in a string
is what the strings that are values have.  The next step is theirs as well, and fails if and only if
theirs does, unless it assigns a string from its own `c_str`: that reads what was deleted, exactly
if the string is not empty.  Every array is the client's or is deleted by the destructor of exactly
one string. -/
theorem strings_of_run {w : World ι} {acts : List (Action ι)} (h : Run acts w) :
    run Strings.next Strings.empty acts = some w.strings ∧
      (∀ act, w.Allowed act → w.ReadsItself act → w.step act = .error .outOfBounds) ∧
      (∀ act, w.Allowed act → ¬w.ReadsItself act →
        (w.step act).map World.strings = w.strings.step act) ∧
      ∀ a, (w.heap a).isSome →
        (a ∈ w.client ∧ ∀ i o, w.objects i = some o → o.m_str ≠ some a) ∨
          a ∉ w.client ∧ ∃! i, ∃ o, w.objects i = some o ∧ o.m_str = some a := by
  have hinv := h.inv
  have hrun := run_simulates (fun _ _ _ hs hok hnext => (World.Inv.next hs hok hnext).1)
    (fun _ _ _ hs hok hnext => (World.Inv.next hs hok hnext).2) inv_empty h.1 h.2
  have hempty : World.strings (Lib.World.empty : World ι) = Strings.empty := by
    simp [World.strings, Lib.World.values, Lib.World.empty, Strings.empty]
  rw [hempty] at hrun
  exact ⟨hrun, fun act _ hself => World.step_of_readsItself hinv hself,
    fun act hok hself => (World.refines_of_allowed hinv hok hself).1,
    fun a ha => hinv.sound.owner ha⟩

/-- A string is a copy of what the client has, another one is assigned a piece of it, and gets its
array where the client's was, and a third is a copy of the second. -/
def pieces : List (Action (Fin 3)) :=
  [.allocate 1 [0x61, 0x62, 0x63, 0], .constructFrom 0 (.client 1 0) 2, .delete 1, .construct 1,
    .assign 1 (.c_str 0 1) 1, .copy 2 1 3, .assign 1 (.std [0x64, 0, 0x65]) 1, .assignCopy 0 0 0]

theorem strings_of_run_pieces : ∃ w : World (Fin 3), Run pieces w ∧
    run Strings.next Strings.empty pieces = some w.strings := by
  have hsome : (run World.next Lib.World.empty pieces).isSome := by decide +kernel
  obtain ⟨w, hw⟩ := Option.isSome_iff_exists.mp hsome
  have hrun : Run pieces w := ⟨by decide +kernel, hw⟩
  exact ⟨w, hrun, (strings_of_run hrun).1⟩

/-- **Strings are compared as strings**: in every run that the language and the client allow, the
length of a string is the one of what it reads, no character of it is out of bounds, nor is its
terminator, and it is compared with anything that is a string in the order of the bytes, which is
one of keys. -/
theorem compare_of_run {w : World ι} {acts : List (Action ι)} (h : Run acts w) {i : ι}
    {o : WFString} (hi : w.objects i = some o) :
    ∃ s, w.strings.objects i = some s ∧ o.length = s.val.length ∧
      o.isEmpty = decide (s = .empty) ∧
      (∀ k, (o.charAt w.heap k).toOption = if 0 ≤ k then s.bytes[k.toNat]? else none) ∧
      ∀ str t, w.Readable str → str ≠ .null → w.strings.text str = .ok t →
        ∃ p, w.charPtr str = .ok p ∧ o.less w.heap p = .ok (decide (s.val < t.val)) ∧
          o.greater w.heap p = .ok (decide (t.val < s.val)) ∧
          o.equal w.heap p = .ok (decide (s = t)) ∧ o.notEqual w.heap p = .ok (decide (s ≠ t)) := by
  have hinv := h.inv
  obtain ⟨s, hvalue, hs⟩ := hinv.string hi
  have hlen := m_len_eq hvalue
  refine ⟨s, hs, hlen, ?_, ?_, ?_⟩
  · rw [WFString.isEmpty, hlen, decide_eq_decide, List.length_eq_zero_iff]
    exact ⟨eq_empty_of_nil, fun h => h ▸ rfl⟩
  · intro k
    have hmemory := memory_c_str (fun _ => hinv.sound.live hi) hvalue 0
    rw [CharPtr.add_zero, List.drop_zero] at hmemory
    rw [WFString.charAt, hmemory, Exec.ok_bind]
    split
    · cases hk : s.bytes[k.toNat]? <;> simp [byteAt, hk, Except.toOption]
    · rfl
  · intro str t hstr hnull ht
    obtain ⟨p, hp, -⟩ := hinv.init_charPtr hstr (m := w.heap) (fun _ _ => rfl)
      fun _ _ _ _ _ _ _ => rfl
    obtain ⟨r, hr, hlt, hgt, heq⟩ := hinv.compare hi hs hstr hnull ht hp
    have hequal : o.equal w.heap p = .ok (decide (s = t)) := by
      rw [WFString.equal, hr, Exec.ok_bind, decide_eq_decide.mpr heq]
    refine ⟨p, hp, ?_, ?_, hequal, ?_⟩
    · rw [WFString.less, hr, Exec.ok_bind, decide_eq_decide.mpr hlt]
    · rw [WFString.greater, hr, Exec.ok_bind, decide_eq_decide.mpr hgt]
    · rw [WFString.notEqual, hequal, Exec.ok_bind, decide_not]

/-- `"d"` is behind `"abc"`, which is read through its `c_str`. -/
theorem compare_of_run_pieces : ∃ (w : World (Fin 3)) (o : WFString) (p : CharPtr),
    Run pieces w ∧ w.objects 1 = some o ∧ w.charPtr (.c_str 0 0) = .ok p ∧
      o.less w.heap p = .ok false ∧ o.greater w.heap p = .ok true ∧
        o.equal w.heap p = .ok false := by
  have hvalues : ∃ w ∈ run World.next Lib.World.empty pieces, ∃ o ∈ w.objects 1,
      (w.objects 0).isSome ∧ (∃ s ∈ w.strings.objects 1, s.val = [0x64]) ∧
        ∃ t ∈ (w.strings.text (.c_str 0 0)).toOption, t.val = [0x61, 0x62, 0x63] := by
    decide +kernel
  obtain ⟨w, hw, o, hi, hreadable, ⟨s, hs, hfirst⟩, t, ht, htext⟩ := hvalues
  have hrun : Run pieces w := ⟨by decide +kernel, hw⟩
  obtain ⟨s', hs', -, -, -, hcompare⟩ := compare_of_run hrun hi
  obtain rfl : s = s' := Option.some.inj (hs.symm.trans hs')
  obtain ⟨p, hp, hless, hgreater, hequal, -⟩ :=
    hcompare (.c_str 0 0) t hreadable (by simp) (Exec.toOption_eq_some.mp ht)
  rw [hfirst, htext] at hless hgreater
  have hne : s ≠ t := by
    intro h
    rw [h, htext] at hfirst
    exact absurd hfirst (by decide)
  refine ⟨w, o, p, hrun, hi, hp, hless.trans ?_, hgreater.trans ?_, ?_⟩
  · rfl
  · rfl
  · rw [hequal, decide_eq_false hne]

end Run

end WFStrings

end CppCore.Utils
