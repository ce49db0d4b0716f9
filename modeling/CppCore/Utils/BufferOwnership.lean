import CppCore.Lib.Objects
import CppCore.Lib.Run
import CppCore.Utils.Buffer

/-!
# Buffers that share a heap

A `Buffer` points to its data area, and `m_deleteData` says whether its destructor deletes it.
Buffers are copied, they grow, and they give their areas to each other and to the rest of the
program, the client, which also lends areas of its own to `NonOwningBuffer`s.

To a user a buffer is a value: what happens to another buffer does not change it.  This is so, and
no area is deleted twice, used after it was deleted, or lost, as long as the client keeps the areas
that it lends, and no buffer takes over the data of itself with `takeDataAndDelete`.

## Main definitions

* `Buffers.Object` — a buffer with its pointer, and the functions that change it.
* `Buffers.World`, `Buffers.Action`, `Buffers.World.step` — any number of buffers and the client.
* `Buffers.Values`, `Buffers.Values.step` — the same, for buffers that are values.
* `Buffers.World.Allowed` — what the language, the allocator and the client see to.
* `Buffers.World.refines_of_allowed` — the world behaves like the values.
* `Buffers.values_of_run` — the same for every run.
-/

namespace CppCore.Utils

open Lib Function

/-- The first bytes of a data area, as `memcpy` reads them. -/
def memcpy (cells : Option (List (Option UInt8))) (n : ℕ) : Exec (List (Option UInt8)) :=
  if n = 0 then
    .ok []
  else do
    let cells ← deref cells
    if n ≤ cells.length then .ok (cells.take n) else .error .outOfBounds

namespace Buffers

/-! ## A buffer and its pointer -/

/-- A `Buffer`. -/
structure Object where
  m_data : Option ℕ
  m_dataLength : ℕ
  m_readPos : ℕ
  m_writePos : ℕ
  m_validBytes : ℕ
  m_resize : Bool
  /-- Whether the destructor deletes the data area. -/
  m_deleteData : Bool
  deriving DecidableEq, Repr

/-- The memory of a program. -/
abbrev Memory := Heap (Option UInt8)

namespace Object

/-- `Buffer::Buffer( length )`, if `new` returns `a`. -/
def ofLength (heap : Memory) (length a : ℕ) : Memory × Object :=
  if align32 length = 0 then
    (heap, ⟨none, 0, 0, 0, 0, true, true⟩)
  else
    (update heap a (some (List.replicate (align32 length) (some 0))),
      ⟨some a, align32 length, 0, 0, 0, true, true⟩)

/-- `Buffer::Buffer( bufferData, len, valid )`. -/
def ofData (bufferData : Option ℕ) (len valid : ℕ) : Object :=
  ⟨bufferData, len, 0, valid, valid, false, true⟩

/-- `NonOwningBuffer::NonOwningBuffer( bufferData, len )`. -/
def nonOwning (bufferData : Option ℕ) (len : ℕ) : Object :=
  { ofData bufferData len len with m_deleteData := false }

/-- `Buffer::Buffer( b )`. -/
def copy (b : Object) (heap : Memory) (a : ℕ) : Exec (Memory × Object) := do
  let cells ← memcpy (b.m_data.bind heap) b.m_dataLength
  .ok (update heap a (some cells), { b with m_data := some a, m_deleteData := true })

/-- `Buffer::enlargeData`. -/
def enlargeData (b : Object) (heap : Memory) (amount a : ℕ) : Exec (Bool × Memory × Object) := do
  let amount := max amount (b.m_dataLength / 4)
  if b.m_resize then
    let newLength := add32 b.m_dataLength amount
    let tmp := List.replicate newLength none
    let b' := { b with m_data := some a, m_dataLength := newLength, m_deleteData := true }
    match b.m_data with
    | none => .ok (true, update heap a (some tmp), b')
    | some old => do
      let cells ← deref (heap old)
      if b.m_writePos ≤ cells.length ∧ b.m_writePos ≤ newLength then
        let heap : Memory :=
          update heap a (some (cells.take b.m_writePos ++ tmp.drop b.m_writePos))
        let heap ← if b.m_deleteData then heap.delete b.m_data else .ok heap
        .ok (true, heap, b')
      else
        .error .outOfBounds
  else
    .ok (false, heap, b)

/-- Copy bytes to a position of the data area. -/
def store (b : Object) (heap : Memory) (pos : ℕ) (data : List UInt8) : Exec Memory := do
  let cells ← Buffer.store (b.m_data.bind heap) pos data
  match b.m_data with
  | none => .ok heap
  | some a => .ok (update heap a cells)

/-- `Buffer::releaseData`, without the pointer that it returns. -/
def releaseData (_b : Object) : Object := ⟨none, 0, 0, 0, 0, true, true⟩

/-- `Buffer::takeDataAndClear` and `Buffer::takeDataAndDelete`: what is taken over. -/
def takeData (b buf : Object) : Object :=
  { b with
    m_data := buf.m_data
    m_deleteData := buf.m_deleteData
    m_dataLength := buf.m_dataLength
    m_validBytes := buf.m_validBytes
    m_readPos := 0
    m_writePos := 0 }

/-- `Buffer::takeDataAndClear`: what is left. -/
def takenFrom (buf : Object) : Object :=
  { buf with m_data := none, m_validBytes := 0, m_dataLength := 0, m_readPos := 0, m_writePos := 0 }

/-- `if ( m_deleteData ) delete[] m_data`. -/
def deleteData (b : Object) (heap : Memory) : Exec Memory :=
  if b.m_deleteData then heap.delete b.m_data else .ok heap

/-- What a buffer owns. -/
def owns (b : Object) : Option ℕ := if b.m_deleteData then b.m_data else none

/-- The buffer as a value. -/
def value (b : Object) (heap : Memory) : Buffer :=
  ⟨b.m_data.bind heap, b.m_dataLength, b.m_readPos, b.m_writePos, b.m_validBytes, b.m_resize⟩

/-- What there is to know about a buffer's pointer. -/
def type : ObjectType (Option UInt8) Object Buffer where
  refers := m_data
  owns := owns
  value := value
  refers_of_owns b a h := by
    rw [owns] at h
    split at h
    · exact h
    · cases h
  value_congr b heap heap' h := by
    cases hdata : b.m_data with
    | none => simp [value, hdata]
    | some a => simp [value, hdata, h a hdata]

end Object

/-! ## Any number of them -/

/-- The buffers of a program, and the blocks of the client. -/
abbrev World (ι : Type) := Lib.World (Option UInt8) Object ι

/-- The buffers of a program as values, and the blocks of the client. -/
abbrev Values (ι : Type) := Lib.Values (Option UInt8) Buffer ι

/-- What a program does with buffers; `a` is what `new` returns. -/
inductive Action (ι : Type)
  | construct (i : ι) (length a : ℕ)
  | adopt (i : ι) (bufferData len valid : ℕ)
  | lend (i : ι) (bufferData len : ℕ)
  | copy (i j : ι) (a : ℕ)
  | enlargeData (i : ι) (amount a : ℕ)
  | store (i : ι) (pos : ℕ) (data : List UInt8)
  | seek (i : ι) (m_readPos m_writePos m_validBytes : ℕ)
  | releaseData (i : ι) (p : Option ℕ)
  | takeDataAndClear (i j : ι)
  | takeDataAndDelete (i j : ι)
  | destroy (i : ι)
  | allocate (a : ℕ) (cells : List (Option UInt8))
  | delete (a : ℕ)
  deriving DecidableEq, Repr

namespace World

variable {ι : Type} [DecidableEq ι]

/-- What an action does. -/
def step (w : World ι) : Action ι → Exec (World ι)
  | .construct i length a =>
    let r := Object.ofLength w.heap length a
    .ok { w with heap := r.1, objects := update w.objects i (some r.2) }
  | .adopt i a len valid =>
    .ok { w with
      objects := update w.objects i (some (Object.ofData (some a) len valid))
      client := w.client.erase a }
  | .lend i a len =>
    .ok { w with objects := update w.objects i (some (Object.nonOwning (some a) len)) }
  | .copy i j a => do
    let b ← deref (w.objects j)
    let (heap, c) ← b.copy w.heap a
    .ok { w with heap, objects := update w.objects i (some c) }
  | .enlargeData i amount a => do
    let b ← deref (w.objects i)
    let (_, heap, b) ← b.enlargeData w.heap amount a
    .ok { w with heap, objects := update w.objects i (some b) }
  | .store i pos data => do
    let b ← deref (w.objects i)
    let heap ← b.store w.heap pos data
    .ok { w with heap }
  | .seek i m_readPos m_writePos m_validBytes => do
    let b ← deref (w.objects i)
    .ok { w with
      objects := update w.objects i (some { b with m_readPos, m_writePos, m_validBytes }) }
  | .releaseData i p => do
    let b ← deref (w.objects i)
    .ok { w with
      objects := update w.objects i (some b.releaseData)
      client := p.elim w.client fun a => insert a w.client }
  | .takeDataAndClear i j => do
    let b ← deref (w.objects i)
    let heap ← b.deleteData w.heap
    let buf ← deref (w.objects j)
    let objects := update w.objects i (some (b.takeData buf))
    let buf ← deref (objects j)
    .ok { w with heap, objects := update objects j (some buf.takenFrom) }
  | .takeDataAndDelete i j => do
    let b ← deref (w.objects i)
    let heap ← b.deleteData w.heap
    let buf ← deref (w.objects j)
    let objects := update w.objects i (some (b.takeData buf))
    let objects := update objects j none
    -- the call of `checkIntegrity`
    let _ ← deref (objects i)
    .ok { w with heap, objects }
  | .destroy i => do
    let b ← deref (w.objects i)
    let heap ← b.deleteData w.heap
    .ok { w with heap, objects := update w.objects i none }
  | .allocate a cells =>
    .ok { w with heap := update w.heap a (some cells), client := insert a w.client }
  | .delete a => do
    let heap ← w.heap.delete (some a)
    .ok { w with heap, client := w.client.erase a }

/-- What the language, the allocator and the client see to: that objects are constructed once and
used while they exist, that `new` returns what is free, that what is handed over, lent or deleted
is the client's, and lent no more when it is handed over or deleted, and that nothing is stored to
what is only lent, also by a buffer that has taken it over from another one. -/
def Allowed (w : World ι) : Action ι → Prop
  | .construct i _ a => w.objects i = none ∧ w.heap a = none
  | .adopt i a _ _ => w.objects i = none ∧ a ∈ w.client ∧ w.Unused Object.type a
  | .lend i a _ => w.objects i = none ∧ a ∈ w.client
  | .copy i j a => w.objects i = none ∧ (w.objects j).isSome ∧ w.heap a = none
  | .enlargeData i _ a => (w.objects i).isSome ∧ w.heap a = none
  | .store i _ _ => ∃ b ∈ w.objects i, b.m_deleteData = true
  | .seek i _ _ _ => (w.objects i).isSome
  | .releaseData i p => ∃ b ∈ w.objects i, b.m_data = p
  | .takeDataAndClear i j => (w.objects i).isSome ∧ (w.objects j).isSome
  | .takeDataAndDelete i j => i ≠ j ∧ (w.objects i).isSome ∧ (w.objects j).isSome
  | .destroy i => (w.objects i).isSome
  | .allocate a _ => w.heap a = none
  | .delete a => a ∈ w.client ∧ w.Unused Object.type a

instance [Fintype ι] (w : World ι) : ∀ act, Decidable (w.Allowed act)
  | .construct i _ a => inferInstanceAs (Decidable (w.objects i = none ∧ w.heap a = none))
  | .adopt i a _ _ =>
    inferInstanceAs (Decidable (w.objects i = none ∧ a ∈ w.client ∧ w.Unused Object.type a))
  | .lend i a _ => inferInstanceAs (Decidable (w.objects i = none ∧ a ∈ w.client))
  | .copy i j a =>
    inferInstanceAs (Decidable (w.objects i = none ∧ (w.objects j).isSome ∧ w.heap a = none))
  | .enlargeData i _ a => inferInstanceAs (Decidable ((w.objects i).isSome ∧ w.heap a = none))
  | .store i _ _ => inferInstanceAs (Decidable (∃ b ∈ w.objects i, b.m_deleteData = true))
  | .seek i _ _ _ | .destroy i => inferInstanceAs (Decidable ((w.objects i).isSome))
  | .releaseData i p => inferInstanceAs (Decidable (∃ b ∈ w.objects i, b.m_data = p))
  | .takeDataAndClear i j =>
    inferInstanceAs (Decidable ((w.objects i).isSome ∧ (w.objects j).isSome))
  | .takeDataAndDelete i j =>
    inferInstanceAs (Decidable (i ≠ j ∧ (w.objects i).isSome ∧ (w.objects j).isSome))
  | .allocate a _ => inferInstanceAs (Decidable (w.heap a = none))
  | .delete a => inferInstanceAs (Decidable (a ∈ w.client ∧ w.Unused Object.type a))

end World

/-! ## Buffers that are values -/

namespace Values

variable {ι : Type} [DecidableEq ι]

/-- What is taken over from a buffer. -/
def takeData (b buf : Buffer) : Buffer :=
  { b with
    m_data := buf.m_data
    m_dataLength := buf.m_dataLength
    m_validBytes := buf.m_validBytes
    m_readPos := 0
    m_writePos := 0 }

/-- A buffer without data. -/
def takenFrom (buf : Buffer) : Buffer :=
  { buf with m_data := none, m_validBytes := 0, m_dataLength := 0, m_readPos := 0, m_writePos := 0 }

/-- What an action does to values: an address is where a block of the client is. -/
def step (v : Values ι) : Action ι → Exec (Values ι)
  | .construct i length _ =>
    .ok { v with objects := update v.objects i (some (Buffer.ofLength length)) }
  | .adopt i a len valid =>
    .ok ⟨update v.objects i (some ⟨v.blocks a, len, 0, valid, valid, false⟩),
      update v.blocks a none⟩
  | .lend i a len =>
    .ok { v with objects := update v.objects i (some ⟨v.blocks a, len, 0, len, len, false⟩) }
  | .copy i j _ => do
    let b ← deref (v.objects j)
    let cells ← memcpy b.m_data b.m_dataLength
    .ok { v with objects := update v.objects i (some { b with m_data := some cells }) }
  | .enlargeData i amount _ => do
    let b ← deref (v.objects i)
    let (_, b) ← b.enlargeData amount
    .ok { v with objects := update v.objects i (some b) }
  | .store i pos data => do
    let b ← deref (v.objects i)
    let m_data ← Buffer.store b.m_data pos data
    .ok { v with objects := update v.objects i (some { b with m_data }) }
  | .seek i m_readPos m_writePos m_validBytes => do
    let b ← deref (v.objects i)
    .ok { v with
      objects := update v.objects i (some { b with m_readPos, m_writePos, m_validBytes }) }
  | .releaseData i p => do
    let b ← deref (v.objects i)
    .ok ⟨update v.objects i (some ⟨none, 0, 0, 0, 0, true⟩),
      p.elim v.blocks fun a => update v.blocks a b.m_data⟩
  | .takeDataAndClear i j => do
    let b ← deref (v.objects i)
    let buf ← deref (v.objects j)
    let objects := update v.objects i (some (takeData b buf))
    let buf ← deref (objects j)
    .ok { v with objects := update objects j (some (takenFrom buf)) }
  | .takeDataAndDelete i j => do
    let b ← deref (v.objects i)
    let buf ← deref (v.objects j)
    .ok { v with objects := update (update v.objects i (some (takeData b buf))) j none }
  | .destroy i => .ok { v with objects := update v.objects i none }
  | .allocate a cells => .ok { v with blocks := update v.blocks a (some cells) }
  | .delete a => .ok { v with blocks := update v.blocks a none }

end Values

namespace World

open Lib.World (Changes owns_eq owns_eq_none owns_update values_blocks values_objects)

variable {ι : Type} {w : World ι} {i j : ι} {b c : Object}

/-- The invariant. -/
abbrev Sound (w : World ι) : Prop := Lib.World.Sound Object.type w

/-- The values of the buffers, and what is in the blocks of the client. -/
abbrev values (w : World ι) : Values ι := Lib.World.values Object.type w

theorem values_of_object (hi : w.objects i = some b) :
    (values w).objects i = some (b.value w.heap) := Lib.World.values_of_object hi

variable [DecidableEq ι]

/-- A step of the world is one of the values, and keeps the invariant. -/
def Refines (w : World ι) (act : Action ι) : Prop :=
  (step w act).map values = Values.step (values w) act ∧
    ∀ w', step w act = .ok w' → Sound w'

/-- Both are a fault. -/
theorem refines_of_error {f : Fault} {act : Action ι} (hstep : step w act = .error f)
    (hvalues : Values.step (values w) act = .error f) : Refines w act := by
  rw [Refines, hstep, hvalues]
  exact ⟨rfl, by simp⟩

/-- Both have a value. -/
theorem refines_of_ok {w' : World ι} {v : Values ι} {act : Action ι} (hstep : step w act = .ok w')
    (hvalues : Values.step (values w) act = .ok v) (hsound : Sound w') (heq : values w' = v) :
    Refines w act := by
  rw [Refines, hstep, hvalues]
  refine ⟨congrArg Except.ok heq, fun w'' h => ?_⟩
  obtain rfl := Except.ok.inj h
  exact hsound

/-- **A change of one buffer** is one of its value. -/
theorem refines_of_changes {w' : World ι} {o : Option Object} {v : Option Buffer}
    {blocks : Memory} {act : Action ι} (hstep : step w act = .ok w')
    (hvalues : Values.step (values w) act = .ok ⟨update (values w).objects i v, blocks⟩)
    (h : Changes Object.type w w' i o) (hvalue : (o.map fun b => b.value w'.heap) = v)
    (hblocks : (values w').blocks = blocks) : Refines w act :=
  refines_of_ok hstep hvalues h.sound (h.values_eq hvalue hblocks)

/-! ## Every action -/

theorem refines_construct (h : Sound w) {length a : ℕ} (hi : w.objects i = none)
    (ha : w.heap a = none) : Refines w (.construct i length a) := by
  have hnone := owns_eq_none (T := Object.type) hi
  by_cases hlength : align32 length = 0
  · have hstep : step w (.construct i length a) = .ok { w with
        objects := update w.objects i (some ⟨none, 0, 0, 0, 0, true, true⟩) } := by
      simp [step, Object.ofLength, hlength]
    refine refines_of_changes hstep rfl (h.change hnone.symm fun _ hx => ?_) ?_ rfl
    · cases hx
    · simp [Object.value, Buffer.ofLength, hlength]
  · have hstep : step w (.construct i length a) = .ok { w with
        heap := update w.heap a (some (List.replicate (align32 length) (some 0)))
        objects := update w.objects i
          (some ⟨some a, align32 length, 0, 0, 0, true, true⟩) } := by
      simp [step, Object.ofLength, hlength]
    obtain ⟨hchanges, hclient⟩ := h.construct (T := Object.type) hi ha
      (o := ⟨some a, align32 length, 0, 0, 0, true, true⟩) _ rfl
      fun x hx => (Option.some.inj hx).symm
    refine refines_of_changes hstep rfl hchanges ?_ (values_blocks rfl hclient)
    simp [Object.value, Buffer.ofLength, hlength]

theorem refines_adopt (h : Sound w) {a len valid : ℕ} (hi : w.objects i = none)
    (ha : a ∈ w.client) (hunused : w.Unused Object.type a) :
    Refines w (.adopt i a len valid) := by
  have hnone := owns_eq_none (T := Object.type) hi
  refine refines_of_changes (o := some (Object.ofData (some a) len valid)) rfl rfl
    ⟨rfl, fun _ _ _ _ _ _ => rfl, h.owned.adopt hnone ha, ?_, ?_⟩ ?_ ?_
  · rintro _ ⟨⟩ x hx
    exact Or.inl hx
  · intro j _ c hj x hx
    refine (h.lent j c hj x hx).imp_right fun hclient => Finset.mem_erase.mpr ⟨?_, hclient⟩
    rintro rfl
    exact hunused j c hj hx
  · simp [Lib.World.values, ha, Object.ofData, Object.value]
  · funext x
    simp only [Lib.World.values]
    rcases eq_or_ne x a with rfl | hne
    · simp
    · simp [hne]

theorem refines_lend (h : Sound w) {a len : ℕ} (hi : w.objects i = none) (ha : a ∈ w.client) :
    Refines w (.lend i a len) := by
  have hnone := owns_eq_none (T := Object.type) hi
  refine refines_of_changes (o := some (Object.nonOwning (some a) len)) rfl rfl
    (h.change hnone.symm fun x hx => ?_) ?_ rfl
  · obtain rfl := Option.some.inj hx
    exact Or.inr ha
  · simp [Lib.World.values, ha, Object.nonOwning, Object.ofData, Object.value]

theorem refines_copy (h : Sound w) {a : ℕ} (hi : w.objects i = none) (hj : w.objects j = some b)
    (ha : w.heap a = none) : Refines w (.copy i j a) := by
  have hvalue := values_of_object hj
  cases hcells : memcpy (b.m_data.bind w.heap) b.m_dataLength with
  | error f =>
    refine refines_of_error (f := f) ?_ ?_
    · simp [step, hj, deref, Object.copy, hcells]
    · simp [Values.step, hvalue, deref, Object.value, hcells]
  | ok cells =>
    have hstep : step w (.copy i j a) = .ok { w with
        heap := update w.heap a (some cells)
        objects := update w.objects i
          (some { b with m_data := some a, m_deleteData := true }) } := by
      simp [step, hj, deref, Object.copy, hcells]
    have hvalues : Values.step (values w) (.copy i j a) = .ok { values w with
        objects := update (values w).objects i
          (some { b.value w.heap with m_data := some cells }) } := by
      simp [Values.step, hvalue, deref, Object.value, hcells]
    obtain ⟨hchanges, hclient⟩ := h.construct (T := Object.type) hi ha
      (o := { b with m_data := some a, m_deleteData := true }) cells rfl
      fun x hx => (Option.some.inj hx).symm
    refine refines_of_changes hstep hvalues hchanges ?_ (values_blocks rfl hclient)
    simp [Object.value]

theorem refines_seek (h : Sound w) (hi : w.objects i = some b) (r k v : ℕ) :
    Refines w (.seek i r k v) := by
  have hvalue := values_of_object hi
  have hstep : step w (.seek i r k v) = .ok { w with
      objects := update w.objects i
        (some { b with m_readPos := r, m_writePos := k, m_validBytes := v }) } := by
    simp [step, hi, deref]
  have hvalues : Values.step (values w) (.seek i r k v) = .ok { values w with
      objects := update (values w).objects i
        (some { b.value w.heap with m_readPos := r, m_writePos := k, m_validBytes := v }) } := by
    simp [Values.step, hvalue, deref]
  exact refines_of_changes hstep hvalues (h.change (owns_eq (T := Object.type) hi).symm
    fun x hx => h.lent i b hi x hx) rfl rfl

theorem refines_releaseData (h : Sound w) (hi : w.objects i = some b) :
    Refines w (.releaseData i b.m_data) := by
  have hvalue := values_of_object hi
  have hstep : step w (.releaseData i b.m_data) = .ok { w with
      objects := update w.objects i (some b.releaseData)
      client := b.m_data.elim w.client fun a => insert a w.client } := by
    simp [step, hi, deref]
  have hvalues : Values.step (values w) (.releaseData i b.m_data) = .ok
      ⟨update (values w).objects i (some ⟨none, 0, 0, 0, 0, true⟩),
        b.m_data.elim (values w).blocks fun a => update (values w).blocks a (w.heap a)⟩ := by
    simp only [Values.step, hvalue, deref, Exec.ok_bind, Object.value]
    cases b.m_data <;> rfl
  have hclient : ∀ a ∈ w.client, a ∈ b.m_data.elim w.client fun a => insert a w.client := by
    intro a ha
    cases b.m_data with
    | none => exact ha
    | some c => exact Finset.mem_insert_of_mem ha
  refine refines_of_changes hstep hvalues ⟨rfl, fun _ _ _ _ _ _ => rfl, ?_, ?_,
    fun j _ c hj a ha => (h.lent j c hj a ha).imp_right (hclient a)⟩ rfl ?_
  · change Owned w.heap (update (Lib.World.owns Object.type w.objects) i none) _
    have howns : Lib.World.owns Object.type w.objects i = b.owns := owns_eq hi
    have hkeep : b.owns = none → update (Lib.World.owns Object.type w.objects) i none =
        Lib.World.owns Object.type w.objects := by
      intro hnone
      rw [← hnone, ← howns, update_eq_self]
    cases hdata : b.m_data with
    | none =>
      rw [hkeep (by simp [Object.owns, hdata])]
      exact h.owned
    | some a =>
      cases hdelete : b.m_deleteData with
      | false =>
        have hnone : b.owns = none := by simp [Object.owns, hdelete]
        have hclient : a ∈ w.client := (h.lent i b hi a hdata).resolve_left fun hsome => by
          cases hnone.symm.trans hsome
        rw [hkeep hnone, Option.elim_some, Finset.insert_eq_of_mem hclient]
        exact h.owned
      | true =>
        have hsome : b.owns = some a := by simp [Object.owns, hdelete, hdata]
        exact h.owned.release (howns.trans hsome)
  · rintro _ ⟨⟩ x hx
    cases hx
  · cases hdata : b.m_data with
    | none => rfl
    | some a =>
      funext c
      simp only [Lib.World.values, Option.elim_some]
      rcases eq_or_ne c a with rfl | hne
      · simp
      · simp [hne]

/-- Deleting the data of a buffer is deleting what it owns. -/
theorem deleteData_eq (b : Object) (heap : Memory) : b.deleteData heap = heap.delete b.owns := by
  rw [Object.deleteData, Object.owns]
  split <;> rfl

theorem refines_destroy (h : Sound w) (hi : w.objects i = some b) : Refines w (.destroy i) := by
  obtain ⟨heap, hheap, -, -, hclient, -⟩ := h.delete (owns_eq hi)
  have hstep : step w (.destroy i) = .ok { w with heap, objects := update w.objects i none } := by
    simp [step, hi, deref, (deleteData_eq b w.heap).trans hheap]
  exact refines_of_changes hstep rfl (h.changes_of_delete (owns_eq hi) hheap (by simp)) rfl
    (values_blocks rfl hclient)

theorem refines_store (h : Sound w) (hi : w.objects i = some b) (hdelete : b.m_deleteData = true)
    (pos : ℕ) (data : List UInt8) : Refines w (.store i pos data) := by
  have hvalue := values_of_object hi
  cases hcells : Buffer.store (b.m_data.bind w.heap) pos data with
  | error f =>
    refine refines_of_error (f := f) ?_ ?_
    · simp [step, hi, deref, Object.store, hcells]
    · simp [Values.step, hvalue, deref, Object.value, hcells]
  | ok cells =>
    have hvalues : Values.step (values w) (.store i pos data) = .ok { values w with
        objects := update (values w).objects i
          (some { b.value w.heap with m_data := cells }) } := by
      simp [Values.step, hvalue, deref, Object.value, hcells]
    cases hdata : b.m_data with
    | none =>
      rw [hdata, Option.bind_none, Buffer.store] at hcells
      have hnil : data = [] ∧ cells = none := by
        split at hcells
        · exact ⟨by assumption, (Except.ok.inj hcells).symm⟩
        · cases hcells
      obtain ⟨rfl, rfl⟩ := hnil
      have hself : update w.objects i (some b) = w.objects := by rw [← hi, update_eq_self]
      have hstep : step w (.store i pos []) = .ok { w with
          objects := update w.objects i (some b) } := by
        simp [step, hi, deref, Object.store, hdata, Buffer.store, hself]
      refine refines_of_changes hstep hvalues (h.change (owns_eq (T := Object.type) hi).symm
        fun x hx => h.lent i b hi x hx) ?_ rfl
      simp [Object.value, hdata]
    | some a =>
      have hsome : b.owns = some a := by simp [Object.owns, hdelete, hdata]
      obtain ⟨old, hold⟩ := Option.isSome_iff_exists.mp (h.live hi hdata)
      have hnew : ∃ new, cells = some new := by
        rw [hdata, Option.bind_some, hold, Buffer.store] at hcells
        split at hcells
        · exact ⟨_, (Except.ok.inj hcells).symm⟩
        · cases hcells
      obtain ⟨new, rfl⟩ := hnew
      have hstep : step w (.store i pos data) = .ok { w with
          heap := update w.heap a (some new) } := by
        simp only [step, hi, deref, Exec.ok_bind, Object.store, hcells]
        rw [hdata]
        rfl
      refine refines_of_changes hstep hvalues (h.store hi hsome new) ?_
        (values_blocks rfl (h.update_of_owns hi hsome _).2)
      simp [Object.value, hdata]

theorem refines_enlargeData (h : Sound w) (hi : w.objects i = some b) {amount a : ℕ}
    (ha : w.heap a = none) : Refines w (.enlargeData i amount a) := by
  have hvalue := values_of_object hi
  cases hresize : b.m_resize with
  | false =>
    have hstep : step w (.enlargeData i amount a) = .ok { w with
        objects := update w.objects i (some b) } := by
      simp [step, hi, deref, Object.enlargeData, hresize]
    have hvalues : Values.step (values w) (.enlargeData i amount a) = .ok { values w with
        objects := update (values w).objects i (some (b.value w.heap)) } := by
      simp [Values.step, hvalue, deref, Buffer.enlargeData, Object.value, hresize]
    exact refines_of_changes hstep hvalues (h.change (owns_eq (T := Object.type) hi).symm
      fun x hx => h.lent i b hi x hx) rfl rfl
  | true =>
    obtain ⟨heap, hheap, -, -, -, hfree⟩ := h.delete (owns_eq hi)
    -- the old area is deleted, and the new one is where nothing was
    have hdone : ∀ new length,
        step w (.enlargeData i amount a) = .ok { w with
          heap := update heap a (some new)
          objects := update w.objects i (some { b with
            m_data := some a, m_dataLength := length, m_deleteData := true }) } →
        Values.step (values w) (.enlargeData i amount a) = .ok { values w with
          objects := update (values w).objects i (some { b.value w.heap with
            m_data := some new, m_dataLength := length }) } →
        Refines w (.enlargeData i amount a) := by
      intro new length hstep hvalues
      obtain ⟨hchanges, hclient⟩ := h.replace (T := Object.type) (owns_eq hi) hheap (hfree a ha)
        (o := { b with m_data := some a, m_dataLength := length, m_deleteData := true }) new rfl
        fun x hx => (Option.some.inj hx).symm
      refine refines_of_changes hstep hvalues hchanges ?_ (values_blocks rfl hclient)
      simp [Object.value]
    cases hdata : b.m_data with
    | none =>
      have hnone : b.owns = none := by simp [Object.owns, hdata]
      have hsame : heap = w.heap := by
        change Heap.delete w.heap b.owns = _ at hheap
        rw [hnone] at hheap
        exact (Except.ok.inj hheap).symm
      refine hdone (List.replicate (add32 b.m_dataLength (max amount (b.m_dataLength / 4))) none)
        (add32 b.m_dataLength (max amount (b.m_dataLength / 4))) ?_ ?_
      · simp [step, hi, deref, Object.enlargeData, hresize, hdata, hsame]
      · simp [Values.step, hvalue, deref, Buffer.enlargeData, Object.value, hresize, hdata]
    | some old =>
      obtain ⟨cells, hcells⟩ := Option.isSome_iff_exists.mp (h.live hi hdata)
      have hne : old ≠ a := by
        rintro rfl
        exact h.ne_of_free ha hi hdata
      by_cases hfits : b.m_writePos ≤ cells.length ∧
          b.m_writePos ≤ add32 b.m_dataLength (max amount (b.m_dataLength / 4))
      · refine hdone (cells.take b.m_writePos ++ (List.replicate
          (add32 b.m_dataLength (max amount (b.m_dataLength / 4))) none).drop b.m_writePos)
          (add32 b.m_dataLength (max amount (b.m_dataLength / 4))) ?_ ?_
        · change Heap.delete w.heap b.owns = _ at hheap
          cases hdelete : b.m_deleteData with
          | false =>
            have hsame : heap = w.heap := by
              rw [Object.owns, hdelete] at hheap
              exact (Except.ok.inj hheap).symm
            simp [step, hi, deref, Object.enlargeData, hresize, hdata, hcells, hfits, hdelete,
              hsame]
          | true =>
            have hupdate : heap = update w.heap old none := by
              rw [Object.owns, hdelete, if_pos rfl, hdata, Heap.delete, hcells] at hheap
              exact (Except.ok.inj hheap).symm
            simp [step, hi, deref, Object.enlargeData, hresize, hdata, hcells, hfits, hdelete,
              hupdate, Heap.delete, hne, update_comm hne]
        · simp [Values.step, hvalue, deref, Buffer.enlargeData, Object.value, hresize, hdata,
            hcells, hfits]
      · refine refines_of_error (f := .outOfBounds) ?_ ?_
        · simp [step, hi, deref, Object.enlargeData, hresize, hdata, hcells, hfits]
        · simp [Values.step, hvalue, deref, Buffer.enlargeData, Object.value, hresize, hdata,
            hcells, hfits]

/-- What two different buffers do when one takes over the data of the other. -/
theorem Sound.takeData (h : Sound w) (hi : w.objects i = some b) (hj : w.objects j = some c)
    (hij : i ≠ j) {heap : Memory} (hheap : Heap.delete w.heap b.owns = .ok heap)
    {o : Option Object} (ho : ∀ d, o = some d → d.m_data = none) :
    let w' : World ι := { w with
      heap, objects := update (update w.objects i (some (b.takeData c))) j o }
    values w' = { values w with
      objects := update (update (values w).objects i (some (Values.takeData (b.value w.heap)
        (c.value w.heap)))) j (o.map fun d => d.value heap) } ∧ Sound w' := by
  obtain ⟨heap', hheap', howned, hothers, hclient, -⟩ := h.delete (owns_eq hi)
  obtain rfl := Except.ok.inj (hheap.symm.trans hheap')
  let w₁ : World ι := { w with heap, objects := update w.objects i (some (b.takeData c)) }
  have hsame : ∀ a, c.m_data = some a → heap a = w.heap a := hothers j hij.symm c hj
  have htaken : (b.takeData c).value heap = Values.takeData (b.value w.heap) (c.value w.heap) := by
    have hdata : c.m_data.bind heap = c.m_data.bind w.heap := by
      cases hc : c.m_data with
      | none => rfl
      | some a => exact hsame a hc
    simp [Object.value, Object.takeData, Values.takeData, hdata]
  let w₂ : World ι := { w₁ with objects := update w₁.objects j o }
  have hfirst : (values w₁).objects = update (values w).objects i
      (some ((b.takeData c).value heap)) :=
    values_objects (T := Object.type) (o := some (b.takeData c)) rfl hothers
  have hsecond : (values w₂).objects = update (values w₁).objects j
      (o.map fun d => d.value heap) := values_objects rfl fun _ _ _ _ _ _ => rfl
  rw [hfirst, htaken] at hsecond
  refine ⟨Values.ext hsecond (values_blocks rfl hclient), ?_, ?_⟩
  · have hnone : o.bind Object.type.owns = none := by
      cases o with
      | none => rfl
      | some d => simp [Object.type, Object.owns, ho d rfl]
    have hmove := howned.move (i := j) (update_self ..) hij
    rw [update_of_ne hij.symm, owns_eq hj] at hmove
    change Owned heap (Lib.World.owns Object.type (update (update w.objects i _) j o)) w.client
    rw [owns_update, owns_update, hnone, update_comm hij]
    rw [update_comm hij, update_idem] at hmove
    exact hmove
  · intro k d hk a ha
    change update (update w.objects i (some (b.takeData c))) j o k = some d at hk
    rcases eq_or_ne k j with rfl | hkj
    · rw [update_self] at hk
      cases (ho d hk).symm.trans ha
    · rw [update_of_ne hkj] at hk
      rcases eq_or_ne k i with rfl | hki
      · rw [update_self] at hk
        obtain rfl := Option.some.inj hk
        exact h.lent j c hj a ha
      · rw [update_of_ne hki] at hk
        exact h.lent k d hk a ha

theorem refines_takeDataAndDelete (h : Sound w) (hi : w.objects i = some b)
    (hj : w.objects j = some c) (hij : i ≠ j) : Refines w (.takeDataAndDelete i j) := by
  obtain ⟨heap, hheap, -⟩ := h.delete (owns_eq hi)
  obtain ⟨heq, hsound⟩ := h.takeData hi hj hij hheap (o := none) (by simp)
  refine refines_of_ok ?_ ?_ hsound heq
  · simp [step, hi, hj, deref, (deleteData_eq b w.heap).trans hheap, hij]
  · simp [Values.step, values_of_object hi, values_of_object hj, deref]

theorem refines_takeDataAndClear (h : Sound w) (hi : w.objects i = some b)
    (hj : w.objects j = some c) : Refines w (.takeDataAndClear i j) := by
  obtain ⟨heap, hheap, -, -, hclient, -⟩ := h.delete (owns_eq hi)
  rcases eq_or_ne i j with rfl | hij
  · -- a buffer that takes over its own data deletes it, and forgets it afterwards
    have hstep : step w (.takeDataAndClear i i) = .ok { w with
        heap, objects := update w.objects i (some (b.takeData b).takenFrom) } := by
      simp [step, hi, deref, (deleteData_eq b w.heap).trans hheap]
    have hvalues : Values.step (values w) (.takeDataAndClear i i) = .ok { values w with
        objects := update (values w).objects i
          (some (Values.takenFrom (Values.takeData (b.value w.heap) (b.value w.heap)))) } := by
      simp [Values.step, values_of_object hi, deref]
    refine refines_of_changes hstep hvalues (h.changes_of_delete (owns_eq hi) hheap ?_) rfl
      (values_blocks rfl hclient)
    rintro _ ⟨⟩
    rfl
  · obtain ⟨heq, hsound⟩ := h.takeData hi hj hij hheap (o := some c.takenFrom)
      (by rintro _ ⟨⟩; rfl)
    refine refines_of_ok ?_ ?_ hsound heq
    · simp [step, hi, hj, deref, (deleteData_eq b w.heap).trans hheap, hij.symm]
    · simp [Values.step, values_of_object hi, values_of_object hj, deref, hij.symm]
      rfl

theorem refines_allocate (h : Sound w) {a : ℕ} (ha : w.heap a = none)
    (cells : List (Option UInt8)) : Refines w (.allocate a cells) :=
  refines_of_ok rfl rfl (h.allocate ha cells).1 (h.allocate ha cells).2

theorem refines_delete (h : Sound w) {a : ℕ} (ha : a ∈ w.client)
    (hunused : w.Unused Object.type a) : Refines w (.delete a) := by
  have hstep : step w (.delete a) = .ok { w with
      heap := update w.heap a none, client := w.client.erase a } := by
    simp [step, Heap.delete, h.owned.held a ha]
  exact refines_of_ok hstep rfl (h.discard ha hunused).1 (h.discard ha hunused).2

/-- **Every action** does to the world what it does to the values. -/
theorem refines_of_allowed (h : Sound w) {act : Action ι} (hok : w.Allowed act) :
    Refines w act := by
  cases act with
  | construct i length a => exact refines_construct h hok.1 hok.2
  | adopt i a len valid => exact refines_adopt h hok.1 hok.2.1 hok.2.2
  | lend i a len => exact refines_lend h hok.1 hok.2
  | copy i j a =>
    obtain ⟨hi, hj, ha⟩ := hok
    obtain ⟨b, hb⟩ := Option.isSome_iff_exists.mp hj
    exact refines_copy h hi hb ha
  | enlargeData i amount a =>
    obtain ⟨b, hb⟩ := Option.isSome_iff_exists.mp hok.1
    exact refines_enlargeData h hb hok.2
  | store i pos data =>
    obtain ⟨b, hb, hdelete⟩ := hok
    exact refines_store h hb hdelete pos data
  | seek i r k v =>
    obtain ⟨b, hb⟩ := Option.isSome_iff_exists.mp hok
    exact refines_seek h hb r k v
  | releaseData i p =>
    obtain ⟨b, hb, rfl⟩ := hok
    exact refines_releaseData h hb
  | takeDataAndClear i j =>
    obtain ⟨b, hb⟩ := Option.isSome_iff_exists.mp hok.1
    obtain ⟨c, hc⟩ := Option.isSome_iff_exists.mp hok.2
    exact refines_takeDataAndClear h hb hc
  | takeDataAndDelete i j =>
    obtain ⟨b, hb⟩ := Option.isSome_iff_exists.mp hok.2.1
    obtain ⟨c, hc⟩ := Option.isSome_iff_exists.mp hok.2.2
    exact refines_takeDataAndDelete h hb hc hok.1
  | destroy i =>
    obtain ⟨b, hb⟩ := Option.isSome_iff_exists.mp hok
    exact refines_destroy h hb
  | allocate a cells => exact refines_allocate h hok cells
  | delete a => exact refines_delete h hok.1 hok.2

end World

/-! ## Every run -/

section Run

variable {ι : Type} [DecidableEq ι]

/-- A step of the buffers. -/
def World.next (w : World ι) (act : Action ι) : Option (World ι) := (w.step act).toOption

/-- A step of the values. -/
def Values.next (v : Values ι) (act : Action ι) : Option (Values ι) := (v.step act).toOption

/-- No values. -/
def Values.empty : Values ι := ⟨fun _ => none, fun _ => none⟩

/-- **Buffers are values**: in every run that the language and the client allow, what is in a buffer
is what the buffers that are values have, the next step fails if and only if it does for the
values, no buffer points to what was deleted, and every area is the client's or is deleted by the
destructor of exactly one buffer. -/
theorem values_of_run {w : World ι} {acts : List (Action ι)}
    (hok : AllSteps World.next World.Allowed Lib.World.empty acts)
    (hrun : run World.next Lib.World.empty acts = some w) :
    run Values.next Values.empty acts = some w.values ∧
      (∀ act, w.Allowed act → (w.step act).map World.values = w.values.step act) ∧
      (∀ i b, w.objects i = some b → ∀ a, b.m_data = some a → (w.heap a).isSome) ∧
      ∀ a, (w.heap a).isSome →
        (a ∈ w.client ∧ ∀ i b, w.objects i = some b → b.owns ≠ some a) ∨
          a ∉ w.client ∧ ∃! i, ∃ b, w.objects i = some b ∧ b.owns = some a := by
  have hstep : ∀ (s : World ι) act s', s.Sound → s.Allowed act → s.next act = some s' →
      s'.Sound := fun s act s' hs hact hnext =>
    (World.refines_of_allowed hs hact).2 s' (Exec.toOption_eq_some.mp hnext)
  have hsim : ∀ (s : World ι) act s', s.Sound → s.Allowed act → s.next act = some s' →
      s.values.next act = some s'.values := by
    intro s act s' hs hact hnext
    rw [Values.next, Exec.toOption_eq_some, ← (World.refines_of_allowed hs hact).1,
      Exec.toOption_eq_some.mp hnext]
    rfl
  have hinit : World.Sound (Lib.World.empty : World ι) := Lib.World.Sound.empty
  have hsound := run_invariant hstep hinit hok hrun
  have hvalues := run_simulates hstep hsim hinit hok hrun
  have hempty : World.values (Lib.World.empty : World ι) = Values.empty := by
    simp [World.values, Lib.World.values, Lib.World.empty, Values.empty]
  rw [hempty] at hvalues
  exact ⟨hvalues, fun act hact => (World.refines_of_allowed hsound hact).1,
    fun i b hi a ha => hsound.live hi ha, fun a ha => hsound.owner ha⟩

/-- A buffer that was stored to is copied, and the copy takes over its data, which has grown since;
the client allocates where the buffer has been, and lends what it has allocated. -/
def takeOver : List (Action Bool) :=
  [.construct false 4 1, .store false 0 [7, 8], .seek false 0 2 2, .copy true false 2,
    .enlargeData false 8 3, .allocate 1 [some 5], .takeDataAndClear true false, .destroy false,
    .lend false 1 1]

theorem values_of_run_takeOver : ∃ w, run World.next Lib.World.empty takeOver = some w ∧
    run Values.next Values.empty takeOver = some w.values := by
  have hsome : (run World.next Lib.World.empty takeOver).isSome := by decide +kernel
  obtain ⟨w, hw⟩ := Option.isSome_iff_exists.mp hsome
  exact ⟨w, hw, (values_of_run (by decide +kernel) hw).1⟩

end Run

end Buffers

end CppCore.Utils
