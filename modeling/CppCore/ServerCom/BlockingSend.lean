import CppCore.Lib.Machine
import Mathlib.Algebra.BigOperators.Group.List.Basic
import Mathlib.Data.List.AList

/-!
# The blocking send loop

`ServerHandler::sendBlocking` hands the connection manager what is left of a buffer until a write
reports as many bytes as it was asked for.  The status of a write goes from the socket to the
connection, which drops it, and the loop looks at the number of bytes only.  A write that fails
leaves that number as it was: what the last write that succeeded put there or, before the first
one, whatever was in the memory of the variable.

What the kernel answers to the writes to come is a sequence: it fails a write, or takes as many
bytes as it says if it is asked for that many.

## Main definitions

* `pal_socket_write`, `Connection.write`, `ConnectionManager.writeBlocking` — one write.
* `Send`, `turn`, `turns`, `sendBlocking` — the loop.
* `turns_ok` — the loop stays inside of the buffer, whatever the writes return.
* `Faithful`, `sendBlocking_faithful_iff` — what the result should say and when it does.
-/

namespace CppCore.ServerCom

open Lib

/-! ## One write -/

/-- The results of a write. -/
inductive PStatus
  | PAL_OK
  | PAL_WRITE_ERROR
  | PAL_SOCKET_INPUT_PARAM
  | PAL_SOCKET_NOT_CONNECTED
  deriving DecidableEq, Repr

/-- A socket. -/
structure SocketContext where
  /-- The file descriptor, `0` if the socket is not connected. -/
  fd : ℕ
  /-- What the kernel answers to the writes to come: `none` for `-1`, else the bytes it takes. -/
  answers : ℕ → Option ℕ
  /-- The bytes it has accepted. -/
  accepted : List UInt8

namespace SocketContext

/-- The bytes the next `j` writes take in a buffer with more than that, if none of them fails. -/
def taken (s : SocketContext) : ℕ → ℕ
  | 0 => 0
  | j + 1 => s.taken j + (s.answers j).getD 0

/-- More writes take more bytes. -/
theorem taken_le (s : SocketContext) (j n : ℕ) : s.taken j ≤ s.taken (j + n) := by
  induction n with
  | zero => exact le_rfl
  | succ n ih => exact ih.trans (Nat.le_add_right _ _)

end SocketContext

/-- `pal_socket_write`: the status, `*sizeWritten` and the socket after it.  A pointer is what
stands from it to the end of its object, `none` the null pointer. -/
def pal_socket_write (socketContext : SocketContext) (buffer : Option (List UInt8))
    (sizeToWrite sizeWritten : ℕ) : Exec (PStatus × ℕ × SocketContext) :=
  if socketContext.fd = 0 then
    .ok (.PAL_SOCKET_NOT_CONNECTED, sizeWritten, socketContext)
  else match buffer with
  | none => .ok (.PAL_SOCKET_INPUT_PARAM, sizeWritten, socketContext)
  | some buffer => do
    let bytes ← slice buffer 0 sizeToWrite
    let next := { socketContext with answers := fun i => socketContext.answers (i + 1) }
    match socketContext.answers 0 with
    | none => .ok (.PAL_WRITE_ERROR, sizeWritten, next)
    | some k =>
      .ok (.PAL_OK, min k sizeToWrite,
        { next with accepted := socketContext.accepted ++ bytes.take (min k sizeToWrite) })

/-- A connection to the server. -/
structure Connection where
  /-- Its socket. -/
  m_palConnection : SocketContext

/-- `Connection::write`: the status of the socket is dropped. -/
def Connection.write (c : Connection) (buffer : Option (List UInt8))
    (sizeToWrite sizeWritten : ℕ) : Exec (ℕ × Connection) := do
  let (_, sizeWritten, s) ← pal_socket_write c.m_palConnection buffer sizeToWrite sizeWritten
  .ok (sizeWritten, { c with m_palConnection := s })

/-- The results of `writeBlocking`. -/
inductive WriteStatus
  | NO_SUCH_CONNECTION_AVAILABLE
  | SUCCESSFULLY_WROTE_EVERYTHING
  deriving DecidableEq, Repr

/-- The connection manager. -/
structure ConnectionManager where
  /-- The connections. -/
  m_networkConnections : AList fun _ : UInt32 => Connection

namespace ConnectionManager

/-- `ConnectionManager::writeBlocking`: the status, `*sizeWritten` and the manager after it. -/
def writeBlocking (m : ConnectionManager) (connectionId : UInt32) (buffer : Option (List UInt8))
    (sizeToWrite sizeWritten : ℕ) : Exec (WriteStatus × ℕ × ConnectionManager) :=
  match m.m_networkConnections.lookup connectionId with
  | none => .ok (.NO_SUCH_CONNECTION_AVAILABLE, sizeWritten, m)
  | some c => do
    let (sizeWritten, c) ← c.write buffer sizeToWrite sizeWritten
    .ok (.SUCCESSFULLY_WROTE_EVERYTHING, sizeWritten,
      ⟨m.m_networkConnections.insert connectionId c⟩)

/-- `ConnectionManager::closeConnection`: so far it only prints. -/
def closeConnection (m : ConnectionManager) (_connId : UInt32) : ConnectionManager := m

/-- The bytes the socket of a connection has accepted. -/
def accepted (m : ConnectionManager) (connectionId : UInt32) : List UInt8 :=
  (m.m_networkConnections.lookup connectionId).elim [] fun c => c.m_palConnection.accepted

/-- The next write to a connection will fail. -/
def WriteFails (m : ConnectionManager) (connectionId : UInt32) : Prop :=
  ∀ c ∈ m.m_networkConnections.lookup connectionId,
    c.m_palConnection.fd = 0 ∨ c.m_palConnection.answers 0 = none

end ConnectionManager

/-! ## The loop -/

/-- `ServerHandler::ensureConnection`. -/
def ensureConnection : Bool := true

/-- A call of `sendBlocking( buffer, size )` in its loop. -/
structure Send where
  /-- The connection manager. -/
  m_cm : ConnectionManager
  /-- The bytes from the write pointer to the end of the buffer. -/
  bufferChar : List UInt8
  /-- The bytes still to write. -/
  size : ℕ
  /-- The number of bytes the last write reported. -/
  written : ℕ
  /-- What the call has returned. -/
  returned : Option Bool

namespace Send

/-- The call when it comes to its loop. -/
def start (m : ConnectionManager) (buffer : List UInt8) (written : ℕ) : Send :=
  ⟨m, buffer, buffer.length, written, none⟩

/-- `bufferChar += written`. -/
def advance (bufferChar : List UInt8) (written : ℕ) : Exec (List UInt8) :=
  if written ≤ bufferChar.length then .ok (bufferChar.drop written) else .error .outOfBounds

/-- The body of the loop. -/
def turn (connectionId : UInt32) (s : Send) : Exec Send := do
  let (_, written, m) ← s.m_cm.writeBlocking connectionId (some s.bufferChar) s.size s.written
  -- `result` is set here, not to what the write returned
  let result := PStatus.PAL_OK
  if result ≠ .PAL_OK then
    .ok { s with
      m_cm := m.closeConnection connectionId
      written := written
      returned := some false }
  else if written < s.size then
    let bufferChar ← advance s.bufferChar written
    .ok { s with m_cm := m, bufferChar := bufferChar, size := sub32 s.size written,
                 written := written }
  else
    .ok { s with m_cm := m, written := written, returned := some true }

/-- The first `n` turns of the loop, or all of them if it ends before. -/
def turns (connectionId : UInt32) : ℕ → Send → Exec Send
  | 0, s => .ok s
  | n + 1, s =>
    if s.returned.isSome then .ok s
    else do
      let s ← s.turn connectionId
      turns connectionId n s

end Send

/-- `ServerHandler::sendBlocking( buffer, size )`, when it returns within `fuel` turns: what it
returns and the connection manager after it. -/
def sendBlocking (fuel : ℕ) (m : ConnectionManager) (connectionId : UInt32) (buffer : List UInt8)
    (written : ℕ) : Exec (Bool × ConnectionManager) :=
  if ensureConnection then do
    let s ← (Send.start m buffer written).turns connectionId fuel
    match s.returned with
    | some done => .ok (done, s.m_cm)
    | none => .error .outOfFuel
  else
    .ok (false, m)

/-! ## The loop stays inside of the buffer -/

/-- A write of bytes that are there has a result. -/
private theorem writeBlocking_ok (m : ConnectionManager) (connectionId : UInt32)
    (buffer : List UInt8) (written : ℕ) :
    ∃ r, m.writeBlocking connectionId (some buffer) buffer.length written = .ok r := by
  have hslice : slice buffer 0 buffer.length = .ok buffer := by simp [slice]
  simp only [ConnectionManager.writeBlocking, Connection.write, pal_socket_write]
  cases m.m_networkConnections.lookup connectionId with
  | none => exact ⟨_, rfl⟩
  | some c =>
    by_cases hfd : c.m_palConnection.fd = 0
    · simp [hfd]
    · cases hanswer : c.m_palConnection.answers 0 <;> simp [hfd, hslice, hanswer]

namespace Send

/-- The bytes still to write are those behind the write pointer. -/
structure Inside (s : Send) : Prop where
  size : s.size = s.bufferChar.length
  bound : s.bufferChar.length ≤ maxObject

theorem inside_start (m : ConnectionManager) {buffer : List UInt8} (written : ℕ)
    (hbuffer : buffer.length ≤ maxObject) : (start m buffer written).Inside := ⟨rfl, hbuffer⟩

/-- A turn keeps the write pointer in the buffer. -/
theorem turn_inside (connectionId : UInt32) {s : Send} (hs : s.Inside) :
    ∃ s', s.turn connectionId = .ok s' ∧ s'.Inside := by
  obtain ⟨⟨status, written, m⟩, hwrite⟩ :=
    writeBlocking_ok s.m_cm connectionId s.bufferChar s.written
  have hbound := hs.bound
  rw [← hs.size] at hwrite hbound
  rw [turn, hwrite, Exec.ok_bind]
  by_cases hlt : written < s.size
  · have hle : written ≤ s.bufferChar.length := by rw [← hs.size]; omega
    have hsub : sub32 s.size written = s.size - written := by
      apply sub32_of_le hlt.le
      rw [maxObject] at hbound
      omega
    simp only [ne_eq, not_true_eq_false, if_false, hlt, if_true, advance, if_pos hle, Exec.ok_bind]
    refine ⟨_, rfl, ?_, ?_⟩
    · rw [hsub, List.length_drop, hs.size]
    · rw [List.length_drop]
      exact (Nat.sub_le _ _).trans hs.bound
  · simp only [ne_eq, not_true_eq_false, if_false, hlt]
    exact ⟨_, rfl, hs.size, hs.bound⟩

/-- **Whatever the writes return, no turn of the loop leaves the buffer.** -/
theorem turns_ok (connectionId : UInt32) (n : ℕ) {s : Send} (hs : s.Inside) :
    ∃ s', s.turns connectionId n = .ok s' ∧ s'.Inside := by
  induction n generalizing s with
  | zero => exact ⟨s, rfl, hs⟩
  | succ n ih =>
    by_cases hreturned : s.returned.isSome
    · exact ⟨s, by rw [turns, if_pos hreturned], hs⟩
    · obtain ⟨s', hturn, hs'⟩ := turn_inside connectionId hs
      rw [turns, if_neg hreturned, hturn, Exec.ok_bind]
      exact ih hs'

/-- A turn that returns does not return `false`. -/
theorem turn_returned {connectionId : UInt32} {s s' : Send}
    (hturn : s.turn connectionId = .ok s') (hs : s.returned ≠ some false) :
    s'.returned ≠ some false := by
  rw [turn, Exec.bind_eq_ok] at hturn
  obtain ⟨⟨status, written, m⟩, -, hturn⟩ := hturn
  simp only [ne_eq, not_true_eq_false, if_false] at hturn
  by_cases hlt : written < s.size
  · rw [if_pos hlt, Exec.bind_eq_ok] at hturn
    obtain ⟨bufferChar, -, hturn⟩ := hturn
    obtain rfl := Except.ok.inj hturn
    exact hs
  · rw [if_neg hlt] at hturn
    obtain rfl := Except.ok.inj hturn
    simp

/-- The loop never returns `false`. -/
theorem turns_returned {connectionId : UInt32} (n : ℕ) {s s' : Send}
    (hturns : s.turns connectionId n = .ok s') (hs : s.returned ≠ some false) :
    s'.returned ≠ some false := by
  induction n generalizing s with
  | zero => exact Except.ok.inj hturns ▸ hs
  | succ n ih =>
    rw [turns] at hturns
    by_cases hreturned : s.returned.isSome
    · rw [if_pos hreturned] at hturns
      exact Except.ok.inj hturns ▸ hs
    · rw [if_neg hreturned, Exec.bind_eq_ok] at hturns
      obtain ⟨t, hturn, hturns⟩ := hturns
      exact ih hturns (turn_returned hturn hs)

/-! ## When the result is true -/

/-- A call after `j` writes that did not fail, to the connection that was `c` before the first. -/
structure Sending (connectionId : UInt32) (c : Connection) (buffer : List UInt8) (j : ℕ)
    (s : Send) : Prop where
  returned : s.returned = none
  more : j = 0 ∨ c.m_palConnection.taken j < buffer.length
  pointer : s.bufferChar = buffer.drop (c.m_palConnection.taken j)
  inside : s.Inside
  connection : s.m_cm.m_networkConnections.lookup connectionId = some ⟨
    { fd := c.m_palConnection.fd
      answers := fun i => c.m_palConnection.answers (i + j)
      accepted := c.m_palConnection.accepted ++
        buffer.take (c.m_palConnection.taken j) }⟩

/-- A call that has returned `true` and sent the buffer. -/
structure Sent (connectionId : UInt32) (c : Connection) (buffer : List UInt8) (s : Send) :
    Prop where
  returned : s.returned = some true
  accepted : s.m_cm.accepted connectionId = c.m_palConnection.accepted ++ buffer

variable {connectionId : UInt32} {c : Connection} {buffer : List UInt8} {j : ℕ} {s : Send}

theorem sending_start {m : ConnectionManager} (written : ℕ)
    (hlookup : m.m_networkConnections.lookup connectionId = some c)
    (hbuffer : buffer.length ≤ maxObject) :
    Sending connectionId c buffer 0 (start m buffer written) where
  returned := rfl
  more := .inl rfl
  pointer := rfl
  inside := inside_start m written hbuffer
  connection := by simp [start, hlookup, SocketContext.taken]

/-- A write that takes `k` bytes. -/
private theorem Sending.write (hs : Sending connectionId c buffer j s)
    (hfd : c.m_palConnection.fd ≠ 0) {k : ℕ} (hk : c.m_palConnection.answers j = some k) :
    ∃ m, s.m_cm.writeBlocking connectionId (some s.bufferChar) s.size s.written =
        .ok (.SUCCESSFULLY_WROTE_EVERYTHING, min k s.size, m) ∧
      m.m_networkConnections.lookup connectionId = some ⟨
        { fd := c.m_palConnection.fd
          answers := fun i => c.m_palConnection.answers (i + (j + 1))
          accepted := c.m_palConnection.accepted ++
            buffer.take (c.m_palConnection.taken j) ++ s.bufferChar.take (min k s.size) }⟩ := by
  have hslice : slice s.bufferChar 0 s.size = .ok s.bufferChar := by
    rw [hs.inside.size]
    simp [slice]
  have hshift : (fun i => c.m_palConnection.answers (i + 1 + j)) =
      fun i => c.m_palConnection.answers (i + (j + 1)) := by
    funext i
    rw [Nat.add_assoc, Nat.add_comm 1 j]
  rw [ConnectionManager.writeBlocking, hs.connection]
  simp only [Connection.write, pal_socket_write, hfd, if_false, hslice, Exec.ok_bind, Nat.zero_add,
    hk, hshift]
  exact ⟨_, rfl, AList.lookup_insert _⟩

/-- **One turn with a write that does not fail**: either there is more to send, or all is sent. -/
theorem turn_sending (hs : Sending connectionId c buffer j s) (hfd : c.m_palConnection.fd ≠ 0)
    (hanswer : c.m_palConnection.answers j ≠ none) :
    ∃ s', s.turn connectionId = .ok s' ∧
      ((c.m_palConnection.taken (j + 1) < buffer.length ∧
          Sending connectionId c buffer (j + 1) s') ∨
        (buffer.length ≤ c.m_palConnection.taken (j + 1) ∧
          Sent connectionId c buffer s')) := by
  obtain ⟨k, hk⟩ := Option.ne_none_iff_exists'.mp hanswer
  obtain ⟨m, hwrite, hlookup⟩ := hs.write hfd hk
  obtain ⟨s', hturn, hinside⟩ := turn_inside connectionId hs.inside
  have hsize : s.size = buffer.length - c.m_palConnection.taken j := by
    rw [hs.inside.size, hs.pointer, List.length_drop]
  have htaken : c.m_palConnection.taken (j + 1) = c.m_palConnection.taken j + k := by
    simp [SocketContext.taken, hk]
  have hmore := hs.more
  have hzero : j = 0 → c.m_palConnection.taken j = 0 := by
    rintro rfl
    rfl
  rw [turn, hwrite, Exec.ok_bind] at hturn
  simp only [ne_eq, not_true_eq_false, if_false] at hturn
  refine ⟨s', by rw [Send.turn, hwrite, Exec.ok_bind]; exact hturn, ?_⟩
  by_cases hlt : min k s.size < s.size
  · have hmin : min k s.size = k := by omega
    rw [if_pos hlt, Exec.bind_eq_ok] at hturn
    obtain ⟨bufferChar, hadvance, hturn⟩ := hturn
    have hle : k ≤ s.bufferChar.length := by
      rw [← hs.inside.size]
      omega
    rw [hmin, advance, if_pos hle] at hadvance
    obtain rfl := Except.ok.inj hadvance
    obtain rfl := Except.ok.inj hturn
    refine .inl ⟨by omega, hs.returned, .inr (by omega), ?_, hinside, ?_⟩
    · rw [hs.pointer, List.drop_drop, htaken]
    · rw [hlookup, hmin, htaken, hs.pointer, List.append_assoc, ← List.take_add]
  · rw [if_neg hlt] at hturn
    obtain rfl := Except.ok.inj hturn
    have hmin : min k s.size = s.bufferChar.length := by
      rw [← hs.inside.size]
      omega
    refine .inr ⟨by omega, rfl, ?_⟩
    rw [ConnectionManager.accepted, hlookup, Option.elim_some, hmin, List.take_length, hs.pointer,
      List.append_assoc, List.take_append_drop]

/-- Nothing more happens once the call has returned. -/
theorem turns_of_returned (h : s.returned.isSome) (n : ℕ) : s.turns connectionId n = .ok s := by
  cases n with
  | zero => rfl
  | succ n => rw [turns, if_pos h]

/-- The turns before the first write that fails. -/
theorem turns_sending (hfd : c.m_palConnection.fd ≠ 0) (n : ℕ)
    (hs : Sending connectionId c buffer j s)
    (hmore : n = 0 ∨ c.m_palConnection.taken (j + n) < buffer.length)
    (hanswers : ∀ i < n, c.m_palConnection.answers (j + i) ≠ none) :
    ∃ s', s.turns connectionId n = .ok s' ∧ Sending connectionId c buffer (j + n) s' := by
  induction n generalizing j s with
  | zero => exact ⟨s, rfl, hs⟩
  | succ n ih =>
    have hindex : j + (n + 1) = j + 1 + n := by omega
    have hlt : c.m_palConnection.taken (j + 1 + n) < buffer.length := by
      rw [← hindex]
      exact hmore.resolve_left (Nat.succ_ne_zero n)
    have hle := c.m_palConnection.taken_le (j + 1) n
    obtain ⟨s', hturn, ⟨-, hs'⟩ | ⟨hall, -⟩⟩ := turn_sending hs hfd (hanswers 0 n.succ_pos)
    · rw [turns, hs.returned, if_neg (by simp), hturn, Exec.ok_bind, hindex]
      refine ih hs' (.inr hlt) fun i hi => ?_
      rw [Nat.add_right_comm]
      exact hanswers (i + 1) (by omega)
    · omega

/-- When no write fails, the call goes on or has sent everything. -/
theorem turns_of_answers (hfd : c.m_palConnection.fd ≠ 0)
    (hanswers : ∀ i, (i = 0 ∨ c.m_palConnection.taken i < buffer.length) →
      c.m_palConnection.answers i ≠ none) (n : ℕ) {s' : Send}
    (hs : Sending connectionId c buffer j s) (hturns : s.turns connectionId n = .ok s') :
    Sending connectionId c buffer (j + n) s' ∨ Sent connectionId c buffer s' := by
  induction n generalizing j s with
  | zero => exact .inl (Except.ok.inj hturns ▸ hs)
  | succ n ih =>
    have hindex : j + (n + 1) = j + 1 + n := by omega
    rw [turns, hs.returned, if_neg (by simp)] at hturns
    obtain ⟨t, hturn, ⟨-, ht⟩ | ⟨-, ht⟩⟩ := turn_sending hs hfd (hanswers j hs.more)
    · rw [hturn, Exec.ok_bind] at hturns
      rw [hindex]
      exact ih ht hturns
    · rw [hturn, Exec.ok_bind, turns_of_returned (by simp [ht.returned])] at hturns
      exact .inr (Except.ok.inj hturns ▸ ht)

end Send

/-- A call that returns is in a state in which it has. -/
theorem sendBlocking_eq_ok {fuel : ℕ} {m m' : ConnectionManager} {connectionId : UInt32}
    {buffer : List UInt8} {written : ℕ} {done : Bool} :
    sendBlocking fuel m connectionId buffer written = .ok (done, m') ↔
      ∃ s, (Send.start m buffer written).turns connectionId fuel = .ok s ∧
        s.returned = some done ∧ s.m_cm = m' := by
  rw [sendBlocking, ensureConnection, if_pos rfl, Exec.bind_eq_ok]
  refine exists_congr fun s => and_congr_right fun _ => ?_
  cases h : s.returned <;> simp

/-- What the result of `sendBlocking` should say, `written` being what is in the count at first. -/
structure Faithful (m : ConnectionManager) (connectionId : UInt32) (buffer : List UInt8)
    (written : ℕ) : Prop where
  /-- A call that returns `true` has sent the buffer. -/
  complete : ∀ fuel m', sendBlocking fuel m connectionId buffer written = .ok (true, m') →
    m'.accepted connectionId = m.accepted connectionId ++ buffer
  /-- A call with a write that fails returns `false`. -/
  failed : ∀ n s, (Send.start m buffer written).turns connectionId n = .ok s → s.returned = none →
    s.m_cm.WriteFails connectionId →
      ∃ fuel m', sendBlocking fuel m connectionId buffer written = .ok (false, m')
  /-- The write pointer stays in the buffer. -/
  inside : ∀ fuel, sendBlocking fuel m connectionId buffer written ≠ .error .outOfBounds

/-- The connection is there, and the kernel answers the writes with numbers of bytes until these
are the bytes of the buffer. -/
def NoWriteFails (m : ConnectionManager) (connectionId : UInt32) (buffer : List UInt8) : Prop :=
  ∃ c ∈ m.m_networkConnections.lookup connectionId, c.m_palConnection.fd ≠ 0 ∧
    ∀ j, (j = 0 ∨ c.m_palConnection.taken j < buffer.length) →
      c.m_palConnection.answers j ≠ none

/-- `sendBlocking` never returns `false`. -/
theorem sendBlocking_ne_false (fuel : ℕ) (m m' : ConnectionManager) (connectionId : UInt32)
    (buffer : List UInt8) (written : ℕ) :
    sendBlocking fuel m connectionId buffer written ≠ .ok (false, m') := by
  intro h
  obtain ⟨s, hturns, hreturned, -⟩ := sendBlocking_eq_ok.mp h
  exact Send.turns_returned fuel hturns (by simp [Send.start]) hreturned

/-- The loop stays in the buffer, whatever the writes return. -/
theorem sendBlocking_inside (fuel : ℕ) (m : ConnectionManager) (connectionId : UInt32)
    {buffer : List UInt8} (hbuffer : buffer.length ≤ maxObject) (written : ℕ) :
    sendBlocking fuel m connectionId buffer written ≠ .error .outOfBounds := by
  obtain ⟨s, hturns, -⟩ :=
    Send.turns_ok connectionId fuel (Send.inside_start m written hbuffer)
  rw [sendBlocking, ensureConnection, if_pos rfl, hturns, Exec.ok_bind]
  cases s.returned <;> simp

/-- As long as no write fails, the result says what it should. -/
theorem NoWriteFails.faithful {m : ConnectionManager} {connectionId : UInt32}
    {buffer : List UInt8} (hbuffer : buffer.length ≤ maxObject) (written : ℕ)
    (h : NoWriteFails m connectionId buffer) : Faithful m connectionId buffer written := by
  obtain ⟨c, hc, hfd, hanswers⟩ := h
  have hstart := Send.sending_start written hc hbuffer
  refine ⟨?_, ?_, fun fuel => sendBlocking_inside fuel m connectionId hbuffer written⟩
  · intro fuel m' hsend
    obtain ⟨s, hturns, hreturned, rfl⟩ := sendBlocking_eq_ok.mp hsend
    obtain hs | hs := Send.turns_of_answers hfd hanswers fuel hstart hturns
    · rw [hs.returned] at hreturned
      cases hreturned
    · rw [hs.accepted, ConnectionManager.accepted, hc, Option.elim_some]
  · intro n s hturns hreturned hfails
    obtain hs | hs := Send.turns_of_answers hfd hanswers n hstart hturns
    · obtain hzero | hnone := hfails _ hs.connection
      · exact absurd hzero hfd
      · exact absurd (by simpa using hnone) (hanswers (0 + n) hs.more)
    · rw [hs.returned] at hreturned
      cases hreturned

/-- **The result of `sendBlocking` says what it should exactly when no write fails.** -/
theorem sendBlocking_faithful_iff (m : ConnectionManager) (connectionId : UInt32)
    (buffer : { bytes : List UInt8 // bytes.length ≤ maxObject }) (written : ℕ) :
    Faithful m connectionId buffer.val written ↔ NoWriteFails m connectionId buffer.val := by
  refine ⟨fun h => ?_, fun h => h.faithful buffer.property written⟩
  have hnever : ∀ n s, (Send.start m buffer.val written).turns connectionId n = .ok s →
      s.returned = none → ¬s.m_cm.WriteFails connectionId := by
    intro n s hturns hreturned hfails
    obtain ⟨fuel, m', hfalse⟩ := h.failed n s hturns hreturned hfails
    exact sendBlocking_ne_false fuel m m' connectionId buffer.val written hfalse
  have hfirst := hnever 0 _ rfl rfl
  simp only [Send.start, ConnectionManager.WriteFails, not_forall, not_or] at hfirst
  obtain ⟨c, hc, hfd, -⟩ := hfirst
  refine ⟨c, hc, hfd, fun j => ?_⟩
  induction j using Nat.strong_induction_on with
  | _ j ih =>
    intro hmore hnone
    have hbefore : ∀ i < j, c.m_palConnection.answers (0 + i) ≠ none := by
      intro i hi
      have hle := c.m_palConnection.taken_le i (j - i)
      rw [Nat.add_sub_cancel' hi.le] at hle
      rw [Nat.zero_add]
      exact ih i hi (.inr (by omega))
    obtain ⟨s, hturns, hs⟩ := Send.turns_sending hfd j
      (Send.sending_start written hc buffer.property) (by rwa [Nat.zero_add]) hbefore
    refine hnever j s hturns hs.returned fun c' hc' => .inr ?_
    rw [hs.connection] at hc'
    obtain rfl := Option.some.inj hc'
    simpa using hnone

/-- A socket that fails every write, and a count that holds the size of the buffer by chance. -/
theorem not_forall_sendBlocking_faithful :
    ¬∀ m connectionId (buffer : { bytes : List UInt8 // bytes.length ≤ maxObject }) written,
      Faithful m connectionId buffer.val written := by
  intro h
  let c : Connection := ⟨{ fd := 3, answers := fun _ => none, accepted := [] }⟩
  let m : ConnectionManager := ⟨(∅ : AList fun _ : UInt32 => Connection).insert 0 c⟩
  obtain ⟨m', hsend⟩ : ∃ m', sendBlocking 1 m 0 [7] 1 = .ok (true, m') := ⟨_, rfl⟩
  have hsent := (h m 0 ⟨[7], by decide⟩ 1).complete 1 m' hsend
  obtain ⟨s, hturns, -, rfl⟩ := sendBlocking_eq_ok.mp hsend
  obtain rfl := Except.ok.inj hturns
  exact absurd hsent (by decide)

end CppCore.ServerCom
