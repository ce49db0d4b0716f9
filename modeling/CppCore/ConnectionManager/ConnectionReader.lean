import CppCore.Ngp.PacketFactory

/-!
# The connection reader

The thread of a connection reads packets one after the other: five bytes of header, then as many
bytes as the header announces, which the packet factory makes a reply of.  A read may return
fewer bytes than it was asked for; one that fails, or meets the end of the stream, ends the loop.

The socket is the bytes that are still to come, the sizes of the chunks it will hand them out in,
and what it reports behind the last one.

## Main definitions

* `Socket`, `pal_socket_read` — the stream and one read.
* `ConnectionReader`, `run` — the reader and its loop; `turns` the first turns of the loop.
* `Written` — the bytes `NavPacket::writeTo` makes of some packet.
* `receivePacket_written` — one packet is read, whatever the chunks and the bytes behind it.
* `run_stream` — a stream of packets that may end inside of one.
-/

namespace CppCore.ConnectionManager

open Lib Ngp

/-! ## The socket -/

/-- The results of a read. -/
inductive PStatus
  | PAL_OK
  | PAL_SOCKET_END_OF_FILE
  | PAL_READ_ERROR
  deriving DecidableEq, Repr

/-- A connected socket. -/
structure Socket where
  /-- The bytes still to come. -/
  pending : List UInt8
  /-- The sizes of the chunks to come: the first one is at most `chunk 0 + 1` bytes. -/
  chunk : ℕ → ℕ
  /-- What a read returns behind the last byte. -/
  ending : PStatus
  /-- That is the end of the stream or an error. -/
  ending_ne : ending ≠ .PAL_OK

/-- `pal_socket_read`: the status, the bytes read and the socket after it. -/
def pal_socket_read (s : Socket) (bytesToRead : ℕ) : PStatus × List UInt8 × Socket :=
  if bytesToRead = 0 then
    -- `read` returns zero, which is taken for the end of the stream
    (.PAL_SOCKET_END_OF_FILE, [], s)
  else if s.pending = [] then
    (s.ending, [], s)
  else
    let n := min (s.chunk 0 + 1) bytesToRead
    (.PAL_OK, s.pending.take n,
      { s with pending := s.pending.drop n, chunk := fun k => s.chunk (k + 1) })

/-- As long as there are bytes to come, a read returns some of them. -/
theorem pal_socket_read_pending {s : Socket} {n : ℕ} (hn : 0 < n) (hpending : s.pending ≠ []) :
    ∃ k s', pal_socket_read s n = (.PAL_OK, s.pending.take k, s') ∧ 0 < k ∧ k ≤ n ∧
      s'.pending = s.pending.drop k := by
  have hread := pal_socket_read.eq_1 s n
  rw [if_neg hn.ne', if_neg hpending] at hread
  exact ⟨_, _, hread, by omega, Nat.min_le_right _ _, rfl⟩

/-- Behind the last byte a read returns none. -/
theorem pal_socket_read_end {s : Socket} (n : ℕ) (hpending : s.pending = []) :
    ∃ status, pal_socket_read s n = (status, [], s) ∧ status ≠ .PAL_OK := by
  by_cases hn : n = 0
  · exact ⟨.PAL_SOCKET_END_OF_FILE, by rw [pal_socket_read, if_pos hn], by decide⟩
  · exact ⟨s.ending, by rw [pal_socket_read, if_neg hn, if_pos hpending], s.ending_ne⟩

/-! ## The reader -/

/-- The reader, for replies of type `φ`. -/
structure ConnectionReader (φ : Type) where
  /-- The connection. -/
  m_palConnection : Socket
  /-- The loop goes on. -/
  m_shouldRun : Bool
  /-- The packets `m_msgReceiver` was called with. -/
  received : List φ

variable {φ : Type}

namespace ConnectionReader

/-- A reader that was just started. -/
def start (s : Socket) : ConnectionReader φ := ⟨s, true, []⟩

/-- The loop of `receiveBlocking( buffer, bytesToRead )`: the bytes that were asked for, or none
if a read did not return any, and the reader after it. -/
def receiveLoop : ℕ → ConnectionReader φ → List UInt8 → ℕ →
    Exec (Option (List UInt8) × ConnectionReader φ)
  | 0, _, _, _ => .error .outOfFuel
  | fuel + 1, r, buffer, bytesToRead =>
    let (result, bytes, s) := pal_socket_read r.m_palConnection bytesToRead
    if result ≠ .PAL_OK then
      .ok (none, { r with m_palConnection := s, m_shouldRun := false })
    else if bytes.length < bytesToRead then
      receiveLoop fuel { r with m_palConnection := s } (buffer ++ bytes)
        (sub32 bytesToRead bytes.length)
    else
      .ok (some (buffer ++ bytes), { r with m_palConnection := s })

/-- `receiveBlocking( buffer, bytesToRead )`; a read that succeeds returns at least one byte. -/
def receiveBlocking (r : ConnectionReader φ) (bytesToRead : ℕ) :
    Exec (Option (List UInt8) × ConnectionReader φ) :=
  receiveLoop (bytesToRead + 1) r [] bytesToRead

/-- `receiveBlocking()`: the packet, or `none` for the null pointer, and the reader after it. -/
def receivePacket (createReplyPacketFromBuffer : List UInt8 → Option φ) (r : ConnectionReader φ) :
    Exec (Option φ × ConnectionReader φ) := do
  let (headerbuf, r) ← r.receiveBlocking HEADER_LENGTH
  match headerbuf with
  | none => .ok (none, r)
  | some headerbuf =>
    let (status, packLength) ← checkSTXAndSetPacketLength headerbuf HEADER_LENGTH 0
    if status ≠ .STX_VALID then
      .ok (none, r)
    else if maxObject < packLength then
      .error .lengthError
    else
      let (packet, r) ← r.receiveBlocking packLength
      .ok (packet.bind createReplyPacketFromBuffer, r)

/-- The body of the loop of `run`. -/
def turn (createReplyPacketFromBuffer : List UInt8 → Option φ) (r : ConnectionReader φ) :
    Exec (ConnectionReader φ) := do
  let (packet, r) ← r.receivePacket createReplyPacketFromBuffer
  match packet with
  | some packet => .ok { r with received := r.received ++ [packet] }
  | none => .ok r

/-- `ConnectionReader::run`. -/
def run (createReplyPacketFromBuffer : List UInt8 → Option φ) :
    ℕ → ConnectionReader φ → Exec (ConnectionReader φ)
  | 0, _ => .error .outOfFuel
  | fuel + 1, r =>
    if r.m_shouldRun then do
      let r ← r.turn createReplyPacketFromBuffer
      run createReplyPacketFromBuffer fuel r
    else
      .ok r

/-- The first `n` turns of the loop. -/
def turns (createReplyPacketFromBuffer : List UInt8 → Option φ) :
    ℕ → ConnectionReader φ → Exec (ConnectionReader φ)
  | 0, r => .ok r
  | n + 1, r => do
    let r ← r.turn createReplyPacketFromBuffer
    turns createReplyPacketFromBuffer n r

/-! ## Reading a number of bytes -/

/-- The loop reads the bytes asked for when they are there. -/
private theorem receiveLoop_of_le {fuel : ℕ} (r : ConnectionReader φ) (buffer : List UInt8) {n : ℕ}
    (hfuel : n < fuel) (hn : 0 < n) (hbound : n < 2 ^ 32)
    (hle : n ≤ r.m_palConnection.pending.length) :
    ∃ r' : ConnectionReader φ, r.receiveLoop fuel buffer n =
        .ok (some (buffer ++ r.m_palConnection.pending.take n), r') ∧
      r'.m_palConnection.pending = r.m_palConnection.pending.drop n ∧
      r'.m_shouldRun = r.m_shouldRun ∧ r'.received = r.received := by
  induction fuel generalizing r buffer n with
  | zero => omega
  | succ fuel ih =>
    have hpending : r.m_palConnection.pending ≠ [] := List.ne_nil_of_length_pos (by omega)
    obtain ⟨k, s, hread, hk, hkn, hs⟩ := pal_socket_read_pending hn hpending
    have hlen : (r.m_palConnection.pending.take k).length = k :=
      List.length_take_of_le (hkn.trans hle)
    rw [receiveLoop, hread]
    simp only [ne_eq, not_true_eq_false, if_false, hlen]
    by_cases hlt : k < n
    · rw [if_pos hlt, sub32_of_le hlt.le hbound]
      obtain ⟨r', hr', hrest, hrun, hreceived⟩ := ih { r with m_palConnection := s }
        (buffer ++ r.m_palConnection.pending.take k) (n := n - k) (by omega) (by omega) (by omega)
        (by rw [hs, List.length_drop]; omega)
      refine ⟨r', ?_, ?_, hrun, hreceived⟩
      · rw [hr', hs, List.append_assoc, ← List.take_add, Nat.add_sub_cancel' hlt.le]
      · rw [hrest, hs, List.drop_drop, Nat.add_sub_cancel' hlt.le]
    · obtain rfl : k = n := by omega
      rw [if_neg hlt]
      exact ⟨_, rfl, hs, rfl, rfl⟩

/-- The loop fails when there are not enough bytes. -/
private theorem receiveLoop_of_lt {fuel : ℕ} (r : ConnectionReader φ) (buffer : List UInt8) {n : ℕ}
    (hfuel : n < fuel) (hbound : n < 2 ^ 32) (hlt : r.m_palConnection.pending.length < n) :
    ∃ r' : ConnectionReader φ, r.receiveLoop fuel buffer n = .ok (none, r') ∧
      r'.m_shouldRun = false ∧ r'.received = r.received := by
  induction fuel generalizing r buffer n with
  | zero => omega
  | succ fuel ih =>
    by_cases hpending : r.m_palConnection.pending = []
    · obtain ⟨status, hread, hstatus⟩ := pal_socket_read_end n hpending
      rw [receiveLoop, hread]
      simp only [if_pos hstatus]
      exact ⟨_, rfl, rfl, rfl⟩
    · obtain ⟨k, s, hread, hk, hkn, hs⟩ := pal_socket_read_pending (by omega : 0 < n) hpending
      have hpos := List.length_pos_of_ne_nil hpending
      have hlen : (r.m_palConnection.pending.take k).length =
          min k r.m_palConnection.pending.length := List.length_take
      rw [receiveLoop, hread]
      simp only [ne_eq, not_true_eq_false, if_false, hlen]
      rw [if_pos (by omega), sub32_of_le (by omega) hbound]
      exact ih { r with m_palConnection := s } _ (by omega) (by omega)
        (by rw [hs, List.length_drop]; omega)

/-- **The bytes asked for are read when they are there**, whatever the chunks are. -/
theorem receiveBlocking_of_le (r : ConnectionReader φ) {n : ℕ} (hn : 0 < n) (hbound : n < 2 ^ 32)
    (hle : n ≤ r.m_palConnection.pending.length) :
    ∃ r' : ConnectionReader φ,
      r.receiveBlocking n = .ok (some (r.m_palConnection.pending.take n), r') ∧
      r'.m_palConnection.pending = r.m_palConnection.pending.drop n ∧
      r'.m_shouldRun = r.m_shouldRun ∧ r'.received = r.received :=
  receiveLoop_of_le r [] (Nat.lt_succ_self n) hn hbound hle

/-- **When the stream ends before them**, the reader is told to stop. -/
theorem receiveBlocking_of_lt (r : ConnectionReader φ) {n : ℕ} (hbound : n < 2 ^ 32)
    (hlt : r.m_palConnection.pending.length < n) :
    ∃ r' : ConnectionReader φ, r.receiveBlocking n = .ok (none, r') ∧
      r'.m_shouldRun = false ∧ r'.received = r.received :=
  receiveLoop_of_lt r [] (Nat.lt_succ_self n) hbound hlt

end ConnectionReader

/-! ## Packets -/

/-- The bytes `NavPacket::writeTo` makes of some packet. -/
def Written (bytes : List UInt8) : Prop :=
  ∃ zip, ∃ p : NavPacket, ∃ header params,
    p.writeToInternal zip (NavPacket.appends header) [] params = .ok bytes

/-- The packet starts with a marker and its own length, and is longer than its header. -/
theorem Written.layout {bytes : List UInt8} (h : Written bytes) :
    ∃ payload, bytes = [0x02] ++ be32 (UInt32.ofNat bytes.length) ++ payload ∧
      0 < payload.length ∧ bytes.length = payload.length + 5 ∧ bytes.length ≤ maxObject := by
  obtain ⟨zip, p, header, params, h⟩ := h
  rw [NavPacket.writeToInternal_eq] at h
  split at h
  · cases h
  · rename_i hle
    obtain rfl := Except.ok.inj h
    have hlen := NavPacket.length_wire zip p header params
    refine ⟨(p.wire zip header params).drop 5, ?_, ?_, ?_, not_lt.mp hle⟩
    · rw [hlen]
      rfl
    · rw [List.length_drop]
      omega
    · rw [List.length_drop]
      omega

/-- The header of a packet announces the bytes behind it. -/
theorem checkSTXAndSetPacketLength_written {n m : ℕ} (hlen : n = m + 5) (hmax : n ≤ maxObject) :
    checkSTXAndSetPacketLength ([0x02] ++ be32 (UInt32.ofNat n)) HEADER_LENGTH 0 =
      .ok (.STX_VALID, m) := by
  have hlt : n < 2 ^ 32 := hmax.trans_lt (by decide)
  have heq := checkSTXAndSetPacketLength_eq 0x02 ((UInt32.ofNat n) >>> 24).toUInt8
    ((UInt32.ofNat n) >>> 16).toUInt8 ((UInt32.ofNat n) >>> 8).toUInt8 (UInt32.ofNat n).toUInt8 0
  rw [if_pos rfl, ofBE32_be32, UInt32.toNat_ofNat_of_lt' hlt,
    sub32_of_le (by unfold HEADER_LENGTH; omega) hlt] at heq
  refine heq.trans ?_
  rw [hlen]
  rfl

namespace ConnectionReader

/-- The header of a packet of `m + 5` bytes is read, and leads to reading `m` more. -/
private theorem receivePacket_header (create : List UInt8 → Option φ) (r : ConnectionReader φ)
    {n m : ℕ} (hlen : n = m + 5) (hmax : n ≤ maxObject) {rest : List UInt8}
    (hpending : r.m_palConnection.pending = [0x02] ++ be32 (UInt32.ofNat n) ++ rest) :
    ∃ r₁ : ConnectionReader φ,
      (r.receivePacket create = r₁.receiveBlocking m >>= fun res =>
        .ok (res.1.bind create, res.2)) ∧
      r₁.m_palConnection.pending = rest ∧ r₁.m_shouldRun = r.m_shouldRun ∧
      r₁.received = r.received := by
  have hheader := checkSTXAndSetPacketLength_written hlen hmax
  have hsmall : m ≤ maxObject := by omega
  have hfive : ([0x02] ++ be32 (UInt32.ofNat n)).length = HEADER_LENGTH := rfl
  obtain ⟨r₁, hr₁, hrest, hrun, hreceived⟩ := r.receiveBlocking_of_le (n := HEADER_LENGTH)
    (by decide) (by decide) (by
      rw [hpending, List.length_append, hfive]
      exact Nat.le_add_right _ _)
  rw [hpending, ← hfive, List.take_left, hfive] at hr₁
  rw [hpending, ← hfive, List.drop_left] at hrest
  refine ⟨r₁, ?_, hrest, hrun, hreceived⟩
  simp only [receivePacket, hr₁, Exec.ok_bind, hheader, ne_eq, not_true_eq_false, if_false,
    not_lt.mpr hsmall]

/-- **One packet is read**, however it is cut into chunks and whatever comes behind it: the factory
gets its bytes behind marker and length, and the reader stands at the byte behind it. -/
theorem receivePacket_written (create : List UInt8 → Option φ) (r : ConnectionReader φ)
    {bytes rest : List UInt8} (hwritten : Written bytes)
    (hpending : r.m_palConnection.pending = bytes ++ rest) :
    ∃ r' : ConnectionReader φ, r.receivePacket create = .ok (create (bytes.drop 5), r') ∧
      r'.m_palConnection.pending = rest ∧ r'.m_shouldRun = r.m_shouldRun ∧
      r'.received = r.received := by
  obtain ⟨payload, hbytes, hpos, hlen, hmax⟩ := hwritten.layout
  have hdrop : bytes.drop 5 = payload := by
    rw [hbytes]
    rfl
  rw [hbytes, List.append_assoc] at hpending
  obtain ⟨r₁, hr₁, hrest₁, hrun₁, hreceived₁⟩ := receivePacket_header create r hlen hmax hpending
  obtain ⟨r₂, hr₂, hrest₂, hrun₂, hreceived₂⟩ := r₁.receiveBlocking_of_le hpos
    ((by omega : payload.length ≤ maxObject).trans_lt (by decide))
    (by rw [hrest₁, List.length_append]; omega)
  rw [hrest₁, List.take_left] at hr₂
  rw [hrest₁, List.drop_left] at hrest₂
  refine ⟨r₂, ?_, hrest₂, hrun₂.trans hrun₁, hreceived₂.trans hreceived₁⟩
  rw [hr₁, hr₂, Exec.ok_bind, hdrop]
  rfl

/-- **Nothing is made of a packet that is cut off**, and the reader is told to stop. -/
theorem receivePacket_cut (create : List UInt8 → Option φ) (r : ConnectionReader φ)
    {bytes : List UInt8} (hwritten : Written bytes)
    (hstart : r.m_palConnection.pending <+: bytes)
    (hcut : r.m_palConnection.pending.length < bytes.length) :
    ∃ r' : ConnectionReader φ, r.receivePacket create = .ok (none, r') ∧
      r'.m_shouldRun = false ∧ r'.received = r.received := by
  obtain ⟨payload, hbytes, hpos, hlen, hmax⟩ := hwritten.layout
  by_cases hshort : r.m_palConnection.pending.length < HEADER_LENGTH
  · obtain ⟨r', hr', hrun, hreceived⟩ := r.receiveBlocking_of_lt (by decide) hshort
    exact ⟨r', by simp only [receivePacket, hr', Exec.ok_bind], hrun, hreceived⟩
  · obtain ⟨part, hpart⟩ : [0x02] ++ be32 (UInt32.ofNat bytes.length) <+:
        r.m_palConnection.pending :=
      List.prefix_of_prefix_length_le ⟨payload, hbytes.symm⟩ hstart (not_lt.mp hshort)
    have hlt : part.length < payload.length := by
      have hlength := congrArg List.length hpart
      simp only [List.length_append, List.length_singleton, length_be32] at hlength
      omega
    obtain ⟨r₁, hr₁, hrest₁, hrun₁, hreceived₁⟩ :=
      receivePacket_header create r hlen hmax hpart.symm
    obtain ⟨r₂, hr₂, hrun₂, hreceived₂⟩ := r₁.receiveBlocking_of_lt (n := payload.length)
      ((by omega : payload.length ≤ maxObject).trans_lt (by decide)) (by rw [hrest₁]; exact hlt)
    refine ⟨r₂, ?_, hrun₂, hreceived₂.trans hreceived₁⟩
    rw [hr₁, hr₂, Exec.ok_bind]
    rfl

/-! ## Streams -/

/-- The turn of the loop that reads a packet. -/
theorem turn_written (create : List UInt8 → Option φ) (r : ConnectionReader φ)
    {bytes rest : List UInt8} (hwritten : Written bytes)
    (hpending : r.m_palConnection.pending = bytes ++ rest) :
    ∃ r' : ConnectionReader φ, r.turn create = .ok r' ∧
      r'.m_palConnection.pending = rest ∧ r'.m_shouldRun = r.m_shouldRun ∧
      r'.received = r.received ++ (create (bytes.drop 5)).toList := by
  obtain ⟨r', hr', hrest, hrun, hreceived⟩ := receivePacket_written create r hwritten hpending
  cases hcreate : create (bytes.drop 5) with
  | none =>
    refine ⟨r', ?_, hrest, hrun, by simp [hreceived]⟩
    simp only [turn, hr', Exec.ok_bind, hcreate]
  | some packet =>
    refine ⟨{ r' with received := r'.received ++ [packet] }, ?_, hrest, hrun, by simp [hreceived]⟩
    simp only [turn, hr', Exec.ok_bind, hcreate]

/-- **The turns that read the packets of a stream**, one for each of them.  As part of the loop
they lead to what is behind the packets. -/
theorem turns_written (create : List UInt8 → Option φ) {packets : List (List UInt8)}
    (hwritten : ∀ bytes ∈ packets, Written bytes) (r : ConnectionReader φ) {rest : List UInt8}
    (hpending : r.m_palConnection.pending = packets.flatten ++ rest) (hrun : r.m_shouldRun = true) :
    ∃ r' : ConnectionReader φ, r.turns create packets.length = .ok r' ∧
      (∀ fuel, r.run create (fuel + packets.length) = r'.run create fuel) ∧
      r'.m_palConnection.pending = rest ∧ r'.m_shouldRun = true ∧
      r'.received = r.received ++ packets.filterMap (fun bytes => create (bytes.drop 5)) := by
  induction packets generalizing r with
  | nil => exact ⟨r, rfl, fun _ => rfl, hpending, hrun, by simp⟩
  | cons bytes packets ih =>
    obtain ⟨hfirst, hwritten⟩ := List.forall_mem_cons.mp hwritten
    rw [List.flatten_cons, List.append_assoc] at hpending
    obtain ⟨r₁, hr₁, hrest₁, hrun₁, hreceived₁⟩ := turn_written create r hfirst hpending
    obtain ⟨r₂, hr₂, hloop₂, hrest₂, hrun₂, hreceived₂⟩ := ih hwritten r₁ hrest₁ (hrun₁.trans hrun)
    refine ⟨r₂, ?_, fun fuel => ?_, hrest₂, hrun₂, ?_⟩
    · rw [List.length_cons, turns, hr₁, Exec.ok_bind, hr₂]
    · rw [List.length_cons, ← Nat.add_assoc, run, if_pos hrun, hr₁, Exec.ok_bind, hloop₂]
    · rw [hreceived₂, hreceived₁, List.append_assoc]
      cases hcreate : create (bytes.drop 5) <;> simp [hcreate]

/-- **A stream of packets is read packet by packet.**  However it is cut into chunks, after `n`
turns the reader stands behind the `n`-th packet, and the receiver got what the factory makes of
the packets so far.  The stream may end, or a read fail, at a packet or inside of one: the loop
ends, and nothing is made of the incomplete packet. -/
theorem run_stream (create : List UInt8 → Option φ) {packets : List (List UInt8)}
    (hwritten : ∀ bytes ∈ packets, Written bytes) {last tail : List UInt8} (hlast : Written last)
    (htail : tail <+: last) (hcut : tail.length < last.length) (s : Socket)
    (hstream : s.pending = packets.flatten ++ tail) :
    (∀ n, n ≤ packets.length → ∃ r, turns create n (start s) = .ok r ∧
      r.m_palConnection.pending = (packets.drop n).flatten ++ tail ∧
      r.received = (packets.take n).filterMap (fun bytes => create (bytes.drop 5))) ∧
    ∃ fuel r, run create fuel (start s) = .ok r ∧ r.m_shouldRun = false ∧
      r.received = packets.filterMap (fun bytes => create (bytes.drop 5)) := by
  constructor
  · intro n hn
    have hsplit : s.pending = (packets.take n).flatten ++ ((packets.drop n).flatten ++ tail) := by
      rw [hstream, ← List.append_assoc, ← List.flatten_append, List.take_append_drop]
    obtain ⟨r, hr, -, hrest, -, hreceived⟩ := turns_written create
      (fun bytes h => hwritten bytes (List.mem_of_mem_take h)) (start s) hsplit rfl
    rw [List.length_take_of_le hn] at hr
    exact ⟨r, hr, hrest, hreceived⟩
  · obtain ⟨r, -, hloop, hrest, hrun, hreceived⟩ :=
      turns_written create hwritten (start s) hstream rfl
    obtain ⟨r', hr', hstop, hsame⟩ :=
      receivePacket_cut create r hlast (by rwa [hrest]) (by rwa [hrest])
    have hturn : r.turn create = .ok r' := by simp only [turn, hr', Exec.ok_bind]
    refine ⟨2 + packets.length, r', ?_, hstop, hsame.trans hreceived⟩
    rw [hloop, run, if_pos hrun, hturn, Exec.ok_bind, run, hstop]
    rfl

/-- A packet without params. -/
theorem written_empty (type : UInt16) : Written
    ((NavPacket.new 0xc type 1 1).wire GunzipUtil.stub [0, 0] NParamBlock.empty) := by
  refine ⟨GunzipUtil.stub, NavPacket.new 0xc type 1 1, [0, 0], NParamBlock.empty, ?_⟩
  have hlen : ((NavPacket.new 0xc type 1 1).body GunzipUtil.stub [0, 0]
    NParamBlock.empty).length = 6 := rfl
  rw [NavPacket.writeToInternal_eq, NavPacket.length_wire, hlen, if_neg (by decide)]

/-- Two packets, of which the factory knows one type, and three bytes of a third one, in chunks of
one, two and three bytes. -/
theorem run_stream_two :
    let packet (type : UInt16) : List UInt8 :=
      (NavPacket.new 0xc type 1 1).wire GunzipUtil.stub [0, 0] NParamBlock.empty
    ∃ fuel r, run (fun bytes => if packetType bytes = 0x2a then some bytes.length else none) fuel
        (start ⟨packet 0x2a ++ packet 0x2b ++ [0x02, 0, 0], (· % 3), .PAL_READ_ERROR, by decide⟩) =
          .ok r ∧ r.m_shouldRun = false ∧ r.received = [15] := by
  intro packet
  have hwritten : ∀ type, Written (packet type) := written_empty
  have hstream : packet 0x2a ++ packet 0x2b ++ [0x02, 0, 0] =
      [packet 0x2a, packet 0x2b].flatten ++ [0x02, 0, 0] := by simp
  have htail : [0x02, 0, 0] <+: packet 0x2a := by decide
  have hpackets : ∀ bytes ∈ [packet 0x2a, packet 0x2b], Written bytes := by simp [hwritten]
  obtain ⟨fuel, r, hr, hstop, hreceived⟩ :=
    (run_stream (fun bytes => if packetType bytes = 0x2a then some bytes.length else none) hpackets
      (hwritten 0x2a) htail (by decide) ⟨_, (· % 3), .PAL_READ_ERROR, by decide⟩ hstream).2
  exact ⟨fuel, r, hr, hstop, hreceived.trans (by decide)⟩

end ConnectionReader

end CppCore.ConnectionManager
