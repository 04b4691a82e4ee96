import OperatingSystems.Lib.BoundedLoop

/-!
# What a worker passes on

`serve_request` reads the request of a client, writes it to the file server and copies the response
back, through one buffer of `RESPONSE_BUFSIZE` bytes.  A stream is the list of its bytes; how many of
them a `read`, a `recv` or a `write` moves is up to the network.

* **`Peers`** — what the system calls return, and **`Peers.Healthy`**, when neither peer fails.
* **`http_send_data`**, **`serve_request`** — the loops, with a bound on their rounds.
* **`http_send_data_sends`** — the loop writes its data exactly, whatever the partial writes.
* **`serve_request_eq`** — the response arrives whole, the request as far as one `read` takes it.
-/

namespace OperatingSystems.Proxy

open BoundedLoop

def RESPONSE_BUFSIZE : ℕ := 10000

/-- The results of the system calls.  A `read` or `recv` is asked for `max` bytes while `left` bytes
of the stream are still to come; calls of one kind are counted. -/
structure Peers where
  connect : ℤ
  read : (max left : ℕ) → ℤ
  recv : (call max left : ℕ) → ℤ
  write : (call size : ℕ) → ℤ

/-- The result of a `read` that does not fail: some bytes, or `0` at the end of the stream. -/
def Delivers (result : ℤ) (max left : ℕ) : Prop :=
  if left = 0 then result = 0 else 1 ≤ result ∧ result ≤ max ∧ result ≤ left

/-- **Neither peer fails.** -/
structure Peers.Healthy (w : Peers) : Prop where
  connect : 0 ≤ w.connect
  read : ∀ max left, 0 < max → Delivers (w.read max left) max left
  recv : ∀ call max left, 0 < max → Delivers (w.recv call max left) max left
  write : ∀ call size, 0 < size → 1 ≤ w.write call size ∧ w.write call size ≤ size

/-! ### Writing a block -/

/-- The loop of `http_send_data`: `data` points at `offset`, and `sent` has been written. -/
structure Sending where
  offset : ℕ
  size : ℕ
  calls : ℕ
  sent : List UInt8

def sendRound (w : Peers) (data : ℕ → UInt8) (s : Sending) : Sending ⊕ (ℤ × Sending) :=
  if s.size > 0 then
    let bytes_sent := w.write s.calls s.size
    if bytes_sent < 0 then .inr (-1, { s with calls := s.calls + 1 })
    else .inl {
      offset := s.offset + bytes_sent.toNat
      size := s.size - bytes_sent.toNat
      calls := s.calls + 1
      sent := s.sent ++ (List.range bytes_sent.toNat).map fun i => data (s.offset + i) }
  else .inr (0, s)

/-- The result, and what has been written by then. -/
def http_send_data (w : Peers) (fuel : ℕ) (data : ℕ → UInt8) (size calls : ℕ) :
    Option (ℤ × Sending) :=
  iterate (sendRound w data) fuel ⟨0, size, calls, []⟩

/-! ### Serving a request -/

/-- The buffer after a `read` has put `bytes` at its front. -/
def fill (buffer : ℕ → UInt8) (bytes : List UInt8) : ℕ → UInt8 :=
  fun i => bytes[i]?.getD (buffer i)

/-- An `int` as a `size_t`. -/
def toSize (n : ℤ) : ℕ := (n % 2 ^ 64).toNat

/-- What `send_error_response(client_fd, BAD_GATEWAY, "Bad Gateway")` writes. -/
def badGateway : List UInt8 :=
  "HTTP/1.0 502 Internal Server Error\r\nContent-Type: text/html\r\n\r\nBad Gateway\n".toUTF8.toList

/-- The loop that forwards the response: what is still to come of it, and what the client has got. -/
structure Forwarding where
  buffer : ℕ → UInt8
  response : List UInt8
  recvs : ℕ
  calls : ℕ
  toClient : List UInt8

/-- A round; the result is `none` when a block could not be written within the bound. -/
def forwardRound (w : Peers) (fuel : ℕ) (s : Forwarding) : Forwarding ⊕ Option (List UInt8) :=
  let bytes_read := w.recv s.recvs (RESPONSE_BUFSIZE - 1) s.response.length
  if bytes_read ≤ 0 then .inr (some s.toClient)
  else
    let buffer := fill s.buffer (s.response.take bytes_read.toNat)
    match http_send_data w fuel buffer (toSize bytes_read) s.calls with
    | none => .inr none
    | some (ret, block) =>
      if ret < 0 then .inr (some (s.toClient ++ block.sent))
      else .inl ⟨buffer, s.response.drop bytes_read.toNat, s.recvs + 1, block.calls,
        s.toClient ++ block.sent⟩

/-- What each side has been sent. -/
structure Relayed where
  toServer : List UInt8
  toClient : List UInt8
deriving DecidableEq

/-- `serve_request`, for a buffer that holds anything. -/
def serve_request (w : Peers) (fuel : ℕ) (heap : ℕ → UInt8) (request response : List UInt8) :
    Option Relayed :=
  if w.connect < 0 then some ⟨[], badGateway⟩
  else
    let bytes_read := w.read RESPONSE_BUFSIZE request.length
    let buffer := fill heap (request.take bytes_read.toNat)
    match http_send_data w fuel buffer (toSize bytes_read) 0 with
    | none => none
    | some (ret, block) =>
      if ret < 0 then some ⟨block.sent, badGateway⟩
      else
        (iterate (forwardRound w fuel) fuel ⟨buffer, response, 0, block.calls, []⟩).join.map
          fun toClient => ⟨block.sent, toClient⟩

/-! ### The loop of a block -/

theorem map_range_append (data : ℕ → UInt8) (offset n size : ℕ) (h : n ≤ size) :
    ((List.range n).map fun i => data (offset + i)) ++
        ((List.range (size - n)).map fun i => data (offset + n + i)) =
      (List.range size).map fun i => data (offset + i) := by
  obtain ⟨rest, rfl⟩ := Nat.exists_eq_add_of_le h
  rw [Nat.add_sub_cancel_left, List.range_add, List.map_append, List.map_map]
  simp only [Function.comp_def, Nat.add_assoc]

theorem iterate_sendRound {w : Peers} (hw : w.Healthy) (data : ℕ → UInt8) {fuel : ℕ} (s : Sending)
    (h : s.size < fuel) :
    ∃ t, iterate (sendRound w data) fuel s = some (0, t) ∧
      t.sent = s.sent ++ (List.range s.size).map fun i => data (s.offset + i) := by
  induction fuel generalizing s with
  | zero => omega
  | succ fuel ih =>
    by_cases hsize : 0 < s.size
    · obtain ⟨hpos, hle⟩ := hw.write s.calls s.size hsize
      obtain ⟨n, hn⟩ := Int.eq_ofNat_of_zero_le (show 0 ≤ w.write s.calls s.size by omega)
      have hround : sendRound w data s = .inl ⟨s.offset + n, s.size - n, s.calls + 1,
          s.sent ++ (List.range n).map fun i => data (s.offset + i)⟩ := by
        rw [sendRound, if_pos hsize]
        simp only [hn, Int.toNat_natCast]
        rw [if_neg (by omega)]
      rw [iterate_inl hround]
      obtain ⟨t, ht, hsent⟩ := ih ⟨s.offset + n, s.size - n, s.calls + 1, _⟩
        (show s.size - n < fuel by omega)
      refine ⟨t, ht, ?_⟩
      rw [hsent, List.append_assoc, map_range_append data s.offset n s.size (by omega)]
    · have hround : sendRound w data s = .inr (0, s) := by rw [sendRound, if_neg hsize]
      refine ⟨s, iterate_inr hround fuel, ?_⟩
      rw [Nat.eq_zero_of_not_pos hsize, List.range_zero, List.map_nil, List.append_nil]

/-- **`http_send_data` writes its data exactly**, in whatever parts. -/
theorem http_send_data_sends {w : Peers} (hw : w.Healthy) (data : ℕ → UInt8) {fuel size : ℕ}
    (calls : ℕ) (h : size < fuel) :
    ∃ t, http_send_data w fuel data size calls = some (0, t) ∧
      t.sent = (List.range size).map data := by
  obtain ⟨t, ht, hsent⟩ := iterate_sendRound hw data ⟨0, size, calls, []⟩ h
  refine ⟨t, ht, ?_⟩
  simpa using hsent

theorem range_map_fill (buffer : ℕ → UInt8) (bytes : List UInt8) :
    (List.range bytes.length).map (fill buffer bytes) = bytes := by
  apply List.ext_getElem (by simp)
  intro i hi _
  have hlt : i < bytes.length := by simpa using hi
  simp [fill, hlt]

theorem toSize_natCast {n : ℕ} (h : n < 2 ^ 64) : toSize n = n := by
  rw [toSize]
  omega

/-- What is read into the buffer is what is written from it. -/
theorem http_send_data_fill {w : Peers} (hw : w.Healthy) (buffer : ℕ → UInt8) {bytes : List UInt8}
    {fuel : ℕ} (calls : ℕ) (hlen : bytes.length ≤ RESPONSE_BUFSIZE) (h : RESPONSE_BUFSIZE < fuel) :
    ∃ t, http_send_data w fuel (fill buffer bytes) (toSize bytes.length) calls = some (0, t) ∧
      t.sent = bytes := by
  rw [toSize_natCast (lt_of_le_of_lt hlen (by decide))]
  obtain ⟨t, ht, hsent⟩ := http_send_data_sends hw (fill buffer bytes) calls
    (show bytes.length < fuel by omega)
  exact ⟨t, ht, hsent.trans (range_map_fill buffer bytes)⟩

/-! ### The loop of the response -/

/-- The bytes that a `read` delivers. -/
theorem Delivers.take {result : ℤ} {max : ℕ} {stream : List UInt8}
    (h : Delivers result max stream.length) :
    (stream.take result.toNat).length ≤ max ∧ result = (stream.take result.toNat).length := by
  unfold Delivers at h
  rw [List.length_take]
  split at h <;> omega

/-- **The response arrives whole**, whatever the sizes of the parts it comes in. -/
theorem iterate_forwardRound {w : Peers} (hw : w.Healthy) {fuel rounds : ℕ}
    (hfuel : RESPONSE_BUFSIZE < fuel) (s : Forwarding) (h : s.response.length < rounds) :
    iterate (forwardRound w fuel) rounds s = some (some (s.toClient ++ s.response)) := by
  induction rounds generalizing s with
  | zero => omega
  | succ rounds ih =>
    have hrecv := hw.recv s.recvs (RESPONSE_BUFSIZE - 1) s.response.length (by decide)
    obtain ⟨hmax, hresult⟩ := hrecv.take
    set r := w.recv s.recvs (RESPONSE_BUFSIZE - 1) s.response.length with hr
    by_cases hend : s.response = []
    · have hround : forwardRound w fuel s = .inr (some s.toClient) := by
        rw [forwardRound]
        show (if r ≤ 0 then _ else _) = _
        rw [if_pos]
        rw [Delivers, hend, List.length_nil, if_pos rfl] at hrecv
        exact hrecv.le
      rw [iterate_inr hround, hend, List.append_nil]
    · have hleft : s.response.length ≠ 0 := mt List.length_eq_zero_iff.mp hend
      have hpos : 1 ≤ r := by
        rw [Delivers, if_neg hleft] at hrecv
        exact hrecv.1
      obtain ⟨t, ht, hsent⟩ := http_send_data_fill hw s.buffer s.calls
        (show (s.response.take r.toNat).length ≤ RESPONSE_BUFSIZE by omega) hfuel
      rw [← hresult] at ht
      have hround : forwardRound w fuel s =
          .inl ⟨fill s.buffer (s.response.take r.toNat), s.response.drop r.toNat, s.recvs + 1, t.calls,
            s.toClient ++ t.sent⟩ := by
        rw [forwardRound]
        show (if r ≤ 0 then _ else _) = _
        rw [if_neg (by omega)]
        simp only [← hr, ht]
        rfl
      rw [iterate_inl hround, ih]
      · show some (some (s.toClient ++ t.sent ++ s.response.drop r.toNat)) = _
        rw [hsent, List.append_assoc, List.take_append_drop]
      · show (s.response.drop r.toNat).length < rounds
        rw [List.length_drop]
        omega

/-! ### Both directions -/

/-- **What a worker passes on**: the request as far as the first `read` took it, and the response. -/
theorem serve_request_eq {w : Peers} (hw : w.Healthy) (heap : ℕ → UInt8)
    (request response : List UInt8) {fuel : ℕ} (hfuel : response.length + RESPONSE_BUFSIZE < fuel) :
    serve_request w fuel heap request response =
      some ⟨request.take (w.read RESPONSE_BUFSIZE request.length).toNat, response⟩ := by
  have hread := hw.read RESPONSE_BUFSIZE request.length (by decide)
  obtain ⟨hmax, hresult⟩ := hread.take
  set r := w.read RESPONSE_BUFSIZE request.length with hr
  obtain ⟨t, ht, hsent⟩ := http_send_data_fill hw heap 0 hmax (show RESPONSE_BUFSIZE < fuel by omega)
  rw [← hresult] at ht
  have hforward := iterate_forwardRound hw (show RESPONSE_BUFSIZE < fuel by omega)
    ⟨fill heap (request.take r.toNat), response, 0, t.calls, []⟩
    (show response.length < fuel by omega)
  rw [serve_request, if_neg (not_lt.mpr hw.connect)]
  simp only [← hr, ht, hforward, hsent]
  rfl

/-- **When both directions are relayed byte for byte.** -/
theorem serve_request_relays_iff (w : Peers) (hw : w.Healthy) (heap : ℕ → UInt8)
    (request response : List UInt8) (fuel : ℕ)
    (hfuel : response.length + RESPONSE_BUFSIZE < fuel) :
    serve_request w fuel heap request response = some ⟨request, response⟩ ↔
      w.read RESPONSE_BUFSIZE request.length = request.length := by
  have hread := (hw.read RESPONSE_BUFSIZE request.length (by decide)).take.2
  rw [serve_request_eq hw heap request response hfuel, Option.some_inj, Relayed.mk.injEq,
    and_iff_left rfl, List.take_eq_self_iff]
  rw [List.length_take] at hread
  omega

/-- A network that moves at most `chunk` bytes at a time. -/
def chunked (chunk : ℕ) : Peers where
  connect := 0
  read max left := min chunk (min max left)
  recv _ max left := min chunk (min max left)
  write _ size := min chunk size

theorem chunked_healthy {chunk : ℕ} (h : 0 < chunk) : (chunked chunk).Healthy where
  connect := le_refl 0
  read max left hmax := by
    unfold Delivers
    dsimp only [chunked]
    split <;> omega
  recv _ max left hmax := by
    unfold Delivers
    dsimp only [chunked]
    split <;> omega
  write _ size hsize := by
    dsimp only [chunked]
    omega

theorem serve_request_relays_pairs :
    (chunked 2).Healthy ∧
      serve_request (chunked 2) 10004 (fun _ => 0) [71, 69] [79, 75, 10] =
        some ⟨[71, 69], [79, 75, 10]⟩ :=
  ⟨chunked_healthy (by decide),
    (serve_request_relays_iff (chunked 2) (chunked_healthy (by decide)) _ _ _ _ (by decide)).mpr
      (by decide)⟩

/-- The rest of a request that does not come in one piece is lost. -/
theorem serve_request_loses_rest :
    ¬∀ (w : Peers) (_ : w.Healthy) (heap : ℕ → UInt8) (request response : List UInt8) (fuel : ℕ),
      response.length + RESPONSE_BUFSIZE < fuel →
        serve_request w fuel heap request response = some ⟨request, response⟩ := by
  intro h
  have hw : (chunked 2).Healthy := chunked_healthy (by decide)
  have hall := h (chunked 2) hw (fun _ => 0) [71, 69, 84] [79, 75, 10] 10004 (by decide)
  rw [serve_request_eq hw _ _ _ (by decide)] at hall
  exact absurd hall (by decide)

end OperatingSystems.Proxy
