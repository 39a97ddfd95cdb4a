import Hallownest.Network.Server
import Hallownest.Record

namespace Hallownest.Network

open Consensus (Packet)

/-!
# Network — a connection (`server.go`)

A client sends frames, each a header of 9 bytes and a body:

    [1 byte operation][4 bytes key length][4 bytes value length][key][value]

The server reads frame after frame off the stream and answers each before it reads the next.
The stream ends where the client closes the connection.

* `readFrame`, `respond` and `handleConnection` are translated from the source.  A panic is an
  error; a panic inside of a request handler is told apart from one in the loop itself.
* `connection_in_range_iff` — when the loop keeps within its buffers.  It adds the two lengths,
  and the length of a response, in 32 bits, so it does not always (`connection_out_of_range`).
-/

/-- The operation of a put (`OpPut`). -/
def opPut : UInt8 := 0x01

/-- The operation of a get (`OpGet`). -/
def opGet : UInt8 := 0x02

/-- The operation of a delete (`OpTombstone`). -/
def opTombstone : UInt8 := 0x03

/-- The panics that end a connection (and the process): slicing the body, filling the response
    to a get, or in the handler of a request. -/
inductive Panic
  | body
  | response
  | handler
  deriving DecidableEq, Repr

/-! ### Requests -/

/-- The HTTP/2 preface starts with `"PRI "`. -/
def isPreface (headerBuf : Bytes) : Bool := headerBuf.take 4 == [0x50, 0x52, 0x49, 0x20]

/-- The operation in a header. -/
def headerOp (headerBuf : Bytes) : UInt8 := headerBuf.headD 0

/-- The length of the key, as a header gives it. -/
def headerKeyLen (headerBuf : Bytes) : ℕ := Bytes.ofBe ((headerBuf.drop 1).take 4)

/-- The length of the value, as a header gives it. -/
def headerValLen (headerBuf : Bytes) : ℕ := Bytes.ofBe ((headerBuf.drop 5).take 4)

/-- What the server makes of a part of the stream. -/
inductive Frame
  | preface
  | request (headerBuf key val : Bytes)
  deriving DecidableEq, Repr

/-- The reading part of a round of `handleConnection`.  Behind a preface nothing is read. -/
def readFrame (bs : Bytes) : Framing.Next Frame Panic :=
  match Bytes.readFull 9 bs with
  | none => .stop
  | some (headerBuf, bs) =>
    if isPreface headerBuf then .item .preface []
    else
      let keyLen := headerKeyLen headerBuf
      let valLen := headerValLen headerBuf
      match Bytes.readFull (uint32 (keyLen + valLen)) bs with
      | none => .stop
      | some (bodyBuf, rest) =>
        -- `bodyBuf[:keyLen]` is out of range when the length of `bodyBuf` has wrapped around
        if bodyBuf.length < keyLen then .fail .body
        else .item (.request headerBuf (bodyBuf.take keyLen) (bodyBuf.drop keyLen)) rest

/-! ### Responses -/

/-- A flag on the wire. -/
def flag (b : Bool) : UInt8 := if b then 1 else 0

/-- The response to a write (`sendWriteResponse`). -/
def sendWriteResponse (res : WriteResult) : Bytes :=
  [flag (res.isLeader && res.err.isNone)] ++ Bytes.be 4 (res.index % 2 ^ 32).toNat ++
    Bytes.be 4 (res.term % 2 ^ 32).toNat ++ [flag res.isLeader]

/-- The response to a read (`sendReadResponse`). -/
def sendReadResponse (val : Bytes) (tombstone found : Bool) (err : Option ServerError) :
    Option Bytes :=
  let valLen := uint32 val.length
  let respLen := uint32 (6 + valLen)
  -- `resp[0]`, `resp[1]` or `resp[2:6]` is out of range when `respLen` has wrapped around
  if respLen < 6 then none
  else
    some ([flag (found && err.isNone), flag tombstone] ++ Bytes.be 4 valLen ++
      val.take (respLen - 6))

/-- The answer to a preface: SETTINGS and SETTINGS ACK (`handleGRPCConnection`). -/
def handleGRPCConnection : Bytes := [0, 0, 0, 4, 0, 0, 0, 0, 0] ++ [0, 0, 0, 4, 1, 0, 0, 0, 0]

/-! ### The loop -/

/-- A connection: the server it belongs to, how many frames were handled, the bytes written
    back, and what the Raft node sent. -/
structure Conn where
  server : StagwayServer
  handled : ℕ
  out : Bytes
  sent : List Packet

/-- What goes on during a connection: what the environment decides in the `i`-th request, and
    what others do to the server before it. -/
structure Surroundings where
  env : ℕ → Env
  others : ℕ → StagwayServer → StagwayServer

/-- A server that only this connection uses. -/
def undisturbed (env : ℕ → Env) : Surroundings where
  env := env
  others := fun _ s => s

namespace Conn

variable (around : Surroundings)

/-- The server as it is when the next request is handled. -/
def current (c : Conn) : StagwayServer := around.others c.handled c.server

/-- One more request was handled. -/
def answer (c : Conn) (server : StagwayServer) (out : Bytes) (sent : List Packet) : Conn where
  server := server
  handled := c.handled + 1
  out := c.out ++ out
  sent := c.sent ++ sent

/-- A write and its response. -/
def respondWrite (c : Conn) : Option (StagwayServer × WriteResult × List Packet) →
    Except Panic Conn
  | none => .error .handler
  | some (server, res, sent) => .ok (c.answer server (sendWriteResponse res) sent)

/-- A read and its response. -/
def respondRead (c : Conn) : Option (Bytes × Bool × Bool × Option ServerError) →
    Except Panic Conn
  | none => .error .handler
  | some (val, tombstone, found, err) =>
    match sendReadResponse val tombstone found err with
    | none => .error .response
    | some out => .ok (c.answer (c.current around) out [])

/-- The answering part of a round of `handleConnection`.  A request with an unknown operation
    gets no response. -/
def respond (c : Conn) : Frame → Except Panic Conn
  | .preface => .ok (c.answer (c.current around) handleGRPCConnection [])
  | .request headerBuf key val =>
    let op := headerOp headerBuf
    let server := c.current around
    let env := around.env c.handled
    if op = opPut then c.respondWrite (server.putGeo key val env)
    else if op = opGet then c.respondRead around (server.getGeo key)
    else if op = opTombstone then c.respondWrite (server.focusTombstone key env)
    else .ok (c.answer server [] [])

end Conn

/-- Serve a connection on which a client sends the given bytes and then closes it
    (`handleConnection`).  There are no more rounds than bytes. -/
def StagwayServer.handleConnection (s : StagwayServer) (around : Surroundings) (input : Bytes) :
    Except Panic Conn :=
  Framing.serve readFrame (Conn.respond around) input.length ⟨s, 0, [], []⟩ input

/-! ### Reading a frame -/

variable {header rest bs : Bytes}

/-- Fewer bytes than a header are the end of the input. -/
theorem readFrame_short (h : bs.length < 9) : readFrame bs = .stop := by
  rw [readFrame, Bytes.readFull_of_lt h]

/-- A header that starts like the preface of HTTP/2 ends the conversation. -/
theorem readFrame_preface (h9 : header.length = 9) (hpre : isPreface header = true)
    (rest : Bytes) : readFrame (header ++ rest) = .item .preface [] := by
  rw [readFrame, Bytes.readFull_append h9]
  simp [hpre]

/-- No operation of the server starts a preface. -/
theorem isPreface_of_op (h : headerOp header ≠ 0x50) : isPreface header = false := by
  cases header with
  | nil => rfl
  | cons b bs =>
    have hb : b ≠ 0x50 := h
    simp [isPreface, hb]

/-- **A header and what follows it.** -/
theorem readFrame_header (h9 : header.length = 9) (hpre : isPreface header = false)
    (rest : Bytes) {n : ℕ} (hn : n = uint32 (headerKeyLen header + headerValLen header)) :
    readFrame (header ++ rest) =
      if rest.length < n then .stop
      else if n < headerKeyLen header then .fail .body
      else .item (.request header (rest.take (headerKeyLen header))
        ((rest.drop (headerKeyLen header)).take (n - headerKeyLen header))) (rest.drop n) := by
  rw [readFrame, Bytes.readFull_append h9]
  simp only [hpre, ← hn, Bytes.readFull]
  by_cases hlen : rest.length < n
  · simp [hlen, Nat.not_le_of_lt hlen]
  · have hle : n ≤ rest.length := Nat.le_of_not_lt hlen
    by_cases hkey : n < headerKeyLen header
    · have hbody : min n rest.length < headerKeyLen header := by omega
      simp [hlen, hle, hkey]
    · simp [hlen, hle, hkey, List.take_take, List.drop_take, Nat.le_of_not_lt hkey]

/-- Where the two lengths wrap around. -/
private theorem uint32_lengths (header : Bytes) :
    (headerKeyLen header + headerValLen header < 2 ^ 32 ∧
        uint32 (headerKeyLen header + headerValLen header) =
          headerKeyLen header + headerValLen header) ∨
      (2 ^ 32 ≤ headerKeyLen header + headerValLen header ∧
        uint32 (headerKeyLen header + headerValLen header) =
          headerKeyLen header + headerValLen header - 2 ^ 32 ∧
        headerKeyLen header + headerValLen header - 2 ^ 32 < headerKeyLen header) := by
  have hkey : headerKeyLen header < 2 ^ 32 := Bytes.ofBe_take_lt 4 _
  have hval : headerValLen header < 2 ^ 32 := Bytes.ofBe_take_lt 4 _
  unfold uint32
  omega

/-- Every frame takes bytes from the input. -/
theorem readFrame_shrinks {f : Frame} (h : readFrame bs = .item f rest) :
    rest.length < bs.length := by
  by_cases h9 : bs.length < 9
  · rw [readFrame_short h9] at h
    cases h
  · have hlen : (bs.take 9).length = 9 := by rw [List.length_take]; omega
    rw [← List.take_append_drop 9 bs] at h
    cases hpre : isPreface (bs.take 9) with
    | true =>
      rw [readFrame_preface hlen hpre] at h
      cases h
      simp only [List.length_nil]
      omega
    | false =>
      rw [readFrame_header hlen hpre _ rfl] at h
      split at h
      · cases h
      · split at h
        · cases h
        · cases h
          simp only [List.length_drop]
          omega

/-! ### Keeping within the buffers -/

/-- The round at the front of the stream ends because the stream does, or obtains a key and a
    value of the lengths in the header (or finds a preface). -/
def Obtains (bs : Bytes) : Prop :=
  match readFrame bs with
  | .stop => bs.length < 9 ∨
      bs.length < 9 + headerKeyLen (bs.take 9) + headerValLen (bs.take 9)
  | .fail _ => False
  | .item .preface _ => isPreface (bs.take 9) = true
  | .item (.request headerBuf key val) rest =>
    bs = headerBuf ++ (key ++ val ++ rest) ∧ headerBuf.length = 9 ∧
      key.length = headerKeyLen headerBuf ∧ val.length = headerValLen headerBuf

/-- If the lengths in a header add up to `2 ^ 32` or more, the stream ends within the bytes
    that the sum modulo `2 ^ 32` asks for. -/
def BodyInRange (bs : Bytes) : Prop :=
  ∀ {header rest : Bytes}, bs = header ++ rest → header.length = 9 → isPreface header = false →
    2 ^ 32 ≤ headerKeyLen header + headerValLen header →
    rest.length < headerKeyLen header + headerValLen header - 2 ^ 32

/-- The value that a get at the front of the stream finds leaves room for the 6 bytes before
    it. -/
def ResponseInRange (s : StagwayServer) (bs : Bytes) : Prop :=
  ∀ {header rest : Bytes}, bs = header ++ rest → header.length = 9 → headerOp header = opGet →
    headerKeyLen header + headerValLen header ≤ rest.length →
    ∀ {r}, s.getGeo (rest.take (headerKeyLen header)) = some r → uint32 r.1.length < 2 ^ 32 - 6

/-- A body is obtained without a panic exactly if its length is in range. -/
theorem obtains_iff : Obtains bs ↔ BodyInRange bs := by
  by_cases h9 : bs.length < 9
  · refine iff_of_true (by simp [Obtains, readFrame_short h9, h9]) ?_
    intro header rest heq hlen
    rw [heq, List.length_append] at h9
    omega
  obtain ⟨header, rest, rfl, hlen⟩ : ∃ header rest, bs = header ++ rest ∧ header.length = 9 :=
    ⟨bs.take 9, bs.drop 9, (List.take_append_drop 9 bs).symm, by rw [List.length_take]; omega⟩
  have hcut : ∀ {header' rest' : Bytes}, header ++ rest = header' ++ rest' →
      header'.length = 9 → header' = header ∧ rest' = rest := by
    intro header' rest' heq hlen'
    exact (List.append_inj heq (hlen.trans hlen'.symm)).imp Eq.symm Eq.symm
  have htake : (header ++ rest).take 9 = header := by rw [← hlen, List.take_left]
  cases hpre : isPreface header with
  | true =>
    refine iff_of_true (by simp [Obtains, readFrame_preface hlen hpre, htake, hpre]) ?_
    intro header' rest' heq hlen' hpre'
    rw [(hcut heq hlen').1, hpre] at hpre'
    cases hpre'
  | false =>
    have hread := readFrame_header hlen hpre rest rfl
    rcases uint32_lengths header with ⟨hfit, hn⟩ | ⟨hwrap, hn, hkey⟩
    · -- the lengths fit, and the body is cut where the header says
      refine iff_of_true ?_ ?_
      · rw [hn] at hread
        by_cases hrest : rest.length < headerKeyLen header + headerValLen header
        · rw [if_pos hrest] at hread
          simp only [Obtains, hread, htake, List.length_append]
          omega
        · rw [if_neg hrest, if_neg (by omega), Nat.add_sub_cancel_left] at hread
          simp only [Obtains, hread]
          refine ⟨?_, hlen, by rw [List.length_take]; omega, ?_⟩
          · rw [← List.drop_drop, List.append_assoc, List.take_append_drop,
              List.take_append_drop]
          · rw [List.length_take, List.length_drop]
            omega
      · intro header' rest' heq hlen' _ hwrap
        rw [(hcut heq hlen').1] at hwrap
        omega
    · rw [hn] at hread
      by_cases hrest : rest.length < headerKeyLen header + headerValLen header - 2 ^ 32
      · refine iff_of_true ?_ ?_
        · rw [if_pos hrest] at hread
          simp only [Obtains, hread, htake, List.length_append]
          omega
        · intro header' rest' heq hlen' _ _
          rw [(hcut heq hlen').1, (hcut heq hlen').2]
          exact hrest
      · rw [if_neg hrest, if_pos hkey] at hread
        refine iff_of_false (by simp [Obtains, hread]) ?_
        exact fun h => hrest (h rfl hlen hpre hwrap)

/-- A response is out of range exactly if its length wraps around with the value. -/
private theorem sendReadResponse_eq_none {val : Bytes} {tombstone found : Bool}
    {err : Option ServerError} :
    sendReadResponse val tombstone found err = none ↔ ¬ uint32 val.length < 2 ^ 32 - 6 := by
  have hlt : uint32 val.length < 2 ^ 32 := Nat.mod_lt _ (by decide)
  have hwrap : uint32 (6 + uint32 val.length) < 6 ↔ ¬ uint32 val.length < 2 ^ 32 - 6 := by
    conv_lhs => rw [uint32]
    omega
  rw [← hwrap]
  simp [sendReadResponse]

section Connection

variable {around : Surroundings} {c : Conn}

/-- What is done with a put. -/
theorem respond_put {headerBuf : Bytes} (h : headerOp headerBuf = opPut) (key val : Bytes) :
    c.respond around (.request headerBuf key val) =
      c.respondWrite ((c.current around).putGeo key val (around.env c.handled)) := by
  simp [Conn.respond, h]

/-- What is done with a get. -/
theorem respond_get {headerBuf : Bytes} (h : headerOp headerBuf = opGet) (key val : Bytes) :
    c.respond around (.request headerBuf key val) =
      c.respondRead around ((c.current around).getGeo key) := by
  simp [Conn.respond, h, opGet, opPut]

/-- What is done with a delete. -/
theorem respond_tombstone {headerBuf : Bytes} (h : headerOp headerBuf = opTombstone)
    (key val : Bytes) :
    c.respond around (.request headerBuf key val) =
      c.respondWrite ((c.current around).focusTombstone key (around.env c.handled)) := by
  simp [Conn.respond, h, opTombstone, opGet, opPut]

/-- The response to a write never panics by itself. -/
theorem respondWrite_ne_error (res : Option (StagwayServer × WriteResult × List Packet))
    {p : Panic} (hp : p ≠ .handler) : c.respondWrite res ≠ .error p := by
  cases res with
  | none => simp [Conn.respondWrite, hp.symm]
  | some res => simp [Conn.respondWrite]

/-- The response to a read panics exactly if it is out of range. -/
theorem respondRead_error_iff {res : Option (Bytes × Bool × Bool × Option ServerError)}
    {p : Panic} (hp : p ≠ .handler) :
    c.respondRead around res = .error p ↔
      p = .response ∧ ∃ r, res = some r ∧ ¬ uint32 r.1.length < 2 ^ 32 - 6 := by
  cases res with
  | none => simp [Conn.respondRead, hp.symm]
  | some r =>
    obtain ⟨val, tombstone, found, err⟩ := r
    have hiff : sendReadResponse val tombstone found err = none ↔ _ := sendReadResponse_eq_none
    cases hsend : sendReadResponse val tombstone found err with
    | none =>
      have hbig := hiff.mp hsend
      simp only [Conn.respondRead, hsend, Except.error.injEq]
      exact ⟨fun h => ⟨h.symm, _, rfl, hbig⟩, fun h => h.1.symm⟩
    | some out =>
      have hsmall : uint32 val.length < 2 ^ 32 - 6 := by
        by_contra hbig
        rw [hiff.mpr hbig] at hsend
        cases hsend
      simp only [Conn.respondRead, hsend]
      refine iff_of_false (by simp) ?_
      rintro ⟨_, r, hr, hbig⟩
      rw [← Option.some.inj hr] at hbig
      exact hbig hsmall

/-- Answering panics, apart from the handlers, only at the response to a get. -/
theorem respond_error_iff {f : Frame} {p : Panic} (hp : p ≠ .handler) :
    c.respond around f = .error p ↔ p = .response ∧ ∃ headerBuf key val,
      f = .request headerBuf key val ∧ headerOp headerBuf = opGet ∧
      ∃ r, (c.current around).getGeo key = some r ∧ ¬ uint32 r.1.length < 2 ^ 32 - 6 := by
  cases f with
  | preface => simp [Conn.respond]
  | request headerBuf key val =>
    by_cases hget : headerOp headerBuf = opGet
    · rw [respond_get hget, respondRead_error_iff hp]
      refine and_congr_right fun _ => ⟨fun h => ⟨_, _, _, rfl, hget, h⟩, ?_⟩
      rintro ⟨_, _, _, heq, _, h⟩
      cases heq
      exact h
    · refine iff_of_false ?_ ?_
      · by_cases hput : headerOp headerBuf = opPut
        · rw [respond_put hput]
          exact respondWrite_ne_error _ hp
        by_cases hdel : headerOp headerBuf = opTombstone
        · rw [respond_tombstone hdel]
          exact respondWrite_ne_error _ hp
        · simp [Conn.respond, hput, hget, hdel]
      · rintro ⟨_, _, _, _, heq, hget', _⟩
        cases heq
        exact hget hget'

/-- What the loop reaches on an input: the connection and the rest of the stream after a number
    of whole rounds. -/
def Reaches (s : StagwayServer) (around : Surroundings) (input : Bytes) :
    Conn × Bytes → Prop :=
  Relation.ReflTransGen (Framing.Round readFrame (Conn.respond around)) (⟨s, 0, [], []⟩, input)

/-- A connection panics where one of its frames does. -/
theorem handleConnection_error_iff {s : StagwayServer} {input : Bytes} {p : Panic} :
    s.handleConnection around input = .error p ↔
      ∃ q, Reaches s around input q ∧ Framing.Fails readFrame (Conn.respond around) p q :=
  Framing.serve_error_iff (readFrame_short (by simp)) readFrame_shrinks _ _ _ (le_refl _)

/-- **The loop keeps within its buffers**, and every round ends with the stream or obtains a key
    and a value of the lengths in the header, exactly if at every frame that it reaches the body
    and the response are in range. -/
theorem connection_in_range_iff (s : StagwayServer) (around : Surroundings) (input : Bytes) :
    (s.handleConnection around input ≠ .error .body ∧
      s.handleConnection around input ≠ .error .response ∧
      ∀ q, Reaches s around input q → Obtains q.2) ↔
    ∀ q, Reaches s around input q →
      BodyInRange q.2 ∧ ResponseInRange (q.1.current around) q.2 := by
  constructor
  · rintro ⟨-, hresponse, hobtains⟩ q hq
    have hbody : BodyInRange q.2 := obtains_iff.mp (hobtains q hq)
    refine ⟨hbody, ?_⟩
    intro header rest heq hlen hop hrest r hr
    -- a value without room for the 6 bytes would be a panic in this round
    by_contra hbig
    refine hresponse (handleConnection_error_iff.mpr ⟨q, hq, Or.inr ?_⟩)
    have hpre : isPreface header = false := isPreface_of_op (by rw [hop]; decide)
    have hfit : headerKeyLen header + headerValLen header < 2 ^ 32 := by
      by_contra hwrap
      have := hbody heq hlen hpre (by omega)
      omega
    have hread := readFrame_header hlen hpre rest (uint32_of_lt hfit).symm
    rw [if_neg (by omega), if_neg (by omega), ← heq] at hread
    exact ⟨_, _, hread, (respond_error_iff (by simp)).mpr ⟨rfl, _, _, _, rfl, hop, r, hr, hbig⟩⟩
  · intro h
    have hobtains : ∀ q, Reaches s around input q → Obtains q.2 :=
      fun q hq => obtains_iff.mpr (h q hq).1
    have hfail : ∀ q p, Reaches s around input q → readFrame q.2 ≠ .fail p := by
      intro q p hq hread
      have := hobtains q hq
      simp [Obtains, hread] at this
    refine ⟨?_, ?_, hobtains⟩
    · rw [Ne, handleConnection_error_iff]
      rintro ⟨q, hq, hread | ⟨f, rest, _, hrespond⟩⟩
      · exact hfail q _ hq hread
      · have := (respond_error_iff (by simp)).mp hrespond
        simp at this
    · rw [Ne, handleConnection_error_iff]
      rintro ⟨q, hq, hread | ⟨f, rest, hread, hrespond⟩⟩
      · exact hfail q _ hq hread
      · obtain ⟨-, headerBuf, key, val, rfl, hop, r, hr, hbig⟩ :=
          (respond_error_iff (by simp)).mp hrespond
        have hob := hobtains q hq
        simp only [Obtains, hread] at hob
        obtain ⟨heq, hlen, hkey, hval⟩ := hob
        have htake : (key ++ val ++ rest).take (headerKeyLen headerBuf) = key := by
          rw [List.append_assoc, ← hkey, List.take_left]
        refine hbig ((h q hq).2 heq hlen hop ?_ (r := r) (by rw [htake]; exact hr))
        simp only [List.length_append]
        omega

/-- A key length of `2 ^ 32 - 1` and a value length of 2 make a body of one byte. -/
theorem connection_out_of_range :
    (newStagwayServer none (some (Storage.newMemTable Storage.defaultMemTableOptions))
      (some (Bench.openWAL Bench.defaultWALOptions none))).start.handleConnection
        (undisturbed fun _ => ⟨Bench.Disk.ok, 1⟩)
        [0x01, 0xff, 0xff, 0xff, 0xff, 0x00, 0x00, 0x00, 0x02, 0x00] = .error .body := by
  rfl

end Connection

end Hallownest.Network
