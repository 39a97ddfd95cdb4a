import Hallownest.Daemon
import Hallownest.Network.Connection

namespace Hallownest.Cli

open Bench (Disk WAL openWAL defaultWALOptions)
open Daemon (handle_standalone logged standalone)
open Network
open Storage (MemTable Models Op contents lastWrite newMemTable)

/-!
# Cli — the client (`hallownest-cli`), and the wire protocol from end to end

The client frames a request, sends it, and reads the response.  It does not read the value
bytes of a response that says the key was not found, or was deleted.

* `executePut`, `executeGet` and `executeDelete` are translated from the source, `request` and
  `readResponse` are their two halves.
* `request_format` — the server reads back the frames of the client.
* `wire_round_trip` — a standalone server that is sent any beginning of a sequence of frames
  executes the requests that are wholly in it, and the client reads off what the server writes
  back one response for each of them, the one a plain map gives.  For that the values in the
  table have to leave room for a 32-bit length (`wire_long_value`).
-/

/-! ### Framing requests -/

/-- Fill in the header of a request in a buffer of the given length. -/
def fillHeader (reqLen : ℕ) (op : UInt8) (keyLen valLen : ℕ) : Option Bytes := do
  let reqBuf : Bytes := List.replicate reqLen 0
  let reqBuf ← Slice.put reqBuf 0 op
  let reqBuf ← Bytes.blit reqBuf 1 5 (Bytes.be 4 keyLen)
  Bytes.blit reqBuf 5 9 (Bytes.be 4 valLen)

/-- The request of `executePut`; `none` is a panic. -/
def executePut (key val : Bytes) : Option Bytes := do
  let keyLen := uint32 key.length
  let valLen := uint32 val.length
  let reqBuf ← fillHeader (uint32 (9 + keyLen + valLen)) opPut keyLen valLen
  let reqBuf ← Bytes.blit reqBuf 9 (uint32 (9 + keyLen)) key
  Bytes.blit reqBuf (uint32 (9 + keyLen)) reqBuf.length val

/-- A request with a key only. -/
def keyRequest (op : UInt8) (key : Bytes) : Option Bytes := do
  let keyLen := uint32 key.length
  let reqBuf ← fillHeader (uint32 (9 + keyLen)) op keyLen 0
  Bytes.blit reqBuf 9 reqBuf.length key

/-- The request of `executeGet`. -/
def executeGet (key : Bytes) : Option Bytes := keyRequest opGet key

/-- The request of `executeDelete`. -/
def executeDelete (key : Bytes) : Option Bytes := keyRequest opTombstone key

/-- A command of the client. -/
inductive Request
  | put (key value : Bytes)
  | get (key : Bytes)
  | delete (key : Bytes)
  deriving DecidableEq, Repr

namespace Request

/-- What the client sends for a command. -/
def request : Request → Option Bytes
  | put key value => executePut key value
  | get key => executeGet key
  | delete key => executeDelete key

/-- The operation of a request. -/
def op : Request → UInt8
  | put _ _ => opPut
  | get _ => opGet
  | delete _ => opTombstone

/-- The key of a request. -/
def key : Request → Bytes
  | put key _ => key
  | get key => key
  | delete key => key

/-- The value of a request. -/
def value : Request → Bytes
  | put _ value => value
  | get _ => []
  | delete _ => []

/-- Requests whose record would fit into the log. -/
def Fits (r : Request) : Prop := 13 + r.key.length + r.value.length < 2 ^ 32

instance (r : Request) : Decidable r.Fits := inferInstanceAs (Decidable (_ < _))

end Request

/-! ### Reading responses -/

/-- What the client makes of a response. -/
inductive Response
  | written (success : Bool) (index term : ℕ) (isLeader : Bool)
  | notFound
  | deleted
  | value (val : Bytes)
  deriving DecidableEq, Repr

/-- Read the response to a write (`executePut`, `executeDelete`): the response, and the bytes
    that are left. -/
def readWriteResponse (bs : Bytes) : Option (Response × Bytes) := do
  let (respBuf, bs) ← Bytes.readFull 10 bs
  let success := respBuf[0]? == some 1
  let index := Bytes.ofBe ((respBuf.drop 1).take 4)
  let term := Bytes.ofBe ((respBuf.drop 5).take 4)
  let isLeader := respBuf[9]? == some 1
  return (.written success index term isLeader, bs)

/-- Read the response to a get (`executeGet`). -/
def readReadResponse (bs : Bytes) : Option (Response × Bytes) := do
  let (hdrBuf, bs) ← Bytes.readFull 6 bs
  let found := hdrBuf[0]? == some 1
  let tombstone := hdrBuf[1]? == some 1
  let valLen := Bytes.ofBe ((hdrBuf.drop 2).take 4)
  if !found then return (.notFound, bs)
  else if tombstone then return (.deleted, bs)
  else do
    let (valBuf, bs) ← Bytes.readFull valLen bs
    return (.value valBuf, bs)

/-- Read the response to a request. -/
def Request.readResponse : Request → Bytes → Option (Response × Bytes)
  | put _ _ => readWriteResponse
  | get _ => readReadResponse
  | delete _ => readWriteResponse

/-- Read one response for each of the requests: the responses, and the bytes that are left. -/
def readResponses : List Request → Bytes → Option (List Response × Bytes)
  | [], bs => some ([], bs)
  | r :: reqs, bs => do
    let (resp, bs) ← r.readResponse bs
    let (resps, bs) ← readResponses reqs bs
    return (resp :: resps, bs)

/-! ### The plain map -/

/-- A map from keys to values or tombstones (`some none`). -/
abbrev PlainMap := Bytes → Option (Option Bytes)

/-- What the plain map answers. -/
def PlainMap.answer (map : PlainMap) : Request → Response
  | .put _ _ => .written true 1 1 true
  | .delete _ => .written true 1 1 true
  | .get key =>
    match map key with
    | none => .notFound
    | some none => .deleted
    | some (some val) => .value val

/-- The plain map after a request. -/
def PlainMap.after (map : PlainMap) : Request → PlainMap
  | .put key value => Function.update map key (some (some value))
  | .delete key => Function.update map key (some none)
  | .get _ => map

/-- What the plain map answers to a sequence of requests. -/
def PlainMap.answers : PlainMap → List Request → List Response
  | _, [] => []
  | map, r :: reqs => map.answer r :: (map.after r).answers reqs

/-- What a write leaves under its key. -/
def leaves : Op → Option Bytes
  | .put _ value => some value
  | .delete _ => none

/-- What a table holds after the given writes. -/
def plainMap (ops : List Op) : PlainMap := fun key => (lastWrite ops key).map leaves

/-- The write that a request makes, if any. -/
def Request.write? : Request → Option Op
  | put key value => some (.put key value)
  | get _ => none
  | delete key => some (.delete key)

/-- The writes that a sequence of requests makes. -/
def writes (reqs : List Request) : List Op := reqs.filterMap Request.write?

/-! ### Frames -/

/-- The header of a frame. -/
def header (op : UInt8) (keyLen valLen : ℕ) : Bytes :=
  [op] ++ Bytes.be 4 keyLen ++ Bytes.be 4 valLen

@[simp] theorem length_header (op : UInt8) (keyLen valLen : ℕ) :
    (header op keyLen valLen).length = 9 := by
  simp [header]

theorem fillHeader_eq (n : ℕ) (op : UInt8) (keyLen valLen : ℕ) :
    fillHeader (9 + n) op keyLen valLen =
      some (header op keyLen valLen ++ List.replicate n 0) := by
  let zeros : ℕ → Bytes := fun n => List.replicate n 0
  have h0 : zeros (9 + n) = 0 :: (zeros 4 ++ zeros 4 ++ zeros n) := by
    show List.replicate _ _ = _
    rw [show 9 + n = 1 + (4 + 4 + n) by omega]
    simp only [List.replicate_add, List.replicate_one]
    rfl
  have h1 : Slice.put (zeros (9 + n)) 0 op = some ([op] ++ zeros 4 ++ (zeros 4 ++ zeros n)) := by
    rw [h0]
    have hput := Slice.put_append (s := ([] : Bytes)) (i := 0) rfl 0 op
      (t := zeros 4 ++ zeros 4 ++ zeros n)
    rw [List.nil_append] at hput
    rw [hput]
    simp
  have h2 : Bytes.blit ([op] ++ zeros 4 ++ (zeros 4 ++ zeros n)) 1 5 (Bytes.be 4 keyLen) =
      some ([op] ++ Bytes.be 4 keyLen ++ zeros 4 ++ zeros n) := by
    rw [Bytes.blit_append _ _ _ _ (by simp) (by simp [zeros]) (by simp [zeros])]
    simp
  have h3 : Bytes.blit ([op] ++ Bytes.be 4 keyLen ++ zeros 4 ++ zeros n) 5 9
      (Bytes.be 4 valLen) = some (header op keyLen valLen ++ zeros n) :=
    Bytes.blit_append _ _ _ _ (by simp) (by simp [zeros]) (by simp [zeros])
  show (Slice.put (zeros (9 + n)) 0 op >>= fun reqBuf => _) = _
  simp only [h1, h2, h3, Option.bind_eq_bind, Option.bind_some]
  rfl

namespace Request

/-- The frame of a request. -/
def bytes (r : Request) : Bytes :=
  header r.op r.key.length r.value.length ++ (r.key ++ r.value)

theorem length_bytes (r : Request) : r.bytes.length = 9 + r.key.length + r.value.length := by
  simp [bytes]
  omega

theorem executePut_eq {key val : Bytes} (h : (put key val).Fits) :
    executePut key val = some (put key val).bytes := by
  have hfit : 13 + key.length + val.length < 2 ^ 32 := h
  let zeros : ℕ → Bytes := fun n => List.replicate n 0
  let head := header opPut key.length val.length
  have h1 : fillHeader (9 + key.length + val.length) opPut key.length val.length =
      some (head ++ zeros key.length ++ zeros val.length) := by
    rw [Nat.add_assoc, fillHeader_eq, List.replicate_add, ← List.append_assoc]
  have h2 : Bytes.blit (head ++ zeros key.length ++ zeros val.length) 9 (9 + key.length) key =
      some (head ++ key ++ zeros val.length) :=
    Bytes.blit_append _ _ _ _ (by simp [head]) (by simp [head, zeros]) (by simp [zeros])
  have h3 : Bytes.blit (head ++ key ++ zeros val.length) (9 + key.length)
      (head ++ key ++ zeros val.length).length val = some (head ++ key ++ val) := by
    have hlast := Bytes.blit_append (head ++ key) (zeros val.length) [] val
      (show 9 + key.length = _ by simp [head]) List.length_append (by simp [zeros])
    rwa [List.append_nil, List.append_nil] at hlast
  unfold executePut
  simp only [uint32_of_lt (show key.length < 2 ^ 32 by omega),
    uint32_of_lt (show val.length < 2 ^ 32 by omega),
    uint32_of_lt (show 9 + key.length + val.length < 2 ^ 32 by omega),
    uint32_of_lt (show 9 + key.length < 2 ^ 32 by omega), h1, h2, h3, Option.bind_eq_bind,
    Option.bind_some]
  rw [List.append_assoc]
  rfl

theorem keyRequest_eq (op : UInt8) {key : Bytes} (h : 13 + key.length < 2 ^ 32) :
    keyRequest op key = some (header op key.length 0 ++ key) := by
  have h2 : Bytes.blit (header op key.length 0 ++ List.replicate key.length 0) 9
      (header op key.length 0 ++ List.replicate key.length 0).length key =
      some (header op key.length 0 ++ key) := by
    have hlast := Bytes.blit_append (header op key.length 0) (List.replicate key.length 0) [] key
      (length_header _ _ _).symm List.length_append (by simp)
    rwa [List.append_nil, List.append_nil] at hlast
  unfold keyRequest
  simp only [uint32_of_lt (show key.length < 2 ^ 32 by omega),
    uint32_of_lt (show 9 + key.length < 2 ^ 32 by omega), fillHeader_eq, h2, Option.bind_eq_bind,
    Option.bind_some]

/-- **The client sends the frame.** -/
theorem request_eq {r : Request} (h : r.Fits) : r.request = some r.bytes := by
  cases r with
  | put key value => exact executePut_eq h
  | get key =>
    rw [show (get key).bytes = header opGet key.length 0 ++ (key ++ []) from rfl, List.append_nil]
    exact keyRequest_eq opGet h
  | delete key =>
    rw [show (delete key).bytes = header opTombstone key.length 0 ++ (key ++ []) from rfl,
      List.append_nil]
    exact keyRequest_eq opTombstone h

/-- What the server reads out of the header. -/
theorem header_fields {r : Request} (h : r.Fits) :
    headerOp (header r.op r.key.length r.value.length) = r.op ∧
      headerKeyLen (header r.op r.key.length r.value.length) = r.key.length ∧
      headerValLen (header r.op r.key.length r.value.length) = r.value.length ∧
      isPreface (header r.op r.key.length r.value.length) = false := by
  have hfit : 13 + r.key.length + r.value.length < 2 ^ 32 := h
  have hop : headerOp (header r.op r.key.length r.value.length) = r.op := rfl
  refine ⟨hop, ?_, ?_, isPreface_of_op ?_⟩
  · have hk : Bytes.ofBe (Bytes.be 4 r.key.length) = r.key.length := by
      rw [Bytes.ofBe_be, Nat.mod_eq_of_lt (by omega)]
    simp [headerKeyLen, header, hk]
  · have hv : Bytes.ofBe (Bytes.be 4 r.value.length) = r.value.length := by
      rw [Bytes.ofBe_be, Nat.mod_eq_of_lt (by omega)]
    have hdrop : (header r.op r.key.length r.value.length).drop 5 =
        Bytes.be 4 r.value.length := by
      rw [header]
      exact List.drop_left' (by simp)
    rw [headerValLen, hdrop, List.take_of_length_le (by simp), hv]
  · rw [hop]
    cases r <;> simp [op, opPut, opGet, opTombstone]

/-- What the server makes of a frame. -/
def frame (r : Request) : Frame :=
  .request (header r.op r.key.length r.value.length) r.key r.value

/-- **The server reads back a frame**, as far as it was sent. -/
theorem readFrame_bytes {r : Request} (h : r.Fits) (rest : Bytes) :
    readFrame (r.bytes ++ rest) = .item r.frame rest := by
  have hfit : 13 + r.key.length + r.value.length < 2 ^ 32 := h
  obtain ⟨_, hkey, hval, hpre⟩ := header_fields h
  have hread := readFrame_header (length_header _ _ _) hpre (r.key ++ r.value ++ rest)
    (n := r.key.length + r.value.length) (by rw [hkey, hval, uint32_of_lt (by omega)])
  have hlen : (r.key ++ r.value).length = r.key.length + r.value.length := List.length_append
  rw [hkey, if_neg (by simp), if_neg (by omega), ← List.append_assoc, ← hlen,
    List.drop_left] at hread
  rw [bytes, hread, frame, hlen, Nat.add_sub_cancel_left, List.append_assoc, List.take_left,
    List.drop_left, List.take_left]

/-- A frame that was sent in part is the end of the stream. -/
private theorem readFrame_cut {r : Request} (h : r.Fits) {t : Bytes} (ht : t <+: r.bytes)
    (hne : t ≠ r.bytes) : readFrame t = .stop := by
  have hfit : 13 + r.key.length + r.value.length < 2 ^ 32 := h
  obtain ⟨_, hkey, hval, hpre⟩ := header_fields h
  have hlt : t.length < r.bytes.length :=
    lt_of_le_of_ne ht.length_le fun heq => hne (ht.eq_of_length heq)
  rw [r.length_bytes] at hlt
  by_cases hshort : t.length < 9
  · exact readFrame_short hshort
  · -- the cut is inside the body
    obtain ⟨body, rfl⟩ : ∃ body, t = header r.op r.key.length r.value.length ++ body := by
      refine ⟨t.drop 9, ?_⟩
      have htake : t.take 9 = header r.op r.key.length r.value.length := by
        rw [List.prefix_iff_eq_take.mp ht, List.take_take, min_eq_left (by omega), bytes,
          List.take_left' (length_header _ _ _)]
      rw [← htake, List.take_append_drop]
    rw [List.length_append, length_header] at hlt
    rw [readFrame_header (length_header _ _ _) hpre body rfl, hkey, hval,
      uint32_of_lt (by omega), if_pos (by omega)]

/-- **The format of requests**, as a format of frames. -/
theorem request_format : Framing.Format readFrame bytes frame Fits where
  nonempty := by
    intro r _ hnil
    have := r.length_bytes
    rw [hnil, List.length_nil] at this
    omega
  whole := readFrame_bytes

end Request

/-! ### Responses -/

/-- The response to an acknowledged write of a standalone server. -/
theorem readWriteResponse_ok (rest : Bytes) :
    readWriteResponse (sendWriteResponse ⟨1, 1, true, none⟩ ++ rest) =
      some (.written true 1 1 true, rest) := by
  rw [readWriteResponse, Bytes.readFull_append (by decide)]
  rfl

/-- The response to a get, as long as there is room for the length of the value. -/
theorem sendReadResponse_eq {val : Bytes} (h : val.length < 2 ^ 32 - 6) (tombstone found : Bool) :
    sendReadResponse val tombstone found none =
      some ([flag found, flag tombstone] ++ Bytes.be 4 val.length ++ val) := by
  simp [sendReadResponse, uint32_of_lt (show val.length < 2 ^ 32 by omega),
    uint32_of_lt (show 6 + val.length < 2 ^ 32 by omega)]

/-- **The client reads back the response to a get.**  It leaves no byte of a response without
    a value, because there the value is empty. -/
theorem readReadResponse_eq {val : Bytes} (h : val.length < 2 ^ 32 - 6) {tombstone found : Bool}
    (hempty : found = false ∨ tombstone = true → val = []) (rest : Bytes) :
    readReadResponse ([flag found, flag tombstone] ++ Bytes.be 4 val.length ++ val ++ rest) =
      some (if found = false then .notFound else if tombstone = true then .deleted
        else .value val, rest) := by
  have hv : Bytes.ofBe (Bytes.be 4 val.length) = val.length := by
    rw [Bytes.ofBe_be, Nat.mod_eq_of_lt (by omega)]
  rw [readReadResponse, List.append_assoc, Bytes.readFull_append (by simp)]
  cases found with
  | false => simp [flag, hempty]
  | true =>
    cases tombstone with
    | true => simp [flag, hempty]
    | false =>
      have htake : (Bytes.be 4 val.length).take 4 = Bytes.be 4 val.length :=
        List.take_of_length_le (by simp)
      simp [flag, htake, hv, Bytes.readFull_append rfl]

private theorem readResponses_cons {r : Request} {reqs : List Request} {out rest : Bytes}
    {resp : Response} {resps : List Response}
    (hfirst : r.readResponse (out ++ rest) = some (resp, rest))
    (hrest : readResponses reqs rest = some (resps, [])) :
    readResponses (r :: reqs) (out ++ rest) = some (resp :: resps, []) := by
  simp [readResponses, hfirst, hrest]

/-! ### The plain map and the table -/

theorem plainMap_write (ops : List Op) (op : Op) :
    plainMap (ops ++ [op]) = Function.update (plainMap ops) op.key (some (leaves op)) := by
  funext key
  rw [plainMap, Storage.lastWrite_snoc, Function.update_apply]
  by_cases hkey : op.key = key
  · simp [hkey]
  · simp [hkey, Ne.symm hkey, plainMap]

/-- The plain map follows the writes of the requests. -/
theorem plainMap_after (ops : List Op) (r : Request) :
    plainMap (ops ++ writes [r]) = (plainMap ops).after r := by
  cases r with
  | put key value => exact plainMap_write ops (.put key value)
  | get key => exact congrArg plainMap (List.append_nil ops)
  | delete key => exact plainMap_write ops (.delete key)

/-- The answer to a get is what the client reads out of what `Get` answers. -/
theorem answer_get (ops : List Op) (key : Bytes) :
    (plainMap ops).answer (.get key) =
      if (Storage.written (lastWrite ops key)).2.2 = false then .notFound
      else if (Storage.written (lastWrite ops key)).2.1 = true then .deleted
      else .value (Storage.written (lastWrite ops key)).1 := by
  simp only [PlainMap.answer, plainMap]
  cases lastWrite ops key with
  | none => rfl
  | some op => cases op <;> rfl

/-- Without a value that the client reads, the value is empty. -/
theorem written_empty (last : Option Op) :
    (Storage.written last).2.2 = false ∨ (Storage.written last).2.1 = true →
      (Storage.written last).1 = [] := by
  cases last with
  | none => simp [Storage.written]
  | some op => cases op <;> simp [Storage.written]

/-- The values in the map leave room for the 6 bytes before them in a response. -/
def PlainMap.Short (map : PlainMap) : Prop :=
  ∀ key val, map key = some (some val) → val.length < 2 ^ 32 - 6

theorem PlainMap.Short.written {ops : List Op} (h : (plainMap ops).Short) (key : Bytes) :
    (Storage.written (lastWrite ops key)).1.length < 2 ^ 32 - 6 := by
  have hkey := h key
  rw [plainMap] at hkey
  cases hlast : lastWrite ops key with
  | none => decide
  | some op =>
    cases op with
    | put key' value => exact hkey value (by rw [hlast]; rfl)
    | delete key' => exact (by decide : ([] : Bytes).length < 2 ^ 32 - 6)

theorem PlainMap.Short.after {map : PlainMap} (h : map.Short) {r : Request} (hr : r.Fits) :
    (map.after r).Short := by
  have hfit : 13 + r.key.length + r.value.length < 2 ^ 32 := hr
  intro key val hval
  cases r with
  | get _ => exact h key val hval
  | put key' value =>
    rw [PlainMap.after, Function.update_apply] at hval
    split at hval
    · cases hval
      simp only [Request.value] at hfit
      omega
    · exact h key val hval
  | delete key' =>
    rw [PlainMap.after, Function.update_apply] at hval
    split at hval
    · cases hval
    · exact h key val hval

/-! ### Serving requests -/

/-- A running standalone server, with what its log holds and the writes its table is made of. -/
def Serves (s : StagwayServer) (maxLevel : Int) (file : Bytes) (ops : List Op) : Prop :=
  ∃ w m, s = standalone w m ∧ w.closed = false ∧ w.file = file ∧ m.opts.maxLevel = maxLevel ∧
    Models m (contents ops)

/-- The records of the writes that a sequence of requests makes. -/
def records (reqs : List Request) : Bytes :=
  Framing.frames Entry.record ((writes reqs).map Op.entry)

/-- Log writes that succeed, and the heights of new nodes. -/
def healthy (level : ℕ → ℕ) : Surroundings := undisturbed fun i => ⟨Disk.ok, level i⟩

variable {s : StagwayServer} {maxLevel : Int} {file : Bytes} {ops : List Op} {level : ℕ → ℕ}
  {c : Conn}

/-- A write is acknowledged, logged and made. -/
theorem respond_write {r : Request} {op : Op} (hop : r.write? = some op) (hfit : r.Fits)
    (hs : Serves c.server maxLevel file ops)
    (hlevel : ∀ i, 1 ≤ level i ∧ (level i : Int) ≤ maxLevel) :
    ∃ server, c.respond (healthy level) r.frame =
        .ok (c.answer server (sendWriteResponse ⟨1, 1, true, none⟩) []) ∧
      Serves server maxLevel (file ++ op.entry.record) (ops ++ [op]) := by
  obtain ⟨w, m, hserver, hopen, rfl, rfl, hm⟩ := hs
  obtain ⟨m', happly, hopts, hm'⟩ := hm.apply op (hlevel c.handled).1 (hlevel c.handled).2
  have hfits : op.entry.Fits := by
    cases r with
    | put key value => cases hop; exact hfit
    | get key => cases hop
    | delete key => cases hop; exact hfit
  have hhandle := handle_standalone hopen hfits happly
  refine ⟨standalone (logged w op.entry) m', ?_, logged w op.entry, m', rfl, hopen, rfl,
    by rw [hopts], by rw [Storage.contents_snoc]; exact hm'⟩
  have hcurrent : c.current (healthy level) = standalone w m := hserver
  cases r with
  | put key value =>
    cases hop
    rw [Request.frame, respond_put rfl, hcurrent]
    exact congrArg c.respondWrite hhandle
  | get key => cases hop
  | delete key =>
    cases hop
    rw [Request.frame, respond_tombstone rfl, hcurrent]
    exact congrArg c.respondWrite hhandle

theorem getGeo_standalone (w : WAL) {m : MemTable} {key : Bytes} {r : Bytes × Bool × Bool}
    (h : m.get key = some r) :
    (standalone w m).getGeo key = some (r.1, r.2.1, r.2.2, none) := by
  simp [StagwayServer.getGeo, standalone, newStagwayServer, StagwayServer.start, h]

/-- A get leaves the server as it is, and the client reads the answer of the plain map. -/
theorem respond_read (level : ℕ → ℕ) (key : Bytes) (hs : Serves c.server maxLevel file ops)
    (hshort : (plainMap ops).Short) :
    ∃ out, c.respond (healthy level) (Request.get key).frame = .ok (c.answer c.server out []) ∧
      ∀ rest, readReadResponse (out ++ rest) = some ((plainMap ops).answer (.get key), rest) := by
  rw [answer_get]
  obtain ⟨w, m, hserver, _, _, _, hm⟩ := hs
  have hcurrent : c.current (healthy level) = c.server := rfl
  have hget := getGeo_standalone w (hm.get_contents key)
  rw [← hserver] at hget
  have hlen := hshort.written key
  refine ⟨_, ?_, readReadResponse_eq hlen (written_empty _)⟩
  rw [Request.frame, respond_get rfl, hcurrent, Request.key, hget, Conn.respondRead]
  simp only [sendReadResponse_eq hlen]
  rfl

/-- **One request.** -/
theorem respond_request {r : Request} (hfit : r.Fits) (hs : Serves c.server maxLevel file ops)
    (hlevel : ∀ i, 1 ≤ level i ∧ (level i : Int) ≤ maxLevel) (hshort : (plainMap ops).Short) :
    ∃ server out, c.respond (healthy level) r.frame = .ok (c.answer server out []) ∧
      Serves server maxLevel (file ++ records [r]) (ops ++ writes [r]) ∧
      ∀ rest, r.readResponse (out ++ rest) = some ((plainMap ops).answer r, rest) := by
  cases r with
  | put key value =>
    obtain ⟨server, hrespond, hserves⟩ := respond_write
      (show (Request.put key value).write? = some (.put key value) from rfl) hfit hs hlevel
    refine ⟨server, _, hrespond, ?_, readWriteResponse_ok⟩
    simpa [records, writes, Request.write?] using hserves
  | get key =>
    obtain ⟨out, hrespond, hread⟩ := respond_read level key hs hshort
    refine ⟨c.server, out, hrespond, ?_, hread⟩
    show Serves c.server maxLevel (file ++ []) (ops ++ [])
    rwa [List.append_nil, List.append_nil]
  | delete key =>
    obtain ⟨server, hrespond, hserves⟩ := respond_write
      (show (Request.delete key).write? = some (.delete key) from rfl) hfit hs hlevel
    refine ⟨server, _, hrespond, ?_, readWriteResponse_ok⟩
    simpa [records, writes, Request.write?] using hserves

/-- **A sequence of requests.** -/
theorem respond_all (hlevel : ∀ i, 1 ≤ level i ∧ (level i : Int) ≤ maxLevel) :
    ∀ (reqs : List Request) {c : Conn} {file : Bytes} {ops : List Op}, (∀ r ∈ reqs, r.Fits) →
      Serves c.server maxLevel file ops → (plainMap ops).Short →
      ∃ c', reqs.foldlM (fun c r => c.respond (healthy level) r.frame) c = .ok c' ∧
        c'.handled = c.handled + reqs.length ∧
        Serves c'.server maxLevel (file ++ records reqs) (ops ++ writes reqs) ∧
        ∃ out, c'.out = c.out ++ out ∧
          readResponses reqs out = some ((plainMap ops).answers reqs, []) := by
  intro reqs
  induction reqs with
  | nil =>
    intro c file ops _ hs _
    exact ⟨c, rfl, rfl, by simpa [records, writes] using hs, [], by simp, rfl⟩
  | cons r reqs ih =>
    intro c file ops hfit hs hshort
    have hr := hfit r (by simp)
    obtain ⟨server, out, hrespond, hserves, hread⟩ := respond_request hr hs hlevel hshort
    obtain ⟨c', hall, hhandled, hserves', out', hout, hread'⟩ :=
      ih (c := c.answer server out []) (fun q hq => hfit q (by simp [hq])) hserves
        (by rw [plainMap_after]; exact hshort.after hr)
    refine ⟨c', ?_, ?_, ?_, out ++ out', ?_, ?_⟩
    · rw [List.foldlM_cons, hrespond]
      exact hall
    · rw [hhandled, List.length_cons]
      show c.handled + 1 + reqs.length = _
      omega
    · have hwrites : writes (r :: reqs) = writes [r] ++ writes reqs :=
        List.filterMap_append (l := [r])
      rw [records, hwrites, List.map_append, Framing.frames_append, ← List.append_assoc,
        ← List.append_assoc]
      exact hserves'
    · rw [hout, Conn.answer, List.append_assoc]
    · rw [plainMap_after] at hread'
      exact readResponses_cons (hread out') hread'

/-! ### From end to end -/

/-- The requests whose frames lie wholly within the first `n` bytes of the stream. -/
def executed (reqs : List Request) (n : ℕ) : List Request :=
  reqs.take (Framing.wholeFrames Request.bytes reqs n)

/-- **The wire protocol.**  A standalone server whose table holds no value that is too long for a
    response is sent the first `n` bytes of the frames of any requests.  It executes those that
    lie wholly within these bytes, and no other changes the log or the table; the client reads
    off what the server writes back one response for each of them, without remainder, the one
    the plain map gives. -/
theorem wire_round_trip (w : WAL) (hopen : w.closed = false) (m : MemTable) (ops : List Op)
    (hm : Models m (contents ops)) (hshort : (plainMap ops).Short) (level : ℕ → ℕ)
    (hlevel : ∀ i, 1 ≤ level i ∧ (level i : Int) ≤ m.opts.maxLevel) (reqs : List Request)
    (hfit : ∀ r ∈ reqs, r.Fits) (n : ℕ) :
    (∀ r ∈ reqs, r.request = some r.bytes) ∧
      ∃ c, (standalone w m).handleConnection (healthy level)
          ((Framing.frames Request.bytes reqs).take n) = .ok c ∧
        c.handled = (executed reqs n).length ∧
        Serves c.server m.opts.maxLevel (w.file ++ records (executed reqs n))
          (ops ++ writes (executed reqs n)) ∧
        readResponses (executed reqs n) c.out =
          some ((plainMap ops).answers (executed reqs n), []) := by
  refine ⟨fun r hr => Request.request_eq (hfit r hr), ?_⟩
  have hfit' : ∀ r ∈ executed reqs n, r.Fits := fun r hr => hfit r (List.mem_of_mem_take hr)
  have hserves : Serves (standalone w m) m.opts.maxLevel w.file ops :=
    ⟨w, m, rfl, hopen, rfl, rfl, hm⟩
  obtain ⟨c, hall, hhandled, hserves', out, hout, hread⟩ :=
    respond_all hlevel (executed reqs n) (c := ⟨standalone w m, 0, [], []⟩) hfit' hserves hshort
  -- the stream consists of whole frames and possibly a cut one, which ends it
  obtain ⟨t, htake, hcut⟩ := Framing.take_frames Request.bytes reqs n
  rw [← executed] at htake
  have hstop : readFrame t = .stop := by
    rcases hcut with rfl | ⟨r, hr, hpre, hne⟩
    · exact readFrame_short (by simp)
    · exact Request.readFrame_cut (hfit r hr) hpre hne
  refine ⟨c, ?_, by rw [hhandled, Nat.zero_add], hserves', ?_⟩
  · rw [StagwayServer.handleConnection, htake,
      Framing.serve_frames Request.request_format hstop _ _ _ hfit' (le_refl _)]
    exact hall
  · rw [hout, List.nil_append]
    exact hread

/-- Of a put, a get and a delete, framed in 11, 10 and 10 bytes, 25 bytes are sent. -/
theorem wire_round_trip_three : ∃ c,
    (standalone (openWAL defaultWALOptions none) (newMemTable ⟨1, 0⟩)).handleConnection
      (healthy fun _ => 1) ((Framing.frames Request.bytes
        [.put [7] [1], .get [7], .delete [7]]).take 25) = .ok c ∧
    c.handled = 2 ∧
    readResponses [.put [7] [1], .get [7]] c.out =
      some ([.written true 1 1 true, .value [1]], []) := by
  have hwhole : executed [.put [7] [1], .get [7], .delete [7]] 25 = [.put [7] [1], .get [7]] := by
    decide
  have h := (wire_round_trip (openWAL defaultWALOptions none) rfl (newMemTable ⟨1, 0⟩) []
    (Storage.models_new ⟨1, 0⟩) (by intro key val hval; cases hval) (fun _ => 1)
    (fun _ => by decide) [.put [7] [1], .get [7], .delete [7]] (by decide) 25).2
  rw [hwhole] at h
  obtain ⟨c, hrun, hhandled, _, hread⟩ := h
  exact ⟨c, hrun, hhandled, hread⟩

/-- A value of `2 ^ 32` bytes is answered with the length 0 and no bytes. -/
theorem wire_long_value : ∃ (long : Bytes) (m : MemTable) (c : Conn), long.length = 2 ^ 32 ∧
    (newMemTable ⟨1, 0⟩).apply (.put [7] long) 1 = some m ∧
    (standalone (openWAL defaultWALOptions none) m).handleConnection (healthy fun _ => 1)
      (Request.get [7]).bytes = .ok c ∧
    readResponses [.get [7]] c.out = some ([.value []], []) ∧
    (plainMap [.put [7] long]).answers [.get [7]] = [.value long] := by
  obtain ⟨long, hlen⟩ : ∃ long : Bytes, long.length = 2 ^ 32 :=
    ⟨List.replicate (2 ^ 32) 0, List.length_replicate⟩
  obtain ⟨m, happly, _, hm⟩ := (Storage.models_new ⟨1, 0⟩).apply (.put [7] long)
    (show 1 ≤ 1 by decide) (by decide)
  have hget : m.get [7] = some (long, false, true) := hm.get [7]
  have hsend : sendReadResponse long false true none = some [1, 0, 0, 0, 0, 0] := by
    rw [sendReadResponse, hlen]
    rfl
  have hfit : ∀ r ∈ [Request.get [7]], r.Fits := by decide
  let start : Conn := ⟨standalone (openWAL defaultWALOptions none) m, 0, [], []⟩
  have hrespond : start.respond (healthy fun _ => 1) (Request.get [7]).frame =
      .ok (start.answer start.server [1, 0, 0, 0, 0, 0] []) := by
    rw [Request.frame, respond_get rfl]
    show start.respondRead (healthy fun _ => 1)
      ((standalone (openWAL defaultWALOptions none) m).getGeo [7]) = _
    rw [getGeo_standalone _ hget, Conn.respondRead]
    simp only [hsend]
    rfl
  have hserve : Framing.serve readFrame (Conn.respond (healthy fun _ => 1)) _ start _ = _ :=
    Framing.serve_frames Request.request_format
      (readFrame_short (show ([] : Bytes).length < 9 by decide)) [Request.get [7]] _ start hfit
      (le_refl _)
  rw [List.foldlM_cons, hrespond] at hserve
  exact ⟨long, m, start.answer start.server [1, 0, 0, 0, 0, 0] [], hlen, happly, hserve, rfl, rfl⟩

end Hallownest.Cli
