import Hallownest.Consensus.Handlers
import Hallownest.Network.Connection

namespace Hallownest.Gateway

open Consensus (Packet)
open Network (Env ServerError StagwayServer WriteResult)
open Storage (Op)

/-!
# Gateway — the HTTP handlers (`main.go`)

The daemon serves the same store over HTTP.  The decoder of JSON bodies is a parameter, and a
response is what is handed to the encoder; Go strings are byte strings.  A request is modelled from
where the mux hands it to a handler: a path with `//`, `.` or `..` in it is redirected to the
cleaned one before that, by the mux alone.

* `refused_unchanged` — a request that is not answered with status 200 has changed nothing.
-/

/-! ### Requests and responses -/

/-- The bytes of a text of ASCII characters. -/
def text (s : String) : Bytes := s.toList.map fun c => UInt8.ofNat c.toNat

/-- The body of a put (`PutJSONRequest`). -/
structure PutJSONRequest where
  key : Bytes
  value : Bytes
  deriving DecidableEq, Repr

/-- The answer to a put, a get or a delete (`ResponseJSON`). -/
structure ResponseJSON where
  success : Bool
  key : Bytes := []
  value : Bytes := []
  found : Bool := false
  tombstone : Bool := false
  index : Int := 0
  term : Int := 0
  message : Bytes := []
  deriving DecidableEq, Repr

/-- The answer to a status request. -/
structure StatusJSON where
  status : String
  nodeID : Int
  term : Int
  isLeader : Bool
  grpcPort : Int
  httpPort : Int
  memTableBytes : Int
  deriving DecidableEq, Repr

/-- The method of a request. -/
inductive Method
  | get
  | post
  | delete
  | other
  deriving DecidableEq, Repr

/-- What the handlers read of a request: `path` is a clean path, which the mux does not redirect;
    `body` is what `io.ReadAll` returns, `none` an error; `key` is the query parameter, empty if
    there is none. -/
structure HttpRequest where
  method : Method
  path : String
  body : Option Bytes
  key : Bytes
  deriving DecidableEq, Repr

/-- What is written in a response; `dashboard` is `DashboardHTML`. -/
inductive Body
  | text (s : String)
  | json (r : ResponseJSON)
  | status (r : StatusJSON)
  | dashboard
  deriving DecidableEq, Repr

/-- A response. -/
structure HttpResponse where
  status : ℕ
  contentType : String
  body : Body
  deriving DecidableEq, Repr

/-- A text with a status (`http.Error`), which replaces the content type. -/
def httpError (error : String) (code : ℕ) : HttpResponse where
  status := code
  contentType := "text/plain; charset=utf-8"
  body := .text (error ++ "\n")

/-- A JSON object with a status. -/
def respondJSON (code : ℕ) (r : ResponseJSON) : HttpResponse where
  status := code
  contentType := "application/json"
  body := .json r

/-- The text of an error of the server. -/
def errorText : ServerError → Bytes
  | .serverClosed => text "stagway: server is closed"
  | .notLeader => text "stagway: node is not raft leader"

/-- A truth value as `%v` prints it. -/
def boolText (b : Bool) : Bytes := if b then text "true" else text "false"

/-! ### The handlers -/

variable (unmarshal : Bytes → Option PutJSONRequest)

/-- What a handler returns: the server, the response, and the requests the Raft node sends. -/
abbrev Handled : Type := StagwayServer × HttpResponse × List Packet

/-- The response to a write: `done` if the server has accepted it. -/
def respondWrite (r : StagwayServer × WriteResult × List Packet)
    (done : WriteResult → ResponseJSON) : Handled :=
  (r.1,
    match r.2.1.err with
    | some err => respondJSON 500 { success := false, message := errorText err }
    | none => respondJSON 200 (done r.2.1),
    r.2.2)

/-- The handler of `/put`. -/
def handlePut (s : StagwayServer) (r : HttpRequest) (env : Env) : Option Handled :=
  if r.method ≠ .post then
    some (s, httpError
      "\x7b\"success\":false,\"message\":\"Method not allowed, use POST\"\x7d" 405, [])
  else
    match r.body with
    | none =>
      some (s, httpError
        "\x7b\"success\":false,\"message\":\"Failed reading request body\"\x7d" 400, [])
    | some body =>
      match (unmarshal body).filter fun req => decide (req.key ≠ []) with
      | none =>
        some (s, httpError
          "\x7b\"success\":false,\"message\":\"Invalid JSON, 'key' is required\"\x7d" 400, [])
      | some req =>
        (s.putGeo req.key req.value env).map fun written => respondWrite written fun res =>
        { success := true
          key := req.key
          value := req.value
          index := res.index
          term := res.term
          message := text "Stored key '" ++ req.key ++ text "' via Raft Leader=" ++
            boolText res.isLeader }

/-- The response of `/get` and `/delete` to a request without a key. -/
def keyRequired : HttpResponse :=
  httpError "\x7b\"success\":false,\"message\":\"Query parameter 'key' is required\"\x7d" 400

/-- The handler of `/get`. -/
def handleGet (s : StagwayServer) (r : HttpRequest) : Option HttpResponse :=
  if r.key = [] then some keyRequired
  else do
    let (val, tombstone, found, err) ← s.getGeo r.key
    match err with
    | some err => return respondJSON 500 { success := false, message := errorText err }
    | none =>
      if !found then
        return respondJSON 404
          { success := false, key := r.key, found := false, message := text "404 Key Not Found" }
      else if tombstone then
        return respondJSON 200
          { success := false
            key := r.key
            found := true
            tombstone := true
            message := text "Key Deleted (Tombstone)" }
      else
        return respondJSON 200
          { success := true, key := r.key, value := val, found := true, tombstone := false }

/-- The handler of `/delete`, for any method. -/
def handleDelete (s : StagwayServer) (r : HttpRequest) (env : Env) : Option Handled :=
  if r.key = [] then some (s, keyRequired, [])
  else (s.focusTombstone r.key env).map fun written => respondWrite written fun res =>
    { success := true
      key := r.key
      index := res.index
      term := res.term
      message := text "Inserted tombstone for key '" ++ r.key ++ text "' via Raft Leader=" ++
        boolText res.isLeader }

/-- The flags of the daemon that `/status` repeats. -/
structure Flags where
  nodeID : Int
  port : Int
  httpPort : Int
  deriving DecidableEq, Repr

/-- The handler of `/status`. -/
def handleStatus (flags : Flags) (s : StagwayServer) : Option HttpResponse := do
  let (term, isLeader) := (← s.raft).getState
  let memTable ← s.memTable
  return {
    status := 200
    contentType := "application/json"
    body := .status
      { status := "RUNNING"
        nodeID := flags.nodeID
        term := term
        isLeader := isLeader
        grpcPort := flags.port
        httpPort := flags.httpPort
        memTableBytes := memTable.sizeBytes } }

/-- The handler of every other path. -/
def handleRoot (r : HttpRequest) : HttpResponse :=
  if r.path ≠ "/" then httpError "404 page not found" 404
  else { status := 200, contentType := "text/html; charset=utf-8", body := .dashboard }

/-- Serve a request with a clean path (`httpMux`). -/
def serveHTTP (flags : Flags) (s : StagwayServer) (r : HttpRequest) (env : Env) : Option Handled :=
  if r.path = "/put" then handlePut unmarshal s r env
  else if r.path = "/get" then (handleGet s r).map fun resp => (s, resp, [])
  else if r.path = "/delete" then handleDelete s r env
  else if r.path = "/status" then (handleStatus flags s).map fun resp => (s, resp, [])
  else some (s, handleRoot r, [])

/-! ### What a request does -/

variable {unmarshal} {flags : Flags} {s s' : StagwayServer} {r : HttpRequest} {env : Env}
  {resp : HttpResponse} {sent : List Packet}

/-- The write a request asks for, if it is well formed. -/
def writeOf (unmarshal : Bytes → Option PutJSONRequest) (r : HttpRequest) : Option Op :=
  if r.path = "/put" then do
    if r.method ≠ .post then none
    else do
      let req ← (unmarshal (← r.body)).filter fun req => decide (req.key ≠ [])
      return .put req.key req.value
  else if r.path = "/delete" then if r.key = [] then none else some (.delete r.key)
  else none

/-- The response to a write has status 200 if the server has accepted the write. -/
theorem respondWrite_spec (s : StagwayServer) (res : WriteResult) (sent : List Packet)
    (done : WriteResult → ResponseJSON) :
    ∃ resp, respondWrite (s, res, sent) done = (s, resp, sent) ∧
      (resp.status = 200 ↔ res.err = none) ∧ (res.err = none → resp.body = .json (done res)) := by
  refine ⟨_, rfl, ?_, ?_⟩
  · cases res.err with
    | none => simp [respondJSON]
    | some err => simp [respondJSON]
  · intro herr
    simp [herr, respondJSON]

/-- What a handler has made of a write. -/
def Writes (s : StagwayServer) (op : Op) (env : Env) (out : Handled) : Prop :=
  ∃ res, s.handle op env = some (out.1, res, out.2.2) ∧ (out.2.1.status = 200 ↔ res.err = none) ∧
    (res.err = none → ∃ j, out.2.1.body = .json j ∧ j.success = true ∧ j.index = res.index ∧
      j.term = res.term)

theorem writes_of_respond {op : Op} {done : WriteResult → ResponseJSON} {out : Handled}
    (hdone : ∀ res, (done res).success = true ∧ (done res).index = res.index ∧
      (done res).term = res.term)
    (h : (s.handle op env).map (fun written => respondWrite written done) = some out) :
    Writes s op env out := by
  obtain ⟨⟨s', res, sent⟩, hrun, rfl⟩ := Option.map_eq_some_iff.mp h
  obtain ⟨resp, hresp, hstatus, hbody⟩ := respondWrite_spec s' res sent done
  rw [hresp]
  exact ⟨res, hrun, hstatus, fun herr => ⟨_, hbody herr, hdone res⟩⟩

theorem handlePut_cases {out : Handled} (hpath : r.path = "/put")
    (h : handlePut unmarshal s r env = some out) :
    (∃ op, writeOf unmarshal r = some op ∧ Writes s op env out) ∨
      (writeOf unmarshal r = none ∧ out.1 = s ∧ out.2.2 = []) := by
  rw [handlePut] at h
  rw [writeOf, if_pos hpath]
  split at h
  · next hmethod =>
    obtain rfl := Option.some.inj h
    exact Or.inr ⟨if_pos hmethod, rfl, rfl⟩
  · next hmethod =>
    rw [if_neg hmethod]
    cases hbody : r.body with
    | none =>
      rw [hbody] at h
      obtain rfl := Option.some.inj h
      exact Or.inr ⟨rfl, rfl, rfl⟩
    | some body =>
      rw [hbody] at h
      show (∃ op, ((unmarshal body).filter _).bind _ = some op ∧ _) ∨
        (((unmarshal body).filter _).bind _ = none ∧ _)
      cases hreq : (unmarshal body).filter fun req => decide (req.key ≠ []) with
      | none =>
        simp only [hreq] at h
        obtain rfl := Option.some.inj h
        exact Or.inr ⟨rfl, rfl, rfl⟩
      | some req =>
        simp only [hreq] at h
        exact Or.inl ⟨.put req.key req.value, rfl,
          writes_of_respond (fun _ => ⟨rfl, rfl, rfl⟩) h⟩

theorem handleDelete_cases {out : Handled} (hpath : r.path = "/delete")
    (h : handleDelete s r env = some out) :
    (∃ op, writeOf unmarshal r = some op ∧ Writes s op env out) ∨
      (writeOf unmarshal r = none ∧ out.1 = s ∧ out.2.2 = []) := by
  have hput : r.path ≠ "/put" := by
    rw [hpath]
    decide
  rw [writeOf, if_neg hput, if_pos hpath]
  rw [handleDelete] at h
  split at h
  · next hkey =>
    obtain rfl := Option.some.inj h
    exact Or.inr ⟨if_pos hkey, rfl, rfl⟩
  · next hkey =>
    exact Or.inl ⟨.delete r.key, if_neg hkey, writes_of_respond (fun _ => ⟨rfl, rfl, rfl⟩) h⟩

/-- **A request** makes the write it asks for, and is answered with status 200 if the server has
    accepted it; or it asks for none, and changes nothing. -/
theorem serveHTTP_cases {out : Handled} (h : serveHTTP unmarshal flags s r env = some out) :
    (∃ op, writeOf unmarshal r = some op ∧ Writes s op env out) ∨
      (writeOf unmarshal r = none ∧ out.1 = s ∧ out.2.2 = []) := by
  rw [serveHTTP] at h
  split at h
  · next hput => exact handlePut_cases hput h
  split at h
  · next hput hget =>
    obtain ⟨resp, _, rfl⟩ := Option.map_eq_some_iff.mp h
    exact Or.inr ⟨by rw [writeOf, if_neg hput, if_neg (by rw [hget]; decide)], rfl, rfl⟩
  split at h
  · next hdelete => exact handleDelete_cases hdelete h
  next hput _ hdelete =>
  have hnone : writeOf unmarshal r = none := by rw [writeOf, if_neg hput, if_neg hdelete]
  split at h
  · obtain ⟨resp, _, rfl⟩ := Option.map_eq_some_iff.mp h
    exact Or.inr ⟨hnone, rfl, rfl⟩
  · obtain rfl := Option.some.inj h
    exact Or.inr ⟨hnone, rfl, rfl⟩

private theorem submit_refused {op : Op} {res : WriteResult}
    (h : s.submit op = some (s', res, sent)) (herr : res.err ≠ none) : s' = s ∧ sent = [] := by
  rw [StagwayServer.submit] at h
  split at h
  · obtain ⟨rfl, hrest⟩ := Prod.mk.inj (Option.some.inj h)
    exact ⟨rfl, (Prod.mk.inj hrest).2.symm⟩
  · split at h
    next raft hraft =>
      obtain ⟨⟨raft', ⟨idx, term, isLeader⟩, sent'⟩, hrun, h⟩ := Option.bind_eq_some_iff.mp h
      obtain ⟨_, rfl, hres, rfl⟩ | ⟨_, _, hres, _⟩ := Consensus.RaftNode.submit_cases hrun
      · -- a node that does not lead stays as it is
        obtain ⟨_, rfl⟩ := Prod.mk.inj (Prod.mk.inj hres).2
        obtain ⟨rfl, hrest⟩ := Prod.mk.inj (Option.some.inj h)
        exact ⟨by rw [← hraft], (Prod.mk.inj hrest).2.symm⟩
      · obtain ⟨_, rfl⟩ := Prod.mk.inj (Prod.mk.inj hres).2
        obtain ⟨_, hrest⟩ := Prod.mk.inj (Option.some.inj h)
        obtain ⟨rfl, _⟩ := Prod.mk.inj hrest
        exact absurd rfl herr
    next =>
      obtain ⟨_, hrest⟩ := Prod.mk.inj (Option.some.inj h)
      obtain ⟨rfl, _⟩ := Prod.mk.inj hrest
      exact absurd rfl herr

/-- A write that the server refuses changes nothing. -/
theorem handle_refused {op : Op} {res : WriteResult}
    (h : s.handle op env = some (s', res, sent)) (herr : res.err ≠ none) :
    s' = s ∧ sent = [] := by
  rw [StagwayServer.handle_eq, StagwayServer.write] at h
  obtain ⟨⟨s₁, res₁, sent₁⟩, hsubmit, h⟩ := Option.bind_eq_some_iff.mp h
  dsimp only at h
  split at h
  case isTrue hrefused =>
    obtain ⟨rfl, hrest⟩ := Prod.mk.inj (Option.some.inj h)
    obtain ⟨rfl, rfl⟩ := Prod.mk.inj hrest
    exact submit_refused hsubmit herr
  case isFalse haccepted =>
    obtain ⟨s₂, _, h⟩ := Option.bind_eq_some_iff.mp h
    obtain ⟨s₃, _, h⟩ := Option.bind_eq_some_iff.mp h
    obtain ⟨_, hrest⟩ := Prod.mk.inj (Option.some.inj h)
    obtain ⟨rfl, _⟩ := Prod.mk.inj hrest
    exact absurd (Option.isSome_iff_ne_none.mpr herr) haccepted

/-- **A refused request changes nothing.**  Whatever path, method, body and query a request has:
    if it is not answered with status 200, the log, the table and the Raft node are as before,
    and the Raft node has sent nothing. -/
theorem refused_unchanged (h : serveHTTP unmarshal flags s r env = some (s', resp, sent))
    (hstatus : resp.status ≠ 200) : s' = s ∧ sent = [] := by
  rcases serveHTTP_cases h with ⟨op, _, res, hrun, hok, _⟩ | ⟨_, hs, hsent⟩
  · exact handle_refused hrun fun herr => hstatus (hok.mpr herr)
  · exact ⟨hs, hsent⟩

/-- A put at a node that does not lead is answered with status 500. -/
theorem refused_unchanged_follower :
    ∃ s s' resp sent, serveHTTP (fun _ => some ⟨[7], [9]⟩) ⟨1, 50051, 8080⟩ s
        ⟨.post, "/put", some [], []⟩ ⟨Bench.Disk.ok, 1⟩ = some (s', resp, sent) ∧
      resp.status = 500 ∧ s' = s ∧ sent = [] := by
  have h : serveHTTP (fun _ => some ⟨[7], [9]⟩) ⟨1, 50051, 8080⟩
      (Network.newStagwayServer (some (Consensus.newRaftNode 1 [] (some []))) none none).start
      ⟨.post, "/put", some [], []⟩ ⟨Bench.Disk.ok, 1⟩ = some (_, respondJSON 500
        { success := false, message := errorText .notLeader }, _) := rfl
  exact ⟨_, _, _, _, h, rfl, refused_unchanged h (by decide)⟩

end Hallownest.Gateway
