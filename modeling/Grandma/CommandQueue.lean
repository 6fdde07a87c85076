import Grandma.MOTree

/-!
# The command queue

Commands wait in one queue until they are executed; the statuses they push wait
in another until the next package reports them. A command stays at the front
until it has been executed, so one that throws is still in the queue. What an
HTTP request brings back is decided outside: `fetch` answers one request, and
`net n` is what the `n`-th command to be executed will find.
-/

set_option autoImplicit false

namespace Grandma

inductive CommandType where
  | END
  | CONT
  | HGET
  | HPUT
  | HPOST
  | DELETE
  | EXEC
  | GET
  | SHOW
  | DEFAULT
  | SUB
  | UNSUB
  deriving DecidableEq, Repr

structure Command where
  type : CommandType
  parameter : List Str
  deriving DecidableEq, Repr

structure Status where
  code : ℕ
  URI : List Str
  deriving DecidableEq, Repr

structure HttpResponse where
  status : ℤ
  body : Str

/-- `none` is a failed connection. -/
abbrev Fetch := Helper.URL → Option HttpResponse

structure CommandQueue where
  commands : List Command
  responses : List Status

namespace CommandQueue
open Helper

variable {M : Type}

def empty : CommandQueue := { commands := [], responses := [] }

def status (code : ℕ) : Status := { code := code, URI := [] }

def pushCommand (q : CommandQueue) (c : Command) : CommandQueue :=
  { q with commands := q.commands++[c] }

/-- An URL before it is parsed; a successful parse assigns every member. -/
def blankURL : URL := { protocol := .HTTP, server := [], port := 0, path := [] }

/-- The responses after the command. Nothing is pushed for a server URI that is
rejected or a connection that fails; the third such way out, a protocol that is
not supported, is closed by a successful parse. The parameters are indexed
without a look at how many there are. -/
def doHget (codec : Codec) (t : MOTree M) (fetch : Fetch) (params : List Str)
    (responses : List Status) : Except Fault (List Status) :=
  match params with
  | [] => .error .undefined
  | serverURI::rest =>
    match blankURL.parseFromString serverURI with
    | (.error e,_) => .error e
    | (.ok false,_) => .ok responses
    | (.ok true,serverURL) =>
      match rest with
      | [] => .error .undefined
      | clientURI::_ =>
        match fetch serverURL with
        | none => .ok responses
        | some res =>
          match t.nodeSet codec clientURI (.string res.body) with
          | .error e => .error e
          | .ok _ => .ok (responses++[status 200])

/-- The ways out of a download, with what each of them pushes. -/
inductive Download (codec : Codec) (t : MOTree M) (fetch : Fetch) :
    List Str → Except Fault (List Status) → Prop
  | noServer : Download codec t fetch [] (.error .undefined)
  | unjudged (server : Str) (rest : List Str) (e : Fault) (url : URL)
      (parsed : blankURL.parseFromString server = (.error e,url)) :
      Download codec t fetch (server::rest) (.error e)
  | rejected (server : Str) (rest : List Str) (url : URL)
      (parsed : blankURL.parseFromString server = (.ok false,url)) :
      Download codec t fetch (server::rest) (.ok [])
  | noClient (server : Str) (url : URL)
      (parsed : blankURL.parseFromString server = (.ok true,url)) :
      Download codec t fetch [server] (.error .undefined)
  | unreachable (server client : Str) (more : List Str) (url : URL)
      (parsed : blankURL.parseFromString server = (.ok true,url)) (lost : fetch url = none) :
      Download codec t fetch (server::client::more) (.ok [])
  | thrown (server client : Str) (more : List Str) (url : URL) (res : HttpResponse) (e : Fault)
      (parsed : blankURL.parseFromString server = (.ok true,url)) (got : fetch url = some res)
      (set : t.nodeSet codec client (.string res.body) = .error e) :
      Download codec t fetch (server::client::more) (.error e)
  | done (server client : Str) (more : List Str) (url : URL) (res : HttpResponse) (b : Bool)
      (parsed : blankURL.parseFromString server = (.ok true,url)) (got : fetch url = some res)
      (set : t.nodeSet codec client (.string res.body) = .ok b) :
      Download codec t fetch (server::client::more) (.ok [status 200])

theorem hget_run (codec : Codec) (t : MOTree M) (fetch : Fetch) (params : List Str) :
    ∃ pushed, Download codec t fetch params pushed ∧
      ∀ responses, doHget codec t fetch params responses =
        pushed.map (fun new => responses++new) := by
  cases params with
  | nil => exact ⟨_,.noServer,fun _ => rfl⟩
  | cons server rest =>
    simp only [doHget]
    rcases hparse : blankURL.parseFromString server with ⟨e | accepted,url⟩
    · exact ⟨_,.unjudged server rest e url hparse,fun _ => rfl⟩
    cases accepted with
    | false => exact ⟨_,.rejected server rest url hparse,by simp [Except.map]⟩
    | true =>
      cases rest with
      | nil => exact ⟨_,.noClient server url hparse,fun _ => rfl⟩
      | cons client more =>
        simp only
        cases hfetch : fetch url with
        | none => exact ⟨_,.unreachable server client more url hparse hfetch,by simp [Except.map]⟩
        | some res =>
          simp only
          cases hset : t.nodeSet codec client (.string res.body) with
          | error e => exact ⟨_,.thrown server client more url res e hparse hfetch hset,fun _ => rfl⟩
          | ok b => exact ⟨_,.done server client more url res b hparse hfetch hset,fun _ => rfl⟩

def doCommand (codec : Codec) (t : MOTree M) (fetch : Fetch) (c : Command)
    (responses : List Status) : Except Fault (List Status) :=
  match c.type with
  | .HGET => doHget codec t fetch c.parameter responses
  | _ => .ok (responses++[status 501])

def doCommandsFrom (codec : Codec) (t : MOTree M) :
    (ℕ → Fetch) → List Command → List Status → Except Fault Unit × CommandQueue
  | _, [], responses => (.ok (),{ commands := [], responses := responses })
  | net, c::cs, responses =>
    match doCommand codec t (net 0) c responses with
    | .error e => (.error e,{ commands := c::cs, responses := responses })
    | .ok responses => doCommandsFrom codec t (fun n => net (n+1)) cs responses

def doCommands (codec : Codec) (t : MOTree M) (net : ℕ → Fetch) (q : CommandQueue) :
    Except Fault Unit × CommandQueue :=
  doCommandsFrom codec t net q.commands q.responses

def statusJson (s : Status) : Json :=
  .ofMembers ((s.URI.map Json.string).foldl (Json.pushAt "URI".toList)
    (OrderedMap.assign "sc".toList (.number s.code) []))

def p3SCJson (q : CommandQueue) : Json × CommandQueue :=
  (.ofElems (q.responses.map statusJson),{ q with responses := [] })

end CommandQueue

end Grandma
