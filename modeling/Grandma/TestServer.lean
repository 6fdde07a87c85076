import Grandma.DMClient

/-!
# The server of the HGET test

Two handlers share one state. Some of their branches end the process, which
cuts the connection that is being served. Requests are taken one at a time.
-/

set_option autoImplicit false

namespace Grandma.TestServer

inductive State where
  | INITIAL
  | TEST_HGET_HGET
  | TEST_HGET_END
  deriving DecidableEq, Repr

inductive Server where
  | running (state : State)
  | exited (code : ℕ)
  deriving DecidableEq, Repr

/-- A POST to `/path` and a GET of `/test_hget`. -/
inductive Request where
  | post
  | get
  deriving DecidableEq, Repr

def hgetPackage : Json :=
  .object [("CMD".toList,.array [.array [.string "HGET".toList,
    .string "http://localhost:9988/test_hget".toList,
    .string "urn:oma:mo:oma-fumo:1.0/apps/DownloadAndUpdate/PkgURL".toList]])]

def hgetResponse : Json :=
  .object [("MOData".toList,.object [("fumo".toList,.object [("DownloadAndUpdate".toList,
    .object [("PkgURL".toList,.string "COFFEEBABE".toList)])])])]

/-- Both texts are plain, so printing them does not throw. -/
def answer (codec : Codec) (j : Json) : HttpResponse :=
  { status := 200, body := (codec.dump j).getD [] }

/-- The handlers print END before they end the process, but it is not sent. -/
def handlePost (codec : Codec) : State → Option HttpResponse × Server
  | .INITIAL => (some (answer codec hgetPackage),.running .TEST_HGET_HGET)
  | .TEST_HGET_END => (none,.exited 0)
  | .TEST_HGET_HGET => (none,.exited 1)

def handleGet (codec : Codec) (state : State) : Option HttpResponse × Server :=
  if state ≠ .TEST_HGET_HGET then (none,.exited 1)
  else (some (answer codec hgetResponse),.running state)

def serve (codec : Codec) : Server → Request → Option HttpResponse × Server
  | .exited code, _ => (none,.exited code)
  | .running state, .post => handlePost codec state
  | .running state, .get => handleGet codec state

def serveAll (codec : Codec) : List Request → Server → Server
  | [], s => s
  | r::rs, s => serveAll codec rs (serve codec s r).2

theorem exited_stays (codec : Codec) (rs : List Request) (code : ℕ) :
    serveAll codec rs (.exited code) = .exited code := by
  induction rs with
  | nil => rfl
  | cons r rs ih => exact ih

theorem gets_stay (codec : Codec) (rs : List Request) :
    serveAll codec rs (.running .TEST_HGET_HGET) =
      if .post ∈ rs then .exited 1 else .running .TEST_HGET_HGET := by
  induction rs with
  | nil => rfl
  | cons r rs ih =>
    cases r with
    | post =>
      rw [if_pos (by simp)]
      exact exited_stays codec rs 1
    | get =>
      simp only [List.mem_cons, reduceCtorEq, false_or]
      exact ih

/-- Whatever the server is asked: it waits for a first POST, then it answers
GETs until the next POST ends it. Nothing brings it to its last state, and it
never ends with success. -/
theorem server_runs (codec : Codec) (rs : List Request) :
    serveAll codec rs (.running .INITIAL) =
      match rs with
      | [] => .running .INITIAL
      | .get::_ => .exited 1
      | .post::rest => if .post ∈ rest then .exited 1 else .running .TEST_HGET_HGET := by
  cases rs with
  | nil => rfl
  | cons r rs =>
    cases r with
    | post => exact gets_stay codec rs
    | get => exact exited_stays codec rs 1

end Grandma.TestServer
