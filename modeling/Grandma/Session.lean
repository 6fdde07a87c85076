import Grandma.CommandQueue

/-!
# Receiving packages

A package is read from its text, and its commands are pushed one after the
other while the later ones are still unchecked. Only the parse error of the
JSON library is caught; a value of the wrong type throws out of the middle of
the package and leaves the commands before it in the queue.
-/

set_option autoImplicit false

namespace Grandma.Session

/-- An empty body stands for a failed connection. -/
def sendP1 (res : Option HttpResponse) : Str :=
  match res with
  | some res => res.body
  | none => []

def endText : Str := "\x7b\"CMD\": [ [ \"END\" ] ] \x7d".toList

/-- The third package is not sent; the answer is made up. -/
def sendP3 (_p3Json : Str) : Str := endText

def endPackage : Json := .object [("CMD".toList,.array [.array [.string "END".toList]])]

def commandType (name : Json) : Option CommandType :=
  if name.equalsText "CONT".toList then some .CONT
  else if name.equalsText "HGET".toList then some .HGET
  else if name.equalsText "HPUT".toList then some .HPUT
  else if name.equalsText "HPOST".toList then some .HPOST
  else if name.equalsText "DELETE".toList then some .DELETE
  else if name.equalsText "EXEC".toList then some .EXEC
  else if name.equalsText "GET".toList then some .GET
  else if name.equalsText "SHOW".toList then some .SHOW
  else if name.equalsText "DEFAULT".toList then some .DEFAULT
  else if name.equalsText "SUB".toList then some .SUB
  else if name.equalsText "UNSUB".toList then some .UNSUB
  else none

def parameters : List Json → Except Fault (List Str)
  | [] => .ok []
  | j::js =>
    match j.asString with
    | .error e => .error e
    | .ok s =>
      match parameters js with
      | .error e => .error e
      | .ok ss => .ok (s::ss)

inductive Decoded where
  | finish
  | push (c : Command)
  | ignore
  deriving DecidableEq, Repr

/-- One round of the loop. The parameters of an unknown command are read, and
may throw, before the command is ignored; those of END are not read. -/
def decodeCommand (jcommand : Json) : Except Fault Decoded :=
  match jcommand.first with
  | .error e => .error e
  | .ok (name,params) =>
    if name.equalsText "END".toList then .ok .finish
    else
      match parameters params with
      | .error e => .error e
      | .ok parameter =>
        match commandType name with
        | some type => .ok (.push { type := type, parameter := parameter })
        | none => .ok .ignore

theorem decode_array (name : Json) (params : List Json) :
    decodeCommand (.array (name::params)) =
      if name.equalsText "END".toList then .ok .finish
      else (parameters params).map (fun parameter =>
        match commandType name with
        | some type => .push { type := type, parameter := parameter }
        | none => .ignore) := by
  simp only [decodeCommand, Json.first]
  split
  · rfl
  · cases parameters params with
    | error e => rfl
    | ok parameter => cases commandType name <;> rfl

def parseCommands : Bool → List Json → CommandQueue → Except Fault Bool × CommandQueue
  | sessionContinue, [], q => (.ok sessionContinue,q)
  | sessionContinue, j::js, q =>
    match decodeCommand j with
    | .error e => (.error e,q)
    | .ok .finish => parseCommands false js q
    | .ok (.push c) => parseCommands sessionContinue js (q.pushCommand c)
    | .ok .ignore => parseCommands sessionContinue js q

def parseP2 (codec : Codec) (p2Json : Str) (q : CommandQueue) : Except Fault Bool × CommandQueue :=
  match codec.parse p2Json with
  | .error .parseError => (.ok false,q)
  | .error e => (.error e,q)
  | .ok j =>
    match j.member "CMD".toList with
    | .error e => (.error e,q)
    | .ok jcommands => parseCommands true jcommands.elements q

theorem end_read (codec : Codec) (hend : codec.parse endText = .ok endPackage) (q : CommandQueue) :
    parseP2 codec endText q = (.ok false,q) := by
  rw [parseP2, hend]
  rfl

end Grandma.Session
