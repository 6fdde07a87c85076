import Grandma.MOHandler

/-!
# The tree of managed object types

The handlers by urn. Registering a type that is already there changes nothing.
Both traversals visit the handlers in the order of their urns, and within a
handler the instances in the order of their miids.
-/

set_option autoImplicit false

namespace Grandma

structure MOTree (M : Type) where
  MOs : OrderedMap Str (MOHandler M)

namespace MOTree
open Helper

variable {M W : Type}

def empty : MOTree M := { MOs := .empty }

def registerDDF (rootLeaf : Bool) (fs : FileSystem) (t : MOTree M) (urn filename ddfUrl : Str) :
    Except Fault (Bool × MOTree M) :=
  match t.MOs.find urn with
  | some _ => .ok (true,t)
  | none =>
    match (MOHandler.new rootLeaf urn ddfUrl).generateTreeFromDdf (fs filename) with
    | .error e => .error e
    | .ok (true,handler) => .ok (true,{ t with MOs := t.MOs.insert urn handler })
    | .ok (false,_) => .ok (false,t)

def addMO (I : Interface M W) (w : W) (t : MOTree M) (urn : Str) (mo : M) (miid : Str) :
    Except Fault (Bool × MOTree M) :=
  match t.MOs.find urn with
  | none => .ok (false,t)
  | some handler =>
    match handler.addInstance I w mo miid with
    | .error e => .error e
    | .ok (added,handler) => .ok (added,{ t with MOs := t.MOs.set urn handler })

def locate (codec : Codec) (t : MOTree M) (uri : Str) (modata : Json) :
    Except Fault (Option (MOHandler M × Option (MOHandler.Target M))) :=
  let delim := find "/".toList uri
  match t.MOs.find (substrTo uri delim) with
  | none => .ok none
  | some handler =>
    match handler.locate codec (substrPast uri delim) modata with
    | .error e => .error e
    | .ok target => .ok (some (handler,target))

def nodeSet (codec : Codec) (t : MOTree M) (uri : Str) (modata : Json) : Except Fault Bool :=
  let delim := find "/".toList uri
  match t.MOs.find (substrTo uri delim) with
  | none => .ok false
  | some handler => handler.nodeSet codec (substrPast uri delim) modata

def p1MOSJson (t : MOTree M) : Json := .ofElems (t.MOs.entries.map (fun MO => MO.2.p1MOSJson))

/-- Inserting the elements of a null value inserts nothing. -/
def dumpSerializedMOS (I : Interface M W) (t : MOTree M) (w : W) : Json × W :=
  let (mos,w) := Traversal.traverse (fun MO => MO.2.serializeMIs I) t.MOs.entries w
  (.array (mos.flatMap Json.elements),w)

end MOTree

end Grandma
