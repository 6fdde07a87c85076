import Grandma.Ddf
import Grandma.Json
import Grandma.LabelTree
import Grandma.Traversal

/-!
# The handler of one managed object type

A handler keeps the node tree of its DDF file and the instances of its type
by miid. The managed objects belong to the application: a value of `M` is a
pointer to one, and `W` is whatever state they have. Reading a value may
change that state.
-/

set_option autoImplicit false

namespace Grandma

/-- The callbacks that the client library makes on a managed object. `getVal`
gets the two flags as its caller has set them. -/
structure Interface (M W : Type) where
  getVal : M → Str → Bool → Bool → W → (Str × Bool × Bool) × W
  checkDdfNameCompatibility : M → Str → W → Bool

def noObjects : Interface Unit Unit :=
  { getVal := fun _ _ nodeExists validData w => (([],nodeExists,validData),w),
    checkDdfNameCompatibility := fun _ _ _ => true }

structure MOHandler (M : Type) where
  urn : Str
  root : LabelTree Str Bool
  ddfUrl : Str
  nextMiid : UInt32
  instances : OrderedMap Str M

namespace MOHandler
open Helper XMLElement

variable {M W : Type}

abbrev Node := LabelTree Str Bool

/-- The constructor leaves `root.is_leaf` as it happens to be. -/
def new (rootLeaf : Bool) (urn url : Str) : MOHandler M :=
  { urn := urn, root := .node [] rootLeaf [], ddfUrl := url, nextMiid := 1, instances := .empty }

def nodeUri (e : XMLElement) : Str :=
  match e.firstChildElement "NodeName".toList with
  | some nameNode => nameNode.getText.getD "*".toList
  | none => "*".toList

def nodeIsLeaf (e : XMLElement) : Bool :=
  match (xmlDescendSafely (some e) ["DFProperties".toList,"DFFormat".toList]).1 with
  | some formatNode => (formatNode.firstChildElement "node".toList).isNone
  | none => (e.firstChildElement "Node".toList).isNone

mutual
def generateNodeFromDdf : XMLElement → Node
  | .mk name text children =>
    let e := XMLElement.mk name text children
    if nodeIsLeaf e then .node (nodeUri e) true []
    else .node (nodeUri e) false (generateChildren children)

def generateChildren : List XMLElement → List Node
  | [] => []
  | e::es => if e.name = "Node".toList then generateNodeFromDdf e::generateChildren es
      else generateChildren es
end

/-- Without a `NodeName` the root takes the part of the urn after the first
fifteen characters, up to the next colon. -/
def rootUri (urn : Str) (e : XMLElement) : Except Fault Str :=
  match (e.firstChildElement "NodeName".toList).bind getText with
  | some name => .ok name
  | none =>
    if urn.length < 15 then .error .outOfRange
    else .ok (substrTo (urn.drop 15) (find ":".toList (urn.drop 15)))

def generateTreeFromDdf (h : MOHandler M) (file : Option XMLDocument) :
    Except Fault (Bool × MOHandler M) :=
  match file with
  | none => .ok (false,h)
  | some doc =>
    match (xmlDescendSafely (firstNamed "MgmtTree".toList doc) ["Node".toList]).1 with
    | none => .ok (false,h)
    | some xmlnode =>
      match rootUri h.urn xmlnode with
      | .error e => .error e
      | .ok uri =>
        let nodes := generateChildren xmlnode.children
        let root := .node uri (h.root.val && nodes.isEmpty) (h.root.children++nodes)
        .ok (true,{ h with root := root })

def load (h : MOHandler M) (uri : Str) (nodes : List Node) : MOHandler M :=
  { h with root := .node uri (h.root.val && nodes.isEmpty) (h.root.children++nodes) }

theorem generate_load (h : MOHandler M) (file : Option XMLDocument) :
    h.generateTreeFromDdf file =
      match rootElement file with
      | none => .ok (false,h)
      | some e =>
        (rootUri h.urn e).map (fun uri => (true,h.load uri (generateChildren e.children))) := by
  cases file with
  | none => rfl
  | some doc =>
    rw [generateTreeFromDdf, rootElement, Option.bind_some]
    cases (xmlDescendSafely (firstNamed "MgmtTree".toList doc) ["Node".toList]).1 with
    | none => rfl
    | some e =>
      simp only
      cases rootUri h.urn e <;> rfl

theorem generate_cases (h h' : MOHandler M) (file : Option XMLDocument) (b : Bool)
    (hg : h.generateTreeFromDdf file = .ok (b,h')) :
    (b = false ∧ rootElement file = none ∧ h' = h) ∨
    (b = true ∧ ∃ e uri, rootElement file = some e ∧ rootUri h.urn e = .ok uri ∧
      h' = h.load uri (generateChildren e.children)) := by
  rw [generate_load] at hg
  cases hroot : rootElement file with
  | none =>
    rw [hroot] at hg
    cases hg
    exact Or.inl ⟨rfl,rfl,rfl⟩
  | some e =>
    rw [hroot] at hg
    simp only at hg
    cases huri : rootUri h.urn e with
    | error fault =>
      rw [huri] at hg
      cases hg
    | ok uri =>
      rw [huri] at hg
      cases hg
      exact Or.inr ⟨rfl,e,uri,rfl,huri,rfl⟩

def sampleTree : Node :=
  .node "Dev".toList false [.node "Id".toList true [],.node "*".toList false [],
    .node "Ext".toList false [.node "Mod".toList true []]]

def sampleHandler : MOHandler Unit :=
  { urn := "u".toList, root := sampleTree, ddfUrl := [], nextMiid := 1, instances := .empty }

example : (new true "u".toList []).generateTreeFromDdf (sampleFile []) =
    .ok (true,sampleHandler) := rfl

def findNode (h : MOHandler M) (path : List Str) : Option Node := h.root.descend path

/-- What `node_set` has found when it returns: the instance with its miid, the
segments it looked up in the DDF tree, and the node they lead to. -/
structure Target (M : Type) where
  miid : Str
  mo : M
  segments : List Str
  node : Option Node

/-- Printing the data comes first and may throw. -/
def locate (codec : Codec) (h : MOHandler M) (uri : Str) (modata : Json) :
    Except Fault (Option (Target M)) :=
  match codec.dump modata with
  | none => .error .typeError
  | some _ =>
    let delim := find "/".toList uri
    let miid := substrTo uri delim
    match h.instances.find miid with
    | none => .ok none
    | some mo =>
      match substrFrom uri delim with
      | .error e => .error e
      | .ok path =>
        let segments := vectorizePath path
        .ok (some { miid := miid, mo := mo, segments := segments, node := h.findNode segments })

/-- Whatever is found, nothing is written and the result is false. -/
def nodeSet (codec : Codec) (h : MOHandler M) (uri : Str) (modata : Json) : Except Fault Bool :=
  match h.locate codec uri modata with
  | .error e => .error e
  | .ok _ => .ok false

/-- The loop that picks a miid, with the counter as it leaves it. After one
more candidate than there are instances it has no way to end. -/
def autoMiid (instances : OrderedMap Str M) : ℕ → UInt32 → Option (Str × UInt32)
  | 0, _ => none
  | fuel+1, next =>
    let miid := Nat.toDigits 10 next.toNat
    match instances.find miid with
    | some _ => autoMiid instances fuel (next+1)
    | none => some (miid,next+1)

/-- The miid decided on; `none` is a miid of the caller that is taken. -/
def chooseMiid (h : MOHandler M) (miid : Str) : Except Fault (Option (Str × UInt32)) :=
  if miid = [] then
    match autoMiid h.instances (h.instances.entries.length+1) h.nextMiid with
    | some choice => .ok (some choice)
    | none => .error .diverges
  else
    match h.instances.find miid with
    | some _ => .ok none
    | none => .ok (some (miid,h.nextMiid))

def addInstance (I : Interface M W) (w : W) (h : MOHandler M) (mo : M) (miid : Str) :
    Except Fault (Bool × MOHandler M) :=
  match h.chooseMiid miid with
  | .error e => .error e
  | .ok none => .ok (false,h)
  | .ok (some (miid,next)) =>
    if I.checkDdfNameCompatibility mo h.urn w then
      .ok (true,{ h with nextMiid := next, instances := h.instances.set miid mo })
    else .ok (false,{ h with nextMiid := next })

def p1MOSJson (h : MOHandler M) : Json :=
  let mo := if h.ddfUrl = [] then [] else [("DDF".toList,Json.string h.ddfUrl)]
  let mo := OrderedMap.assign "MOID".toList (.string h.urn) mo
  .ofMembers ((h.instances.entries.map (fun mi => Json.string mi.1)).foldl
    (Json.pushAt "MIID".toList) mo)

mutual
def serializeChild (I : Interface M W) (mo : M) (uriPrefix : Str) :
    Node → List (Str × Json) × W → List (Str × Json) × W
  | .node uri isLeaf children, (members,w) =>
    let path := uriPrefix ++ '/' :: uri
    if isLeaf then
      let ((value,nodeExists,validData),w) := I.getVal mo path true true w
      (if nodeExists && validData then OrderedMap.assign uri (.string value) members else members,w)
    else
      let (inner,w) := serializeInto I mo path children ([],w)
      (if (Json.ofMembers inner).isNull then members
        else OrderedMap.assign uri (.ofMembers inner) members,w)

def serializeInto (I : Interface M W) (mo : M) (uriPrefix : Str) :
    List Node → List (Str × Json) × W → List (Str × Json) × W
  | [], acc => acc
  | child::children, acc =>
    serializeInto I mo uriPrefix children (serializeChild I mo uriPrefix child acc)
end

def serializeChildren (I : Interface M W) (mo : M) (children : List Node) (uriPrefix : Str)
    (w : W) : Json × W :=
  let (members,w) := serializeInto I mo uriPrefix children ([],w)
  (.ofMembers members,w)

def serializeMI (I : Interface M W) (h : MOHandler M) (mo : M) (w : W) : Json × W :=
  let (value,w) := serializeChildren I mo h.root.children [] w
  let modata := Json.ofMembers (OrderedMap.assign h.root.label value [])
  (.ofMembers (OrderedMap.assign "MOData".toList modata []),w)

def serializeMIs (I : Interface M W) (h : MOHandler M) (w : W) : Json × W :=
  let (mos,w) := Traversal.traverse (fun mi => h.serializeMI I mi.2) h.instances.entries w
  (.ofElems mos,w)

end MOHandler

end Grandma
