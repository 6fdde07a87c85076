import Grandma.Ddf
import Grandma.Json
import Grandma.LabelTree

/-!
# The cached managed object and the static data store

The node tree of `BaseCached`, its DDF parser, its serialiser and the local
getter and setter, with `StaticData` on top of them. A node that the setter
creates has no data; its `is_leaf` member is not initialised, and `fresh n` is
whatever that member holds in a node created at depth `n`.
-/

set_option autoImplicit false

namespace Grandma

structure Cell where
  isLeaf : Bool
  data : Str
  deriving DecidableEq, Repr

structure BaseCached where
  root : LabelTree Str Cell

namespace BaseCached
open Helper XMLElement

abbrev Node := LabelTree Str Cell

def Cell.setData (data : Str) (c : Cell) : Cell := { c with data := data }

def blank (fresh : ℕ → Bool) (n : ℕ) : Cell := { isLeaf := fresh n, data := [] }

/-- With `add_missing_node` unset the loop returns at the first missing
segment, before anything has been written. -/
def localSetNode (fresh : ℕ → Bool) (nodePath data : Str) (addMissingNode : Bool)
    (mo : BaseCached) : BaseCached :=
  match mo.root.writeAt addMissingNode (Cell.setData data) (blank fresh) (vectorizePath nodePath) with
  | some root => { mo with root := root }
  | none => mo

def localGetNode (mo : BaseCached) (nodePath : Str) : Str :=
  match mo.root.descend (vectorizePath nodePath) with
  | some node => node.val.data
  | none => []

/-- A node without a name is called `*`. -/
def nodeUri (e : XMLElement) : Str :=
  match e.firstChildElement "NodeName".toList with
  | some nameNode => nameNode.getText.getD "*".toList
  | none => "*".toList

/-- `DFFormat` decides if it is there; otherwise the presence of child nodes does. -/
def nodeIsLeaf (e : XMLElement) : Bool :=
  match (xmlDescendSafely (some e) ["DFProperties".toList,"DFFormat".toList]).1 with
  | some formatNode => (formatNode.firstChildElement "node".toList).isNone
  | none => (e.firstChildElement "Node".toList).isNone

def leafData (e : XMLElement) : Str :=
  match e.firstChildElement "Value".toList with
  | some value => value.getText.getD []
  | none => []

mutual
def generateNodeFromDdf : XMLElement → Node
  | .mk name text children =>
    let e := XMLElement.mk name text children
    if nodeIsLeaf e then .node (nodeUri e) { isLeaf := true, data := leafData e } []
    else .node (nodeUri e) { isLeaf := false, data := [] } (generateChildren children)

def generateChildren : List XMLElement → List Node
  | [] => []
  | e::es => if e.name = "Node".toList then generateNodeFromDdf e::generateChildren es
      else generateChildren es
end

def generateTreeFromDdf (mo : BaseCached) (file : Option XMLDocument) : BaseCached :=
  match file with
  | none => mo
  | some doc =>
    match (xmlDescendSafely (firstNamed "MgmtTree".toList doc) ["Node".toList]).1 with
    | none => mo
    | some xmlnode =>
      let nodes := generateChildren xmlnode.children
      let cell := { mo.root.val with isLeaf := mo.root.val.isLeaf && nodes.isEmpty }
      { mo with root := .node mo.root.label cell (mo.root.children++nodes) }

theorem generate_load (mo : BaseCached) (file : Option XMLDocument) :
    mo.generateTreeFromDdf file =
      match rootElement file with
      | none => mo
      | some e =>
        let nodes := generateChildren e.children
        let cell := { mo.root.val with isLeaf := mo.root.val.isLeaf && nodes.isEmpty }
        { mo with root := .node mo.root.label cell (mo.root.children++nodes) } := by
  cases file <;> rfl

def new (fs : FileSystem) (ddfFilename : Str) : BaseCached :=
  generateTreeFromDdf { root := .node [] { isLeaf := true, data := [] } [] } (fs ddfFilename)

mutual
def serializeNode : Node → Json
  | .node _ cell children =>
    if cell.isLeaf then .string cell.data else .ofMembers (serializeInto [] children)

def serializeInto (members : List (Str × Json)) : List Node → List (Str × Json)
  | [] => members
  | node::nodes => serializeInto (OrderedMap.assign node.label (serializeNode node) members) nodes
end

def serializeChildren (children : List Node) : Json := .ofMembers (serializeInto [] children)

def serializeJson (mo : BaseCached) : Json :=
  .ofMembers (OrderedMap.assign mo.root.label (serializeChildren mo.root.children) [])

end BaseCached

/-- `StaticData` adds no members to `BaseCached`. -/
abbrev StaticData := BaseCached

namespace StaticData

def new (fs : FileSystem) (moName ddfFilename : Str) : StaticData :=
  let mo := BaseCached.new fs ddfFilename
  { mo with root := .node moName mo.root.val mo.root.children }

/-- The two flags come back as they were handed in. -/
def getVal (mo : StaticData) (nodePath : Str) (nodeExists validData : Bool) : Str × Bool × Bool :=
  (mo.localGetNode nodePath,nodeExists,validData)

def setVal (fresh : ℕ → Bool) (mo : StaticData) (nodePath data : Str) : Bool × StaticData :=
  (true,mo.localSetNode fresh nodePath data true)

def checkDdfNameCompatibility (_mo : StaticData) (_ddfname : Str) : Bool := true

end StaticData

end Grandma
