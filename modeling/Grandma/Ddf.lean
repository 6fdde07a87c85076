import Grandma.Helper

/-!
# DDF documents

An XML element as far as the two DDF parsers look at it: its name, what
`GetText` returns for it, and its child elements in document order. Both
parsers carry a copy of the same descent through nested elements.
-/

set_option autoImplicit false

namespace Grandma

inductive XMLElement where
  | mk (name : Str) (text : Option Str) (children : List XMLElement)

abbrev XMLDocument := List XMLElement

/-- `LoadFile`; `none` is an unreadable or unparsable file. -/
abbrev FileSystem := Str → Option XMLDocument

namespace XMLElement

def name : XMLElement → Str
  | mk n _ _ => n

def getText : XMLElement → Option Str
  | mk _ t _ => t

def children : XMLElement → List XMLElement
  | mk _ _ cs => cs

@[elab_as_elim]
theorem by_children {motive : XMLElement → Prop}
    (mk : ∀ name text children, (∀ c ∈ children, motive c) → motive (.mk name text children))
    (e : XMLElement) : motive e := by
  refine XMLElement.rec (motive_2 := fun cs => ∀ c ∈ cs, motive c) mk ?_ ?_ e
  · simp
  · intro c cs hc hcs d hd
    rcases List.mem_cons.mp hd with rfl | hd
    · exact hc
    · exact hcs d hd

def firstNamed (name : Str) (cs : List XMLElement) : Option XMLElement :=
  cs.find? (fun c => c.name = name)

def firstChildElement (e : XMLElement) (name : Str) : Option XMLElement :=
  firstNamed name e.children

def descendSafely : XMLElement → List Str → Option XMLElement × Str
  | e, [] => (some e,[])
  | e, segment::path =>
    match e.firstChildElement segment with
    | none => (none,segment)
    | some c => c.descendSafely path

def xmlDescendSafely (node : Option XMLElement) (path : List Str) : Option XMLElement × Str :=
  match node with
  | none => (none,"<start of descend>".toList)
  | some e => e.descendSafely path

def rootElement (file : Option XMLDocument) : Option XMLElement :=
  file.bind (fun doc => (xmlDescendSafely (firstNamed "MgmtTree".toList doc) ["Node".toList]).1)

end XMLElement

def sampleFile : FileSystem := fun _ =>
  some [.mk "MgmtTree".toList none [.mk "Node".toList none [
    .mk "NodeName".toList (some "Dev".toList) [],
    .mk "Node".toList none [.mk "NodeName".toList (some "Id".toList) [],
      .mk "Value".toList (some "0".toList) []],
    .mk "Node".toList none [.mk "DFProperties".toList none
      [.mk "DFFormat".toList none [.mk "node".toList none []]]],
    .mk "Node".toList none [.mk "NodeName".toList (some "Ext".toList) [],
      .mk "Node".toList none [.mk "NodeName".toList (some "Mod".toList) []]]]]]

end Grandma
