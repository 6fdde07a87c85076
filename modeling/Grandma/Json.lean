import Grandma.Helper
import Grandma.OrderedMap

/-!
# JSON values

The values of the JSON library as the program uses them. An object keeps its
members sorted by key. A value that starts as null becomes an object with its
first member and an array with its first element, so a value that is never
written to stays null. Reading and printing text belong to the library; both
are parameters, and both may throw.
-/

set_option autoImplicit false

namespace Grandma

inductive Json where
  | null
  | boolean (b : Bool)
  | number (n : ℤ)
  | real (spelling : Str)
  | string (s : Str)
  | array (elems : List Json)
  | object (members : List (Str × Json))
  deriving Repr

/-- `json::parse` and `dump`. Reading raises the parse error, or another one on
a number out of range; `none` is the type error that printing raises on text
that is not UTF-8. -/
structure Codec where
  parse : Str → Except Fault Json
  dump : Json → Option Str

namespace Json

/-- A null value after its members have been assigned. -/
def ofMembers : List (Str × Json) → Json
  | [] => null
  | e::es => object (e::es)

/-- A null value after its elements have been pushed back. -/
def ofElems : List Json → Json
  | [] => null
  | j::js => array (j::js)

/-- What a range-based `for` visits: nothing for null, the value itself when it
is not a container. -/
def elements : Json → List Json
  | null => []
  | array js => js
  | object es => es.map Prod.snd
  | j => [j]

/-- `j[key]` for reading from a temporary. -/
def member (key : Str) : Json → Except Fault Json
  | null => .ok null
  | object es => .ok ((OrderedMap.lookup key es).getD null)
  | _ => .error .typeError

def field (key : Str) : Json → Json
  | object es => (OrderedMap.lookup key es).getD null
  | _ => null

/-- `j[0]`, which writes a null into an empty array: the element and those after it. -/
def first : Json → Except Fault (Json × List Json)
  | null => .ok (null,[])
  | array [] => .ok (null,[])
  | array (j::js) => .ok (j,js)
  | _ => .error .typeError

def asString : Json → Except Fault Str
  | string s => .ok s
  | _ => .error .typeError

def equalsText (text : Str) : Json → Bool
  | string s => s = text
  | _ => false

def isNull : Json → Bool
  | null => true
  | _ => false

def present (j : Json) : Option Json := if j.isNull then none else some j

def entryAt : Json → List Str → Option Json
  | j, [] => some j
  | object es, k::ks => (OrderedMap.lookup k es).bind (fun j => j.entryAt ks)
  | _, _::_ => none

/-- `members[key].push_back(j)`. -/
def pushAt (key : Str) (members : List (Str × Json)) (j : Json) : List (Str × Json) :=
  OrderedMap.assign key (array (((OrderedMap.lookup key members).getD null).elements++[j])) members

mutual
/-- The compact text of a value whose strings need no escapes. -/
def print : Json → Str
  | null => "null".toList
  | boolean b => if b then "true".toList else "false".toList
  | number n => (toString n).toList
  | real spelling => spelling
  | string s => ['"'] ++ s ++ ['"']
  | array js => ['['] ++ printElems js ++ [']']
  | object es => ['\x7b'] ++ printMembers es ++ ['\x7d']

def printElems : List Json → Str
  | [] => []
  | j::js => print j ++ (if js.isEmpty then [] else [',']) ++ printElems js

def printMembers : List (Str × Json) → Str
  | [] => []
  | (key,j)::es => ['"'] ++ key ++ "\":".toList ++ print j ++
      (if es.isEmpty then [] else [',']) ++ printMembers es
end

def tableCodec (texts : List (Str × Json)) : Codec :=
  { parse := fun text =>
      match OrderedMap.lookup text texts with
      | some j => .ok j
      | none => .error .parseError
    dump := fun j => some j.print }

@[simp] theorem elements_ofElems (js : List Json) : (ofElems js).elements = js := by
  cases js <;> rfl

@[simp] theorem field_ofMembers (key : Str) (es : List (Str × Json)) :
    (ofMembers es).field key = (OrderedMap.lookup key es).getD null := by
  cases es <;> rfl

@[simp] theorem entryAt_nil (j : Json) : j.entryAt [] = some j := by
  cases j <;> rfl

theorem entryAt_ofMembers (es : List (Str × Json)) (k : Str) (ks : List Str) :
    (ofMembers es).entryAt (k::ks) =
      (OrderedMap.lookup k es).bind (fun j => j.entryAt ks) := by
  cases es <;> rfl

@[simp] theorem isNull_ofMembers (es : List (Str × Json)) :
    (ofMembers es).isNull = es.isEmpty := by
  cases es <;> rfl

@[simp] theorem present_ofMembers (es : List (Str × Json)) :
    (ofMembers es).present.isSome = !es.isEmpty := by
  cases es <;> rfl

theorem present_object (es : List (Str × Json)) (j : Json) (h : (ofMembers es).present = some j) :
    ∃ es, j = object es := by
  cases es with
  | nil => cases h
  | cons e es =>
    cases h
    exact ⟨_,rfl⟩

theorem pushAt_all (key j : Str) (vs : List Json) (es : List (Str × Json)) :
    ((OrderedMap.lookup j (vs.foldl (pushAt key) es)).getD null).elements =
      ((OrderedMap.lookup j es).getD null).elements ++ (if j = key then vs else []) := by
  induction vs generalizing es with
  | nil => simp
  | cons v vs ih =>
    rw [List.foldl_cons, ih, pushAt, OrderedMap.lookup_assign]
    by_cases h : j = key
    · simp [h, elements]
    · simp [h]

theorem pushAt_other (key j : Str) (hj : j ≠ key) (vs : List Json) (es : List (Str × Json)) :
    OrderedMap.lookup j (vs.foldl (pushAt key) es) = OrderedMap.lookup j es := by
  induction vs generalizing es with
  | nil => rfl
  | cons v vs ih => rw [List.foldl_cons, ih, pushAt, OrderedMap.lookup_assign, if_neg hj]

end Json

end Grandma
