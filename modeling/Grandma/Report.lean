import Grandma.MOTree

/-!
# Serialisation of objects that only answer

For objects whose answers do not change while they are read, the serialisers
are functions of the answers. `value mo path` is what an object reports under a
path, and nothing if it does not have the node or has no valid data for it.
-/

set_option autoImplicit false

namespace Grandma.Report
open MOHandler

variable {M W : Type}

/-- Reading `mo` under `I` changes nothing and reports what `value` says. -/
def Answers (I : Interface M W) (mo : M) (value : Str → Option Str) : Prop :=
  ∀ path w, ∃ s nodeExists validData,
    I.getVal mo path true true w = ((s,nodeExists,validData),w) ∧
      value path = if nodeExists && validData then some s else none

def AnswersAt (I : Interface M W) (mo : M) (value : Str → Option Str) (w : W) : Prop :=
  ∀ path, ∃ s nodeExists validData,
    I.getVal mo path true true w = ((s,nodeExists,validData),w) ∧
      value path = if nodeExists && validData then some s else none

mutual
def nodeReport (value : Str → Option Str) (uriPrefix : Str) : Node → Json
  | .node uri isLeaf children =>
    if isLeaf then
      match value (uriPrefix ++ '/' :: uri) with
      | some s => .string s
      | none => .null
    else .ofMembers (reportInto value (uriPrefix ++ '/' :: uri) [] children)

def reportInto (value : Str → Option Str) (uriPrefix : Str) (members : List (Str × Json)) :
    List Node → List (Str × Json)
  | [] => members
  | c::cs => reportInto value uriPrefix
      (if (nodeReport value uriPrefix c).isNull then members
        else OrderedMap.assign c.label (nodeReport value uriPrefix c) members) cs
end

def report (value : Str → Option Str) (children : List Node) : Json :=
  .ofMembers (reportInto value [] [] children)

theorem child_report (I : Interface M W) (mo : M) (value : Str → Option Str) (w : W)
    (hI : AnswersAt I mo value w) (t : Node) (uriPrefix : Str) (members : List (Str × Json)) :
    serializeChild I mo uriPrefix t (members,w) =
      (if (nodeReport value uriPrefix t).isNull then members
        else OrderedMap.assign t.label (nodeReport value uriPrefix t) members,w) := by
  induction t using LabelTree.by_children generalizing uriPrefix members with
  | node uri isLeaf children ih =>
    have hloop : ∀ (cs : List Node), (∀ c ∈ cs, c ∈ children) → ∀ ms : List (Str × Json),
        serializeInto I mo (uriPrefix ++ '/' :: uri) cs (ms,w) =
          (reportInto value (uriPrefix ++ '/' :: uri) ms cs,w) := by
      intro cs hcs
      induction cs with
      | nil => intro ms; rfl
      | cons c cs ihcs =>
        intro ms
        rw [serializeInto, ih c (hcs c (by simp)), ihcs (fun d hd => hcs d (by simp [hd])),
          reportInto]
    cases isLeaf with
    | true =>
      obtain ⟨s,nodeExists,validData,hget,hval⟩ := hI (uriPrefix ++ '/' :: uri)
      simp only [serializeChild, nodeReport, if_true, hget, hval]
      cases nodeExists && validData <;> rfl
    | false =>
      simp only [serializeChild, nodeReport, Bool.false_eq_true, if_false,
        hloop children (fun c hc => hc) []]
      rfl

theorem into_report_at (I : Interface M W) (mo : M) (value : Str → Option Str) (w : W)
    (hI : AnswersAt I mo value w) (uriPrefix : Str) (cs : List Node)
    (members : List (Str × Json)) : serializeInto I mo uriPrefix cs (members,w) =
      (reportInto value uriPrefix members cs,w) := by
  induction cs generalizing members with
  | nil => rfl
  | cons c cs ih => rw [serializeInto, child_report I mo value w hI, ih, reportInto]

theorem into_report (I : Interface M W) (mo : M) (value : Str → Option Str)
    (hI : Answers I mo value) (uriPrefix : Str) (cs : List Node) (members : List (Str × Json))
    (w : W) : serializeInto I mo uriPrefix cs (members,w) =
      (reportInto value uriPrefix members cs,w) :=
  into_report_at I mo value w (fun path => hI path w) uriPrefix cs members

def serializationObject (root : Str) (j : Json) : Json :=
  .object [("MOData".toList,.object [(root,j)])]

def instanceReport (h : MOHandler M) (value : Str → Option Str) : Json :=
  serializationObject h.root.label (report value h.root.children)

theorem instance_report_at (I : Interface M W) (h : MOHandler M) (mo : M)
    (value : Str → Option Str) (w : W) (hI : AnswersAt I mo value w) :
    h.serializeMI I mo w = (instanceReport h value,w) := by
  rw [serializeMI, serializeChildren, into_report_at I mo value w hI]
  rfl

theorem instance_report (I : Interface M W) (h : MOHandler M) (mo : M)
    (value : Str → Option Str) (hI : Answers I mo value) (w : W) :
    h.serializeMI I mo w = (instanceReport h value,w) :=
  instance_report_at I h mo value w (fun path => hI path w)

end Grandma.Report
