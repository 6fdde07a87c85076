import Grandma.Agreement
import Grandma.Serialisation

/-!
# Drafting a DDF

Which node trees a DDF can describe, as the parsed document that both classes
are built from. A leaf has no nodes below it and an interior node has no data;
every forest of such nodes has a document from which both classes load it.
-/

set_option autoImplicit false

namespace Grandma.Drafting
open Serialisation XMLElement

variable {M : Type}

inductive Loadable : BaseCached.Node → Prop
  | leaf (uri data : Str) : Loadable (.node uri { isLeaf := true, data := data } [])
  | interior (uri : Str) (cs : List BaseCached.Node) (below : ∀ c ∈ cs, Loadable c) :
      Loadable (.node uri { isLeaf := false, data := [] } cs)

/-- `DFFormat` says if a node is a leaf, so that an interior node may be empty. -/
def format (isLeaf : Bool) : XMLElement :=
  .mk "DFProperties".toList none [.mk "DFFormat".toList none
    (if isLeaf then [] else [.mk "node".toList none []])]

mutual
def draft : BaseCached.Node → XMLElement
  | .node uri cell cs =>
    .mk "Node".toList none (.mk "NodeName".toList (some uri) []::format cell.isLeaf::
      .mk "Value".toList (some cell.data) []::draftAll cs)

def draftAll : List BaseCached.Node → List XMLElement
  | [] => []
  | c::cs => draft c::draftAll cs
end

def document (label : Str) (nodes : List BaseCached.Node) : XMLDocument :=
  [.mk "MgmtTree".toList none [.mk "Node".toList none
    (.mk "NodeName".toList (some label) []::draftAll nodes)]]

theorem draft_name (t : BaseCached.Node) : (draft t).name = "Node".toList := by
  cases t
  rfl

theorem draft_node (uri : Str) (cell : Cell) (cs : List BaseCached.Node) :
    BaseCached.generateNodeFromDdf (draft (.node uri cell cs)) =
      if cell.isLeaf then .node uri { isLeaf := true, data := cell.data } []
      else .node uri { isLeaf := false, data := [] } (BaseCached.generateChildren (draftAll cs)) := by
  rcases cell with ⟨isLeaf,data⟩
  cases isLeaf <;> rfl

theorem draft_all (cs : List BaseCached.Node)
    (h : ∀ c ∈ cs, BaseCached.generateNodeFromDdf (draft c) = c) :
    BaseCached.generateChildren (draftAll cs) = cs := by
  induction cs with
  | nil => rfl
  | cons c cs ih =>
    rw [draftAll, BaseCached.generateChildren, if_pos (draft_name c), h c List.mem_cons_self,
      ih (fun d hd => h d (List.mem_cons_of_mem _ hd))]

theorem draft_loads (t : BaseCached.Node) (h : Loadable t) :
    BaseCached.generateNodeFromDdf (draft t) = t := by
  induction h with
  | leaf uri data => rfl
  | interior uri cs below ih => rw [draft_node, draft_all cs ih, if_neg (by simp)]

theorem generated_loadable (e : XMLElement) : Loadable (BaseCached.generateNodeFromDdf e) := by
  induction e using XMLElement.by_children with
  | mk name text children ih =>
    rw [BaseCached.generateNodeFromDdf]
    split_ifs
    · exact .leaf _ _
    · apply Loadable.interior
      intro c hc
      rw [generate_map] at hc
      obtain ⟨e,he,rfl⟩ := List.mem_map.mp hc
      exact ih e (List.mem_of_mem_filter he)

theorem loaded_loadable (fs : FileSystem) (file : Str) :
    ∀ c ∈ (BaseCached.new fs file).root.children, Loadable c := by
  rw [BaseCached.new, BaseCached.generate_load]
  cases rootElement (fs file) with
  | none => simp
  | some e =>
    intro c hc
    simp only [LabelTree.children_node, List.nil_append, generate_map] at hc
    obtain ⟨d,-,rfl⟩ := List.mem_map.mp hc
    exact generated_loadable d

/-- A document that both classes load a forest from, the type with a name for its
root, exists exactly for forests whose leaves have no nodes and whose interior
nodes have no data. -/
theorem forest_described_iff (rootLeaf : Bool) (urn url label : Str)
    (nodes : List BaseCached.Node) :
    (∃ doc : XMLDocument, (BaseCached.new (fun _ => some doc) []).root.children = nodes ∧
      ∃ h : MOHandler M, (MOHandler.new rootLeaf urn url).generateTreeFromDdf (some doc) =
          .ok (true,h) ∧ h.root.label = label ∧
        h.root.children = nodes.map (LabelTree.map Cell.isLeaf)) ↔
    ∀ c ∈ nodes, Loadable c := by
  constructor
  · rintro ⟨doc,rfl,-⟩
    exact loaded_loadable (fun _ => some doc) []
  · intro hnodes
    have hloaded := draft_all nodes (fun c hc => draft_loads c (hnodes c hc))
    have hroot : rootElement (some (document label nodes)) = some (.mk "Node".toList none
        (.mk "NodeName".toList (some label) []::draftAll nodes)) := rfl
    have hskip : ∀ es, BaseCached.generateChildren (.mk "NodeName".toList (some label) []::es) =
        BaseCached.generateChildren es := fun _ => rfl
    refine ⟨document label nodes,?_,?_⟩
    · rw [BaseCached.new, BaseCached.generate_load, hroot]
      simp only [children, hskip, hloaded]
      rfl
    · rw [MOHandler.generate_load, hroot]
      have huri : MOHandler.rootUri urn (.mk "Node".toList none
          (.mk "NodeName".toList (some label) []::draftAll nodes)) = .ok label := rfl
      have hurn : (MOHandler.new rootLeaf urn url : MOHandler M).urn = urn := rfl
      simp only [hurn, huri]
      refine ⟨_,rfl,rfl,?_⟩
      have hchildren := Agreement.children_agree (draftAll nodes)
      rw [hloaded] at hchildren
      exact hchildren

end Grandma.Drafting
