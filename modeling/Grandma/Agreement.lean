import Grandma.CachedMap
import Grandma.Report

/-!
# The handler and the managed object serialise alike

Both classes parse the same file with code of their own and serialise with code
of their own. The handler goes by its tree and asks for every leaf under the
path it has built; the object goes by its cache. On names that a path can carry
they agree, up to interior nodes without a leaf, which the handler leaves out.
-/

set_option autoImplicit false

namespace Grandma.Agreement
open Helper Report

variable {M W : Type}

mutual
/-- Remove the interior nodes that have no leaf below them. -/
def prune : Json → Json
  | .object es => .ofMembers (pruneMembers es)
  | j => j

def pruneMembers : List (Str × Json) → List (Str × Json)
  | [] => []
  | (key,j)::es => if (prune j).isNull then pruneMembers es else (key,prune j)::pruneMembers es
end

theorem prune_members (es : List (Str × Json)) :
    prune (.ofMembers es) = .ofMembers (pruneMembers es) := by
  cases es with
  | nil => simp [Json.ofMembers, prune, pruneMembers]
  | cons e es => rw [Json.ofMembers, prune]

theorem prune_keys (es : List (Str × Json)) (x : Str × Json) (h : x ∈ pruneMembers es) :
    ∃ y ∈ es, y.1 = x.1 := by
  induction es with
  | nil => simp [pruneMembers] at h
  | cons e es ih =>
    rw [pruneMembers] at h
    split at h
    · obtain ⟨y,hy,hx⟩ := ih h
      exact ⟨y,List.mem_cons_of_mem _ hy,hx⟩
    · rcases List.mem_cons.mp h with rfl | h
      · exact ⟨e,List.mem_cons_self,rfl⟩
      · obtain ⟨y,hy,hx⟩ := ih h
        exact ⟨y,List.mem_cons_of_mem _ hy,hx⟩

theorem assign_least (k : Str) (j : Json) (es : List (Str × Json)) (h : ∀ x ∈ es, k < x.1) :
    OrderedMap.assign k j es = (k,j)::es := by
  cases es with
  | nil => rfl
  | cons e es => rw [OrderedMap.assign, if_pos (h e List.mem_cons_self)]

theorem prune_assign (k : Str) (j : Json) (es : List (Str × Json)) (hs : OrderedMap.Sorted es)
    (hk : ∀ x ∈ es, k ≠ x.1) :
    pruneMembers (OrderedMap.assign k j es) =
      if (prune j).isNull then pruneMembers es
      else OrderedMap.assign k (prune j) (pruneMembers es) := by
  induction es with
  | nil => simp [OrderedMap.assign, pruneMembers]
  | cons e es ih =>
    obtain ⟨he,hes⟩ := List.pairwise_cons.mp hs
    have hne : k ≠ e.1 := hk e List.mem_cons_self
    by_cases hlt : k < e.1
    · have hleast : ∀ x ∈ pruneMembers (e::es), k < x.1 := by
        intro x hx
        obtain ⟨y,hy,hxy⟩ := prune_keys _ x hx
        rw [← hxy]
        rcases List.mem_cons.mp hy with rfl | hy
        · exact hlt
        · exact hlt.trans (he y hy)
      rw [assign_least k (prune j) _ hleast, OrderedMap.assign, if_pos hlt, pruneMembers]
    · have ih := ih hes (fun x hx => hk x (List.mem_cons_of_mem _ hx))
      rw [OrderedMap.assign, if_neg hlt, if_neg hne, pruneMembers, ih, pruneMembers]
      split_ifs with hj hp
      · rfl
      · rfl
      · rfl
      · rw [OrderedMap.assign, if_neg hlt, if_neg hne]

def PathSegment (u : Str) : Prop := u ≠ [] ∧ '/' ∉ u

instance (u : Str) : Decidable (PathSegment u) := inferInstanceAs (Decidable (_ ∧ _))

/-- The two loops over the children side by side. The members collected so far
carry labels that the children to come do not have. -/
theorem into_prune (value : Str → Option Str) (uriPrefix : Str) (cs : List BaseCached.Node)
    (hnode : ∀ c ∈ cs, nodeReport value uriPrefix (c.map Cell.isLeaf) =
      prune (BaseCached.serializeNode c))
    (hd : (cs.map LabelTree.label).Nodup) (members : List (Str × Json))
    (hs : OrderedMap.Sorted members) (hfresh : ∀ c ∈ cs, ∀ x ∈ members, c.label ≠ x.1) :
    reportInto value uriPrefix (pruneMembers members) (cs.map (LabelTree.map Cell.isLeaf)) =
      pruneMembers (BaseCached.serializeInto members cs) := by
  induction cs generalizing members with
  | nil => rfl
  | cons c cs ih =>
    obtain ⟨hc,hcs⟩ := List.nodup_cons.mp hd
    have hassign := prune_assign c.label (BaseCached.serializeNode c) members hs
      (hfresh c List.mem_cons_self)
    have hfresh' : ∀ d ∈ cs, ∀ x ∈ OrderedMap.assign c.label (BaseCached.serializeNode c) members,
        d.label ≠ x.1 := by
      intro d hd x hx
      rcases OrderedMap.mem_assign _ _ _ _ hx with rfl | hx
      · intro h
        have hmem : d.label ∈ cs.map LabelTree.label := List.mem_map_of_mem hd
        rw [h] at hmem
        exact hc hmem
      · exact hfresh d (List.mem_cons_of_mem _ hd) x hx
    rw [List.map_cons, reportInto, hnode c List.mem_cons_self, LabelTree.map_label, ← hassign,
      BaseCached.serializeInto]
    exact ih (fun d hd => hnode d (List.mem_cons_of_mem _ hd)) hcs _
      (OrderedMap.assign_sorted _ _ _ hs) hfresh'

theorem report_prune (value : Str → Option Str) (t : BaseCached.Node)
    (hw : LabelTree.WellNamed PathSegment t) (uriPrefix : Str)
    (hval : ∀ ks s, t.descend ks = some s →
      value ((uriPrefix ++ '/' :: t.label) ++ absolute ks) = some s.val.data) :
    nodeReport value uriPrefix (t.map Cell.isLeaf) = prune (BaseCached.serializeNode t) := by
  induction t using LabelTree.by_children generalizing uriPrefix with
  | node uri cell children ih =>
    cases hw with
    | node _ _ _ distinct named below =>
      have hself := hval [] _ (LabelTree.descend_nil _)
      simp only [absolute, List.flatMap_nil, List.append_nil, LabelTree.label_node,
        LabelTree.val_node] at hself
      rw [LabelTree.map_node, nodeReport, BaseCached.serializeNode, hself]
      split_ifs with hleaf
      · rw [prune]
        · intro es h
          cases h
      · have hchild : ∀ c ∈ children,
            nodeReport value (uriPrefix ++ '/' :: uri) (c.map Cell.isLeaf) =
              prune (BaseCached.serializeNode c) := by
          intro c hc
          apply ih c hc (below c hc)
          intro ks s hks
          have hdown := hval (c.label::ks) s (by
            rw [LabelTree.descend_cons, LabelTree.children_node,
              LabelTree.child_distinct children distinct c hc]
            exact hks)
          rw [← hdown, LabelTree.label_node, absolute_down]
        have hinto := into_prune value (uriPrefix ++ '/' :: uri) children hchild distinct []
          List.Pairwise.nil (by simp)
        rw [prune_members, ← hinto]
        rfl

theorem nodes_agree (e : XMLElement) :
    MOHandler.generateNodeFromDdf e =
      (BaseCached.generateNodeFromDdf e).map Cell.isLeaf := by
  induction e using XMLElement.by_children with
  | mk name text children ih =>
    have hloop : ∀ es : List XMLElement, (∀ e ∈ es, e ∈ children) →
        MOHandler.generateChildren es =
          (BaseCached.generateChildren es).map (LabelTree.map Cell.isLeaf) := by
      intro es hes
      induction es with
      | nil => rfl
      | cons e es ihes =>
        have ihes := ihes (fun d hd => hes d (List.mem_cons_of_mem _ hd))
        rw [MOHandler.generateChildren, BaseCached.generateChildren, ihes,
          ih e (hes e List.mem_cons_self)]
        split_ifs <;> rfl
    rw [MOHandler.generateNodeFromDdf, BaseCached.generateNodeFromDdf,
      hloop children (fun e he => he)]
    show (if BaseCached.nodeIsLeaf _ then _ else _) = _
    split_ifs <;> rw [LabelTree.map_node] <;> rfl

theorem children_agree (es : List XMLElement) :
    MOHandler.generateChildren es =
      (BaseCached.generateChildren es).map (LabelTree.map Cell.isLeaf) := by
  induction es with
  | nil => rfl
  | cons e es ih =>
    rw [MOHandler.generateChildren, BaseCached.generateChildren, ih, nodes_agree]
    split_ifs <;> rfl

def overwriteAll : List CachedMap.Write → StaticData → StaticData
  | [], mo => mo
  | w::ws, mo => overwriteAll ws (mo.localSetNode w.fresh w.path w.data false)

theorem overwrite_shape (ws : List CachedMap.Write) (mo : StaticData) :
    (overwriteAll ws mo).root.map Cell.isLeaf = mo.root.map Cell.isLeaf := by
  induction ws generalizing mo with
  | nil => rfl
  | cons w ws ih =>
    rw [overwriteAll, ih, BaseCached.localSetNode]
    split
    · rename_i root hroot
      exact LabelTree.write_map (BaseCached.Cell.setData w.data) Cell.isLeaf (fun _ => rfl) _ _ _ _
        hroot
    · rfl

theorem overwrite_children (ws : List CachedMap.Write) (mo : StaticData) :
    (overwriteAll ws mo).root.children.map (LabelTree.map Cell.isLeaf) =
      mo.root.children.map (LabelTree.map Cell.isLeaf) := by
  have h := congrArg LabelTree.children (overwrite_shape ws mo)
  rwa [LabelTree.map_children, LabelTree.map_children] at h

theorem loaded_children (rootLeaf : Bool) (urn url moName filename : Str) (fs : FileSystem)
    (h : MOHandler M)
    (hload : (MOHandler.new rootLeaf urn url).generateTreeFromDdf (fs filename) = .ok (true,h)) :
    h.root.children =
      (StaticData.new fs moName filename).root.children.map (LabelTree.map Cell.isLeaf) := by
  obtain ⟨hfalse,-⟩ | ⟨-,e,uri,hroot,-,rfl⟩ := MOHandler.generate_cases _ h _ true hload
  · cases hfalse
  · rw [StaticData.new, LabelTree.children_node, BaseCached.new, BaseCached.generate_load, hroot]
    exact children_agree e.children

theorem report_data (value : Str → Option Str) (mo : StaticData)
    (hval : ∀ path, value path = some (mo.localGetNode path)) (t : MOHandler.Node)
    (hw : LabelTree.WellNamed PathSegment t)
    (hc : t.children = mo.root.children.map (LabelTree.map Cell.isLeaf)) :
    report value t.children = prune (BaseCached.serializeChildren mo.root.children) := by
  have hlabels : t.children.map LabelTree.label = mo.root.children.map LabelTree.label := by
    rw [hc, List.map_map]
    exact List.map_congr_left (fun c _ => LabelTree.map_label _ c)
  cases hw with
  | node label leaf children distinct named below =>
    simp only [LabelTree.children_node] at hc hlabels ⊢
    have hdistinct : (mo.root.children.map LabelTree.label).Nodup := hlabels ▸ distinct
    have hmem : ∀ c ∈ mo.root.children, c.map Cell.isLeaf ∈ children := by
      intro c hm
      rw [hc]
      exact List.mem_map_of_mem hm
    have hnode : ∀ c ∈ mo.root.children, nodeReport value [] (c.map Cell.isLeaf) =
        prune (BaseCached.serializeNode c) := by
      intro c hm
      have hwc : LabelTree.WellNamed PathSegment c :=
        LabelTree.map_wellNamed _ _ _ (below _ (hmem c hm))
      have hcn : PathSegment c.label := by
        simpa using named _ (hmem c hm)
      apply report_prune value c hwc
      intro ks s hs
      have hks := LabelTree.descend_named _ _ _ _ hwc hs
      rw [hval, absolute_down, List.nil_append, BaseCached.localGetNode,
        vectorize_absolute, LabelTree.descend_cons,
        LabelTree.child_distinct _ hdistinct c hm, Option.bind_some, hs]
      intro u hu
      rcases List.mem_cons.mp hu with rfl | hu
      · exact hcn
      · exact hks u hu
    have hinto := into_prune value [] mo.root.children hnode hdistinct [] List.Pairwise.nil
      (by simp)
    rw [BaseCached.serializeChildren, prune_members, ← hinto, ← hc]
    rfl

def IsStore (I : Interface M W) (mo : M) (s : StaticData) : Prop :=
  ∀ path nodeExists validData w,
    I.getVal mo path nodeExists validData w = (s.getVal path nodeExists validData,w)

theorem store_answers (I : Interface M W) (mo : M) (s : StaticData) (h : IsStore I mo s) :
    Answers I mo (fun path => some (s.localGetNode path)) := by
  intro path w
  exact ⟨s.localGetNode path,true,true,h path true true w,rfl⟩

/-- For every instance that is a static store made from the file of its type,
the handler puts under its root name what the store puts under its own, with
the interior nodes without a leaf removed. -/
theorem serialisations_agree (I : Interface M W) (rootLeaf : Bool)
    (urn url moName filename : Str) (fs : FileSystem) (h : MOHandler M)
    (hload : (MOHandler.new rootLeaf urn url).generateTreeFromDdf (fs filename) = .ok (true,h))
    (hw : LabelTree.WellNamed PathSegment h.root) (ws : List CachedMap.Write)
    (instances : OrderedMap Str M) (i : ℕ) (miid : Str) (mo : M)
    (hi : instances.entries[i]? = some (miid,mo))
    (hmo : IsStore I mo (overwriteAll ws (StaticData.new fs moName filename))) (w : W) :
    let s := overwriteAll ws (StaticData.new fs moName filename)
    (({ h with instances := instances }.serializeMIs I w).1.elements)[i]? =
      some (serializationObject h.root.label (prune (s.serializeJson.field s.root.label))) := by
  intro s
  have hchildren : h.root.children = s.root.children.map (LabelTree.map Cell.isLeaf) := by
    rw [loaded_children rootLeaf urn url moName filename fs h hload, overwrite_children]
  have hreport := report_data (fun path => some (s.localGetNode path)) s (fun _ => rfl) h.root hw
    hchildren
  have hfield : s.serializeJson.field s.root.label =
      BaseCached.serializeChildren s.root.children := by
    rw [BaseCached.serializeJson, Json.field_ofMembers, OrderedMap.lookup_assign, if_pos rfl]
    rfl
  rw [MOHandler.serializeMIs]
  simp only [Json.elements_ofElems]
  rw [Traversal.traverse_get, hi, Option.map_some,
    instance_report I _ mo _ (store_answers I mo s hmo), instanceReport, hfield, ← hreport]

def sampleWrites : List CachedMap.Write :=
  [⟨fun _ => false,"/Ext/Mod".toList,"x".toList⟩,⟨fun _ => false,"Ext/No".toList,"y".toList⟩]

def sampleStore : StaticData :=
  overwriteAll sampleWrites (StaticData.new sampleFile "Dev".toList [])

def storeInterface (s : StaticData) : Interface Unit Unit :=
  { getVal := fun _ path nodeExists validData w => (s.getVal path nodeExists validData,w),
    checkDdfNameCompatibility := fun _ _ _ => true }

theorem sample_named : LabelTree.WellNamed PathSegment MOHandler.sampleTree := by
  have hleaf : ∀ (u : Str) (b : Bool), LabelTree.WellNamed PathSegment (.node u b []) :=
    fun u b => .node u b [] List.nodup_nil (by simp) (by simp)
  have hext : LabelTree.WellNamed PathSegment
      (.node "Ext".toList false [.node "Mod".toList true []]) :=
    .node _ _ _ (by decide) (by decide) (by simpa using hleaf _ _)
  apply LabelTree.WellNamed.node
  · decide
  · decide
  · intro c hc
    simp only [List.mem_cons, List.not_mem_nil, or_false] at hc
    rcases hc with rfl | rfl | rfl
    · exact hleaf _ _
    · exact hleaf _ _
    · exact hext

theorem serialisations_agree_sample :
    (({ MOHandler.sampleHandler with
        instances := OrderedMap.empty.set "1".toList () }.serializeMIs
      (storeInterface sampleStore) ()).1.elements)[0]? =
      some (serializationObject "Dev".toList
        (prune (sampleStore.serializeJson.field sampleStore.root.label))) :=
  serialisations_agree (storeInterface sampleStore) true "u".toList [] "Dev".toList [] sampleFile
    MOHandler.sampleHandler rfl sample_named sampleWrites
    (OrderedMap.empty.set "1".toList ()) 0 "1".toList () rfl (fun _ _ _ _ => rfl) ()

end Grandma.Agreement
