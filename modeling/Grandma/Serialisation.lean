import Grandma.CachedMap
import Grandma.Positions

/-!
# The getter and the serialiser of the cached tree

The getter takes the first of several siblings with one name, the serialiser
lets the last one overwrite the others. A parsed tree is serialised without
loss exactly when the document gives siblings different names, where all nodes
without a name count as having the same.
-/

set_option autoImplicit false

namespace Grandma.Serialisation
open BaseCached Helper LabelTree

theorem into_collect (cs : List BaseCached.Node) (members : List (Str × Json)) :
    serializeInto members cs =
      OrderedMap.collect label (fun c => some (serializeNode c)) members cs := by
  induction cs generalizing members with
  | nil => rfl
  | cons c cs ih => rw [serializeInto, OrderedMap.collect, ih]

theorem lookup_serialized (cs : List BaseCached.Node) (hd : (cs.map label).Nodup) (u : Str) :
    OrderedMap.lookup u (serializeInto [] cs) = (child u cs).map serializeNode := by
  have hall : (child u cs).filter (fun c => (some (serializeNode c)).isSome) = child u cs := by
    cases child u cs <;> rfl
  rw [into_collect, collect_children, last_distinct _ cs hd u, hall, Option.map_eq_bind]
  rfl

/-- Where siblings have different names, the serialisation has at a path what
the node reached by it is serialised to. -/
theorem serialized_entry (cs : List BaseCached.Node) (hd : Distinct cs) (us : List Str)
    (hus : us ≠ []) : (Json.ofMembers (serializeInto [] cs)).entryAt us =
      (reach firstChild Cell.isLeaf cs us).map serializeNode := by
  induction us generalizing cs with
  | nil => exact absurd rfl hus
  | cons u us ih =>
    rw [Json.entryAt_ofMembers, lookup_serialized cs hd.1 u]
    cases us with
    | nil =>
      rw [reach, firstChild]
      cases child u cs <;> simp
    | cons v us =>
      rw [reach, firstChild]
      cases hc : child u cs with
      | none => rfl
      | some c =>
        have ih := ih c.children (distinct_below cs hd c (child_mem u cs c hc)) (by simp)
        cases c with
        | node uri cell children =>
          rw [Option.map_some, Option.bind_some, Option.bind_some, serializeNode, val_node]
          split_ifs
          · rfl
          · exact ih

theorem json_entry (mo : BaseCached) (us : List Str) :
    mo.serializeJson.entryAt (mo.root.label::us) =
      (serializeChildren mo.root.children).entryAt us := by
  rw [serializeJson, Json.entryAt_ofMembers, OrderedMap.lookup_assign, if_pos rfl,
    Option.bind_some]

theorem node_string (m : BaseCached.Node) (v : Str) :
    serializeNode m = .string v ↔ m.val.isLeaf = true ∧ m.val.data = v := by
  cases m with
  | node uri cell children =>
    rw [serializeNode, val_node]
    split_ifs with hleaf
    · simp [hleaf]
    · cases serializeInto [] children <;> simp [Json.ofMembers, hleaf]

theorem serialized_string (mo : BaseCached) (hd : Distinct mo.root.children) (us : List Str)
    (v : Str) : mo.serializeJson.entryAt (mo.root.label::us) = some (.string v) ↔
      ∃ m, reach firstChild Cell.isLeaf mo.root.children us = some m ∧
        m.val.isLeaf = true ∧ m.val.data = v := by
  rw [json_entry, serializeChildren]
  by_cases hus : us = []
  · rw [hus, Json.entryAt_nil, reach]
    cases serializeInto [] mo.root.children <;> simp [Json.ofMembers]
  · rw [serialized_entry mo.root.children hd us hus, Option.map_eq_some_iff]
    simp only [node_string]

inductive Complete : Json → List BaseCached.Node → Prop
  | mk (j : Json) (cs : List BaseCached.Node) (own : j.elements.length = cs.length)
      (below : ∀ c ∈ cs, c.val.isLeaf = false → Complete (j.field c.label) c.children) :
      Complete j cs

theorem own_members (cs : List BaseCached.Node) :
    (serializeChildren cs).elements.length = cs.length ↔ (cs.map label).Nodup := by
  have helements : (serializeChildren cs).elements.length = (serializeInto [] cs).length := by
    rw [serializeChildren]
    cases serializeInto [] cs <;> simp [Json.ofMembers, Json.elements]
  rw [helements, into_collect]
  exact OrderedMap.collect_length_iff label _ cs (fun _ _ => rfl)

theorem inner_field (cs : List BaseCached.Node) (hd : (cs.map label).Nodup)
    (c : BaseCached.Node) (hc : c ∈ cs) (hinner : c.val.isLeaf = false) :
    (serializeChildren cs).field c.label = serializeChildren c.children := by
  rw [serializeChildren, Json.field_ofMembers, lookup_serialized cs hd, child_distinct cs hd c hc,
    Option.map_some, Option.getD_some]
  cases c with
  | node uri cell children =>
    have hcell : cell.isLeaf = false := hinner
    rw [serializeNode, if_neg (by simp [hcell]), serializeChildren, children_node]

/-- Nothing is missing exactly when siblings have different names. The induction
is on the node; a leaf has no children whose names could clash. -/
theorem complete_iff (t : BaseCached.Node) (hb : ∀ c ∈ t.children, Bare Cell.isLeaf c) :
    Complete (serializeChildren t.children) t.children ↔ Distinct t.children := by
  induction t using LabelTree.by_children with
  | node uri cell children ih =>
    rw [children_node] at hb ⊢
    have hbare : ∀ c ∈ children, ∀ d ∈ c.children, Bare Cell.isLeaf d := by
      intro c hc
      cases hb c hc with
      | node _ _ _ _ below => exact below
    constructor
    · intro h
      cases h with
      | mk _ _ own below =>
        have hnodup := (own_members children).mp own
        refine ⟨hnodup,?_⟩
        intro c hc
        apply distinct_wellNamed
        by_cases hleaf : c.val.isLeaf = true
        · cases hb c hc with
          | node _ _ _ bare _ =>
            rw [children_node, bare hleaf]
            exact ⟨List.nodup_nil,by simp⟩
        · rw [Bool.not_eq_true] at hleaf
          have hbelow := below c hc hleaf
          rw [inner_field children hnodup c hc hleaf] at hbelow
          exact (ih c hc (hbare c hc)).mp hbelow
    · intro hd
      apply Complete.mk
      · exact (own_members children).mpr hd.1
      · intro c hc hinner
        rw [inner_field children hd.1 c hc hinner]
        exact (ih c hc (hbare c hc)).mpr (distinct_below children hd c hc)

def nodeElements (es : List XMLElement) : List XMLElement :=
  es.filter (fun e => e.name = "Node".toList)

theorem generate_map (es : List XMLElement) :
    generateChildren es = (nodeElements es).map generateNodeFromDdf := by
  induction es with
  | nil => rfl
  | cons e es ih =>
    rw [generateChildren, nodeElements, List.filter_cons]
    by_cases he : e.name = "Node".toList
    · rw [if_pos he, if_pos (decide_eq_true he), List.map_cons, ih, nodeElements]
    · rw [if_neg he, if_neg (by rwa [decide_eq_true_eq]), ih, nodeElements]

theorem generate_node (e : XMLElement) :
    generateNodeFromDdf e = if nodeIsLeaf e
      then .node (nodeUri e) { isLeaf := true, data := leafData e } []
      else .node (nodeUri e) { isLeaf := false, data := [] } (generateChildren e.children) := by
  cases e
  rw [generateNodeFromDdf]
  rfl

theorem generate_label (e : XMLElement) : (generateNodeFromDdf e).label = nodeUri e := by
  rw [generate_node]
  split_ifs <;> rfl

theorem generate_bare (es : List XMLElement) :
    ∀ c ∈ generateChildren es, Bare Cell.isLeaf c := by
  have hnode : ∀ e, Bare Cell.isLeaf (generateNodeFromDdf e) := by
    intro e
    induction e using XMLElement.by_children with
    | mk name text children ih =>
      rw [generate_node]
      split_ifs
      · exact .node _ _ _ (fun _ => rfl) (by simp)
      · apply Bare.node
        · intro hleaf
          cases hleaf
        · intro c hc
          rw [generate_map] at hc
          obtain ⟨e,he,rfl⟩ := List.mem_map.mp hc
          exact ih e (List.mem_of_mem_filter he)
  intro c hc
  rw [generate_map] at hc
  obtain ⟨e,-,rfl⟩ := List.mem_map.mp hc
  exact hnode e

inductive NamedApart : List XMLElement → Prop
  | mk (es : List XMLElement) (apart : ((nodeElements es).map nodeUri).Nodup)
      (below : ∀ e ∈ nodeElements es, nodeIsLeaf e = false → NamedApart e.children) :
      NamedApart es

theorem generate_labels (es : List XMLElement) :
    (generateChildren es).map label = (nodeElements es).map nodeUri := by
  rw [generate_map, List.map_map]
  exact List.map_congr_left (fun e _ => generate_label e)

theorem apart_distinct (es : List XMLElement) (h : NamedApart es) :
    Distinct (generateChildren es) := by
  induction h with
  | mk es apart below ih =>
    constructor
    · rwa [generate_labels]
    · intro c hc
      rw [generate_map] at hc
      obtain ⟨e,he,rfl⟩ := List.mem_map.mp hc
      apply distinct_wellNamed
      rw [generate_node]
      split_ifs with hleaf
      · exact ⟨List.nodup_nil,by simp⟩
      · exact ih e he (by simpa using hleaf)

theorem distinct_apart (e : XMLElement) (h : Distinct (generateChildren e.children)) :
    NamedApart e.children := by
  induction e using XMLElement.by_children with
  | mk name text children ih =>
    apply NamedApart.mk
    · rw [← generate_labels]
      exact h.1
    · intro e he hleaf
      have hmem : generateNodeFromDdf e ∈ generateChildren children := by
        rw [generate_map]
        exact List.mem_map_of_mem he
      have hbelow := distinct_below _ h _ hmem
      rw [generate_node, if_neg (by simp [hleaf]), children_node] at hbelow
      exact ih e (List.mem_of_mem_filter he) hbelow

def declared (file : Option XMLDocument) : List XMLElement :=
  ((XMLElement.rootElement file).map XMLElement.children).getD []

theorem parsed_children (fs : FileSystem) (file : Str) :
    (BaseCached.new fs file).root.children = generateChildren (declared (fs file)) := by
  rw [BaseCached.new, generate_load, declared]
  cases XMLElement.rootElement (fs file) <;> rfl

/-- Every leaf has at its path in the serialisation what the getter returns
there, which is its own data. -/
def LeavesAgree (mo : BaseCached) : Prop :=
  ∀ is us m, mo.root.walk is = some m → mo.root.names is = some us → us ≠ [] →
    (∀ u ∈ us, u ≠ [] ∧ '/' ∉ u) → m.val.isLeaf = true →
    mo.serializeJson.entryAt (mo.root.label::us) =
        some (.string (mo.localGetNode (joined us))) ∧
      mo.localGetNode (joined us) = m.val.data

theorem leaves_agree (mo : BaseCached) (hd : Distinct mo.root.children)
    (hb : ∀ c ∈ mo.root.children, Bare Cell.isLeaf c) : LeavesAgree mo := by
  intro is us m hm hnames hus hsegments hleaf
  have hdescend := walk_descend mo.root hd is us m hm hnames
  have hreach := bare_reach Cell.isLeaf mo.root m hb us hus hdescend
  have hget : mo.localGetNode (joined us) = m.val.data := by
    rw [localGetNode, vectorize_names us hsegments, hdescend]
  rw [hget, serialized_string mo hd]
  exact ⟨⟨m,hreach,hleaf,rfl⟩,rfl⟩

/-- In a freshly parsed tree the getter and the serialiser agree on every leaf
and nothing is missing exactly when sibling nodes have different names. -/
theorem parsed_serialised_iff (fs : FileSystem) (file : Str) :
    (LeavesAgree (BaseCached.new fs file) ∧
      Complete ((BaseCached.new fs file).serializeJson.field (BaseCached.new fs file).root.label)
        (BaseCached.new fs file).root.children) ↔
    NamedApart (declared (fs file)) := by
  have hfield : (BaseCached.new fs file).serializeJson.field (BaseCached.new fs file).root.label =
      serializeChildren (BaseCached.new fs file).root.children := by
    rw [serializeJson, Json.field_ofMembers, OrderedMap.lookup_assign, if_pos rfl,
      Option.getD_some]
  have hbare : ∀ c ∈ (BaseCached.new fs file).root.children, Bare Cell.isLeaf c := by
    rw [parsed_children]
    exact generate_bare _
  rw [hfield, complete_iff _ hbare]
  constructor
  · rintro ⟨-,hd⟩
    rw [parsed_children] at hd
    exact distinct_apart (.mk [] none (declared (fs file))) hd
  · intro hapart
    have hd := apart_distinct _ hapart
    rw [← parsed_children] at hd
    exact ⟨leaves_agree _ hd hbare,hd⟩

def twinFile : FileSystem := fun _ =>
  some [.mk "MgmtTree".toList none [.mk "Node".toList none [
    .mk "Node".toList none [.mk "Value".toList (some "1".toList) []],
    .mk "Node".toList none [.mk "Value".toList (some "2".toList) []]]]]

/-- The getter has the data of the first of them, the serialiser that of the
second. -/
theorem twins_disagree :
    (BaseCached.new twinFile []).root.walk [0] = some (.node "*".toList ⟨true,"1".toList⟩ []) ∧
    (BaseCached.new twinFile []).root.walk [1] = some (.node "*".toList ⟨true,"2".toList⟩ []) ∧
    (BaseCached.new twinFile []).localGetNode (joined ["*".toList]) = "1".toList ∧
    (BaseCached.new twinFile []).serializeJson.entryAt [[],"*".toList] =
      some (.string "2".toList) ∧
    (BaseCached.new twinFile []).serializeJson =
      .object [([],.object [("*".toList,.string "2".toList)])] :=
  ⟨rfl,rfl,rfl,rfl,rfl⟩

end Grandma.Serialisation
