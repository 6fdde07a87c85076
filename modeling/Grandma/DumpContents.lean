import Grandma.Meaning

/-!
# What the dump of a static store contains

A static store has a value for every path and takes all of them for existing
and valid. So the handler reports every leaf of its own tree, under its own
names, whether the instance has it or not; and it never asks for a name that
stands in the instance only.
-/

set_option autoImplicit false

namespace Grandma.DumpContents
open Helper LabelTree MOHandler Report Agreement Meaning

variable {M W : Type}

mutual
def hasLeaf : MOHandler.Node → Bool
  | .node _ isLeaf children => isLeaf || anyLeaf children

def anyLeaf : List MOHandler.Node → Bool
  | [] => false
  | c::cs => hasLeaf c || anyLeaf cs
end

theorem any_hasLeaf (cs : List MOHandler.Node) : anyLeaf cs = cs.any hasLeaf := by
  induction cs with
  | nil => rfl
  | cons c cs ih => rw [anyLeaf, ih, List.any_cons]

theorem assign_nonempty (k : Str) (j : Json) (es : List (Str × Json)) :
    (OrderedMap.assign k j es).isEmpty = false := by
  cases es with
  | nil => rfl
  | cons e es =>
    rw [OrderedMap.assign]
    split_ifs <;> rfl

theorem into_empty (value : Str → Option Str) (uriPrefix : Str) (cs : List MOHandler.Node)
    (members : List (Str × Json)) : (reportInto value uriPrefix members cs).isEmpty =
      (members.isEmpty && !cs.any (reports value uriPrefix)) := by
  induction cs generalizing members with
  | nil => simp [reportInto]
  | cons c cs ih =>
    rw [reportInto, ih, List.any_cons, reports]
    cases (nodeReport value uriPrefix c).isNull <;> simp [assign_nonempty]

theorem reports_total (value : Str → Option Str) (hv : ∀ path, (value path).isSome)
    (t : MOHandler.Node) (uriPrefix : Str) : reports value uriPrefix t = hasLeaf t := by
  induction t using LabelTree.by_children generalizing uriPrefix with
  | node uri isLeaf children ih =>
    cases isLeaf with
    | true =>
      obtain ⟨v,hv⟩ := Option.isSome_iff_exists.mp (hv (uriPrefix ++ '/' :: uri))
      simp [reports, nodeReport, hasLeaf, hv, Json.isNull]
    | false =>
      have hany : children.any (reports value (uriPrefix ++ '/' :: uri)) =
          children.any hasLeaf := by
        rw [Bool.eq_iff_iff, List.any_eq_true, List.any_eq_true]
        apply exists_congr
        intro c
        apply and_congr_right
        intro hc
        rw [ih c hc]
      simp [reports, nodeReport, hasLeaf, into_empty, any_hasLeaf, hany]

/-- Of several siblings with one name the last that has a leaf is reported. -/
theorem total_agrees (value : Str → Option Str) (hv : ∀ path, (value path).isSome) :
    Agrees value (lastChild hasLeaf) (fun _ => True) where
  below := fun _ _ _ _ => trivial
  member := by
    intro cs u c hc
    obtain ⟨hmem,hlabel,-⟩ := last_child hasLeaf cs u c hc
    exact ⟨hmem,hlabel⟩
  last := by
    intro uriPrefix cs u _
    have hreports : reports value uriPrefix = hasLeaf :=
      funext (fun c => reports_total value hv c uriPrefix)
    rw [hreports]
    cases hc : lastChild hasLeaf cs u with
    | none => rfl
    | some c =>
      rw [Option.filter_some_pos (last_child hasLeaf cs u c hc).2.2]

def stored (s : StaticData) (path : Str) : Option Str := some (s.localGetNode path)

def dumpedNode (h : MOHandler M) (us : List Str) : Option MOHandler.Node :=
  reach (lastChild hasLeaf) id h.root.children us

def dumpedEntry (I : Interface M W) (h : MOHandler M) (i : ℕ) (w : W) (us : List Str) :
    Option Json :=
  ((h.serializeMIs I w).1.elements[i]?).bind
    (fun j => j.entryAt ("MOData".toList::h.root.label::us))

theorem dumped_report (I : Interface M W) (h : MOHandler M) (i : ℕ) (miid : Str) (mo : M)
    (hi : h.instances.entries[i]? = some (miid,mo)) (s : StaticData) (hmo : IsStore I mo s)
    (w : W) (us : List Str) :
    dumpedEntry I h i w us = (report (stored s) h.root.children).entryAt us := by
  rw [dumpedEntry, MOHandler.serializeMIs]
  simp only [Json.elements_ofElems]
  rw [Traversal.traverse_get, hi, Option.map_some,
    instance_report I h mo (stored s) (store_answers I mo s hmo), Option.bind_some]
  simp [instanceReport, serializationObject, Json.entryAt, OrderedMap.lookup]

theorem stored_string (h : MOHandler M) (s : StaticData) (us : List Str) (v : Str) :
    (report (stored s) h.root.children).entryAt us = some (.string v) ↔
      (∃ m, dumpedNode h us = some m ∧ m.val = true) ∧ s.localGetNode (absolute us) = v := by
  have hagree := total_agrees (stored s) (fun _ => rfl)
  rw [report, dumpedNode]
  cases us with
  | nil =>
    rw [Json.entryAt_nil, reach]
    cases reportInto (stored s) [] [] h.root.children <;> simp [Json.ofMembers]
  | cons u us =>
    cases hm : reach (lastChild hasLeaf) id h.root.children (u::us) with
    | none =>
      rw [report_entry (stored s) _ _ hagree (u::us) (by simp) _ trivial, hm]
      simp
    | some m =>
      cases hleaf : m.val with
      | true =>
        rw [leaf_entry (stored s) _ _ hagree (u::us) _ trivial [] m hm hleaf]
        simp [stored, hleaf]
      | false =>
        rw [inner_entry (stored s) _ _ hagree (u::us) _ trivial [] m hm hleaf]
        cases reportInto (stored s) ([]++absolute (u::us)) [] m.children <;>
          simp [Json.ofMembers, Json.present, Json.isNull, hleaf]

theorem dumped_string (I : Interface M W) (h : MOHandler M) (i : ℕ) (miid : Str) (mo : M)
    (hi : h.instances.entries[i]? = some (miid,mo)) (s : StaticData) (hmo : IsStore I mo s)
    (w : W) (us : List Str) (v : Str) :
    dumpedEntry I h i w us = some (.string v) ↔
      (∃ m, dumpedNode h us = some m ∧ m.val = true) ∧ s.localGetNode (absolute us) = v := by
  rw [dumped_report I h i miid mo hi s hmo, stored_string]

def registered (h : MOHandler Unit) : MOHandler Unit :=
  { h with instances := OrderedMap.empty.set "1".toList () }

def Resolves (s : StaticData) (path : Str) : Prop := (s.root.descend (vectorizePath path)).isSome

/-- The dump of an instance has entries only for leaves that the instance has
exactly when it has all that are reported. Reading never clears `node_exists`,
so it is left set only for what resolves exactly where the path does. -/
theorem dump_resolves_iff (I : Interface M W) (h : MOHandler M) (i : ℕ) (miid : Str) (mo : M)
    (hi : h.instances.entries[i]? = some (miid,mo)) (s : StaticData) (hmo : IsStore I mo s)
    (w : W) :
    ((∀ us v, dumpedEntry I h i w us = some (.string v) → Resolves s (absolute us)) ↔
      ∀ us m, dumpedNode h us = some m → m.val = true → Resolves s (absolute us)) ∧
    (∀ path nodeExists validData, (s.getVal path nodeExists validData).2.1 = nodeExists) ∧
    ∀ path validData, ((s.getVal path true validData).2.1 = true → Resolves s path) ↔
      Resolves s path := by
  refine ⟨?_,fun _ _ _ => rfl,?_⟩
  · constructor
    · intro hdump us m hm hleaf
      apply hdump us (s.localGetNode (absolute us))
      rw [dumped_string I h i miid mo hi s hmo]
      exact ⟨⟨m,hm,hleaf⟩,rfl⟩
    · intro hleaves us v hentry
      rw [dumped_string I h i miid mo hi s hmo] at hentry
      obtain ⟨⟨m,hm,hleaf⟩,-⟩ := hentry
      exact hleaves us m hm hleaf
  · intro path validData
    simp [StaticData.getVal]

def otherFile : FileSystem := fun _ =>
  some [.mk "MgmtTree".toList none [.mk "Node".toList none [
    .mk "NodeName".toList (some "Dev".toList) [],
    .mk "Node".toList none [.mk "NodeName".toList (some "Serial".toList) []]]]]

def otherHandler : MOHandler Unit :=
  { urn := "u".toList, root := .node "Dev".toList false [.node "Serial".toList true []],
    ddfUrl := [], nextMiid := 1, instances := .empty }

theorem other_dumped (us : List Str) (m : MOHandler.Node)
    (h : dumpedNode (registered otherHandler) us = some m) : us = ["Serial".toList] := by
  have hchildren : (registered otherHandler).root.children = [.node "Serial".toList true []] := rfl
  rw [dumpedNode, hchildren] at h
  have hfirst : ∀ k c, lastChild hasLeaf [.node "Serial".toList true []] k = some c →
      k = "Serial".toList ∧ c.val = true := by
    intro k c hc
    obtain ⟨hmem,hlabel,-⟩ := last_child _ _ _ _ hc
    rw [List.mem_singleton.mp hmem] at hlabel ⊢
    exact ⟨hlabel.symm,rfl⟩
  cases us with
  | nil => cases h
  | cons k ks =>
    cases ks with
    | nil => rw [(hfirst k m h).1]
    | cons k' ks =>
      obtain ⟨c,hc,hbelow⟩ := Option.bind_eq_some_iff.mp h
      simp [(hfirst k c hc).2] at hbelow

theorem dump_resolves_sample :
    (∀ us v, dumpedEntry (storeInterface (StaticData.new otherFile "Dev".toList []))
        (registered otherHandler) 0 () us = some (.string v) →
      Resolves (StaticData.new otherFile "Dev".toList []) (absolute us)) ∧
    ((StaticData.new otherFile "Dev".toList []).getVal "/Id".toList true true).2.1 = true := by
  obtain ⟨hdump,hget,-⟩ := dump_resolves_iff
    (storeInterface (StaticData.new otherFile "Dev".toList [])) (registered otherHandler) 0
    "1".toList () rfl (StaticData.new otherFile "Dev".toList []) (fun _ _ _ _ => rfl) ()
  constructor
  · apply hdump.mpr
    intro us m hm _
    rw [other_dumped us m hm]
    rfl
  · exact hget _ true true

/-- An instance of another type is accepted, and the dump has a leaf for it
that it does not have. -/
theorem leaf_of_other_type :
    (MOHandler.new true "u".toList []).generateTreeFromDdf (sampleFile []) =
      .ok (true,sampleHandler) ∧
    sampleHandler.addInstance (storeInterface (StaticData.new otherFile "Dev".toList [])) () ()
        "1".toList = .ok (true,registered sampleHandler) ∧
    dumpedEntry (storeInterface (StaticData.new otherFile "Dev".toList []))
        (registered sampleHandler) 0 () ["Id".toList] = some (.string []) ∧
    ¬ Resolves (StaticData.new otherFile "Dev".toList []) (absolute ["Id".toList]) ∧
    ((StaticData.new otherFile "Dev".toList []).getVal (absolute ["Id".toList]) true true).2.1 =
      true := by
  refine ⟨rfl,rfl,rfl,?_,rfl⟩
  simp [Resolves]
  decide

/-- A concrete name for a child with label `u`: its own, or any name that no
named sibling has if the label stands for an arbitrary one. -/
def InstanceName (siblings : List MOHandler.Node) (u q : Str) : Prop :=
  if u = "*".toList then PathSegment q ∧ ∀ d ∈ siblings, d.label ≠ "*".toList → q ≠ d.label
  else q = u

def Instantiates : MOHandler.Node → List ℕ → List Str → Prop
  | _, [], qs => qs = []
  | t, i::is, qs => ∃ c q rest, t.children[i]? = some c ∧ qs = q::rest ∧
      InstanceName t.children c.label q ∧ Instantiates c is rest

theorem instantiates_names (t : MOHandler.Node) (is : List ℕ) (qs : List Str)
    (hq : Instantiates t is qs) (ks : List Str) (hk : t.names is = some ks) :
    ks.length = qs.length ∧ ((∀ k ∈ ks, '/' ∉ k) → ∀ q ∈ qs, '/' ∉ q) := by
  induction is generalizing t qs ks with
  | nil =>
    have hqs : qs = [] := by
      cases t
      exact hq
    rw [names_nil] at hk
    cases hk
    rw [hqs]
    simp
  | cons i is ih =>
    have hqs : ∃ c q rest, t.children[i]? = some c ∧ qs = q::rest ∧
        InstanceName t.children c.label q ∧ Instantiates c is rest := by
      cases t
      exact hq
    obtain ⟨c,q,rest,hc,rfl,hname,hrest⟩ := hqs
    obtain ⟨c',ks,hc',hks,rfl⟩ := (names_step t i is ks).mp hk
    rw [hc] at hc'
    cases hc'
    obtain ⟨hlen,hfree⟩ := ih c rest hrest ks hks
    constructor
    · rw [List.length_cons, List.length_cons, hlen]
    · intro hslash p hp
      rcases List.mem_cons.mp hp with rfl | hp
      · rw [InstanceName] at hname
        split_ifs at hname with hstar
        · exact hname.1.2
        · rw [hname]
          exact hslash c.label (by simp)
      · exact hfree (fun k hk => hslash k (by simp [hk])) p hp

/-- A stored value is in the dump under its path, and the path leads to the node
that it instantiates, exactly when every name on it is the one in the file, is
carried by the path, and belongs to the sibling that is looked up and reported. -/
theorem placeholder_dumped_iff (I : Interface M W) (h : MOHandler M) (i : ℕ) (miid : Str)
    (mo : M) (hi : h.instances.entries[i]? = some (miid,mo)) (s : StaticData)
    (fresh : ℕ → Bool) (d : Str) (is : List ℕ) (m : MOHandler.Node)
    (hm : h.root.walk is = some m) (qs : List Str) (hq : Instantiates h.root is qs)
    (hmo : IsStore I mo (s.localSetNode fresh (joined qs) d true)) (w : W) :
    (dumpedEntry I h i w qs = some (.string d) ∧
      h.findNode (vectorizePath (joined qs)) = some m ∧
      h.root.position (vectorizePath (joined qs)) = some is) ↔
    (h.root.names is = some qs ∧ h.root.First is ∧ vectorizePath (joined qs) = qs ∧
      ∃ n, dumpedNode h qs = some n ∧ n.val = true) := by
  rw [dumped_string I h i miid mo hi _ hmo, position_iff]
  constructor
  · rintro ⟨⟨hleaf,-⟩,-,hnames,hfirst⟩
    obtain ⟨hlen,hfree⟩ := instantiates_names h.root is qs hq _ hnames
    have hvec := (vectorize_joined qs (hfree (vectorize_slash_free _)) hlen).1
    rw [hvec] at hnames
    exact ⟨hnames,hfirst,hvec,hleaf⟩
  · rintro ⟨hnames,hfirst,hvec,hleaf⟩
    have hfree : ∀ q ∈ qs, '/' ∉ q := by
      intro q hmem
      rw [← hvec] at hmem
      exact vectorize_slash_free _ q hmem
    have habsolute := (vectorize_joined qs hfree (by rw [hvec])).2
    have hread : BaseCached.localGetNode (s.localSetNode fresh (joined qs) d true)
        (absolute qs) = d := by
      rw [CachedMap.get_contents, CachedMap.set_contents, Function.update_apply,
        if_pos (habsolute.trans hvec.symm)]
    have hposition := (position_iff h.root qs is).mpr ⟨hnames,hfirst⟩
    have hfind : h.findNode (vectorizePath (joined qs)) = some m := by
      rw [hvec, MOHandler.findNode, descend_position, hposition, Option.bind_some, hm]
    rw [hvec] at hfind ⊢
    exact ⟨⟨hleaf,hread⟩,hfind,hnames,hfirst⟩

def extFile : FileSystem := fun _ =>
  some [.mk "MgmtTree".toList none [.mk "Node".toList none [
    .mk "NodeName".toList (some "Dev".toList) [],
    .mk "Node".toList none [.mk "NodeName".toList (some "Ext".toList) [],
      .mk "Node".toList none []]]]]

def extHandler : MOHandler Unit :=
  { urn := "u".toList,
    root := .node "Dev".toList false [.node "Ext".toList false [.node "*".toList true []]],
    ddfUrl := [], nextMiid := 1, instances := .empty }

def extStore (path : Str) : StaticData :=
  (StaticData.new extFile "Dev".toList []).localSetNode (fun _ => false) path "x".toList true

theorem ext_instantiates (q : Str) (hq : PathSegment q) :
    Instantiates extHandler.root [0,0] ["Ext".toList,q] := by
  have hname : InstanceName [.node "*".toList true []] "*".toList q := by
    rw [InstanceName, if_pos rfl]
    constructor
    · exact hq
    · intro d hd hstar
      rw [List.mem_singleton.mp hd] at hstar
      exact absurd rfl hstar
  refine ⟨_,_,_,rfl,rfl,?_,_,_,_,rfl,rfl,hname,rfl⟩
  rw [InstanceName, if_neg (by decide)]
  rfl

theorem placeholder_dumped_sample :
    dumpedEntry (storeInterface (extStore (joined ["Ext".toList,"*".toList])))
        (registered extHandler) 0 () ["Ext".toList,"*".toList] = some (.string "x".toList) ∧
      (registered extHandler).findNode (vectorizePath (joined ["Ext".toList,"*".toList])) =
        some (.node "*".toList true []) ∧
      (registered extHandler).root.position
        (vectorizePath (joined ["Ext".toList,"*".toList])) = some [0,0] := by
  apply (placeholder_dumped_iff (storeInterface (extStore (joined ["Ext".toList,"*".toList])))
    (registered extHandler) 0 "1".toList () rfl (StaticData.new extFile "Dev".toList [])
    (fun _ => false) "x".toList [0,0] (.node "*".toList true []) rfl ["Ext".toList,"*".toList]
    (ext_instantiates _ (by decide)) (fun _ _ _ _ => rfl) ()).mpr
  have hfirst : (registered extHandler).root.First [0,0] := by
    rw [first_cons]
    intro c hc
    cases hc
    constructor
    · intro j d hj
      exact absurd hj (Nat.not_lt_zero j)
    · rw [first_cons]
      intro c hc
      cases hc
      exact ⟨fun j d hj => absurd hj (Nat.not_lt_zero j),trivial⟩
  exact ⟨rfl,hfirst,by decide,_,rfl,rfl⟩

/-- A value stored under a name of its own is not in the dump, and its path
leads nowhere in the tree of the handler. -/
theorem value_under_own_name :
    (MOHandler.new true "u".toList []).generateTreeFromDdf (extFile []) =
      .ok (true,extHandler) ∧
    extHandler.root.walk [0,0] = some (.node "*".toList true []) ∧
    Instantiates extHandler.root [0,0] ["Ext".toList,"P0URL".toList] ∧
    joined ["Ext".toList,"P0URL".toList] = "Ext/P0URL".toList ∧
    dumpedEntry (storeInterface (extStore "Ext/P0URL".toList)) (registered extHandler) 0 ()
      ["Ext".toList,"P0URL".toList] = none ∧
    (registered extHandler).findNode (vectorizePath "Ext/P0URL".toList) = none :=
  ⟨rfl,rfl,ext_instantiates _ (by decide),by decide,rfl,rfl⟩

end Grandma.DumpContents
