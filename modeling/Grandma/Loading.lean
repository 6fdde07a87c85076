import Grandma.Agreement
import Grandma.Serialisation

/-!
# Loading a DDF

Two classes load the same file with parsers of their own, and the registration
of a type depends on one of them. The trees are the same below their roots;
whether a root without nodes is a leaf is left open in one of the classes. The
name of a root is cut out of the urn when the file does not give one, and the
cut throws on a short urn.
-/

set_option autoImplicit false

namespace Grandma.Loading
open Helper LabelTree Serialisation XMLElement

variable {M : Type}

structure ParsersAgree (h : MOHandler M) (mo : BaseCached) : Prop where
  erased : mo.root.children.map (LabelTree.map Cell.isLeaf) = h.root.children
  handlerBare : Bare (fun isLeaf => isLeaf) h.root
  cachedBare : Bare Cell.isLeaf mo.root
  found : ∀ path, (h.findNode (vectorizePath path)).isSome ↔
    (mo.root.descend (vectorizePath path)).isSome
  status : ∀ path n m, h.findNode (vectorizePath path) = some n →
    mo.root.descend (vectorizePath path) = some m → n.val = m.val.isLeaf

theorem cached_loaded (fs : FileSystem) (file : Str) (e : XMLElement)
    (hroot : rootElement (fs file) = some e) :
    (BaseCached.new fs file).root = .node []
      { isLeaf := (BaseCached.generateChildren e.children).isEmpty, data := [] }
      (BaseCached.generateChildren e.children) := by
  rw [BaseCached.new, BaseCached.generate_load, hroot]
  simp

theorem same_below (h : MOHandler M) (mo : BaseCached)
    (herased : mo.root.children.map (LabelTree.map Cell.isLeaf) = h.root.children) (k : Str)
    (ks : List Str) :
    h.findNode (k::ks) = (mo.root.descend (k::ks)).map (LabelTree.map Cell.isLeaf) := by
  rw [MOHandler.findNode, ← descend_map, descend_cons, descend_cons, map_children, herased]

theorem parsed_bare (es : List XMLElement) : ∀ c ∈ MOHandler.generateChildren es,
    Bare (fun isLeaf => isLeaf) c := by
  intro c hc
  rw [Agreement.children_agree] at hc
  obtain ⟨d,hd,rfl⟩ := List.mem_map.mp hc
  exact bare_map _ Cell.isLeaf d (generate_bare es d hd)

theorem agree_iff_roots (h : MOHandler M) (mo : BaseCached)
    (herased : mo.root.children.map (LabelTree.map Cell.isLeaf) = h.root.children)
    (hhandler : Bare (fun isLeaf => isLeaf) h.root) (hcached : Bare Cell.isLeaf mo.root) :
    ParsersAgree h mo ↔ h.root.val = mo.root.val.isLeaf := by
  constructor
  · intro hagree
    exact hagree.status [] _ _ (descend_nil h.root) (descend_nil mo.root)
  · intro hroots
    refine ⟨herased,hhandler,hcached,?_,?_⟩
    · intro path
      cases vectorizePath path with
      | nil => simp [MOHandler.findNode]
      | cons k ks => rw [same_below h mo herased, Option.isSome_map]
    · intro path n m hn hm
      cases hpath : vectorizePath path with
      | nil =>
        rw [hpath, MOHandler.findNode, descend_nil] at hn
        rw [hpath, descend_nil] at hm
        cases hn
        cases hm
        exact hroots
      | cons k ks =>
        rw [hpath] at hn hm
        rw [same_below h mo herased, hm] at hn
        cases hn
        exact map_val Cell.isLeaf m

/-- The two parsers agree on a document if its root has nodes, or if the leaf
flag that the handler has not initialised happens to be set. -/
theorem parsers_agree_iff (rootLeaf : Bool) (urn url file : Str) (fs : FileSystem)
    (h : MOHandler M)
    (hload : (MOHandler.new rootLeaf urn url).generateTreeFromDdf (fs file) = .ok (true,h)) :
    ParsersAgree h (BaseCached.new fs file) ↔
      nodeElements (declared (fs file)) ≠ [] ∨ rootLeaf = true := by
  obtain ⟨hfalse,-⟩ | ⟨-,e,uri,hroot,-,hh⟩ := MOHandler.generate_cases _ h (fs file) true hload
  · cases hfalse
  have hhandler : h.root = .node uri (rootLeaf && (MOHandler.generateChildren e.children).isEmpty)
      (MOHandler.generateChildren e.children) := by
    rw [hh]
    rfl
  have hcached := cached_loaded fs file e hroot
  have hnodes : nodeElements (declared (fs file)) = nodeElements e.children := by
    rw [declared, hroot]
    rfl
  have herased : (BaseCached.new fs file).root.children.map (LabelTree.map Cell.isLeaf) =
      h.root.children := by
    rw [hhandler, hcached, children_node, children_node, Agreement.children_agree]
  have hbare : Bare (fun isLeaf => isLeaf) h.root := by
    rw [hhandler]
    exact .node _ _ _ (by simp) (parsed_bare e.children)
  have hbare' : Bare Cell.isLeaf (BaseCached.new fs file).root := by
    rw [hcached]
    exact .node _ _ _ (by simp) (generate_bare e.children)
  rw [agree_iff_roots h _ herased hbare hbare', hhandler, hcached, val_node, val_node,
    Agreement.children_agree, List.isEmpty_map, generate_map, List.isEmpty_map, hnodes]
  cases nodeElements e.children <;> simp

theorem parsers_agree_sample :
    ParsersAgree MOHandler.sampleHandler (BaseCached.new sampleFile []) :=
  (parsers_agree_iff false "u".toList [] [] sampleFile MOHandler.sampleHandler rfl).mpr
    (Or.inl (List.cons_ne_nil _ _))

def rootFile (name : Option Str) : FileSystem := fun _ =>
  some [.mk "MgmtTree".toList none [.mk "Node".toList none
    [.mk "NodeName".toList name []]]]

/-- The empty path leads to both roots: one is a leaf, the other is not. -/
theorem root_flags_differ :
    ∃ h : MOHandler Unit, (MOHandler.new false "u".toList []).generateTreeFromDdf
        (rootFile (some "Dev".toList) []) = .ok (true,h) ∧
      h.findNode (vectorizePath []) = some (.node "Dev".toList false []) ∧
      (BaseCached.new (rootFile (some "Dev".toList)) []).root.descend (vectorizePath []) =
        some (.node [] ⟨true,[]⟩ []) :=
  ⟨_,rfl,rfl,rfl⟩

/-- The call returns; a failure changes nothing, and a success nothing but the
registration of this type. -/
def Atomic (rootLeaf : Bool) (fs : FileSystem) (t : MOTree M) (urn filename url : Str) : Prop :=
  ∃ registered t', t.registerDDF rootLeaf fs urn filename url = .ok (registered,t') ∧
    (registered = false → t' = t) ∧
    (registered = true → (t'.MOs.find urn).isSome ∧
      ∀ u, u ≠ urn → t'.MOs.find u = t.MOs.find u)

theorem root_named (urn : Str) (e : XMLElement) (fault : Fault) :
    MOHandler.rootUri urn e = .error fault ↔ fault = .outOfRange ∧
      (e.firstChildElement "NodeName".toList).bind getText = none ∧ urn.length < 15 := by
  rw [MOHandler.rootUri]
  cases (e.firstChildElement "NodeName".toList).bind getText with
  | some name => simp
  | none =>
    simp only
    split_ifs with hlength <;> simp [hlength, eq_comm]

theorem register_new (rootLeaf : Bool) (fs : FileSystem) (t : MOTree M) (urn filename url : Str)
    (hfresh : t.MOs.find urn = none) : t.registerDDF rootLeaf fs urn filename url =
      match rootElement (fs filename) with
      | none => .ok (false,t)
      | some e => (MOHandler.rootUri urn e).map (fun uri => (true,{ t with
          MOs := t.MOs.set urn
            ((MOHandler.new rootLeaf urn url).load uri (MOHandler.generateChildren e.children)) })) := by
  have hurn : (MOHandler.new rootLeaf urn url : MOHandler M).urn = urn := rfl
  rw [MOTree.registerDDF, hfresh, MOHandler.generate_load]
  cases rootElement (fs filename) with
  | none => rfl
  | some e =>
    simp only [hurn]
    cases MOHandler.rootUri urn e with
    | error fault => rfl
    | ok uri =>
      simp only [Except.map, OrderedMap.insert_fresh _ _ _ hfresh]

/-- A registration is atomic unless it has to cut the name of the root out of an
urn that is shorter than what is cut off. -/
theorem register_atomic_iff (rootLeaf : Bool) (fs : FileSystem) (t : MOTree M)
    (urn filename url : Str) : Atomic rootLeaf fs t urn filename url ↔
      ∀ e, t.MOs.find urn = none → rootElement (fs filename) = some e →
        (e.firstChildElement "NodeName".toList).bind getText = none → 15 ≤ urn.length := by
  constructor
  · rintro ⟨registered,t',hreg,-,-⟩ e hfresh hroot hname
    by_contra hshort
    have huri := (root_named urn e .outOfRange).mpr ⟨rfl,hname,by omega⟩
    rw [register_new rootLeaf fs t urn filename url hfresh, hroot] at hreg
    simp only [huri] at hreg
    cases hreg
  · intro h
    cases hfind : t.MOs.find urn with
    | some handler =>
      refine ⟨true,t,?_,by simp,fun _ => ⟨by simp [hfind],fun _ _ => rfl⟩⟩
      rw [MOTree.registerDDF, hfind]
    | none =>
      rw [Atomic, register_new rootLeaf fs t urn filename url hfind]
      cases hroot : rootElement (fs filename) with
      | none => exact ⟨false,t,rfl,fun _ => rfl,by simp⟩
      | some e =>
        simp only
        cases huri : MOHandler.rootUri urn e with
        | error fault =>
          obtain ⟨-,hname,hshort⟩ := (root_named urn e fault).mp huri
          exact absurd (h e hfind hroot hname) (by omega)
        | ok uri =>
          refine ⟨true,_,rfl,by simp,fun _ => ⟨by simp,?_⟩⟩
          intro u hu
          simp [hu]

theorem short_urn_throws :
    (MOTree.empty : MOTree Unit).registerDDF false (rootFile none) "urn:x:mo:1.0".toList [] [] =
      .error .outOfRange ∧
    ¬ Atomic false (rootFile none) (MOTree.empty : MOTree Unit) "urn:x:mo:1.0".toList [] [] := by
  have hthrow : (MOTree.empty : MOTree Unit).registerDDF false (rootFile none)
      "urn:x:mo:1.0".toList [] [] = .error .outOfRange := rfl
  refine ⟨hthrow,?_⟩
  rintro ⟨registered,t',hreg,-,-⟩
  rw [hthrow] at hreg
  cases hreg

end Grandma.Loading
