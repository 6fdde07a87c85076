import Grandma.Serialisation
import Grandma.Siblings

/-!
# Independent writes

The setter appends the nodes that it creates, so the order of writes shows in
the order of siblings. Neither reader can see it: the getter goes by the first
sibling of a name and the serialiser by the last, and siblings of one name keep
their order.
-/

set_option autoImplicit false

namespace Grandma.Commuting
open BaseCached CachedMap Helper LabelTree

theorem lookup_last (cs : List BaseCached.Node) (u : Str) :
    OrderedMap.lookup u (serializeInto [] cs) = ((named u cs).map serializeNode).getLast? := by
  have hlast : lastChild (fun c => (some (serializeNode c)).isSome) cs u =
      (named u cs).getLast? := by
    rw [named, List.getLast?_filter, lastChild]
    simp
  rw [Serialisation.into_collect, collect_children, hlast, List.getLast?_map, Option.map_eq_bind]
  rfl

theorem into_sorted (cs : List BaseCached.Node) : OrderedMap.Sorted (serializeInto [] cs) := by
  rw [Serialisation.into_collect]
  exact OrderedMap.collect_sorted label _ cs [] List.Pairwise.nil

theorem into_named (cs ds : List BaseCached.Node)
    (h : ∀ u, (named u cs).map serializeNode = (named u ds).map serializeNode) :
    serializeInto [] cs = serializeInto [] ds := by
  apply OrderedMap.entries_ext _ _ (into_sorted cs) (into_sorted ds)
  intro u
  rw [lookup_last, lookup_last, h]

theorem named_serialized (cs ds : List BaseCached.Node) (hbelow : List.Forall₂ Alike cs ds)
    (h : ∀ c ∈ cs, ∀ d, Alike c d → serializeNode c = serializeNode d) :
    cs.map serializeNode = ds.map serializeNode := by
  induction hbelow with
  | nil => rfl
  | cons hcd _ ih =>
    rw [List.map_cons, List.map_cons, h _ List.mem_cons_self _ hcd,
      ih (fun c hc => h c (List.mem_cons_of_mem _ hc))]

theorem alike_serialized (t s : BaseCached.Node) (h : Alike t s) :
    serializeNode t = serializeNode s := by
  induction t using LabelTree.by_children generalizing s with
  | node uri cell cs ih =>
    cases h with
    | node _ _ _ ds below =>
      have hinto : serializeInto [] cs = serializeInto [] ds := by
        apply into_named
        intro u
        apply named_serialized _ _ (below u)
        intro c hc
        exact ih c (List.mem_of_mem_filter hc)
      rw [serializeNode, serializeNode, hinto]

theorem alike_json (mo mo' : BaseCached) (h : Alike mo.root mo'.root) :
    mo.serializeJson = mo'.serializeJson := by
  obtain ⟨hlabel,-,hbelow⟩ := (alike_iff mo.root mo'.root).mp h
  have hinto : serializeInto [] mo.root.children = serializeInto [] mo'.root.children := by
    apply into_named
    intro u
    exact named_serialized _ _ (hbelow u) (fun c _ d hcd => alike_serialized c d hcd)
  rw [serializeJson, serializeJson, serializeChildren, serializeChildren, hlabel, hinto]

/-- Writes to two paths commute for both readers, whatever the tree looks like
and whichever nodes the writes have to create; a node created at depth `n` has
the leaf flag `fresh n` in either order. -/
theorem writes_commute (fresh : ℕ → Bool) (mo : BaseCached) (p q d e : Str)
    (hne : vectorizePath p ≠ vectorizePath q) :
    (∀ r, ((mo.localSetNode fresh p d true).localSetNode fresh q e true).localGetNode r =
      ((mo.localSetNode fresh q e true).localSetNode fresh p d true).localGetNode r) ∧
    ((mo.localSetNode fresh p d true).localSetNode fresh q e true).serializeJson =
      ((mo.localSetNode fresh q e true).localSetNode fresh p d true).serializeJson := by
  constructor
  · intro r
    rw [get_contents, get_contents, set_contents, set_contents, set_contents, set_contents,
      Function.update_comm hne]
  · apply alike_json
    exact writes_alike (Cell.setData d) (Cell.setData e) _ _ hne (blank fresh) mo.root _ _ _ _
      (set_root fresh mo p d) (set_root fresh _ q e) (set_root fresh mo q e) (set_root fresh _ p d)

theorem writes_commute_sample :
    let mo := BaseCached.new sampleFile []
    let fresh : ℕ → Bool := fun n => n = 1
    (∀ r, ((mo.localSetNode fresh "New/b".toList "1".toList true).localSetNode fresh
        "New/a".toList "2".toList true).localGetNode r =
      ((mo.localSetNode fresh "New/a".toList "2".toList true).localSetNode fresh
        "New/b".toList "1".toList true).localGetNode r) ∧
    ((mo.localSetNode fresh "New/b".toList "1".toList true).localSetNode fresh
        "New/a".toList "2".toList true).serializeJson =
      ((mo.localSetNode fresh "New/a".toList "2".toList true).localSetNode fresh
        "New/b".toList "1".toList true).serializeJson :=
  writes_commute (fun n => n = 1) (BaseCached.new sampleFile []) "New/b".toList "New/a".toList
    "1".toList "2".toList (by decide)

end Grandma.Commuting
