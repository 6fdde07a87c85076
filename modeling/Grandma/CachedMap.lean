import Grandma.BaseCached

/-!
# The cached tree as a map

What the cached tree is for: a map from segment lists to data, empty where
there is no node. The setter is a point update of this map and the getter reads
it, whatever the shape of the tree and whatever nodes a write has to create.
-/

set_option autoImplicit false

namespace Grandma.CachedMap
open BaseCached Helper

abbrev Contents := List Str → Str

def contents (mo : BaseCached) : Contents := mo.root.readAt Cell.data []

theorem updates_last {κ β : Type*} [DecidableEq κ] (ws : List (κ × β)) (m : κ → β) (k : κ) :
    ws.foldl (fun m w => Function.update m w.1 w.2) m k =
      ((ws.reverse.find? (fun w => w.1 = k)).map Prod.snd).getD (m k) := by
  induction ws using List.reverseRecOn with
  | nil => rfl
  | append_singleton ws w ih =>
    rw [List.foldl_append, List.reverse_append]
    simp only [List.foldl_cons, List.foldl_nil, List.reverse_singleton, List.singleton_append]
    by_cases h : w.1 = k
    · subst h
      simp
    · rw [Function.update_of_ne (Ne.symm h), ih, List.find?_cons_of_neg (by simpa using h)]

theorem get_contents (mo : BaseCached) (q : Str) :
    mo.localGetNode q = contents mo (vectorizePath q) := by
  rw [localGetNode, contents, LabelTree.readAt]
  cases mo.root.descend (vectorizePath q) <;> rfl

theorem set_root (fresh : ℕ → Bool) (mo : BaseCached) (p d : Str) :
    mo.root.writeAt true (Cell.setData d) (blank fresh) (vectorizePath p) =
      some (mo.localSetNode fresh p d true).root := by
  obtain ⟨root,hroot⟩ := LabelTree.write_creates (Cell.setData d) (vectorizePath p)
    (blank fresh) mo.root
  rw [localSetNode, hroot]

theorem set_contents (fresh : ℕ → Bool) (mo : BaseCached) (p d : Str) :
    contents (mo.localSetNode fresh p d true) =
      Function.update (contents mo) (vectorizePath p) d := by
  have hread := LabelTree.read_write true (Cell.setData d) Cell.data [] d (fun _ => rfl)
    (vectorizePath p) (blank fresh) (fun _ => rfl) mo.root _ (set_root fresh mo p d)
  funext q
  rw [Function.update_apply]
  exact hread q

theorem set_existing (fresh : ℕ → Bool) (mo : BaseCached) (p d : Str) :
    mo.localSetNode fresh p d false =
      if (mo.root.descend (vectorizePath p)).isSome then mo.localSetNode fresh p d true
      else mo := by
  have hres := LabelTree.write_resolves (Cell.setData d) (vectorizePath p) (blank fresh) mo.root
  split_ifs with h
  · rw [h] at hres
    obtain ⟨root,hroot⟩ := Option.isSome_iff_exists.mp hres
    rw [localSetNode, localSetNode, hroot, LabelTree.write_existing _ _ _ _ _ hroot]
  · rw [Bool.not_eq_true] at h
    rw [h, Option.isSome_eq_false_iff, Option.isNone_iff_eq_none] at hres
    rw [localSetNode, hres]

structure Write where
  fresh : ℕ → Bool
  path : Str
  data : Str

def writeAll : List Write → BaseCached → BaseCached
  | [], mo => mo
  | w::ws, mo => writeAll ws (mo.localSetNode w.fresh w.path w.data true)

theorem writes_contents (ws : List Write) (mo : BaseCached) :
    contents (writeAll ws mo) = (ws.map (fun w => (vectorizePath w.path,w.data))).foldl
      (fun m w => Function.update m w.1 w.2) (contents mo) := by
  induction ws generalizing mo with
  | nil => rfl
  | cons w ws ih => rw [writeAll, ih, set_contents]; rfl

/-- The getter and the setter make the tree a map from segment lists to data. -/
theorem tree_is_map (fresh : ℕ → Bool) (mo : BaseCached) (p d : Str) (ws : List Write) :
    (∀ q, (mo.localSetNode fresh p d true).localGetNode q =
      if vectorizePath q = vectorizePath p then d else mo.localGetNode q) ∧
    mo.localSetNode fresh p d false =
      (if (mo.root.descend (vectorizePath p)).isSome then mo.localSetNode fresh p d true
        else mo) ∧
    (∀ q, (writeAll ws mo).localGetNode q =
      ((ws.reverse.find? (fun w => vectorizePath w.path = vectorizePath q)).map Write.data).getD
        (mo.localGetNode q)) := by
  constructor
  · intro q
    rw [get_contents, get_contents, set_contents, Function.update_apply]
  constructor
  · exact set_existing fresh mo p d
  · intro q
    rw [get_contents, get_contents, writes_contents, updates_last, ← List.map_reverse,
      List.find?_map, Option.map_map]
    rfl

end Grandma.CachedMap
