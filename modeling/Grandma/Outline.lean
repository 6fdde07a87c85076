import Grandma.Serialisation

/-!
# Leaf flags after writes

What decides whether a written value is serialised is which nodes there are and
which of them are marked as leaves. No write changes a mark: a node keeps the
one it was created with, by the parser or by the first write that passed it,
whatever is written below it later.
-/

set_option autoImplicit false

namespace Grandma.Outline
open BaseCached CachedMap Helper LabelTree Serialisation

def setVals : List Write → StaticData → StaticData
  | [], mo => mo
  | w::ws, mo => setVals ws (mo.setVal w.fresh w.path w.data).2

theorem setVals_writes (ws : List Write) (mo : StaticData) : setVals ws mo = writeAll ws mo := by
  induction ws generalizing mo with
  | nil => rfl
  | cons w ws ih => exact ih _

abbrev Flags := List Str → Option Bool

def flags (mo : BaseCached) : Flags :=
  fun us => (mo.root.descend us).map (fun c => c.val.isLeaf)

/-- The flags after writes: those of the nodes that were there, and for every
other node on a written path what the first write along it has left in it. -/
def flagsAfter (ws : List Write) (m : Flags) : Flags := fun us =>
  (m us).or ((ws.find? (fun w => us <+: vectorizePath w.path)).map
    (fun w => w.fresh (us.length-1)))

theorem write_flags (w : Write) (mo : BaseCached) :
    flags (mo.localSetNode w.fresh w.path w.data true) = flagsAfter [w] (flags mo) := by
  funext us
  have hflags := descend_write (Cell.setData w.data) Cell.isLeaf (fun _ => rfl)
    (vectorizePath w.path) (blank w.fresh) mo.root _ (set_root w.fresh mo w.path w.data) us
  rw [flags, hflags, flagsAfter]
  by_cases h : us <+: vectorizePath w.path
  · simp [h, flags, blank]
  · simp [h, flags]

theorem writes_flags (ws : List Write) (mo : BaseCached) :
    flags (writeAll ws mo) = flagsAfter ws (flags mo) := by
  induction ws generalizing mo with
  | nil =>
    funext us
    simp [writeAll, flagsAfter]
  | cons w ws ih =>
    rw [writeAll, ih, write_flags]
    funext us
    by_cases h : us <+: vectorizePath w.path
    · simp [flagsAfter, h]
    · simp [flagsAfter, h]

theorem writes_distinct (ws : List Write) (mo : BaseCached) (hd : Distinct mo.root.children) :
    Distinct (writeAll ws mo).root.children := by
  induction ws generalizing mo with
  | nil => exact hd
  | cons w ws ih =>
    have hroot := set_root w.fresh mo w.path w.data
    have hnamed := write_wellNamed _ true _ _ (fun _ _ => trivial) _ _ _
      (distinct_wellNamed mo.root hd) hroot
    apply ih
    exact wellNamed_distinct _ _ hnamed

theorem writes_label (ws : List Write) (mo : BaseCached) :
    (writeAll ws mo).root.label = mo.root.label := by
  induction ws generalizing mo with
  | nil => rfl
  | cons w ws ih =>
    rw [writeAll, ih]
    exact write_label _ _ _ _ _ _ (set_root w.fresh mo w.path w.data)

def lastWritten (ws : List Write) (p : Str) : Option Str :=
  (ws.reverse.find? (fun w => vectorizePath w.path = vectorizePath p)).map Write.data

theorem get_last (ws : List Write) (mo : BaseCached) (p : Str) :
    (writeAll ws mo).localGetNode p = (lastWritten ws p).getD (mo.localGetNode p) := by
  rw [get_contents, get_contents, writes_contents, updates_last, ← List.map_reverse,
    List.find?_map, Option.map_map]
  rfl

theorem last_data (ws : List Write) (mo : BaseCached) (p v : Str)
    (hv : lastWritten ws p = some v) (m : BaseCached.Node)
    (hm : (writeAll ws mo).root.descend (vectorizePath p) = some m) : m.val.data = v := by
  have hget := get_last ws mo p
  rw [localGetNode, hm] at hget
  rw [hv, Option.getD_some] at hget
  exact hget

def Kept (m : Flags) (p : Str) : Prop :=
  vectorizePath p ≠ [] ∧ m (vectorizePath p) = some true ∧
    ∀ us, us ≠ [] → us <+: vectorizePath p → us ≠ vectorizePath p → m us = some false

def Ends (m : Flags) (p : Str) : Prop :=
  (m (vectorizePath p)).isSome ∧ ∀ u, m (vectorizePath p++[u]) = none

def Childless (mo : BaseCached) (p : Str) : Prop :=
  ∃ m, mo.root.descend (vectorizePath p) = some m ∧ m.children = []

theorem childless_ends (mo : BaseCached) (p : Str) : Childless mo p ↔ Ends (flags mo) p := by
  rw [Childless, Ends]
  cases hm : mo.root.descend (vectorizePath p) with
  | none => simp [flags, hm]
  | some m =>
    have hnone := childless_iff mo.root m (vectorizePath p) hm
    simp [flags, hm, hnone]

theorem written_kept (ws : List Write) (mo : BaseCached) (hd : Distinct mo.root.children)
    (p v : Str) (hv : lastWritten ws p = some v) :
    (writeAll ws mo).serializeJson.entryAt (mo.root.label::vectorizePath p) =
      some (.string v) ↔ Kept (flagsAfter ws (flags mo)) p := by
  rw [← writes_label ws mo, serialized_string _ (writes_distinct ws mo hd), ← writes_flags]
  constructor
  · rintro ⟨m,hm,hleaf,-⟩
    obtain ⟨hne,hdescend,hinner⟩ := (reach_descend Cell.isLeaf _ _ m).mp hm
    refine ⟨hne,?_,hinner⟩
    simp [flags, hdescend, hleaf]
  · rintro ⟨hne,hleaf,hinner⟩
    obtain ⟨m,hm,hleaf⟩ := Option.map_eq_some_iff.mp hleaf
    have hreach := (reach_descend Cell.isLeaf (writeAll ws mo).root _ m).mpr ⟨hne,hm,hinner⟩
    exact ⟨m,hreach,hleaf,last_data ws mo p v hv m hm⟩

/-- Whatever has been written, every written path that has no node below it is
serialised with its last value exactly when the nodes that the parser and the
writes have created are marked as leaves where such a path ends and only there. -/
theorem written_serialised_iff (fs : FileSystem) (moName file : Str)
    (ha : NamedApart (declared (fs file))) (ws : List Write) :
    let s := setVals ws (StaticData.new fs moName file)
    let m := flagsAfter ws (flags (StaticData.new fs moName file))
    (∀ p v, p ≠ [] → lastWritten ws p = some v → Childless s p →
      s.serializeJson.entryAt (moName::vectorizePath p) = some (.string v)) ↔
    ∀ p, p ≠ [] → (lastWritten ws p).isSome → Ends m p → Kept m p := by
  intro s m
  have hs : s = writeAll ws (StaticData.new fs moName file) := setVals_writes ws _
  have hends : ∀ p, Childless s p ↔ Ends m p := by
    intro p
    rw [childless_ends, hs, writes_flags]
  have hlabel : (StaticData.new fs moName file).root.label = moName := rfl
  have hd : Distinct (StaticData.new fs moName file).root.children := by
    rw [StaticData.new, children_node, parsed_children]
    exact apart_distinct _ ha
  have hkept := written_kept ws (StaticData.new fs moName file) hd
  rw [hlabel, ← hs] at hkept
  constructor
  · intro h p hp hv hm
    obtain ⟨v,hv⟩ := Option.isSome_iff_exists.mp hv
    exact (hkept p v hv).mp (h p v hp hv ((hends p).mpr hm))
  · intro h p v hp hv hc
    have hm := h p hp (by simp [hv]) ((hends p).mp hc)
    exact (hkept p v hv).mpr hm

theorem sample_apart : NamedApart (declared (sampleFile [])) := by
  have hleaf : NamedApart
      [.mk "NodeName".toList (some "Ext".toList) [],
        .mk "Node".toList none [.mk "NodeName".toList (some "Mod".toList) []]] := by
    apply NamedApart.mk
    · decide
    · intro e he hinner
      rw [List.mem_singleton.mp he] at hinner
      cases hinner
  apply NamedApart.mk
  · decide
  · intro e he hinner
    rcases List.mem_cons.mp he with rfl | he
    · cases hinner
    rcases List.mem_cons.mp he with rfl | he
    · exact .mk _ (by decide) (fun e he => by cases he)
    · rw [List.mem_singleton.mp he]
      exact hleaf

def setOnce (fresh : Bool) (path : Str) : StaticData :=
  setVals [⟨fun _ => fresh,path,"x".toList⟩] (StaticData.new sampleFile "Dev".toList [])

theorem written_serialised_sample :
    let s := setVals [⟨fun _ => false,"Ext/Mod".toList,"x".toList⟩]
      (StaticData.new sampleFile "Dev".toList [])
    ∀ p v, p ≠ [] → lastWritten [⟨fun _ => false,"Ext/Mod".toList,"x".toList⟩] p = some v →
      Childless s p → s.serializeJson.entryAt ("Dev".toList::vectorizePath p) =
        some (.string v) := by
  apply (written_serialised_iff sampleFile "Dev".toList [] sample_apart
    [⟨fun _ => false,"Ext/Mod".toList,"x".toList⟩]).mpr
  intro p _ hv _
  have hpath : vectorizePath "Ext/Mod".toList = vectorizePath p := by
    simpa [lastWritten] using hv
  have hsegments : vectorizePath "Ext/Mod".toList = ["Ext".toList,"Mod".toList] := by decide
  rw [Kept, ← hpath, hsegments]
  refine ⟨by simp,rfl,?_⟩
  intro us hne hpre hother
  have hus : us ∈ ["Ext".toList,"Mod".toList].inits := (List.mem_inits us _).mpr hpre
  simp only [List.inits, List.map_cons, List.map_nil, List.mem_cons, List.not_mem_nil,
    or_false] at hus
  rcases hus with rfl | rfl | rfl
  · exact absurd rfl hne
  · rfl
  · exact absurd rfl hother

/-- A new node that does not start as a leaf is serialised as null, and below
one that does nothing is serialised. -/
theorem new_nodes_lost :
    NamedApart (declared (sampleFile [])) ∧
    Childless (setOnce false "New".toList) "New".toList ∧
    (setOnce false "New".toList).serializeJson.entryAt ["Dev".toList,"New".toList] =
      some .null ∧
    Childless (setOnce true "New/Sub".toList) "New/Sub".toList ∧
    (setOnce true "New/Sub".toList).serializeJson.entryAt
      ["Dev".toList,"New".toList,"Sub".toList] = none := by
  have hnested : (setOnce true "New/Sub".toList).root.children =
      [.node "Id".toList ⟨true,"0".toList⟩ [],.node "*".toList ⟨false,[]⟩ [],
        .node "Ext".toList ⟨false,[]⟩ [.node "Mod".toList ⟨true,[]⟩ []],
        .node "New".toList ⟨true,[]⟩ [.node "Sub".toList ⟨true,"x".toList⟩ []]] := rfl
  have hentry := json_entry (setOnce true "New/Sub".toList) ["New".toList,"Sub".toList]
  rw [hnested] at hentry
  exact ⟨sample_apart,⟨.node "New".toList ⟨false,"x".toList⟩ [],rfl,rfl⟩,rfl,
    ⟨.node "Sub".toList ⟨true,"x".toList⟩ [],rfl,rfl⟩,hentry.trans rfl⟩

end Grandma.Outline
