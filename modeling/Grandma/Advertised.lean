import Grandma.Registry
import Grandma.Report

/-!
# What the first package lists and what the dump contains

The structure list and the content dump are matched by position only. Both are
images of one list of instances, in which a type without instances does not
show up.
-/

set_option autoImplicit false

namespace Grandma.Advertised
open MOHandler Registry Report

variable {M W : Type}

abbrev Listed (M : Type) := (Str × MOHandler M) × (Str × M)

def listed (t : MOTree M) : List (Listed M) :=
  t.MOs.entries.flatMap (fun MO => MO.2.instances.entries.map (fun mi => (MO,mi)))

theorem mem_listed (t : MOTree M) (p : Listed M) :
    p ∈ listed t ↔ t.MOs.find p.1.1 = some p.1.2 ∧ p.1.2.instances.find p.2.1 = some p.2.2 := by
  rw [← OrderedMap.mem_entries, ← OrderedMap.mem_entries, listed, List.mem_flatMap]
  constructor
  · rintro ⟨MO,hMO,hp⟩
    obtain ⟨mi,hmi,rfl⟩ := List.mem_map.mp hp
    exact ⟨hMO,hmi⟩
  · intro h
    exact ⟨p.1,h.1,List.mem_map.mpr ⟨p.2,h.2,rfl⟩⟩

def advertised (p1 : Json) : List (Json × Json) :=
  p1.elements.flatMap (fun entry => (entry.field "MIID".toList).elements.map
    (fun miid => (entry.field "MOID".toList,miid)))

theorem entry_moid (h : MOHandler M) : h.p1MOSJson.field "MOID".toList = .string h.urn := by
  rw [p1MOSJson, Json.field_ofMembers, Json.pushAt_other _ _ (by decide),
    OrderedMap.lookup_assign, if_pos rfl]
  rfl

theorem entry_miids (h : MOHandler M) : (h.p1MOSJson.field "MIID".toList).elements =
    h.instances.entries.map (fun mi => .string mi.1) := by
  have hbefore : ∀ es : List (Str × Json), OrderedMap.lookup "MIID".toList es = none →
      OrderedMap.lookup "MIID".toList (OrderedMap.assign "MOID".toList (.string h.urn) es) =
        none := by
    intro es hes
    rw [OrderedMap.lookup_assign, if_neg (by decide), hes]
  rw [p1MOSJson, Json.field_ofMembers, Json.pushAt_all, if_pos rfl, hbefore]
  · rfl
  · by_cases hurl : h.ddfUrl = []
    · rw [if_pos hurl]
      rfl
    · rw [if_neg hurl]
      rfl

def Keyed (t : MOTree M) : Prop := ∀ urn h, t.MOs.find urn = some h → h.urn = urn

theorem keyed_put (t : MOTree M) (urn : Str) (h : MOHandler M) (hk : Keyed t) (hu : h.urn = urn) :
    Keyed (put t urn h) := by
  intro u g hg
  rcases found_put t urn h u g hg with ⟨rfl,rfl⟩ | ⟨-,hold⟩
  · exact hu
  · exact hk u g hold

theorem effect_keyed (I : Interface M W) (t t' : MOTree M) (c : Call M W) (r : Bool)
    (hk : Keyed t) (h : Effect I t c r t') : Keyed t' := by
  cases h with
  | again | unreadable | unknown => exact hk
  | register rootLeaf fs urn filename url handler fresh loaded =>
    exact keyed_put t urn handler hk (generate_urn _ _ _ _ loaded).1
  | refuse w urn mo miid handler next known => exact keyed_put t urn _ hk (hk urn handler known)
  | add w urn mo miid chosen handler next known => exact keyed_put t urn _ hk (hk urn handler known)

theorem run_keyed (I : Interface M W) (cs : List (Call M W)) (t : MOTree M) (rs : List Bool)
    (h : callAll I cs .empty = .ok (rs,t)) : Keyed t := by
  apply run_preserves I Keyed _ cs .empty t rs _ h
  · intro s c r s' hs he
    exact effect_keyed I s s' c r hs he
  · intro urn handler hfind
    cases hfind

theorem p1_advertised (t : MOTree M) (hk : Keyed t) :
    advertised t.p1MOSJson = (listed t).map (fun p => (.string p.1.1,.string p.2.1)) := by
  rw [advertised, MOTree.p1MOSJson, Json.elements_ofElems, List.flatMap_map, listed,
    List.map_flatMap]
  apply List.flatMap_congr
  intro MO hMO
  rw [entry_moid, entry_miids, hk MO.1 MO.2 ((OrderedMap.mem_entries _ _ _).mp hMO)]
  simp only [List.map_map, Function.comp_def]

theorem dump_listed (I : Interface M W) (t : MOTree M) (w : W) :
    (t.dumpSerializedMOS I w).1.elements =
      (Traversal.traverse (fun p : Listed M => p.1.2.serializeMI I p.2.2) (listed t) w).1 := by
  have hnested := Traversal.traverse_nested (fun MO : Str × MOHandler M => MO.2.instances.entries)
    (fun MO mi => MO.2.serializeMI I mi.2) t.MOs.entries w
  have hmis : ∀ MO : Str × MOHandler M, MO.2.serializeMIs I = fun w =>
      (Json.ofElems (Traversal.traverse (fun mi => MO.2.serializeMI I mi.2)
          MO.2.instances.entries w).1,
        (Traversal.traverse (fun mi => MO.2.serializeMI I mi.2) MO.2.instances.entries w).2) :=
    fun MO => rfl
  rw [listed, ← hnested, MOTree.dumpSerializedMOS]
  show List.flatMap Json.elements _ = _
  simp only [hmis, Traversal.traverse_values, List.flatMap_map, Json.elements_ofElems,
    List.flatMap_id']

theorem dump_still (I : Interface M W) (value : M → Str → Option Str) (w : W)
    (hI : ∀ mo, AnswersAt I mo (value mo) w) (t : MOTree M) :
    (t.dumpSerializedMOS I w).1 =
      .array ((listed t).map (fun p => instanceReport p.1.2 (value p.2.2))) := by
  have harray : (t.dumpSerializedMOS I w).1 = .array (t.dumpSerializedMOS I w).1.elements := rfl
  rw [harray, dump_listed, Traversal.traverse_still _
    (fun p : Listed M => instanceReport p.1.2 (value p.2.2))]
  intro p _
  exact instance_report_at I p.1.2 p.2.2 _ w (hI p.2.2)

def stateBefore (I : Interface M W) (t : MOTree M) (w : W) (i : ℕ) : W :=
  Traversal.stateAt (fun p : Listed M => p.1.2.serializeMI I p.2.2) (listed t) w i

/-- The dump has one element for every advertised pair, and its `i`-th element
is the serialisation of the instance that the `i`-th pair names. -/
theorem dump_follows_p1 (I : Interface M W) (cs : List (Call M W)) (t : MOTree M)
    (rs : List Bool) (h : callAll I cs .empty = .ok (rs,t)) (w : W) :
    (t.dumpSerializedMOS I w).1.elements.length = (advertised t.p1MOSJson).length ∧
    ∀ (i : ℕ) (moid miid : Json), (advertised t.p1MOSJson)[i]? = some (moid,miid) →
      ∃ (urn m : Str) (handler : MOHandler M) (mo : M), moid = .string urn ∧ miid = .string m ∧
        t.MOs.find urn = some handler ∧ handler.instances.find m = some mo ∧
        (t.dumpSerializedMOS I w).1.elements[i]? = some (serializationObject handler.root.label
          (serializeChildren I mo handler.root.children [] (stateBefore I t w i)).1) := by
  have hk := run_keyed I cs t rs h
  rw [p1_advertised t hk, dump_listed]
  constructor
  · rw [Traversal.traverse_length, List.length_map]
  · intro i moid miid hi
    rw [List.getElem?_map] at hi
    obtain ⟨p,hp,hpair⟩ := Option.map_eq_some_iff.mp hi
    cases hpair
    have hmem := (mem_listed t p).mp (List.mem_of_getElem? hp)
    have hget := Traversal.traverse_get (fun p : Listed M => p.1.2.serializeMI I p.2.2) (listed t) w i
    rw [hp, Option.map_some] at hget
    exact ⟨p.1.1,p.2.1,p.1.2,p.2.2,rfl,rfl,hmem.1,hmem.2,hget⟩

def sampleCalls : List (Call Unit Unit) :=
  [.registerDDF true sampleFile "u".toList [] [],.addMO () "u".toList () "2".toList,
    .addMO () "u".toList () []]

theorem dump_follows_p1_sample :
    ((sampleMOTree 2 ["1".toList,"2".toList]).dumpSerializedMOS noObjects ()).1.elements.length =
      (advertised (sampleMOTree 2 ["1".toList,"2".toList]).p1MOSJson).length ∧
    ∃ (urn m : Str) (handler : MOHandler Unit) (mo : Unit),
      Json.string "u".toList = .string urn ∧ Json.string "2".toList = .string m ∧
      (sampleMOTree 2 ["1".toList,"2".toList]).MOs.find urn = some handler ∧
      handler.instances.find m = some mo ∧
      ((sampleMOTree 2 ["1".toList,"2".toList]).dumpSerializedMOS noObjects ()).1.elements[1]? =
        some (serializationObject handler.root.label
          (serializeChildren noObjects mo handler.root.children [] ()).1) :=
  have h := dump_follows_p1 noObjects sampleCalls (sampleMOTree 2 ["1".toList,"2".toList])
    [true,true,true] rfl ()
  ⟨h.1,h.2 1 (.string "u".toList) (.string "2".toList) rfl⟩

end Grandma.Advertised
