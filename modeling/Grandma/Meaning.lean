import Grandma.Agreement
import Grandma.Positions

/-!
# What the handler's serialisation means

The serialiser writes siblings into one object, so of several with one label
the last that has anything to report decides. Where labels differ the result is
a faithful picture: the reported leaves at their paths, an object wherever one
of them lies below, and nothing else.
-/

set_option autoImplicit false

namespace Grandma.Meaning
open LabelTree MOHandler Report Helper

variable {M W : Type}

theorem into_collect (value : Str → Option Str) (uriPrefix : Str) (cs : List Node)
    (members : List (Str × Json)) : reportInto value uriPrefix members cs =
      OrderedMap.collect label (fun c => (nodeReport value uriPrefix c).present) members cs := by
  induction cs generalizing members with
  | nil => rfl
  | cons c cs ih =>
    rw [reportInto, OrderedMap.collect, Json.present, ih]
    cases (nodeReport value uriPrefix c).isNull <;> rfl

def reports (value : Str → Option Str) (uriPrefix : Str) (c : Node) : Bool :=
  !(nodeReport value uriPrefix c).isNull

theorem lookup_report (value : Str → Option Str) (uriPrefix : Str) (cs : List Node) (u : Str) :
    OrderedMap.lookup u (reportInto value uriPrefix [] cs) =
      (lastChild (reports value uriPrefix) cs u).map (nodeReport value uriPrefix) := by
  have hpresent : (fun c => (nodeReport value uriPrefix c).present.isSome) =
      reports value uriPrefix := by
    funext c
    rw [Json.present, reports]
    cases (nodeReport value uriPrefix c).isNull <;> rfl
  rw [into_collect, collect_children, hpresent]
  cases hlast : lastChild (reports value uriPrefix) cs u with
  | none => rfl
  | some c =>
    have hnull : (nodeReport value uriPrefix c).isNull = false := by
      simpa [reports] using (last_child _ cs u c hlast).2.2
    simp [Json.present, hnull]

/-- A selection of siblings that agrees with the serialiser on those that have
something to report. -/
structure Agrees (value : Str → Option Str) (sel : List Node → Str → Option Node)
    (ok : List Node → Prop) : Prop where
  below : ∀ cs, ok cs → ∀ c ∈ cs, ok c.children
  member : ∀ cs u c, sel cs u = some c → c ∈ cs ∧ c.label = u
  last : ∀ uriPrefix cs u, ok cs → lastChild (reports value uriPrefix) cs u =
    (sel cs u).filter (reports value uriPrefix)

theorem reports_entry (value : Str → Option Str) (uriPrefix : Str) (c : Node) (v : Str)
    (us : List Str) : ((Option.filter (reports value uriPrefix) (some c)).map
        (nodeReport value uriPrefix)).bind (fun j => j.entryAt (v::us)) =
      (nodeReport value uriPrefix c).entryAt (v::us) := by
  rw [Option.filter_some, reports]
  cases hreport : nodeReport value uriPrefix c <;> simp [Json.isNull, hreport, Json.entryAt]

/-- The entry at a path is the report of the node that the path selects. -/
theorem report_entry (value : Str → Option Str) (sel : List Node → Str → Option Node)
    (ok : List Node → Prop) (ha : Agrees value sel ok) (us : List Str) (hus : us ≠ [])
    (cs : List Node) (hcs : ok cs) (uriPrefix : Str) :
    (Json.ofMembers (reportInto value uriPrefix [] cs)).entryAt us =
      (reach sel id cs us).bind
        (fun n => (nodeReport value (uriPrefix++absolute us.dropLast) n).present) := by
  induction us generalizing cs uriPrefix with
  | nil => exact absurd rfl hus
  | cons u us ih =>
    rw [Json.entryAt_ofMembers, lookup_report, ha.last uriPrefix cs u hcs]
    cases us with
    | nil =>
      rw [reach]
      cases sel cs u with
      | none => rfl
      | some c => cases hnull : (nodeReport value uriPrefix c).isNull <;>
          simp [Option.filter_some, reports, hnull, absolute, Json.present]
    | cons v us =>
      rw [reach]
      cases hsel : sel cs u with
      | none => rfl
      | some c =>
        obtain ⟨hmem,hlabel⟩ := ha.member cs u c hsel
        have ih := ih (by simp) c.children (ha.below cs hcs c hmem) (uriPrefix ++ '/' :: u)
        rw [absolute_down] at ih
        rw [reports_entry, Option.bind_some]
        cases c with
        | node uri isLeaf children =>
          cases isLeaf with
          | true =>
            rw [nodeReport]
            cases value (uriPrefix ++ '/' :: uri) <;> rfl
          | false =>
            have huri : uri = u := hlabel
            rw [huri] at hlabel ⊢
            exact ih

theorem leaf_path (uriPrefix : Str) (us : List Str) (u : Str) (h : us = us.dropLast++[u]) :
    (uriPrefix++absolute us.dropLast) ++ '/' :: u = uriPrefix++absolute us := by
  rw [List.append_assoc, List.append_cancel_left_eq]
  nth_rewrite 2 [h]
  simp [absolute]

theorem leaf_entry (value : Str → Option Str) (sel : List Node → Str → Option Node)
    (ok : List Node → Prop) (ha : Agrees value sel ok) (us : List Str) (cs : List Node)
    (hcs : ok cs) (uriPrefix : Str) (m : Node) (hm : reach sel id cs us = some m)
    (hleaf : m.val = true) :
    (Json.ofMembers (reportInto value uriPrefix [] cs)).entryAt us =
      (value (uriPrefix++absolute us)).map Json.string := by
  have hlabel := reach_label sel id (fun cs k c hc => (ha.member cs k c hc).2) cs us m hm
  rw [report_entry value sel ok ha us (reach_ne_nil _ _ _ _ _ hm) cs hcs, hm, Option.bind_some,
    ← leaf_path uriPrefix us m.label hlabel]
  cases m with
  | node u leaf kids =>
    have hl : leaf = true := hleaf
    rw [nodeReport, hl, if_pos rfl, label_node]
    cases value ((uriPrefix++absolute us.dropLast) ++ '/' :: u) <;> rfl

theorem inner_entry (value : Str → Option Str) (sel : List Node → Str → Option Node)
    (ok : List Node → Prop) (ha : Agrees value sel ok) (us : List Str) (cs : List Node)
    (hcs : ok cs) (uriPrefix : Str) (m : Node) (hm : reach sel id cs us = some m)
    (hinner : m.val = false) :
    (Json.ofMembers (reportInto value uriPrefix [] cs)).entryAt us =
      (Json.ofMembers (reportInto value (uriPrefix++absolute us) [] m.children)).present := by
  have hlabel := reach_label sel id (fun cs k c hc => (ha.member cs k c hc).2) cs us m hm
  rw [report_entry value sel ok ha us (reach_ne_nil _ _ _ _ _ hm) cs hcs, hm, Option.bind_some,
    ← leaf_path uriPrefix us m.label hlabel]
  cases m with
  | node u leaf kids =>
    have hl : leaf = false := hinner
    rw [nodeReport, hl]
    rfl

theorem reached_ok (value : Str → Option Str) (sel : List Node → Str → Option Node)
    (ok : List Node → Prop) (ha : Agrees value sel ok) (us : List Str) (cs : List Node)
    (hcs : ok cs) (m : Node) (hm : reach sel id cs us = some m) : ok m.children := by
  induction us generalizing cs with
  | nil => cases hm
  | cons u us ih =>
    cases us with
    | nil => exact ha.below cs hcs m (ha.member cs u m hm).1
    | cons v us =>
      obtain ⟨c,hc,hm⟩ := Option.bind_eq_some_iff.mp hm
      split at hm
      · cases hm
      · exact ih c.children (ha.below cs hcs c (ha.member cs u c hc).1) hm

theorem distinct_agrees (value : Str → Option Str) : Agrees value firstChild Distinct where
  below := fun cs hd c hc => distinct_below cs hd c hc
  member := fun cs u c hc => ⟨child_mem u cs c hc,child_label u cs c hc⟩
  last := fun uriPrefix cs u hd => last_distinct (reports value uriPrefix) cs hd.1 u

theorem into_silent (value : Str → Option Str) (uriPrefix : Str) (cs : List Node)
    (members : List (Str × Json)) (h : ∀ c ∈ cs, (nodeReport value uriPrefix c).isNull = true) :
    reportInto value uriPrefix members cs = members := by
  induction cs with
  | nil => rfl
  | cons c cs ih =>
    rw [reportInto, if_pos (h c (by simp))]
    exact ih (fun d hd => h d (by simp [hd]))

def LeafReported (value : Str → Option Str) (uriPrefix : Str) (cs : List Node)
    (us : List Str) : Prop :=
  ∃ m, reach firstChild id cs us = some m ∧ m.val = true ∧
    (value (uriPrefix++absolute us)).isSome

/-- A node without reported leaves below it has no members. The induction is on
the node; a leaf among its children is reached in one step. -/
theorem silent_below (value : Str → Option Str) (t : Node) (hw : WellNamed (fun _ => True) t)
    (uriPrefix : Str) (h : ∀ us, ¬ LeafReported value uriPrefix t.children us) :
    reportInto value uriPrefix [] t.children = [] := by
  induction t using LabelTree.by_children generalizing uriPrefix with
  | node uri isLeaf children ih =>
    cases hw with
    | node _ _ _ distinct _ below =>
      apply into_silent
      intro c hc
      have hfirst : firstChild children c.label = some c := child_distinct children distinct c hc
      cases c with
      | node u leaf kids =>
        cases leaf with
        | true =>
          have hsingle : absolute [u] = '/' :: u := by simp [absolute]
          have hnone : value (uriPrefix ++ '/' :: u) = none := by
            by_contra hsome
            apply h [u]
            exact ⟨_,hfirst,rfl,by rwa [hsingle, Option.isSome_iff_ne_none]⟩
          simp [nodeReport, hnone, Json.isNull]
        | false =>
          have hkids : ∀ us, ¬ LeafReported value (uriPrefix ++ '/' :: u) kids us := by
            rintro us ⟨m,hm,hleaf,hv⟩
            have hus := reach_ne_nil _ _ _ _ _ hm
            rw [absolute_down] at hv
            apply h (u::us)
            exact ⟨m,(reach_down _ _ _ _ _ _ hfirst rfl hus).trans hm,hleaf,hv⟩
          have hempty := ih (.node u false kids) hc (below _ hc) (uriPrefix ++ '/' :: u) hkids
          simp only [children_node] at hempty
          simp [nodeReport, hempty]

theorem silent_iff (value : Str → Option Str) (uriPrefix : Str) (cs : List Node)
    (hd : Distinct cs) : reportInto value uriPrefix [] cs = [] ↔
      ∀ us, ¬ LeafReported value uriPrefix cs us := by
  constructor
  · rintro h us ⟨m,hm,hleaf,hv⟩
    have hus := reach_ne_nil _ _ _ _ _ hm
    obtain ⟨v,hv⟩ := Option.isSome_iff_exists.mp hv
    have hentry := leaf_entry value firstChild Distinct (distinct_agrees value) us cs hd uriPrefix
      m hm hleaf
    rw [h, hv] at hentry
    cases us with
    | nil => exact hus rfl
    | cons u us => cases hentry
  · intro h
    exact silent_below value (.node [] false cs)
      (.node _ _ _ hd.1 (fun _ _ => trivial) hd.2) uriPrefix h

def answered (get : Str → Str × Bool × Bool) (path : Str) : Option Str :=
  match get path with
  | (v,true,true) => some v
  | _ => none

theorem answered_answers (I : Interface M W) (mo : M) (get : Str → Str × Bool × Bool)
    (hget : ∀ path w, I.getVal mo path true true w = (get path,w)) :
    Answers I mo (answered get) := by
  intro path w
  have hvalue : answered get path =
      if (get path).2.1 && (get path).2.2 then some (get path).1 else none := by
    rw [answered]
    rcases get path with ⟨v,nodeExists,validData⟩
    cases nodeExists <;> cases validData <;> rfl
  exact ⟨(get path).1,(get path).2.1,(get path).2.2,hget path w,hvalue⟩

/-- Among siblings with different labels the serialisation holds every reported
leaf at its path, an object at every node above one of them, nothing else, and
it is null when there are none. -/
theorem serialisation_meaning (I : Interface M W) (mo : M) (get : Str → Str × Bool × Bool)
    (hget : ∀ path w, I.getVal mo path true true w = (get path,w)) (cs : List Node)
    (hd : Distinct cs) (uriPrefix : Str) (w : W) :
    let j := (serializeChildren I mo cs uriPrefix w).1
    (∀ us m, reach firstChild id cs us = some m → m.val = true →
      j.entryAt us = (answered get (uriPrefix++absolute us)).map Json.string) ∧
    (∀ us m, reach firstChild id cs us = some m → m.val = false →
      ((j.entryAt us).isSome ↔
        ∃ vs, LeafReported (answered get) (uriPrefix++absolute us) m.children vs) ∧
      ∀ i, j.entryAt us = some i → ∃ es, i = .object es) ∧
    (∀ us, us ≠ [] → (j.entryAt us).isSome → (reach firstChild id cs us).isSome) ∧
    (j = .null ↔ ∀ us, ¬ LeafReported (answered get) uriPrefix cs us) := by
  intro j
  have hj : j = .ofMembers (reportInto (answered get) uriPrefix [] cs) := by
    simp only [j, serializeChildren,
      into_report I mo (answered get) (answered_answers I mo get hget)]
  have hagree := distinct_agrees (answered get)
  constructor
  · intro us m hm hleaf
    rw [hj]
    exact leaf_entry _ _ _ hagree us cs hd uriPrefix m hm hleaf
  constructor
  · intro us m hm hinner
    have hbelow := reached_ok _ _ _ hagree us cs hd m hm
    have hsilent := silent_iff (answered get) (uriPrefix++absolute us) m.children hbelow
    rw [hj, inner_entry _ _ _ hagree us cs hd uriPrefix m hm hinner]
    constructor
    · rw [Json.present_ofMembers, Bool.not_eq_true', List.isEmpty_eq_false_iff, ne_eq, hsilent,
        not_forall_not]
    · intro i hi
      exact Json.present_object _ i hi
  constructor
  · intro us hus h
    rw [hj, report_entry _ _ _ hagree us hus cs hd] at h
    exact Option.isSome_of_isSome_bind h
  · rw [← silent_iff (answered get) uriPrefix cs hd, hj]
    cases reportInto (answered get) uriPrefix [] cs <;> simp [Json.ofMembers]

def sampleGet (path : Str) : Str × Bool × Bool :=
  if path = "/Ext/Mod".toList then ("x".toList,true,true) else ([],false,true)

def answering (get : Str → Str × Bool × Bool) : Interface Unit Unit :=
  { getVal := fun _ path _ _ w => (get path,w), checkDdfNameCompatibility := fun _ _ _ => true }

theorem serialisation_meaning_sample :
    (serializeChildren (answering sampleGet) () sampleTree.children [] ()).1.entryAt
        ["Ext".toList,"Mod".toList] =
      (answered sampleGet ([]++absolute ["Ext".toList,"Mod".toList])).map Json.string :=
  (serialisation_meaning (answering sampleGet) () sampleGet (fun _ _ => rfl) sampleTree.children
    (wellNamed_distinct _ _ Agreement.sample_named) [] ()).1 ["Ext".toList,"Mod".toList]
    (.node "Mod".toList true []) rfl rfl

end Grandma.Meaning
