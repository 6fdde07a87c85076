import Grandma.Advertised
import Grandma.DMClient
import Grandma.DumpContents

/-!
# An application with static stores

The application keeps its objects and gives the client pointers to them, the
same pointer perhaps under several miids. It writes to the objects whenever it
likes, between set-up calls and between sessions. The next dump shows what was
written last, under every miid that the object has.
-/

set_option autoImplicit false

namespace Grandma.Application
open Advertised BaseCached CachedMap DMClient DumpContents Helper Report

variable {M : Type}

abbrev Objects (M : Type) := M → StaticData

def stores : Interface M (Objects M) :=
  { getVal := fun mo path nodeExists validData objects =>
      ((objects mo).getVal path nodeExists validData,objects),
    checkDdfNameCompatibility := fun mo ddfname objects =>
      (objects mo).checkDdfNameCompatibility ddfname }

structure Device (M : Type) where
  client : DMClient M
  objects : Objects M

inductive Action (M : Type) where
  | localSetNode (fresh : ℕ → Bool) (mo : M) (nodePath data : Str) (addMissingNode : Bool)
  | registerDDF (rootLeaf : Bool) (fs : FileSystem) (urn filename ddfUrl : Str)
  | addMO (urn : Str) (mo : M) (miid : Str)
  | setP1DumpTree (enable : Bool)
  | startSession (serverInitiated : Bool) (post : Option HttpResponse) (net : ℕ → ℕ → Fetch)

def session (codec : Codec) (fuel : ℕ) (d : Device M) (serverInitiated : Bool)
    (post : Option HttpResponse) (net : ℕ → ℕ → Fetch) : SessionRun M :=
  DMClient.startSession stores codec fuel
    { serverInitiated := serverInitiated, objects := d.objects, post := post, net := net } d.client

def dumpedAt (p1 : Json) (i : ℕ) (root : Str) (us : List Str) : Option Json :=
  ((p1.field "MgmtTree".toList).elements[i]?).bind
    (fun j => j.entryAt ("MOData".toList::root::us))

theorem package_dump (codec : Codec) (fuel : ℕ) (d : Device M) (serverInitiated : Bool)
    (post : Option HttpResponse) (net : ℕ → ℕ → Fetch) (p1 : Json)
    (hdump : d.client.p1DumpTree = true)
    (hp1 : (session codec fuel d serverInitiated post net).p1 = some p1) :
    (p1.field "MgmtTree".toList).elements =
      (listed d.client.motree).map (fun p => instanceReport p.1.2 (stored (d.objects p.2.2))) := by
  have hanswers : ∀ mo, AnswersAt stores mo (stored (d.objects mo)) d.objects :=
    fun mo path => ⟨(d.objects mo).localGetNode path,true,true,rfl,rfl⟩
  rw [session_package stores codec fuel _ d.client p1 hp1, firstPackage, p1Json]
  simp only [hdump, if_true]
  rw [Json.field_ofMembers, OrderedMap.lookup_assign, if_pos rfl, Option.getD_some,
    dump_still stores _ d.objects hanswers]
  rfl

section Runs
variable [DecidableEq M]

/-- A call that throws leaves the client as it was, unless it is a session. -/
def act (codec : Codec) (fuel : ℕ) (d : Device M) : Action M → Device M
  | .localSetNode fresh mo nodePath data addMissingNode =>
    let s := (d.objects mo).localSetNode fresh nodePath data addMissingNode
    { d with objects := Function.update d.objects mo s }
  | .registerDDF rootLeaf fs urn filename ddfUrl =>
    match d.client.registerDDF rootLeaf fs urn filename ddfUrl with
    | .error _ => d
    | .ok client => { d with client := client }
  | .addMO urn mo miid =>
    match d.client.addMO stores d.objects urn mo miid with
    | .error _ => d
    | .ok client => { d with client := client }
  | .setP1DumpTree enable => { d with client := d.client.setP1DumpTree enable }
  | .startSession serverInitiated post net =>
    { d with client := (session codec fuel d serverInitiated post net).client }

def actAll (codec : Codec) (fuel : ℕ) : List (Action M) → Device M → Device M
  | [], d => d
  | a::as, d => actAll codec fuel as (act codec fuel d a)

def setBy (mo : M) (q : Str) : Action M → Option Str
  | .localSetNode _ target nodePath data _ =>
    if target = mo ∧ vectorizePath nodePath = vectorizePath q then some data else none
  | _ => none

def lastSet (mo : M) (q : Str) (as : List (Action M)) : Option Str :=
  as.reverse.findSome? (setBy mo q)

theorem set_resolves (fresh : ℕ → Bool) (s : StaticData) (p data q : Str) (add : Bool)
    (h : Resolves s q) : Resolves (s.localSetNode fresh p data add) q := by
  have hcreate : Resolves (s.localSetNode fresh p data true) q := by
    have hdescend := LabelTree.descend_write (Cell.setData data) (fun _ => ()) (fun _ => rfl)
      (vectorizePath p) (blank fresh) s.root _ (set_root fresh s p data) (vectorizePath q)
    have hsome := congrArg Option.isSome hdescend
    rw [Option.isSome_map, Option.isSome_or, Option.isSome_map, h, Bool.true_or] at hsome
    exact hsome
  cases add with
  | true => exact hcreate
  | false =>
    rw [set_existing]
    split_ifs
    · exact hcreate
    · exact h

theorem set_get (fresh : ℕ → Bool) (s : StaticData) (p data q : Str) (add : Bool)
    (h : Resolves s q) : (s.localSetNode fresh p data add).localGetNode q =
      if vectorizePath p = vectorizePath q then data else s.localGetNode q := by
  have hcreate : (s.localSetNode fresh p data true).localGetNode q =
      if vectorizePath p = vectorizePath q then data else s.localGetNode q := by
    rw [get_contents, get_contents, set_contents, Function.update_apply]
    simp only [eq_comm]
  cases add with
  | true => exact hcreate
  | false =>
    rw [set_existing]
    by_cases hp : (s.root.descend (vectorizePath p)).isSome
    · rw [if_pos hp, hcreate]
    · have hne : vectorizePath p ≠ vectorizePath q := by
        intro heq
        rw [heq] at hp
        exact hp h
      rw [if_neg hp, if_neg hne]

theorem act_object (codec : Codec) (fuel : ℕ) (d : Device M) (a : Action M) (mo : M) (q : Str)
    (h : Resolves (d.objects mo) q) :
    Resolves ((act codec fuel d a).objects mo) q ∧
      ((act codec fuel d a).objects mo).localGetNode q =
        (setBy mo q a).getD ((d.objects mo).localGetNode q) := by
  cases a with
  | localSetNode fresh target nodePath data add =>
    by_cases htarget : mo = target
    · subst htarget
      simp only [act, setBy, Function.update_self, true_and]
      constructor
      · exact set_resolves fresh _ nodePath data q add h
      · rw [set_get fresh _ nodePath data q add h]
        split_ifs <;> rfl
    · have hne : ¬ (target = mo ∧ vectorizePath nodePath = vectorizePath q) :=
        fun heq => htarget heq.1.symm
      simp only [act, setBy, Function.update_of_ne htarget, if_neg hne]
      exact ⟨h,rfl⟩
  | registerDDF rootLeaf fs urn filename ddfUrl =>
    rw [act]
    split <;> exact ⟨h,rfl⟩
  | addMO urn target miid =>
    rw [act]
    split <;> exact ⟨h,rfl⟩
  | setP1DumpTree enable => exact ⟨h,rfl⟩
  | startSession serverInitiated post net => exact ⟨h,rfl⟩

theorem run_object (codec : Codec) (fuel : ℕ) (as : List (Action M)) (d : Device M) (mo : M)
    (q : Str) (h : Resolves (d.objects mo) q) :
    ((actAll codec fuel as d).objects mo).localGetNode q =
      (lastSet mo q as).getD ((d.objects mo).localGetNode q) := by
  induction as generalizing d with
  | nil => rfl
  | cons a as ih =>
    obtain ⟨hres,hget⟩ := act_object codec fuel d a mo q h
    rw [actAll, ih _ hres, hget, lastSet, lastSet, List.reverse_cons, List.findSome?_append]
    cases as.reverse.findSome? (setBy mo q) with
    | none => cases hset : setBy mo q a <;> simp [hset]
    | some data => rfl

/-- After whatever the application has done, and whatever servers have answered
in its sessions, the dump has for every instance and every declared leaf what
was last written to this leaf of the object, through whichever path text and
under whichever miid, or else what the object had there. -/
theorem dump_last_set (codec : Codec) (fuel : ℕ) (as : List (Action M)) (d : Device M)
    (serverInitiated : Bool) (post : Option HttpResponse) (net : ℕ → ℕ → Fetch) (p1 : Json)
    (hdump : (actAll codec fuel as d).client.p1DumpTree = true)
    (hp1 : (session codec fuel (actAll codec fuel as d) serverInitiated post net).p1 = some p1)
    (i : ℕ) (p : Listed M) (hi : (listed (actAll codec fuel as d).client.motree)[i]? = some p)
    (us : List Str) (hres : Resolves (d.objects p.2.2) (absolute us)) (v : Str) :
    dumpedAt p1 i p.1.2.root.label us = some (.string v) ↔
      (∃ m, dumpedNode p.1.2 us = some m ∧ m.val = true) ∧
        (lastSet p.2.2 (absolute us) as).getD ((d.objects p.2.2).localGetNode (absolute us)) = v := by
  have hentry : dumpedAt p1 i p.1.2.root.label us =
      (report (stored ((actAll codec fuel as d).objects p.2.2)) p.1.2.root.children).entryAt us := by
    rw [dumpedAt, package_dump codec fuel _ serverInitiated post net p1 hdump hp1,
      List.getElem?_map, hi, Option.map_some, Option.bind_some]
    simp [instanceReport, serializationObject, Json.entryAt, OrderedMap.lookup]
  rw [hentry, stored_string, run_object codec fuel as d p.2.2 _ hres]

end Runs

def sampleActions : List (Action Unit) :=
  [.registerDDF true sampleFile "u".toList [] [],.addMO "u".toList () "1".toList,
    .localSetNode (fun _ => true) () "Ext/Mod".toList "x".toList false,.setP1DumpTree true,
    .startSession true none (fun _ _ _ => none),.addMO "u".toList () "2".toList,
    .localSetNode (fun _ => true) () "/Ext/Mod".toList "y".toList false]

def sampleDevice : Device Unit :=
  { client := DMClient.new false,
    objects := fun _ => StaticData.new sampleFile "Dev".toList [] }

theorem dump_last_set_sample :
    let d := actAll (Json.tableCodec []) 2 sampleActions sampleDevice
    ∃ p1, (session (Json.tableCodec []) 2 d false none (fun _ _ _ => none)).p1 = some p1 ∧
      dumpedAt p1 1 "Dev".toList ["Ext".toList,"Mod".toList] = some (.string "y".toList) :=
  ⟨_,rfl,(dump_last_set (Json.tableCodec []) 2 sampleActions sampleDevice false none
    (fun _ _ _ => none) _ rfl rfl 1
    (("u".toList,{ MOHandler.sampleHandler with
        instances := (OrderedMap.empty.set "1".toList ()).set "2".toList () }),("2".toList,()))
    rfl ["Ext".toList,"Mod".toList] rfl "y".toList).mpr ⟨⟨_,rfl,rfl⟩,rfl⟩⟩

end Grandma.Application
