import Grandma.Advertised

/-!
# The order of the set-up

When every type is registered with one file, every object is added after its
type and under a miid of its own, all calls succeed, and the tree that they
build is determined by which calls were made: a type has what its file says,
and an instance for every object added. What differs with the order is the
miid counter and the leaf flag of a root, and no report shows those.
-/

set_option autoImplicit false

namespace Grandma.SetupOrder
open MOHandler Registry Advertised Report

variable {M W : Type}

inductive Request (M : Type) where
  | register (urn : Str) (file : Option XMLDocument) (url : Str)
  | add (urn : Str) (mo : M) (miid : Str)

def request : Call M W → Request M
  | .registerDDF _ fs urn filename url => .register urn (fs filename) url
  | .addMO _ urn mo miid => .add urn mo miid

def requests (cs : List (Call M W)) : List (Request M) := cs.map request

def named : Request M → Option (Str × Str)
  | .register _ _ _ => none
  | .add urn _ miid => some (urn,miid)

/-- Types come with one file that parses, objects after their types, under
explicit miids that differ, and compatible with their types. -/
structure Orderly (I : Interface M W) (cs : List (Call M W)) : Prop where
  consistent : ∀ u d l d' l', .register u d l ∈ requests cs → .register u d' l' ∈ requests cs →
    d = d' ∧ l = l'
  parsed : ∀ u d l, .register u d l ∈ requests cs → ∃ (b : Bool) (h : MOHandler M),
    (MOHandler.new b u l).generateTreeFromDdf d = .ok (true,h)
  registered : ∀ before after u mo m, requests cs = before++.add u mo m::after →
    ∃ d l, .register u d l ∈ before
  explicit : ∀ u mo m, .add u mo m ∈ requests cs → m ≠ []
  distinct : ((requests cs).filterMap named).Nodup
  compatible : ∀ w u mo m, .addMO w u mo m ∈ cs → I.checkDdfNameCompatibility mo u w

def loaded (urn : Str) (file : Option XMLDocument) : Except Fault (Option (Str × List Node)) :=
  match file with
  | none => .ok none
  | some doc =>
    match (XMLElement.xmlDescendSafely (XMLElement.firstNamed "MgmtTree".toList doc)
        ["Node".toList]).1 with
    | none => .ok none
    | some xmlnode =>
      (rootUri urn xmlnode).map (fun label => some (label,generateChildren xmlnode.children))

theorem generate_new (b : Bool) (urn url : Str) (file : Option XMLDocument) :
    (MOHandler.new b urn url : MOHandler M).generateTreeFromDdf file =
      (loaded urn file).map (fun r =>
        match r with
        | none => (false,MOHandler.new b urn url)
        | some (label,nodes) => (true,{ (MOHandler.new b urn url : MOHandler M) with
            root := .node label (b && nodes.isEmpty) nodes })) := by
  have hloaded : loaded urn file = match XMLElement.rootElement file with
      | none => .ok none
      | some e => (rootUri urn e).map (fun label => some (label,generateChildren e.children)) := by
    cases file <;> rfl
  have hurn : (MOHandler.new b urn url : MOHandler M).urn = urn := rfl
  rw [generate_load, hloaded]
  cases XMLElement.rootElement file with
  | none => rfl
  | some e =>
    simp only [hurn]
    cases rootUri urn e <;> rfl

theorem parsed_loaded (b : Bool) (urn url : Str) (file : Option XMLDocument) (h : MOHandler M)
    (hg : (MOHandler.new b urn url).generateTreeFromDdf file = .ok (true,h)) :
    ∃ label nodes, loaded urn file = .ok (some (label,nodes)) := by
  rw [generate_new] at hg
  cases hload : loaded urn file with
  | error e =>
    rw [hload] at hg
    cases hg
  | ok r =>
    cases r with
    | none =>
      rw [hload] at hg
      cases hg
    | some r => exact ⟨r.1,r.2,rfl⟩

structure Built (qs : List (Request M)) (t : MOTree M) : Prop where
  absent : ∀ u, t.MOs.find u = none → (∀ d l, .register u d l ∉ qs) ∧ ∀ mo m, .add u mo m ∉ qs
  urns : ∀ u h, t.MOs.find u = some h → h.urn = u
  trees : ∀ u h, t.MOs.find u = some h → ∃ d, .register u d h.ddfUrl ∈ qs ∧
    loaded u d = .ok (some (h.root.label,h.root.children))
  instances : ∀ u h, t.MOs.find u = some h → ∀ m mo,
    h.instances.find m = some mo ↔ .add u mo m ∈ qs

theorem empty_built : Built ([] : List (Request M)) .empty where
  absent := by simp
  urns := by simp [MOTree.empty]
  trees := by simp [MOTree.empty]
  instances := by simp [MOTree.empty]

theorem put_new_built (qs : List (Request M)) (t : MOTree M) (urn url : Str)
    (file : Option XMLDocument) (h : MOHandler M) (hb : Built qs t)
    (hfind : t.MOs.find urn = none) (hurn : h.urn = urn) (hurl : h.ddfUrl = url)
    (hinst : h.instances = .empty)
    (hload : loaded urn file = .ok (some (h.root.label,h.root.children))) :
    Built (qs++[.register urn file url]) (put t urn h) where
  absent := by
    intro u hu
    obtain ⟨hne,hold⟩ := absent_put t urn h u hu
    simpa [hne] using hb.absent u hold
  urns := by
    intro u g hg
    rcases found_put t urn h u g hg with ⟨rfl,rfl⟩ | ⟨-,hold⟩
    · exact hurn
    · exact hb.urns u g hold
  trees := by
    intro u g hg
    rcases found_put t urn h u g hg with ⟨rfl,rfl⟩ | ⟨-,hold⟩
    · exact ⟨file,by simp [hurl],hload⟩
    · obtain ⟨d,hd,hl⟩ := hb.trees u g hold
      exact ⟨d,List.mem_append_left _ hd,hl⟩
  instances := by
    intro u g hg m mo
    rcases found_put t urn h u g hg with ⟨rfl,rfl⟩ | ⟨-,hold⟩
    · have hnone := (hb.absent u hfind).2 mo m
      rw [hinst]
      simpa using hnone
    · simpa using hb.instances u g hold m mo

theorem again_built (qs : List (Request M)) (t : MOTree M) (urn url : Str)
    (file : Option XMLDocument) (h : MOHandler M) (hb : Built qs t)
    (hfind : t.MOs.find urn = some h) : Built (qs++[.register urn file url]) t where
  absent := by
    intro u hu
    have hne : u ≠ urn := by
      rintro rfl
      rw [hfind] at hu
      cases hu
    simpa [hne] using hb.absent u hu
  urns := hb.urns
  trees := by
    intro u g hg
    obtain ⟨d,hd,hl⟩ := hb.trees u g hg
    exact ⟨d,List.mem_append_left _ hd,hl⟩
  instances := by
    intro u g hg m mo
    simpa using hb.instances u g hg m mo

theorem register_built (b : Bool) (fs : FileSystem) (qs : List (Request M)) (t : MOTree M)
    (urn filename url : Str) (label : Str) (nodes : List Node) (hb : Built qs t)
    (hload : loaded urn (fs filename) = .ok (some (label,nodes))) :
    ∃ t', t.registerDDF b fs urn filename url = .ok (true,t') ∧
      Built (qs++[.register urn (fs filename) url]) t' := by
  cases hfind : t.MOs.find urn with
  | some h =>
    have hreturn : t.registerDDF b fs urn filename url = .ok (true,t) := by
      rw [MOTree.registerDDF, hfind]
    exact ⟨t,hreturn,again_built qs t urn url _ h hb hfind⟩
  | none =>
    let h : MOHandler M := { (MOHandler.new b urn url : MOHandler M) with
      root := .node label (b && nodes.isEmpty) nodes }
    have hreturn : t.registerDDF b fs urn filename url = .ok (true,put t urn h) := by
      rw [put, ← OrderedMap.insert_fresh _ _ _ hfind, MOTree.registerDDF, hfind, generate_new,
        hload]
      rfl
    exact ⟨put t urn h,hreturn,put_new_built qs t urn url _ h hb hfind rfl rfl rfl hload⟩

theorem put_instance_built (qs : List (Request M)) (t : MOTree M) (urn : Str) (mo : M)
    (miid : Str) (h : MOHandler M) (hb : Built qs t) (hfind : t.MOs.find urn = some h)
    (hnone : h.instances.find miid = none) :
    Built (qs++[.add urn mo miid])
      (put t urn { h with instances := h.instances.set miid mo }) where
  absent := by
    intro u hu
    obtain ⟨hne,hold⟩ := absent_put t urn _ u hu
    simpa [hne] using hb.absent u hold
  urns := keyed_put t urn _ hb.urns (hb.urns urn h hfind)
  trees := by
    intro u g hg
    have hold : ∃ g', t.MOs.find u = some g' ∧ g'.ddfUrl = g.ddfUrl ∧ g'.root = g.root := by
      rcases found_put t urn _ u g hg with ⟨rfl,rfl⟩ | ⟨-,hold⟩
      · exact ⟨h,hfind,rfl,rfl⟩
      · exact ⟨g,hold,rfl,rfl⟩
    obtain ⟨g',hg',hurl,hroot⟩ := hold
    obtain ⟨d,hd,hl⟩ := hb.trees u g' hg'
    rw [hurl] at hd
    rw [hroot] at hl
    exact ⟨d,List.mem_append_left _ hd,hl⟩
  instances := by
    intro u g hg m mo'
    rcases found_put t urn _ u g hg with ⟨rfl,rfl⟩ | ⟨hne,hold⟩
    · rw [OrderedMap.find_set, List.mem_append, ← hb.instances u h hfind m mo']
      by_cases hm : m = miid
      · subst hm
        simp [hnone, eq_comm]
      · simp [hm]
    · simpa [hne] using hb.instances u g hold m mo'

theorem add_built (I : Interface M W) (w : W) (qs : List (Request M)) (t : MOTree M) (urn : Str)
    (mo : M) (miid : Str) (hb : Built qs t) (hreg : ∃ d l, .register urn d l ∈ qs)
    (hm : miid ≠ []) (hfree : ∀ mo', .add urn mo' miid ∉ qs)
    (hc : I.checkDdfNameCompatibility mo urn w) :
    ∃ t', t.addMO I w urn mo miid = .ok (true,t') ∧ Built (qs++[.add urn mo miid]) t' := by
  obtain ⟨d,l,hreg⟩ := hreg
  cases hfind : t.MOs.find urn with
  | none => exact absurd hreg ((hb.absent urn hfind).1 d l)
  | some h =>
    have hurn := hb.urns urn h hfind
    have hnone : h.instances.find miid = none := by
      cases hi : h.instances.find miid with
      | none => rfl
      | some mo' => exact absurd ((hb.instances urn h hfind miid mo').mp hi) (hfree mo')
    have hreturn : t.addMO I w urn mo miid =
        .ok (true,put t urn { h with instances := h.instances.set miid mo }) := by
      rw [MOTree.addMO, hfind]
      simp only [addInstance, chooseMiid, if_neg hm, hnone, hurn, hc, if_true]
      rfl
    exact ⟨_,hreturn,put_instance_built qs t urn mo miid h hb hfind hnone⟩

theorem call_built (I : Interface M W) (before after : List (Call M W)) (c : Call M W)
    (t : MOTree M) (ho : Orderly I (before++c::after)) (hb : Built (requests before) t) :
    ∃ t', call I t c = .ok (true,t') ∧ Built (requests before++[request c]) t' := by
  have hsplit : requests (before++c::after) = requests before++request c::requests after := by
    simp [requests]
  have hmem : request c ∈ requests (before++c::after) := by simp [hsplit]
  cases c with
  | registerDDF b fs urn filename url =>
    obtain ⟨b',h,hg⟩ := ho.parsed _ _ _ hmem
    obtain ⟨label,nodes,hload⟩ := parsed_loaded b' urn url _ h hg
    exact register_built b fs _ t urn filename url label nodes hb hload
  | addMO w urn mo miid =>
    have hfree : ∀ mo', .add urn mo' miid ∉ requests before := by
      intro mo' hin
      have hd := ho.distinct
      rw [hsplit, List.filterMap_append, List.nodup_append] at hd
      have hne := hd.2.2 (urn,miid) (List.mem_filterMap.mpr ⟨_,hin,rfl⟩) (urn,miid)
        (List.mem_filterMap.mpr ⟨_,List.mem_cons_self,rfl⟩)
      exact hne rfl
    exact add_built I w _ t urn mo miid hb (ho.registered _ _ urn mo miid hsplit)
      (ho.explicit urn mo miid hmem) hfree
      (ho.compatible w urn mo miid (List.mem_append_right _ List.mem_cons_self))

/-- An orderly sequence runs through. The induction is on the calls still to
come, with those already made in front of them. -/
theorem run_built (I : Interface M W) (cs before : List (Call M W)) (t : MOTree M)
    (ho : Orderly I (before++cs)) (hb : Built (requests before) t) :
    ∃ rs t', callAll I cs t = .ok (rs,t') ∧ Built (requests (before++cs)) t' := by
  induction cs generalizing before t with
  | nil => exact ⟨[],t,rfl,by simpa using hb⟩
  | cons c cs ih =>
    obtain ⟨t',hcall,hb'⟩ := call_built I before cs c t ho hb
    have hsplit : before++c::cs = (before++[c])++cs := by simp
    have hreq : requests before++[request c] = requests (before++[c]) := by simp [requests]
    rw [hsplit] at ho ⊢
    rw [hreq] at hb'
    obtain ⟨rs,t'',hrun,hfinal⟩ := ih (before++[c]) t' ho hb'
    have hall : callAll I (c::cs) t = .ok (true::rs,t'') := by
      rw [callAll, hcall]
      simp only [hrun]
    exact ⟨true::rs,t'',hall,hfinal⟩

def face (h : MOHandler M) : MOHandler M :=
  { h with root := .node h.root.label false h.root.children, nextMiid := 0 }

theorem handlers_face (qs : List (Request M)) (t t' : MOTree M) (hb : Built qs t)
    (hb' : Built qs t') (hcons : ∀ u d l d' l', .register u d l ∈ qs → .register u d' l' ∈ qs →
      d = d' ∧ l = l') : t.MOs.map face = t'.MOs.map face := by
  apply OrderedMap.ext_find
  intro u
  rw [OrderedMap.find_map, OrderedMap.find_map]
  cases h : t.MOs.find u with
  | none =>
    cases h' : t'.MOs.find u with
    | none => rfl
    | some g' =>
      obtain ⟨d,hd,-⟩ := hb'.trees u g' h'
      exact absurd hd ((hb.absent u h).1 _ _)
  | some g =>
    obtain ⟨d,hd,hl⟩ := hb.trees u g h
    cases h' : t'.MOs.find u with
    | none => exact absurd hd ((hb'.absent u h').1 _ _)
    | some g' =>
      obtain ⟨d',hd',hl'⟩ := hb'.trees u g' h'
      obtain ⟨rfl,hurl⟩ := hcons u d _ d' _ hd hd'
      rw [hl] at hl'
      simp only [Except.ok.injEq, Option.some.injEq, Prod.mk.injEq] at hl'
      have hinst : g.instances = g'.instances := by
        apply OrderedMap.ext_find
        intro m
        ext mo
        rw [hb.instances u g h m mo, hb'.instances u g' h' m mo]
      rw [Option.map_some, Option.map_some, face, face, hb.urns u g h, hb'.urns u g' h', hurl,
        hl'.1, hl'.2, hinst]

theorem built_perm (qs qs' : List (Request M)) (t : MOTree M) (hp : qs.Perm qs')
    (hb : Built qs' t) : Built qs t where
  absent := by
    intro u hu
    simpa [hp.mem_iff] using hb.absent u hu
  urns := hb.urns
  trees := by
    intro u h hh
    simpa [hp.mem_iff] using hb.trees u h hh
  instances := by
    intro u h hh m mo
    rw [hp.mem_iff]
    exact hb.instances u h hh m mo

theorem p1_face (t : MOTree M) :
    t.p1MOSJson = .ofElems ((t.MOs.map face).entries.map (fun MO => MO.2.p1MOSJson)) := by
  rw [MOTree.p1MOSJson, OrderedMap.map, List.map_map]
  rfl

theorem dump_face (I : Interface M W) (t : MOTree M) (w : W) :
    t.dumpSerializedMOS I w = ({ MOs := t.MOs.map face } : MOTree M).dumpSerializedMOS I w := by
  rw [MOTree.dumpSerializedMOS, MOTree.dumpSerializedMOS, OrderedMap.map, Traversal.traverse_map]
  rfl

theorem dump_pure (I : Interface M W) (value : M → Str → Option Str)
    (hI : ∀ mo, Answers I mo (value mo)) (t : MOTree M) (w : W) :
    (t.dumpSerializedMOS I w).1 =
      .array ((listed t).map (fun p => instanceReport p.1.2 (value p.2.2))) :=
  dump_still I value w (fun mo path => hI mo path w) t

/-- Two orderly sequences of the same calls in different orders both succeed,
and the trees that they build give the same reports. -/
theorem reports_ignore_order (I : Interface M W) (cs ds : List (Call M W))
    (hp : (requests cs).Perm (requests ds)) (hcs : Orderly I cs) (hds : Orderly I ds)
    (value : M → Str → Option Str) (hI : ∀ mo, Answers I mo (value mo)) :
    ∃ rs t rs' t', callAll I cs .empty = .ok (rs,t) ∧ callAll I ds .empty = .ok (rs',t') ∧
      t.p1MOSJson = t'.p1MOSJson ∧
      ∀ w w', (t.dumpSerializedMOS I w).1 = (t'.dumpSerializedMOS I w').1 := by
  obtain ⟨rs,t,hrun,hb⟩ := run_built I cs [] .empty hcs empty_built
  obtain ⟨rs',t',hrun',hb'⟩ := run_built I ds [] .empty hds empty_built
  have hface := handlers_face (requests cs) t t' hb (built_perm _ _ t' hp hb') hcs.consistent
  have hp1 : t.p1MOSJson = t'.p1MOSJson := by rw [p1_face, p1_face t', hface]
  have hdump : ∀ w w', (t.dumpSerializedMOS I w).1 = (t'.dumpSerializedMOS I w').1 := by
    intro w w'
    rw [dump_face I t w, hface, ← dump_face, dump_pure I value hI, dump_pure I value hI]
  exact ⟨rs,t,rs',t',hrun,hrun',hp1,hdump⟩

def twoObjects (rootLeaf : Bool) (m n : Str) : List (Call Unit Unit) :=
  [.registerDDF rootLeaf sampleFile "u".toList [] [],.addMO () "u".toList () m,
    .addMO () "u".toList () n]

theorem two_requests (rootLeaf : Bool) (m n : Str) : requests (twoObjects rootLeaf m n) =
    [.register "u".toList (sampleFile []) [],.add "u".toList () m,.add "u".toList () n] := rfl

theorem two_registered (rootLeaf : Bool) (m n u l : Str) (d : Option XMLDocument)
    (h : .register u d l ∈ requests (twoObjects rootLeaf m n)) :
    u = "u".toList ∧ d = sampleFile [] ∧ l = [] := by
  simpa [two_requests] using h

theorem two_added (rootLeaf : Bool) (m n u k : Str) (mo : Unit)
    (h : .add u mo k ∈ requests (twoObjects rootLeaf m n)) : u = "u".toList ∧ (k = m ∨ k = n) := by
  simpa [two_requests, ← and_or_left] using h

theorem two_orderly (rootLeaf : Bool) (m n : Str) (hm : m ≠ []) (hn : n ≠ []) (hne : m ≠ n) :
    Orderly noObjects (twoObjects rootLeaf m n) where
  consistent := by
    intro u d l d' l' h h'
    obtain ⟨-,hd,hl⟩ := two_registered rootLeaf m n u l d h
    obtain ⟨-,hd',hl'⟩ := two_registered rootLeaf m n u l' d' h'
    exact ⟨hd.trans hd'.symm,hl.trans hl'.symm⟩
  parsed := by
    intro u d l h
    obtain ⟨rfl,rfl,rfl⟩ := two_registered rootLeaf m n u l d h
    exact ⟨true,sampleHandler,rfl⟩
  registered := by
    intro before after u mo k h
    have hu := (two_added rootLeaf m n u k mo (by simp [h])).1
    cases before with
    | nil => cases h
    | cons q before =>
      rw [two_requests, List.cons_append] at h
      rw [hu, ← (List.cons.inj h).1]
      exact ⟨_,_,List.mem_cons_self⟩
  explicit := by
    intro u mo k h
    rcases (two_added rootLeaf m n u k mo h).2 with rfl | rfl
    · exact hm
    · exact hn
  distinct := by
    show [("u".toList,m),("u".toList,n)].Nodup
    simpa using hne
  compatible := fun _ _ _ _ _ => rfl

theorem reports_ignore_order_sample :
    ∃ rs t rs' t', callAll noObjects (twoObjects true "1".toList "2".toList) .empty = .ok (rs,t) ∧
      callAll noObjects (twoObjects false "2".toList "1".toList) .empty = .ok (rs',t') ∧
      t.p1MOSJson = t'.p1MOSJson ∧
      ∀ w w', (t.dumpSerializedMOS noObjects w).1 = (t'.dumpSerializedMOS noObjects w').1 :=
  reports_ignore_order noObjects (twoObjects true "1".toList "2".toList)
    (twoObjects false "2".toList "1".toList) (List.Perm.cons _ (List.Perm.swap _ _ _))
    (two_orderly true _ _ (by decide) (by decide) (by decide))
    (two_orderly false _ _ (by decide) (by decide) (by decide))
    (fun _ _ => some []) (fun _ _ _ => ⟨[],true,true,rfl,rfl⟩)

end Grandma.SetupOrder
