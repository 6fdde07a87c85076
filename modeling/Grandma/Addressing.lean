import Grandma.Advertised
import Grandma.Positions

/-!
# Addresses made of what is advertised

A command names a node by a urn, a miid and a path with separators between
them. The tree cuts the address at its first separator and the handler cuts the
rest at its first, so the parts come out again only if the first two hold no
separator; and since the path is passed on with a separator in front of it, one
that it begins with itself is taken for an empty name.
-/

set_option autoImplicit false

namespace Grandma.Addressing
open Helper MOHandler Registry Advertised

variable {M W : Type}

structure Address where
  moid : Str
  miid : Str
  path : Str
  deriving DecidableEq

def uri (x : Address) : Str := x.moid ++ '/' :: (x.miid ++ '/' :: x.path)

def ListedAddress (t : MOTree M) (x : Address) : Prop :=
  (Json.string x.moid,Json.string x.miid) ∈ advertised t.p1MOSJson ∧ x.path ≠ []

/-- The call selects the right handler and instance and looks up the segments
of the path in the tree of that handler. -/
def Selects (codec : Codec) (t : MOTree M) (modata : Json) (x : Address) : Prop :=
  ∃ (handler : MOHandler M) (mo : M), t.MOs.find x.moid = some handler ∧
    handler.instances.find x.miid = some mo ∧
    t.locate codec (uri x) modata = .ok (some (handler,
      some ⟨x.miid,mo,vectorizePath x.path,handler.findNode (vectorizePath x.path)⟩))

def Separable (x : Address) : Prop :=
  '/' ∉ x.moid ∧ '/' ∉ x.miid ∧ x.path.head? ≠ some '/'

instance (x : Address) : Decidable (Separable x) := inferInstanceAs (Decidable (_ ∧ _))

theorem nodeSet_locate (codec : Codec) (t : MOTree M) (s : Str) (modata : Json) :
    t.nodeSet codec s modata = (t.locate codec s modata).map (fun _ => false) := by
  rw [MOTree.nodeSet, MOTree.locate]
  cases t.MOs.find (substrTo s (find "/".toList s)) with
  | none => rfl
  | some handler =>
    simp only [MOHandler.nodeSet]
    cases handler.locate codec (substrPast s (find "/".toList s)) modata <;> rfl

theorem tree_cut (codec : Codec) (t : MOTree M) (modata : Json) (a b : Str) (ha : '/' ∉ a) :
    t.locate codec (a ++ '/' :: b) modata =
      match t.MOs.find a with
      | none => .ok none
      | some handler => (handler.locate codec b modata).map (fun target => some (handler,target)) := by
  have hcut := cut_at '/' a b ha
  have hslash : "/".toList = ['/'] := rfl
  rw [MOTree.locate, hslash, hcut.1, hcut.2.1]
  cases t.MOs.find a with
  | none => rfl
  | some handler =>
    simp only
    cases handler.locate codec b modata <;> rfl

theorem handler_cut (codec : Codec) (h : MOHandler M) (modata : Json) (a b : Str) (ha : '/' ∉ a) :
    h.locate codec (a ++ '/' :: b) modata =
      match codec.dump modata with
      | none => .error .typeError
      | some _ =>
        match h.instances.find a with
        | none => .ok none
        | some mo => .ok (some ⟨a,mo,getlines [] b,h.findNode (getlines [] b)⟩) := by
  have hcut := cut_at '/' a b ha
  have hslash : "/".toList = ['/'] := rfl
  rw [MOHandler.locate, hslash]
  simp only [hcut.1, hcut.2.2]
  cases codec.dump modata with
  | none => rfl
  | some text => cases h.instances.find a <;> rfl

theorem locate_ok (codec : Codec) (h : MOHandler M) (uri : Str) (modata : Json) :
    (∃ target, h.locate codec uri modata = .ok target) ↔ (codec.dump modata).isSome ∧
      (h.instances.find (substrTo uri (find "/".toList uri)) = none ∨ '/' ∈ uri) := by
  have hslash : "/".toList = ['/'] := rfl
  rw [← substrFrom_found, MOHandler.locate, hslash]
  cases codec.dump modata with
  | none => simp
  | some text =>
    simp only
    cases h.instances.find (substrTo uri (find ['/'] uri)) with
    | none => simp
    | some mo => cases substrFrom uri (find ['/'] uri) <;> simp

theorem nodeSet_returns (codec : Codec) (t : MOTree M) (s : Str) (modata : Json) :
    (∃ b, t.nodeSet codec s modata = .ok b) ↔
      ∀ h, t.MOs.find (substrTo s (find "/".toList s)) = some h →
        (codec.dump modata).isSome ∧
          (h.instances.find (substrTo (substrPast s (find "/".toList s))
              (find "/".toList (substrPast s (find "/".toList s)))) = none ∨
            '/' ∈ substrPast s (find "/".toList s)) := by
  simp only [MOTree.nodeSet]
  cases t.MOs.find (substrTo s (find "/".toList s)) with
  | none => simp
  | some h =>
    simp only [MOHandler.nodeSet, Option.some.injEq, forall_eq']
    rw [← locate_ok]
    cases h.locate codec (substrPast s (find "/".toList s)) modata <;> simp

theorem first_separator (s : Str) (h : '/' ∈ s) :
    ∃ a b, s = a ++ '/' :: b ∧ '/' ∉ a ∧ a.length < s.length := by
  obtain ⟨a,b,hs,ha⟩ := List.eq_append_cons_of_mem h
  have hlen := congrArg List.length hs
  rw [List.length_append, List.length_cons] at hlen
  exact ⟨a,b,hs,ha,by omega⟩

theorem separable_selects (codec : Codec) (t : MOTree M) (modata : Json) (x : Address)
    (handler : MOHandler M) (mo : M) (hh : t.MOs.find x.moid = some handler)
    (hmo : handler.instances.find x.miid = some mo) (hs : Separable x)
    (hd : (codec.dump modata).isSome) : Selects codec t modata x := by
  obtain ⟨text,htext⟩ := Option.isSome_iff_exists.mp hd
  have hloc : t.locate codec (uri x) modata = .ok (some (handler,
      some ⟨x.miid,mo,vectorizePath x.path,handler.findNode (vectorizePath x.path)⟩)) := by
    rw [uri, tree_cut _ _ _ _ _ hs.1, hh]
    simp only
    rw [handler_cut _ _ _ _ _ hs.2.1, htext, hmo, vectorize_plain _ hs.2.2]
    rfl
  exact ⟨handler,mo,hh,hmo,hloc⟩

theorem tree_selected (codec : Codec) (t : MOTree M) (modata : Json) (a b : Str) (ha : '/' ∉ a)
    (handler : MOHandler M) (target : Option (Target M))
    (h : t.locate codec (a ++ '/' :: b) modata = .ok (some (handler,target))) :
    t.MOs.find a = some handler ∧ handler.locate codec b modata = .ok target := by
  rw [tree_cut _ _ _ _ _ ha] at h
  cases hfind : t.MOs.find a with
  | none =>
    rw [hfind] at h
    cases h
  | some other =>
    simp only [hfind] at h
    cases hother : other.locate codec b modata with
    | error e =>
      rw [hother] at h
      cases h
    | ok found =>
      rw [hother] at h
      cases h
      exact ⟨rfl,hother⟩

theorem handler_selected (codec : Codec) (h : MOHandler M) (modata : Json) (a b : Str)
    (ha : '/' ∉ a) (target : Target M)
    (hl : h.locate codec (a ++ '/' :: b) modata = .ok (some target)) :
    (codec.dump modata).isSome ∧ target.miid = a ∧ target.segments = getlines [] b := by
  rw [handler_cut _ _ _ _ _ ha] at hl
  cases hdump : codec.dump modata with
  | none =>
    rw [hdump] at hl
    cases hl
  | some text =>
    simp only [hdump] at hl
    split at hl
    · cases hl
    · cases hl
      exact ⟨rfl,rfl,rfl⟩

theorem selects_moid (codec : Codec) (t : MOTree M) (hk : Keyed t) (modata : Json) (x : Address)
    (h : Selects codec t modata x) : '/' ∉ x.moid := by
  intro hmem
  obtain ⟨handler,mo,hh,-,hloc⟩ := h
  obtain ⟨a,b,hs,ha,hlen⟩ := first_separator x.moid hmem
  have hlonger : uri x = a ++ '/' :: (b ++ '/' :: (x.miid ++ '/' :: x.path)) := by
    rw [uri, hs]
    simp
  rw [hlonger] at hloc
  have hfind := (tree_selected _ _ _ _ _ ha _ _ hloc).1
  have hurn : a = x.moid := by
    rw [← hk a handler hfind, hk x.moid handler hh]
  rw [hurn] at hlen
  omega

theorem selects_rest (codec : Codec) (t : MOTree M) (modata : Json) (x : Address)
    (h : Selects codec t modata x) (hm : '/' ∉ x.moid) :
    '/' ∉ x.miid ∧ x.path.head? ≠ some '/' ∧ (codec.dump modata).isSome := by
  obtain ⟨handler,mo,-,-,hloc⟩ := h
  have hrest := (tree_selected _ _ _ _ _ hm _ _ hloc).2
  have hmiid : '/' ∉ x.miid := by
    intro hmem
    obtain ⟨a,b,hs,ha,hlen⟩ := first_separator x.miid hmem
    have hlonger : x.miid ++ '/' :: x.path = a ++ '/' :: (b ++ '/' :: x.path) := by
      rw [hs]
      simp
    rw [hlonger] at hrest
    have hsame : x.miid = a := (handler_selected _ _ _ _ _ ha _ hrest).2.1
    rw [hsame] at hlen
    omega
  obtain ⟨hdump,-,hsegments⟩ := handler_selected _ _ _ _ _ hmiid _ hrest
  have hplain : x.path.head? ≠ some '/' := by
    intro hlead
    obtain ⟨rest,hpath⟩ : ∃ rest, x.path = '/' :: rest := List.head?_eq_some_iff.mp hlead
    have hlen := congrArg List.length hsegments
    simp only [hpath, vectorize_slash, getlines, if_true, List.length_cons] at hlen
    omega
  exact ⟨hmiid,hplain,hdump⟩

theorem selects_iff (codec : Codec) (t : MOTree M) (hk : Keyed t) (modata : Json) (x : Address)
    (hx : ListedAddress t x) :
    Selects codec t modata x ↔ Separable x ∧ (codec.dump modata).isSome := by
  constructor
  · intro h
    have hm := selects_moid codec t hk modata x h
    have hrest := selects_rest codec t modata x h hm
    exact ⟨⟨hm,hrest.1,hrest.2.1⟩,hrest.2.2⟩
  · intro h
    have hlisted := hx.1
    rw [p1_advertised t hk] at hlisted
    obtain ⟨p,hp,hpair⟩ := List.mem_map.mp hlisted
    simp only [Prod.mk.injEq, Json.string.injEq] at hpair
    have hmem := (mem_listed t p).mp hp
    rw [hpair.1, hpair.2] at hmem
    exact separable_selects codec t modata x p.1.2 p.2.2 hmem.1 hmem.2 h.1 h.2

def Apart (codec : Codec) (t : MOTree M) (modata : Json) (x y : Address) : Prop :=
  (x.moid,x.miid,vectorizePath x.path) ≠ (y.moid,y.miid,vectorizePath y.path) →
    t.locate codec (uri x) modata ≠ t.locate codec (uri y) modata ∧
    ∀ (h h' : MOHandler M) (a b : Target M) (is js : List ℕ),
      t.locate codec (uri x) modata = .ok (some (h,some a)) →
      t.locate codec (uri y) modata = .ok (some (h',some b)) →
      h.root.position a.segments = some is → h'.root.position b.segments = some js →
      (h.urn,a.miid,is) ≠ (h'.urn,b.miid,js)

theorem selects_apart (codec : Codec) (t : MOTree M) (hk : Keyed t) (modata : Json)
    (x y : Address) (hx : Selects codec t modata x) (hy : Selects codec t modata y) :
    Apart codec t modata x y := by
  obtain ⟨h,mo,hh,-,hx⟩ := hx
  obtain ⟨h',mo',hh',-,hy⟩ := hy
  intro hne
  rw [hx, hy]
  constructor
  · intro heq
    simp only [Except.ok.injEq, Option.some.injEq, Prod.mk.injEq, Target.mk.injEq] at heq
    apply hne
    rw [← hk x.moid h hh, ← hk y.moid h' hh', heq.1, heq.2.1, heq.2.2.2.1]
  · intro g g' a b is js ha hb his hjs heq
    cases ha
    cases hb
    simp only [Prod.mk.injEq] at heq
    obtain ⟨hurn,hmiid,rfl⟩ := heq
    have hmoid : x.moid = y.moid := by
      rw [← hk x.moid h hh, ← hk y.moid h' hh', hurn]
    have hsame : h = h' := by
      rw [hmoid, hh'] at hh
      exact (Option.some.inj hh).symm
    -- a position has one list of names
    have hnames := ((LabelTree.position_iff _ _ _).mp his).1
    have hnames' := ((LabelTree.position_iff _ _ _).mp hjs).1
    rw [← hsame, hnames] at hnames'
    have hsegments : vectorizePath x.path = vectorizePath y.path := Option.some.inj hnames'
    apply hne
    rw [hmoid, hmiid, hsegments]

/-- Listed addresses are resolved as they should be, and apart from each other,
exactly when urn and miid hold no separator, the path does not begin with one,
and the data can be printed. -/
theorem addressed_iff_separable (I : Interface M W) (cs : List (Call M W)) (t : MOTree M)
    (rs : List Bool) (h : callAll I cs .empty = .ok (rs,t)) (codec : Codec) (modata : Json)
    (x y : Address) (hx : ListedAddress t x) (hy : ListedAddress t y) :
    (Selects codec t modata x ∧ Selects codec t modata y ∧ Apart codec t modata x y) ↔
      (Separable x ∧ Separable y ∧ (codec.dump modata).isSome) := by
  have hk := run_keyed I cs t rs h
  rw [selects_iff codec t hk modata x hx, selects_iff codec t hk modata y hy]
  constructor
  · intro hsel
    exact ⟨hsel.1.1,hsel.2.1.1,hsel.1.2⟩
  · intro hsep
    have hselx := (selects_iff codec t hk modata x hx).mpr ⟨hsep.1,hsep.2.2⟩
    have hsely := (selects_iff codec t hk modata y hy).mpr ⟨hsep.2.1,hsep.2.2⟩
    exact ⟨⟨hsep.1,hsep.2.2⟩,⟨hsep.2.1,hsep.2.2⟩,
      selects_apart codec t hk modata x y hselx hsely⟩

theorem addressed_iff_separable_sample :
    Selects (Json.tableCodec []) (sampleMOTree 1 ["1".toList,"2".toList]) (.string [])
        ⟨"u".toList,"1".toList,"Ext/Mod".toList⟩ ∧
      Selects (Json.tableCodec []) (sampleMOTree 1 ["1".toList,"2".toList]) (.string [])
        ⟨"u".toList,"2".toList,"Id".toList⟩ ∧
      Apart (Json.tableCodec []) (sampleMOTree 1 ["1".toList,"2".toList]) (.string [])
        ⟨"u".toList,"1".toList,"Ext/Mod".toList⟩ ⟨"u".toList,"2".toList,"Id".toList⟩ :=
  (addressed_iff_separable noObjects
    [.registerDDF true sampleFile "u".toList [] [],.addMO () "u".toList () "1".toList,
      .addMO () "u".toList () "2".toList]
    (sampleMOTree 1 ["1".toList,"2".toList]) [true,true,true] rfl (Json.tableCodec [])
    (.string []) ⟨"u".toList,"1".toList,"Ext/Mod".toList⟩ ⟨"u".toList,"2".toList,"Id".toList⟩
    ⟨List.Mem.head _,by decide⟩ ⟨List.Mem.tail _ (List.Mem.head _),by decide⟩).mpr
    ⟨by decide,by decide,rfl⟩

/-- A miid with a separator is accepted and listed, and cannot be addressed. -/
theorem separator_in_miid :
    callAll noObjects [.registerDDF true sampleFile "u".toList [] [],
        .addMO () "u".toList () "1/2".toList] .empty =
      .ok ([true,true],sampleMOTree 1 ["1/2".toList]) ∧
    ListedAddress (sampleMOTree 1 ["1/2".toList]) ⟨"u".toList,"1/2".toList,"Id".toList⟩ ∧
    ¬ Selects (Json.tableCodec []) (sampleMOTree 1 ["1/2".toList]) (.string [])
      ⟨"u".toList,"1/2".toList,"Id".toList⟩ := by
  constructor
  · rfl
  constructor
  · exact ⟨List.Mem.head _,by decide⟩
  · rintro ⟨handler,mo,-,-,hloc⟩
    cases hloc

end Grandma.Addressing
