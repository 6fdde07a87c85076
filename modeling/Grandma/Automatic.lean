import Grandma.Numbering
import Grandma.Registry

/-!
# Automatic miids

Over a whole set-up the numbers that a type gives to objects without a miid
increase, and no number is passed over that is not a miid already or the number
of an object that was then refused. A set-up has to make as many calls as there
are numbers before the counter can come round.
-/

set_option autoImplicit false

namespace Grandma.Automatic
open MOHandler Grandma.Numbering Registry

variable {M W : Type}

/-- The names of a type that are used up: its miids, and the numbers given. -/
def names (h : MOHandler M) (ks : List ℕ) : Finset Str :=
  (h.instances.entries.map Prod.fst).toFinset ∪ (ks.map (Nat.toDigits 10)).toFinset

theorem mem_names (h : MOHandler M) (ks : List ℕ) (m : Str) :
    m ∈ names h ks ↔ (h.instances.find m).isSome ∨ ∃ k ∈ ks, Nat.toDigits 10 k = m := by
  rw [names, Finset.mem_union, List.mem_toFinset, List.mem_toFinset, OrderedMap.mem_keys,
    List.mem_map]
  rfl

/-- The counter of a type after a number of calls, `ks` being the numbers given. -/
structure Counted (h : MOHandler M) (ks : List ℕ) (calls : ℕ) : Prop where
  few : (names h ks).card ≤ calls
  positive : 1 ≤ h.nextMiid.toNat
  below : ∀ k ∈ ks, k < h.nextMiid.toNat
  covered : ∀ k, 1 ≤ k → k < h.nextMiid.toNat → Nat.toDigits 10 k ∈ names h ks

theorem covered_few (s : Finset Str) (n : ℕ) (h : ∀ k, 1 ≤ k → k < n → Nat.toDigits 10 k ∈ s) :
    n ≤ s.card+1 := by
  have himage : (Finset.Ico 1 n).image (Nat.toDigits 10) ⊆ s := by
    intro m hm
    obtain ⟨k,hk,rfl⟩ := Finset.mem_image.mp hm
    rw [Finset.mem_Ico] at hk
    exact h k hk.1 hk.2
  have hcard := Finset.card_le_card himage
  rw [Finset.card_image_of_injective _ (fun a b => digits_injective a b), Nat.card_Ico] at hcard
  omega

theorem counted_more (h : MOHandler M) (ks : List ℕ) (calls calls' : ℕ) (hle : calls ≤ calls')
    (hc : Counted h ks calls) : Counted h ks calls' :=
  ⟨hc.few.trans hle,hc.positive,hc.below,hc.covered⟩

theorem new_counted (h : MOHandler M) (calls : ℕ) (hnext : h.nextMiid = 1)
    (hinst : h.instances = .empty) : Counted h [] calls where
  few := by simp [names, hinst, OrderedMap.empty]
  positive := by rw [hnext]; decide
  below := by simp
  covered := by
    intro k hk hlt
    have hone : (1 : UInt32).toNat = 1 := rfl
    rw [hnext, hone] at hlt
    omega

theorem candidate_plain (next : UInt32) (i : ℕ) (h : next.toNat+i < 2^32) :
    candidate next i = Nat.toDigits 10 (next.toNat+i) := by
  have hi : i < UInt32.size := lt_of_le_of_lt (Nat.le_add_left _ _) h
  rw [candidate, UInt32.toNat_add, UInt32.toNat_ofNat_of_lt' hi, Nat.mod_eq_of_lt h]

theorem rounds_covered (h : MOHandler M) (ks : List ℕ) (calls n : ℕ) (hc : Counted h ks calls)
    (htaken : ∀ i < n, (h.instances.find (candidate h.nextMiid i)).isSome) (m : ℕ) (hm : m ≤ n)
    (hlt : h.nextMiid.toNat+m ≤ 2^32) (k : ℕ) (hk : 1 ≤ k) (hkm : k < h.nextMiid.toNat+m) :
    Nat.toDigits 10 k ∈ names h ks := by
  by_cases hold : k < h.nextMiid.toNat
  · exact hc.covered k hk hold
  · have hround := htaken (k-h.nextMiid.toNat) (by omega)
    rw [candidate_plain _ _ (by omega)] at hround
    have hnumber : h.nextMiid.toNat+(k-h.nextMiid.toNat) = k := by omega
    rw [hnumber] at hround
    exact (mem_names h ks _).mpr (Or.inl hround)

theorem search_plain (h : MOHandler M) (ks : List ℕ) (calls n : ℕ) (hc : Counted h ks calls)
    (hcalls : calls+1 < 2^32-1) (hf : Found h n) : h.nextMiid.toNat+n ≤ calls+1 := by
  have hbound : ∀ m ≤ n, h.nextMiid.toNat+m ≤ 2^32 → h.nextMiid.toNat+m ≤ calls+1 := by
    intro m hm hle
    have hfew := covered_few (names h ks) (h.nextMiid.toNat+m)
      (rounds_covered h ks calls n hc hf.taken m hm hle)
    have := hc.few
    omega
  by_cases hle : h.nextMiid.toNat+n ≤ 2^32
  · exact hbound n le_rfl hle
  · have hsize := h.nextMiid.toNat_lt
    have hend := hbound (2^32-h.nextMiid.toNat) (by omega) (by omega)
    omega

theorem insert_few (h h' : MOHandler M) (ks ks' : List ℕ) (calls : ℕ) (hc : Counted h ks calls)
    (m : Str) (hnames : names h' ks' ⊆ insert m (names h ks)) :
    (names h' ks').card ≤ calls+1 := by
  have hinsert := (Finset.card_le_card hnames).trans (Finset.card_insert_le m (names h ks))
  have := hc.few
  omega

theorem explicit_counted (h h' : MOHandler M) (ks : List ℕ) (calls : ℕ) (hc : Counted h ks calls)
    (m : Str) (mo : M) (hnext : h'.nextMiid = h.nextMiid)
    (hinst : h'.instances = h.instances ∨ h'.instances = h.instances.set m mo) :
    Counted h' ks (calls+1) := by
  have hsub : names h ks ⊆ names h' ks ∧ names h' ks ⊆ insert m (names h ks) := by
    simp only [Finset.subset_iff, Finset.mem_insert, mem_names]
    rcases hinst with hinst | hinst
    · rw [hinst]
      exact ⟨fun _ hm => hm,fun _ hm => Or.inr hm⟩
    · rw [hinst]
      simp only [OrderedMap.find_set]
      constructor
      · intro k hk
        split_ifs
        · exact Or.inl rfl
        · exact hk
      · intro k hk
        split_ifs at hk with hkm
        · exact Or.inl hkm
        · exact Or.inr hk
  refine ⟨insert_few h h' ks ks calls hc m hsub.2,?_,?_,?_⟩
  · rw [hnext]
    exact hc.positive
  · rw [hnext]
    exact hc.below
  · rw [hnext]
    exact fun k hk hlt => hsub.1 (hc.covered k hk hlt)

/-- An object without a miid gets a number that the counter has not reached. -/
theorem number_counted (h h' : MOHandler M) (ks : List ℕ) (calls n : ℕ) (hc : Counted h ks calls)
    (hcalls : calls+1 < 2^32-1) (hf : Found h n) (mo : M)
    (hnext : h'.nextMiid = h.nextMiid+UInt32.ofNat (n+1))
    (hinst : h'.instances = h.instances ∨
      h'.instances = h.instances.set (candidate h.nextMiid n) mo) :
    candidate h.nextMiid n = Nat.toDigits 10 (h.nextMiid.toNat+n) ∧
      Counted h' (ks++[h.nextMiid.toNat+n]) (calls+1) := by
  have hplain := search_plain h ks calls n hc hcalls hf
  have hname := candidate_plain h.nextMiid n (by omega)
  have hcounter : h'.nextMiid.toNat = h.nextMiid.toNat+n+1 := by
    have hn : n+1 < UInt32.size := by
      show n+1 < 4294967296
      omega
    rw [hnext, UInt32.toNat_add, UInt32.toNat_ofNat_of_lt' hn, Nat.mod_eq_of_lt (by omega)]
    omega
  refine ⟨hname,?_⟩
  have hsub : insert (Nat.toDigits 10 (h.nextMiid.toNat+n)) (names h ks) =
      names h' (ks++[h.nextMiid.toNat+n]) := by
    ext m
    rw [Finset.mem_insert, mem_names, mem_names]
    have hnumbers : (∃ k ∈ ks++[h.nextMiid.toNat+n], Nat.toDigits 10 k = m) ↔
        (∃ k ∈ ks, Nat.toDigits 10 k = m) ∨ m = Nat.toDigits 10 (h.nextMiid.toNat+n) := by
      simp [or_and_right, exists_or, eq_comm]
    rw [hnumbers]
    rcases hinst with hinst | hinst
    · rw [hinst, or_comm, or_assoc]
    · rw [hinst, OrderedMap.find_set, hname]
      by_cases hm : m = Nat.toDigits 10 (h.nextMiid.toNat+n)
      · simp [hm]
      · simp [hm]
  refine ⟨insert_few h h' ks _ calls hc _ hsub.ge,by omega,?_,?_⟩
  · intro k hk
    rcases List.mem_append.mp hk with hk | hk
    · have := hc.below k hk
      omega
    · rw [List.mem_singleton] at hk
      omega
  · intro k hk hlt
    rw [← hsub, Finset.mem_insert]
    by_cases hlast : k = h.nextMiid.toNat+n
    · exact Or.inl (by rw [hlast])
    · exact Or.inr (rounds_covered h ks calls n hc hf.taken n le_rfl (by omega) k hk (by omega))

def numberOf (h : MOHandler M) (miid : Str) : Option Str :=
  if miid = [] then (h.chooseMiid []).toOption.join.map Prod.fst else none

theorem counted_size (h : MOHandler M) (ks : List ℕ) (calls : ℕ) (hc : Counted h ks calls) :
    h.instances.entries.length ≤ calls := by
  have hkeys := List.toFinset_card_of_nodup (OrderedMap.sorted_nodup _ h.instances.sorted)
  rw [List.length_map] at hkeys
  rw [← hkeys]
  exact (Finset.card_le_card Finset.subset_union_left).trans hc.few

theorem number_found (h : MOHandler M) (ks : List ℕ) (calls : ℕ) (hc : Counted h ks calls)
    (hcalls : calls+1 < 2^32-1) : ∃ n, Found h n := by
  have hsize := counted_size h ks calls hc
  obtain ⟨m,hm,hfree⟩ := free_candidate h.instances h.nextMiid (by omega)
  let free := fun n => h.instances.find (candidate h.nextMiid n) = none
  have hexists : ∃ n, free n := ⟨m,hfree⟩
  have htaken : ∀ i < Nat.find hexists, (h.instances.find (candidate h.nextMiid i)).isSome :=
    fun i hi => Option.isSome_iff_ne_none.mpr (Nat.find_min hexists hi)
  have hend : Nat.find hexists < h.instances.entries.length+1 :=
    Nat.lt_succ_of_le ((Nat.find_min' hexists hfree).trans hm)
  have hruns := fun rounds => auto_runs h.instances (Nat.find hexists) rounds h.nextMiid htaken
    (Nat.find_spec hexists)
  refine ⟨Nat.find hexists,htaken,Nat.find_spec hexists,hruns,?_⟩
  rw [chooseMiid, if_pos rfl, hruns, if_pos hend]

theorem add_counted (I : Interface M W) (w : W) (h g : MOHandler M) (mo : M) (miid : Str) (b : Bool)
    (ks : List ℕ) (calls : ℕ) (hc : Counted h ks calls) (hcalls : calls+1 < 2^32-1)
    (ha : h.addInstance I w mo miid = .ok (b,g)) :
    ∃ new : Option ℕ, numberOf h miid = new.map (Nat.toDigits 10) ∧
      (∀ n ∈ new, h.nextMiid.toNat ≤ n) ∧ Counted g (ks++new.toList) (calls+1) := by
  by_cases hm : miid = []
  · subst hm
    obtain ⟨n,hf⟩ := number_found h ks calls hc hcalls
    have hnumber : ∀ g : MOHandler M, g.nextMiid = h.nextMiid+UInt32.ofNat (n+1) →
        (g.instances = h.instances ∨
          g.instances = h.instances.set (candidate h.nextMiid n) mo) →
        ∃ new : Option ℕ, numberOf h [] = new.map (Nat.toDigits 10) ∧
          (∀ k ∈ new, h.nextMiid.toNat ≤ k) ∧ Counted g (ks++new.toList) (calls+1) := by
      intro g hnext hinst
      obtain ⟨hname,hg⟩ := number_counted h g ks calls n hc hcalls hf mo hnext hinst
      refine ⟨some (h.nextMiid.toNat+n),?_,by simp,hg⟩
      rw [numberOf, if_pos rfl, hf.chosen, Option.map_some, ← hname]
      rfl
    rw [addInstance, hf.chosen] at ha
    simp only at ha
    split_ifs at ha
    · cases ha
      exact hnumber _ rfl (Or.inr rfl)
    · cases ha
      exact hnumber _ rfl (Or.inl rfl)
  · refine ⟨none,if_neg hm,by simp,?_⟩
    rw [Option.toList_none, List.append_nil]
    rw [addInstance, chooseMiid, if_neg hm] at ha
    cases hfind : h.instances.find miid with
    | some mo' =>
      rw [hfind] at ha
      cases ha
      exact counted_more h ks calls (calls+1) (Nat.le_succ _) hc
    | none =>
      rw [hfind] at ha
      simp only at ha
      split_ifs at ha
      · cases ha
        exact explicit_counted h _ ks calls hc miid mo rfl (Or.inr rfl)
      · cases ha
        exact explicit_counted h _ ks calls hc miid mo rfl (Or.inl rfl)

def given (t : MOTree M) : Call M W → Option (Str × Str)
  | .registerDDF _ _ _ _ _ => none
  | .addMO _ urn _ miid =>
    (t.MOs.find urn).bind (fun h => (numberOf h miid).map (fun number => (urn,number)))

def givenAll (I : Interface M W) : List (Call M W) → MOTree M → List (Str × Str)
  | [], _ => []
  | c::cs, t =>
    match call I t c with
    | .error _ => []
    | .ok (_,t') => (given t c).toList++givenAll I cs t'

def under (urn : Str) (ns : List (Str × ℕ)) : List ℕ :=
  (ns.filter (fun n => n.1 = urn)).map Prod.snd

theorem mem_under (urn : Str) (ns : List (Str × ℕ)) (k : ℕ) : k ∈ under urn ns ↔ (urn,k) ∈ ns := by
  simp [under]

theorem under_append (urn : Str) (ns ms : List (Str × ℕ)) :
    under urn (ns++ms) = under urn ns++under urn ms := by
  rw [under, List.filter_append, List.map_append]
  rfl

structure Numbered (t : MOTree M) (ns : List (Str × ℕ)) (calls : ℕ) : Prop where
  unknown : ∀ u, t.MOs.find u = none → under u ns = []
  counted : ∀ u h, t.MOs.find u = some h → Counted h (under u ns) calls
  increasing : ns.Pairwise (fun m n => m.1 = n.1 → m.2 < n.2)
  positive : ∀ n ∈ ns, 1 ≤ n.2

theorem numbered_more (t : MOTree M) (ns : List (Str × ℕ)) (calls : ℕ) (hn : Numbered t ns calls) :
    Numbered t ns (calls+1) where
  unknown := hn.unknown
  counted := fun u h hu => counted_more h _ calls (calls+1) (Nat.le_succ _) (hn.counted u h hu)
  increasing := hn.increasing
  positive := hn.positive

theorem under_new (urn : Str) (new : Option ℕ) (u : Str) :
    under u (new.map (fun n => (urn,n))).toList = if u = urn then new.toList else [] := by
  cases new with
  | none => simp [under]
  | some n =>
    by_cases hu : u = urn
    · simp [under, hu]
    · simp [under, hu, Ne.symm hu]

theorem put_numbered (t : MOTree M) (ns : List (Str × ℕ)) (calls : ℕ) (hn : Numbered t ns calls)
    (urn : Str) (g : MOHandler M) (new : Option ℕ)
    (hg : Counted g (under urn ns++new.toList) (calls+1))
    (hnew : ∀ n ∈ new, 1 ≤ n ∧ ∀ k ∈ under urn ns, k < n) :
    Numbered (put t urn g) (ns++(new.map (fun n => (urn,n))).toList) (calls+1) where
  unknown := by
    intro u hu
    obtain ⟨hne,hold⟩ := absent_put t urn g u hu
    rw [under_append, under_new, if_neg hne, List.append_nil]
    exact hn.unknown u hold
  counted := by
    intro u h hu
    rw [under_append, under_new]
    rcases found_put t urn g u h hu with ⟨rfl,rfl⟩ | ⟨hne,hold⟩
    · rwa [if_pos rfl]
    · rw [if_neg hne, List.append_nil]
      exact (numbered_more t ns calls hn).counted u h hold
  increasing := by
    rw [List.pairwise_append]
    refine ⟨hn.increasing,by cases new <;> simp,?_⟩
    intro m hm n hmem hsame
    cases new with
    | none => simp at hmem
    | some k =>
      simp only [Option.map_some, Option.toList_some, List.mem_singleton] at hmem
      subst hmem
      have hsame : m.1 = urn := hsame
      apply (hnew k rfl).2
      rw [mem_under, ← hsame]
      exact hm
  positive := by
    intro n hmem
    rcases List.mem_append.mp hmem with hmem | hmem
    · exact hn.positive n hmem
    · cases new with
      | none => simp at hmem
      | some k =>
        simp only [Option.map_some, Option.toList_some, List.mem_singleton] at hmem
        subst hmem
        exact (hnew k rfl).1

theorem call_numbered (I : Interface M W) (t t' : MOTree M) (c : Call M W) (r : Bool)
    (ns : List (Str × ℕ)) (calls : ℕ) (hn : Numbered t ns calls) (hcalls : calls+1 < 2^32-1)
    (hcall : call I t c = .ok (r,t')) :
    ∃ new : List (Str × ℕ),
      (given t c).toList = new.map (fun n => (n.1,Nat.toDigits 10 n.2)) ∧
      Numbered t' (ns++new) (calls+1) := by
  cases c with
  | registerDDF rootLeaf fs urn filename url =>
    refine ⟨[],rfl,?_⟩
    rw [List.append_nil]
    cases call_effect I t t' _ r hcall with
    | again | unreadable => exact numbered_more t ns calls hn
    | register _ _ _ _ _ handler fresh loaded =>
      obtain ⟨hfalse,-⟩ | ⟨-,e,uri,-,-,rfl⟩ := generate_cases _ _ _ _ loaded
      · cases hfalse
      have hnew := new_counted ((MOHandler.new rootLeaf urn url : MOHandler M).load uri
        (generateChildren e.children)) (calls+1) rfl rfl
      have hput := put_numbered t ns calls hn urn _ none
        (by rwa [hn.unknown urn fresh, Option.toList_none, List.append_nil]) (by simp)
      rwa [Option.map_none, Option.toList_none, List.append_nil] at hput
  | addMO w urn mo miid =>
    simp only [call, MOTree.addMO] at hcall
    cases hfind : t.MOs.find urn with
    | none =>
      rw [hfind] at hcall
      cases hcall
      refine ⟨[],by simp [given, hfind],?_⟩
      rw [List.append_nil]
      exact numbered_more t ns calls hn
    | some h =>
      rw [hfind] at hcall
      simp only at hcall
      have hc := hn.counted urn h hfind
      rcases hadd : h.addInstance I w mo miid with e | ⟨b,g⟩
      · rw [hadd] at hcall
        cases hcall
      · rw [hadd] at hcall
        cases hcall
        obtain ⟨new,hnumber,hreach,hg⟩ := add_counted I w h g mo miid r _ calls hc hcalls hadd
        refine ⟨(new.map (fun n => (urn,n))).toList,?_,?_⟩
        · rw [given, hfind, Option.bind_some, hnumber]
          cases new <;> rfl
        · apply put_numbered t ns calls hn urn g new hg
          intro n hnew
          have hle := hreach n hnew
          have hpositive := hc.positive
          refine ⟨by omega,?_⟩
          intro k hk
          have := hc.below k hk
          omega

theorem run_numbered (I : Interface M W) (cs : List (Call M W)) (t t' : MOTree M) (rs : List Bool)
    (ns : List (Str × ℕ)) (calls : ℕ) (hn : Numbered t ns calls)
    (hcalls : calls+cs.length < 2^32-1) (hrun : callAll I cs t = .ok (rs,t')) :
    ∃ new : List (Str × ℕ),
      givenAll I cs t = new.map (fun n => (n.1,Nat.toDigits 10 n.2)) ∧
      Numbered t' (ns++new) (calls+cs.length) := by
  induction cs generalizing t rs ns calls with
  | nil =>
    cases hrun
    exact ⟨[],rfl,by simpa using hn⟩
  | cons c cs ih =>
    rw [List.length_cons] at hcalls ⊢
    rw [callAll] at hrun
    rw [givenAll]
    rcases hcall : call I t c with e | ⟨r,s⟩
    · rw [hcall] at hrun
      cases hrun
    · rw [hcall] at hrun
      simp only at hrun
      obtain ⟨new,hgiven,hs⟩ := call_numbered I t s c r ns calls hn (by omega) hcall
      rcases hrest : callAll I cs s with e | ⟨rs',t''⟩
      · rw [hrest] at hrun
        cases hrun
      · rw [hrest] at hrun
        cases hrun
        obtain ⟨more,hall,ht⟩ := ih s rs' (ns++new) (calls+1) hs (by omega) hrest
        refine ⟨new++more,?_,?_⟩
        · simp only [hgiven, hall, List.map_append]
        · rwa [← List.append_assoc, ← Nat.add_assoc, Nat.add_right_comm]

theorem empty_numbered : Numbered (.empty : MOTree M) [] 0 where
  unknown := fun _ _ => rfl
  counted := by
    intro u h hu
    cases hu
  increasing := List.Pairwise.nil
  positive := by simp

/-- The numbers that a set-up gives increase for every type from one on, and
every number that is passed over is a miid of the type in the end, or else was
given to an object that was refused. -/
theorem numbers_increase (I : Interface M W) (cs : List (Call M W)) (t : MOTree M) (rs : List Bool)
    (hrun : callAll I cs .empty = .ok (rs,t)) (hcalls : cs.length < 2^32-1) :
    ∃ ns : List (Str × ℕ),
      givenAll I cs .empty = ns.map (fun n => (n.1,Nat.toDigits 10 n.2)) ∧
      ns.Pairwise (fun m n => m.1 = n.1 → m.2 < n.2) ∧
      ∀ n ∈ ns, 1 ≤ n.2 ∧ ∀ k, 1 ≤ k → k < n.2 →
        (binding t n.1 (Nat.toDigits 10 k)).isSome ∨ (n.1,k) ∈ ns := by
  obtain ⟨ns,hgiven,hn⟩ := run_numbered I cs .empty t rs [] 0 empty_numbered (by omega) hrun
  rw [List.nil_append] at hn
  refine ⟨ns,hgiven,hn.increasing,?_⟩
  intro n hmem
  refine ⟨hn.positive n hmem,?_⟩
  intro k hk hlt
  have hunder := (mem_under n.1 ns n.2).mpr hmem
  cases hfind : t.MOs.find n.1 with
  | none =>
    rw [hn.unknown n.1 hfind] at hunder
    cases hunder
  | some h =>
    have hc := hn.counted n.1 h hfind
    have hbelow := hc.below n.2 hunder
    rcases (mem_names h _ _).mp (hc.covered k hk (by omega)) with hname | ⟨j,hj,hdigits⟩
    · left
      rwa [binding, hfind, Option.bind_some]
    · right
      rw [← digits_injective j k hdigits, ← mem_under]
      exact hj

def sampleCalls : List (Call Unit Unit) :=
  [.registerDDF true sampleFile "u".toList [] [],.addMO () "u".toList () [],
    .addMO () "u".toList () "2".toList,.addMO () "u".toList () []]

example : givenAll noObjects sampleCalls .empty =
    [("u".toList,"1".toList),("u".toList,"3".toList)] := by decide

theorem numbers_increase_sample : ∃ ns : List (Str × ℕ),
    givenAll noObjects sampleCalls .empty = ns.map (fun n => (n.1,Nat.toDigits 10 n.2)) ∧
    ns.Pairwise (fun m n => m.1 = n.1 → m.2 < n.2) := by
  obtain ⟨ns,hgiven,hpairwise,-⟩ := numbers_increase noObjects sampleCalls _ _ rfl (by decide)
  exact ⟨ns,hgiven,hpairwise⟩

end Grandma.Automatic
