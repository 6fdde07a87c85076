import Grandma.Advertised

/-!
# Setting up again

An application may repeat its set-up calls on a client that has been set up.
What was carried out the first time is refused or ignored the second time. Only
an object that was added before its type was registered makes a difference, and
the second time makes up for it.
-/

set_option autoImplicit false

namespace Grandma.Replay
open Advertised MOHandler Registry

variable {M W : Type}

def Explicit (cs : List (Call M W)) : Prop :=
  ∀ w urn mo miid, .addMO w urn mo miid ∈ cs → miid ≠ []

theorem explicit_head (c : Call M W) (cs : List (Call M W)) (h : Explicit (c::cs)) :
    Explicit [c] := by
  intro w urn mo miid hm
  exact h w urn mo miid (List.mem_cons.mpr (Or.inl (List.mem_singleton.mp hm)))

theorem explicit_tail (c : Call M W) (cs : List (Call M W)) (h : Explicit (c::cs)) :
    Explicit cs := by
  intro w urn mo miid hm
  exact h w urn mo miid (List.mem_cons_of_mem _ hm)

/-- Why a call would have no effect. -/
def Settled (I : Interface M W) (t : MOTree M) : Call M W → Prop
  | .registerDDF rootLeaf fs urn filename url => t.MOs.find urn ≠ none ∨
      ∃ h : MOHandler M,
        (MOHandler.new rootLeaf urn url).generateTreeFromDdf (fs filename) = .ok (false,h)
  | .addMO w urn mo miid => t.MOs.find urn = none ∨ binding t urn miid ≠ none ∨
      I.checkDdfNameCompatibility mo urn w = false

theorem put_same (t : MOTree M) (urn : Str) (h : MOHandler M) (hfind : t.MOs.find urn = some h) :
    put t urn h = t := by
  have hset : t.MOs.set urn h = t.MOs := by
    apply OrderedMap.ext_find
    intro u
    rw [OrderedMap.find_set]
    split_ifs with hu
    · rw [hu, hfind]
    · rfl
  rw [put, hset]

theorem explicit_call (I : Interface M W) (t : MOTree M) (w : W) (urn : Str) (mo : M) (miid : Str)
    (hm : miid ≠ []) (hk : Keyed t) :
    (call I t (.addMO w urn mo miid) = .ok (false,t) ∧ Settled I t (.addMO w urn mo miid)) ∨
    ∃ h, t.MOs.find urn = some h ∧ h.instances.find miid = none ∧
      I.checkDdfNameCompatibility mo urn w = true ∧
      call I t (.addMO w urn mo miid) =
        .ok (true,put t urn { h with instances := h.instances.set miid mo }) := by
  cases hfind : t.MOs.find urn with
  | none =>
    refine Or.inl ⟨?_,Or.inl hfind⟩
    simp only [call, MOTree.addMO, hfind]
  | some h =>
    have hsame : ({ t with MOs := t.MOs.set urn h } : MOTree M) = t := put_same t urn h hfind
    cases hmiid : h.instances.find miid with
    | some other =>
      have hbound : binding t urn miid ≠ none := by simp [binding, hfind, hmiid]
      refine Or.inl ⟨?_,Or.inr (Or.inl hbound)⟩
      simp only [call, MOTree.addMO, hfind, addInstance, chooseMiid, if_neg hm, hmiid, hsame]
    | none =>
      have hurn := hk urn h hfind
      cases hcheck : I.checkDdfNameCompatibility mo h.urn w with
      | true =>
        refine Or.inr ⟨h,rfl,hmiid,hurn ▸ hcheck,?_⟩
        simp only [call, MOTree.addMO, hfind, addInstance, chooseMiid, if_neg hm, hmiid, hcheck,
          if_true, put]
      | false =>
        refine Or.inl ⟨?_,Or.inr (Or.inr (hurn ▸ hcheck))⟩
        simp only [call, MOTree.addMO, hfind, addInstance, chooseMiid, if_neg hm, hmiid, hcheck,
          Bool.false_eq_true, if_false]
        exact congrArg (fun s => Except.ok (false,s)) hsame

theorem settled_call (I : Interface M W) (t : MOTree M) (c : Call M W) (hk : Keyed t)
    (hex : Explicit [c]) (hs : Settled I t c) : ∃ r, call I t c = .ok (r,t) := by
  cases c with
  | registerDDF rootLeaf fs urn filename url =>
    cases hfind : t.MOs.find urn with
    | some h => exact ⟨true,by simp only [call, MOTree.registerDDF, hfind]⟩
    | none =>
      rcases hs with hknown | ⟨h,hload⟩
      · exact absurd hfind hknown
      · exact ⟨false,by simp only [call, MOTree.registerDDF, hfind, hload]⟩
  | addMO w urn mo miid =>
    have hm : miid ≠ [] := hex w urn mo miid (by simp)
    obtain ⟨hcall,-⟩ | ⟨h,hfind,hfree,hcheck,-⟩ := explicit_call I t w urn mo miid hm hk
    · exact ⟨false,hcall⟩
    · rcases hs with hnone | hbound | hincompatible
      · rw [hfind] at hnone
        cases hnone
      · exact absurd (by rw [binding, hfind, Option.bind_some, hfree]) hbound
      · rw [hcheck] at hincompatible
        cases hincompatible

/-- Right after a call the same call has no effect. -/
theorem call_settles (I : Interface M W) (t t' : MOTree M) (c : Call M W) (r : Bool) (hk : Keyed t)
    (hex : Explicit [c]) (h : call I t c = .ok (r,t')) : Settled I t' c := by
  cases c with
  | registerDDF rootLeaf fs urn filename url =>
    simp only [call, MOTree.registerDDF] at h
    split at h
    · rename_i handler hknown
      cases h
      exact Or.inl (by rw [hknown]; simp)
    · split at h
      · cases h
      · rename_i hfresh _ handler hload
        cases h
        rw [OrderedMap.insert_fresh _ _ _ hfresh]
        exact Or.inl (by simp)
      · rename_i handler hload
        cases h
        exact Or.inr ⟨handler,hload⟩
  | addMO w urn mo miid =>
    have hm : miid ≠ [] := hex w urn mo miid (by simp)
    obtain ⟨hcall,hs⟩ | ⟨handler,-,-,-,hcall⟩ := explicit_call I t w urn mo miid hm hk
    · rw [hcall] at h
      cases h
      exact hs
    · rw [hcall] at h
      cases h
      refine Or.inr (Or.inl ?_)
      rw [binding_put, if_pos rfl, OrderedMap.find_set, if_pos rfl]
      simp

theorem known_grows (I : Interface M W) (t t' : MOTree M) (c : Call M W) (r : Bool)
    (h : Effect I t c r t') (u : Str) (hu : t.MOs.find u ≠ none) : t'.MOs.find u ≠ none := by
  cases h with
  | again | unreadable | unknown => exact hu
  | register | refuse | add => exact fun hnone => hu (absent_put t _ _ u hnone).2

theorem add_types (I : Interface M W) (t t' : MOTree M) (w : W) (urn : Str) (mo : M) (miid : Str)
    (r : Bool) (h : Effect I t (.addMO w urn mo miid) r t') (u : Str) :
    t'.MOs.find u = none ↔ t.MOs.find u = none := by
  refine ⟨fun hnone => ?_,fun hnone => ?_⟩
  · by_contra hu
    exact known_grows I t t' _ r h u hu hnone
  · cases h with
    | unknown => exact hnone
    | refuse _ _ _ _ handler next known =>
      have hne : u ≠ urn := by
        rintro rfl
        rw [known] at hnone
        cases hnone
      rw [find_put, if_neg hne, hnone]
    | add _ _ _ _ chosen handler next known =>
      have hne : u ≠ urn := by
        rintro rfl
        rw [known] at hnone
        cases hnone
      rw [find_put, if_neg hne, hnone]

/-- What has no effect stays so as long as no further type gets known. -/
theorem settled_kept (I : Interface M W) (t t' : MOTree M) (c d : Call M W) (r : Bool)
    (hs : Settled I t c) (h : Effect I t d r t')
    (htypes : ∀ u, t'.MOs.find u = none ↔ t.MOs.find u = none) : Settled I t' c := by
  cases c with
  | registerDDF rootLeaf fs urn filename url =>
    rcases hs with hknown | hload
    · exact Or.inl (known_grows I t t' d r h urn hknown)
    · exact Or.inr hload
  | addMO w urn mo miid =>
    rcases hs with hnone | hbound | hincompatible
    · exact Or.inl ((htypes urn).mpr hnone)
    · obtain ⟨other,hother⟩ := Option.ne_none_iff_exists'.mp hbound
      refine Or.inr (Or.inl ?_)
      rw [binding_grows I t t' d r h urn miid other hother]
      simp
    · exact Or.inr (Or.inr hincompatible)

def Registered (I : Interface M W) (t : MOTree M) (cs : List (Call M W)) : Prop :=
  ∀ rootLeaf fs urn filename url, .registerDDF rootLeaf fs urn filename url ∈ cs →
    Settled I t (.registerDDF rootLeaf fs urn filename url)

theorem repeat_call (I : Interface M W) (t : MOTree M) (c : Call M W) (cs : List (Call M W))
    (hk : Keyed t) (hex : Explicit (c::cs)) (hreg : Registered I t (c::cs)) :
    ∃ r t', call I t c = .ok (r,t') ∧ Keyed t' ∧ Registered I t' cs ∧ Settled I t' c ∧
      ∀ u, t'.MOs.find u = none ↔ t.MOs.find u = none := by
  have hone := explicit_head c cs hex
  have hcall : ∃ r t', call I t c = .ok (r,t') ∧ ∀ u, t'.MOs.find u = none ↔ t.MOs.find u = none := by
    cases c with
    | registerDDF rootLeaf fs urn filename url =>
      obtain ⟨r,hr⟩ := settled_call I t _ hk hone (hreg _ _ _ _ _ List.mem_cons_self)
      exact ⟨r,t,hr,fun _ => Iff.rfl⟩
    | addMO w urn mo miid =>
      have hm : miid ≠ [] := hex w urn mo miid List.mem_cons_self
      obtain ⟨hr,-⟩ | ⟨h,-,-,-,hr⟩ := explicit_call I t w urn mo miid hm hk
      · exact ⟨false,t,hr,fun _ => Iff.rfl⟩
      · exact ⟨true,_,hr,add_types I t _ w urn mo miid true (call_effect I t _ _ _ hr)⟩
  obtain ⟨r,t',hr,htypes⟩ := hcall
  have heffect := call_effect I t t' c r hr
  refine ⟨r,t',hr,effect_keyed I t t' c r hk heffect,?_,call_settles I t t' c r hk hone hr,htypes⟩
  intro rootLeaf fs urn filename url hm
  exact settled_kept I t t' _ c r (hreg _ _ _ _ _ (List.mem_cons_of_mem _ hm)) heffect htypes

theorem repeat_run (I : Interface M W) (cs : List (Call M W)) (t : MOTree M) (hk : Keyed t)
    (hex : Explicit cs) (hreg : Registered I t cs) :
    ∃ rs t', callAll I cs t = .ok (rs,t') ∧ Keyed t' ∧ (∀ c ∈ cs, Settled I t' c) ∧
      ∀ d, Settled I t d → Settled I t' d := by
  induction cs generalizing t with
  | nil => exact ⟨[],t,rfl,hk,fun _ hc => absurd hc List.not_mem_nil,fun _ hd => hd⟩
  | cons c cs ih =>
    obtain ⟨r,s,hr,hks,hregs,hsettled,htypes⟩ := repeat_call I t c cs hk hex hreg
    obtain ⟨rs,t',hrun,hkt,hall,hkept⟩ := ih s hks (explicit_tail c cs hex) hregs
    refine ⟨r::rs,t',by simp only [callAll, hr, hrun],hkt,?_,?_⟩
    · intro d hd
      rcases List.mem_cons.mp hd with rfl | hd
      · exact hkept d hsettled
      · exact hall d hd
    · intro d hd
      exact hkept d (settled_kept I t s d c r hd (call_effect I t s c r hr) htypes)

theorem settled_run (I : Interface M W) (cs : List (Call M W)) (t : MOTree M) (hk : Keyed t)
    (hex : Explicit cs) (hs : ∀ c ∈ cs, Settled I t c) : ∃ rs, callAll I cs t = .ok (rs,t) := by
  induction cs with
  | nil => exact ⟨[],rfl⟩
  | cons c cs ih =>
    obtain ⟨r,hr⟩ := settled_call I t c hk (explicit_head c cs hex) (hs c List.mem_cons_self)
    obtain ⟨rs,hrs⟩ := ih (explicit_tail c cs hex) (fun d hd => hs d (List.mem_cons_of_mem _ hd))
    exact ⟨r::rs,by simp only [callAll, hr, hrs]⟩

theorem run_registered (I : Interface M W) (cs : List (Call M W)) (t t' : MOTree M)
    (rs : List Bool) (hk : Keyed t) (h : callAll I cs t = .ok (rs,t')) : Registered I t' cs := by
  induction cs generalizing t rs with
  | nil => exact fun _ _ _ _ _ hm => absurd hm List.not_mem_nil
  | cons c cs ih =>
    rw [callAll] at h
    split at h
    · cases h
    · rename_i r s hcall
      split at h
      · cases h
      · rename_i results s' hrest
        cases h
        have heffect := call_effect I t s c r hcall
        have hks := effect_keyed I t s c r hk heffect
        intro rootLeaf fs urn filename url hm
        rcases List.mem_cons.mp hm with rfl | hm
        · have hex : Explicit [(.registerDDF rootLeaf fs urn filename url : Call M W)] := by
            intro w u mo miid hmem
            cases List.mem_singleton.mp hmem
          rcases call_settles I t s _ r hk hex hcall with hknown | hload
          · exact Or.inl (run_preserves I (fun q => q.MOs.find urn ≠ none)
              (fun q d b q' hq he => known_grows I q q' d b he urn hq) cs s t' results hknown hrest)
          · exact Or.inr hload
        · exact ih s results hks hrest rootLeaf fs urn filename url hm

/-- Once a set-up with miids of its own has been carried out, it can be repeated
without a throw, and from the third time on it has no effect. The second time
has none exactly when every compatible object whose type has become known has
its miid taken. -/
theorem setup_replays (I : Interface M W) (cs : List (Call M W)) (hex : Explicit cs)
    (before : List (Call M W)) (t t₁ : MOTree M) (bs rs : List Bool)
    (hbefore : callAll I before .empty = .ok (bs,t)) (h : callAll I cs t = .ok (rs,t₁)) :
    ∃ rs₂ t₂ rs₃, callAll I cs t₁ = .ok (rs₂,t₂) ∧ callAll I cs t₂ = .ok (rs₃,t₂) ∧
      (t₂ = t₁ ↔ ∀ w urn mo miid, .addMO w urn mo miid ∈ cs → t₁.MOs.find urn ≠ none →
        I.checkDdfNameCompatibility mo urn w = true → binding t₁ urn miid ≠ none) := by
  have hk := run_keyed I before t bs hbefore
  have hk₁ : Keyed t₁ := run_preserves I Keyed
    (fun q c r q' hq he => effect_keyed I q q' c r hq he) cs t t₁ rs hk h
  have hreg := run_registered I cs t t₁ rs hk h
  obtain ⟨rs₂,t₂,hrun,hk₂,hall,-⟩ := repeat_run I cs t₁ hk₁ hex hreg
  obtain ⟨rs₃,hagain⟩ := settled_run I cs t₂ hk₂ hex hall
  refine ⟨rs₂,t₂,rs₃,hrun,hagain,?_⟩
  constructor
  · rintro rfl w urn mo miid hm hknown hcheck
    rcases hall _ hm with hnone | hbound | hincompatible
    · exact absurd hnone hknown
    · exact hbound
    · rw [hcheck] at hincompatible
      cases hincompatible
  · intro hbound
    have hs : ∀ c ∈ cs, Settled I t₁ c := by
      intro c hc
      cases c with
      | registerDDF rootLeaf fs urn filename url => exact hreg _ _ _ _ _ hc
      | addMO w urn mo miid =>
        by_cases hknown : t₁.MOs.find urn = none
        · exact Or.inl hknown
        · cases hcheck : I.checkDdfNameCompatibility mo urn w with
          | true => exact Or.inr (Or.inl (hbound w urn mo miid hc hknown hcheck))
          | false => exact Or.inr (Or.inr hcheck)
    obtain ⟨rs',hsame⟩ := settled_run I cs t₁ hk₁ hex hs
    rw [hrun] at hsame
    cases hsame
    rfl

theorem setup_replays_sample :
    ∃ rs, callAll noObjects [.registerDDF true sampleFile "u".toList [] [],
        .addMO () "u".toList () "1".toList] (sampleMOTree 1 ["1".toList]) =
      .ok (rs,sampleMOTree 1 ["1".toList]) := by
  obtain ⟨rs₂,t₂,rs₃,hrun,-,hiff⟩ := setup_replays noObjects
    [.registerDDF true sampleFile "u".toList [] [],.addMO () "u".toList () "1".toList]
    (by simp [Explicit]) [] .empty (sampleMOTree 1 ["1".toList]) [] [true,true] rfl rfl
  have hsame : t₂ = sampleMOTree 1 ["1".toList] := by
    apply hiff.mpr
    intro w urn mo miid hm _ _
    simp only [List.mem_cons, List.not_mem_nil, or_false, reduceCtorEq, false_or,
      Call.addMO.injEq] at hm
    obtain ⟨-,rfl,-,rfl⟩ := hm
    simp [binding, sampleMOTree]
  rw [hsame] at hrun
  exact ⟨rs₂,hrun⟩

end Grandma.Replay
