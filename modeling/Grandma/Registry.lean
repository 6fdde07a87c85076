import Grandma.MOTree

/-!
# Setting up the tree

The application registers types and adds objects in any order. What one call
does is stated once; from it follows what the registry of bindings from a type
and a miid to an object goes through over any sequence of calls that return.
-/

set_option autoImplicit false

namespace Grandma.Registry
open MOHandler

variable {M W : Type}

inductive Call (M W : Type) where
  | registerDDF (rootLeaf : Bool) (fs : FileSystem) (urn filename ddfUrl : Str)
  | addMO (objects : W) (urn : Str) (mo : M) (miid : Str)

def call (I : Interface M W) (t : MOTree M) : Call M W → Except Fault (Bool × MOTree M)
  | .registerDDF rootLeaf fs urn filename ddfUrl => t.registerDDF rootLeaf fs urn filename ddfUrl
  | .addMO objects urn mo miid => t.addMO I objects urn mo miid

def callAll (I : Interface M W) : List (Call M W) → MOTree M → Except Fault (List Bool × MOTree M)
  | [], t => .ok ([],t)
  | c::cs, t =>
    match call I t c with
    | .error e => .error e
    | .ok (result,t) =>
      match callAll I cs t with
      | .error e => .error e
      | .ok (results,t) => .ok (result::results,t)

def binding (t : MOTree M) (urn miid : Str) : Option M :=
  (t.MOs.find urn).bind (fun h => h.instances.find miid)

def ddf (t : MOTree M) (urn : Str) : Option (Node × Str) :=
  (t.MOs.find urn).map (fun h => (h.root,h.ddfUrl))

def put (t : MOTree M) (urn : Str) (h : MOHandler M) : MOTree M := { t with MOs := t.MOs.set urn h }

theorem find_put (t : MOTree M) (urn : Str) (h : MOHandler M) (u : Str) :
    (put t urn h).MOs.find u = if u = urn then some h else t.MOs.find u := by
  rw [put, OrderedMap.find_set]
  split_ifs <;> rfl

theorem found_put (t : MOTree M) (urn : Str) (h : MOHandler M) (u : Str) (g : MOHandler M)
    (hg : (put t urn h).MOs.find u = some g) :
    (u = urn ∧ g = h) ∨ (u ≠ urn ∧ t.MOs.find u = some g) := by
  rw [find_put] at hg
  by_cases hu : u = urn
  · rw [if_pos hu, Option.some.injEq] at hg
    exact Or.inl ⟨hu,hg.symm⟩
  · rw [if_neg hu] at hg
    exact Or.inr ⟨hu,hg⟩

theorem absent_put (t : MOTree M) (urn : Str) (h : MOHandler M) (u : Str)
    (hu : (put t urn h).MOs.find u = none) : u ≠ urn ∧ t.MOs.find u = none := by
  rw [find_put] at hu
  by_cases hne : u = urn
  · rw [if_pos hne] at hu
    cases hu
  · rw [if_neg hne] at hu
    exact ⟨hne,hu⟩

/-- Everything that a call which returns can do. -/
inductive Effect (I : Interface M W) (t : MOTree M) : Call M W → Bool → MOTree M → Prop
  | again (rootLeaf : Bool) (fs : FileSystem) (urn filename url : Str) (h : MOHandler M)
      (known : t.MOs.find urn = some h) :
      Effect I t (.registerDDF rootLeaf fs urn filename url) true t
  | unreadable (rootLeaf : Bool) (fs : FileSystem) (urn filename url : Str) :
      Effect I t (.registerDDF rootLeaf fs urn filename url) false t
  | register (rootLeaf : Bool) (fs : FileSystem) (urn filename url : Str) (h : MOHandler M)
      (fresh : t.MOs.find urn = none)
      (loaded : (MOHandler.new rootLeaf urn url).generateTreeFromDdf (fs filename) = .ok (true,h)) :
      Effect I t (.registerDDF rootLeaf fs urn filename url) true (put t urn h)
  | unknown (w : W) (urn : Str) (mo : M) (miid : Str) :
      Effect I t (.addMO w urn mo miid) false t
  | refuse (w : W) (urn : Str) (mo : M) (miid : Str) (h : MOHandler M) (next : UInt32)
      (known : t.MOs.find urn = some h) :
      Effect I t (.addMO w urn mo miid) false (put t urn { h with nextMiid := next })
  | add (w : W) (urn : Str) (mo : M) (miid chosen : Str) (h : MOHandler M) (next : UInt32)
      (known : t.MOs.find urn = some h) (fresh : h.instances.find chosen = none)
      (given : miid ≠ [] → chosen = miid) (compatible : I.checkDdfNameCompatibility mo h.urn w) :
      Effect I t (.addMO w urn mo miid) true
        (put t urn { h with nextMiid := next, instances := h.instances.set chosen mo })

theorem autoMiid_fresh (instances : OrderedMap Str M) (fuel : ℕ) (next next' : UInt32) (miid : Str)
    (h : autoMiid instances fuel next = some (miid,next')) : instances.find miid = none := by
  induction fuel generalizing next with
  | zero => simp [autoMiid] at h
  | succ fuel ih =>
    rw [autoMiid] at h
    split at h
    · exact ih _ h
    · rename_i hfree
      cases Option.some.inj h
      exact hfree

theorem chosen_fresh (h : MOHandler M) (miid chosen : Str) (next : UInt32)
    (hc : h.chooseMiid miid = .ok (some (chosen,next))) :
    h.instances.find chosen = none ∧ (miid ≠ [] → chosen = miid) := by
  by_cases hm : miid = []
  · rw [chooseMiid, if_pos hm] at hc
    split at hc
    · rename_i choice hauto
      cases hc
      exact ⟨autoMiid_fresh _ _ _ _ _ hauto,fun hne => absurd hm hne⟩
    · cases hc
  · rw [chooseMiid, if_neg hm] at hc
    split at hc
    · cases hc
    · rename_i hfree
      cases hc
      exact ⟨hfree,fun _ => rfl⟩

theorem generate_urn (h h' : MOHandler M) (file : Option XMLDocument) (b : Bool)
    (hg : h.generateTreeFromDdf file = .ok (b,h')) :
    h'.urn = h.urn ∧ h'.ddfUrl = h.ddfUrl ∧ h'.instances = h.instances := by
  obtain ⟨-,-,rfl⟩ | ⟨-,e,uri,-,-,rfl⟩ := generate_cases h h' file b hg
  · exact ⟨rfl,rfl,rfl⟩
  · exact ⟨rfl,rfl,rfl⟩

theorem add_cases (I : Interface M W) (w : W) (h h' : MOHandler M) (mo : M) (miid : Str) (b : Bool)
    (ha : h.addInstance I w mo miid = .ok (b,h')) :
    (b = false ∧ ∃ next, h' = { h with nextMiid := next }) ∨
    (b = true ∧ ∃ chosen next, h.instances.find chosen = none ∧ (miid ≠ [] → chosen = miid) ∧
      I.checkDdfNameCompatibility mo h.urn w ∧
      h' = { h with nextMiid := next, instances := h.instances.set chosen mo }) := by
  rw [addInstance] at ha
  rcases hchoice : h.chooseMiid miid with e | _ | ⟨chosen,next⟩
  · rw [hchoice] at ha
    cases ha
  · rw [hchoice] at ha
    cases ha
    exact Or.inl ⟨rfl,h.nextMiid,rfl⟩
  · rw [hchoice] at ha
    simp only at ha
    obtain ⟨hfree,hgiven⟩ := chosen_fresh h miid chosen next hchoice
    split_ifs at ha with hcompat
    · cases ha
      exact Or.inr ⟨rfl,chosen,next,hfree,hgiven,hcompat,rfl⟩
    · cases ha
      exact Or.inl ⟨rfl,next,rfl⟩

theorem call_effect (I : Interface M W) (t t' : MOTree M) (c : Call M W) (r : Bool)
    (h : call I t c = .ok (r,t')) : Effect I t c r t' := by
  cases c with
  | registerDDF rootLeaf fs urn filename url =>
    simp only [call, MOTree.registerDDF] at h
    split at h
    · rename_i handler hknown
      cases h
      exact .again _ _ _ _ _ handler hknown
    · rename_i hfresh
      split at h
      · cases h
      · rename_i handler hloaded
        cases h
        rw [OrderedMap.insert_fresh _ _ _ hfresh]
        exact .register _ _ _ _ _ handler hfresh hloaded
      · cases h
        exact .unreadable _ _ _ _ _
  | addMO w urn mo miid =>
    simp only [call, MOTree.addMO] at h
    split at h
    · cases h
      exact .unknown _ _ _ _
    · rename_i handler hknown
      split at h
      · cases h
      · rename_i handler' hadd
        cases h
        obtain ⟨rfl,next,rfl⟩ | ⟨rfl,chosen,next,hfree,hgiven,hcompat,rfl⟩ :=
          add_cases I w handler handler' mo miid r hadd
        · exact .refuse _ _ _ _ handler next hknown
        · exact .add _ _ _ _ chosen handler next hknown hfree hgiven hcompat

/-- What every call preserves holds after every sequence of calls. -/
theorem run_preserves (I : Interface M W) (P : MOTree M → Prop)
    (hstep : ∀ t c r t', P t → Effect I t c r t' → P t') (cs : List (Call M W))
    (t t' : MOTree M) (rs : List Bool) (ht : P t) (h : callAll I cs t = .ok (rs,t')) : P t' := by
  induction cs generalizing t rs with
  | nil =>
    cases h
    exact ht
  | cons c cs ih =>
    rw [callAll] at h
    split at h
    · cases h
    · rename_i r s hcall
      split at h
      · cases h
      · rename_i results s' hrest
        cases h
        exact ih s results (hstep t c r s ht (call_effect I t s c r hcall)) hrest

theorem binding_put (t : MOTree M) (urn : Str) (h : MOHandler M) (u m : Str) :
    binding (put t urn h) u m = if u = urn then h.instances.find m else binding t u m := by
  rw [binding, find_put]
  split_ifs <;> rfl

theorem ddf_put (t : MOTree M) (urn : Str) (h : MOHandler M) (u : Str) :
    ddf (put t urn h) u = if u = urn then some (h.root,h.ddfUrl) else ddf t u := by
  rw [ddf, find_put]
  split_ifs <;> rfl

theorem bindings_kept (I : Interface M W) (t t' : MOTree M) (c : Call M W) (r : Bool)
    (h : Effect I t c r t') (hc : r = true → ∃ b fs u f url, c = .registerDDF b fs u f url)
    (u m : Str) : binding t' u m = binding t u m := by
  cases h with
  | again | unreadable | unknown => rfl
  | register rootLeaf fs urn filename url handler fresh loaded =>
    have hempty := (generate_urn _ _ _ _ loaded).2.2
    rw [binding_put, hempty]
    by_cases hu : u = urn
    · rw [if_pos hu, binding, hu, fresh]
      rfl
    · rw [if_neg hu]
  | refuse w urn mo miid handler next known =>
    rw [binding_put]
    by_cases hu : u = urn
    · rw [if_pos hu, binding, hu, known]
      rfl
    · rw [if_neg hu]
  | add =>
    have h := hc rfl
    simp at h

theorem ddf_kept (I : Interface M W) (t t' : MOTree M) (c : Call M W) (r : Bool)
    (h : Effect I t c r t') (u : Str)
    (hc : ∀ b fs f url, c = .registerDDF b fs u f url → r = true → ddf t u ≠ none) :
    ddf t' u = ddf t u := by
  cases h with
  | again | unreadable | unknown => rfl
  | register rootLeaf fs urn filename url handler fresh loaded =>
    have hne : u ≠ urn := by
      intro hu
      subst hu
      apply hc _ _ _ _ rfl rfl
      rw [ddf, fresh]
      rfl
    rw [ddf_put, if_neg hne]
  | refuse w urn mo miid handler next known =>
    rw [ddf_put]
    by_cases hu : u = urn
    · rw [if_pos hu, ddf, hu, known]
      rfl
    · rw [if_neg hu]
  | add w urn mo miid chosen handler next known fresh given compatible =>
    rw [ddf_put]
    by_cases hu : u = urn
    · rw [if_pos hu, ddf, hu, known]
      rfl
    · rw [if_neg hu]

theorem add_binds (I : Interface M W) (t t' : MOTree M) (w : W) (urn : Str) (mo : M) (miid : Str)
    (h : Effect I t (.addMO w urn mo miid) true t') :
    ∃ chosen, binding t urn chosen = none ∧ (miid ≠ [] → chosen = miid) ∧
      ∀ u m, binding t' u m = if u = urn ∧ m = chosen then some mo else binding t u m := by
  cases h with
  | add w urn mo miid chosen handler next known fresh given compatible =>
    have hold : ∀ m, binding t urn m = handler.instances.find m := by
      intro m
      rw [binding, known, Option.bind_some]
    have hfree : binding t urn chosen = none := by rw [hold, fresh]
    have hnew : ∀ u m, binding (put t urn
        { handler with nextMiid := next, instances := handler.instances.set chosen mo }) u m =
          if u = urn ∧ m = chosen then some mo else binding t u m := by
      intro u m
      rw [binding_put]
      by_cases hu : u = urn
      · subst hu
        rw [if_pos rfl, OrderedMap.find_set, hold]
        simp
      · rw [if_neg hu, if_neg (fun h => hu h.1)]
    exact ⟨chosen,hfree,given,hnew⟩

theorem binding_grows (I : Interface M W) (t t' : MOTree M) (c : Call M W) (r : Bool)
    (h : Effect I t c r t') (u m : Str) (mo : M) (hb : binding t u m = some mo) :
    binding t' u m = some mo := by
  by_cases hc : r = true → ∃ b fs u f url, c = .registerDDF b fs u f url
  · rw [bindings_kept I t t' c r h hc, hb]
  · rw [Classical.not_imp] at hc
    obtain ⟨rfl,hadd⟩ := hc
    cases c with
    | registerDDF b fs urn f url => exact absurd ⟨b,fs,urn,f,url,rfl⟩ hadd
    | addMO w urn new miid =>
      obtain ⟨chosen,hfree,-,hnew⟩ := add_binds I t t' w urn new miid h
      have hother : ¬(u = urn ∧ m = chosen) := by
        rintro ⟨rfl,rfl⟩
        rw [hfree] at hb
        cases hb
      rw [hnew, if_neg hother, hb]

theorem ddf_grows (I : Interface M W) (t t' : MOTree M) (c : Call M W) (r : Bool)
    (h : Effect I t c r t') (u : Str) (d : Node × Str) (hd : ddf t u = some d) :
    ddf t' u = some d := by
  rw [ddf_kept I t t' c r h u, hd]
  intro _ _ _ _ _ _
  rw [hd]
  exact Option.some_ne_none d

theorem first_registration (I : Interface M W) (t t' : MOTree M) (rootLeaf : Bool)
    (fs : FileSystem) (urn filename url : Str) (hfirst : ddf t urn = none)
    (h : Effect I t (.registerDDF rootLeaf fs urn filename url) true t') :
    ∃ handler : MOHandler M, (MOHandler.new rootLeaf urn url).generateTreeFromDdf (fs filename) =
      .ok (true,handler) ∧ ddf t' urn = some (handler.root,url) := by
  cases h with
  | again _ _ _ _ _ handler known => simp [ddf, known] at hfirst
  | register _ _ _ _ _ handler fresh loaded =>
    have hd : ddf (put t urn handler) urn = some (handler.root,url) := by
      rw [ddf_put, if_pos rfl, (generate_urn _ _ _ _ loaded).2.1]
      rfl
    exact ⟨handler,loaded,hd⟩

/-- At any point of the set-up and whatever calls come later: an add that
succeeds makes exactly one binding and the miid was free, no binding is ever
lost or changed, a call that fails and a second registration change nothing,
and a type keeps what its first registration gave it. -/
theorem registry_only_grows (I : Interface M W) (c : Call M W) (later : List (Call M W))
    (t t' t'' : MOTree M) (r : Bool) (rs : List Bool) (hcall : call I t c = .ok (r,t'))
    (hlater : callAll I later t' = .ok (rs,t'')) :
    (∀ w urn mo miid, c = .addMO w urn mo miid → r = true →
      ∃ chosen, binding t urn chosen = none ∧ (miid ≠ [] → chosen = miid) ∧
        ∀ u m, binding t' u m = if u = urn ∧ m = chosen then some mo else binding t u m) ∧
    (∀ u m mo, binding t u m = some mo ∨ binding t' u m = some mo →
      binding t'' u m = some mo) ∧
    (r = false ∨ (∃ b fs u f url, c = .registerDDF b fs u f url ∧ ddf t u ≠ none) →
      (∀ u m, binding t' u m = binding t u m) ∧ ∀ u, ddf t' u = ddf t u) ∧
    (∀ b fs urn f url, c = .registerDDF b fs urn f url → ddf t urn = none → r = true →
      ∃ h : MOHandler M, (MOHandler.new b urn url).generateTreeFromDdf (fs f) = .ok (true,h) ∧
        ddf t'' urn = some (h.root,url)) := by
  have heffect := call_effect I t t' c r hcall
  constructor
  · intro w urn mo miid hc hr
    subst hc hr
    exact add_binds I t t' w urn mo miid heffect
  constructor
  · intro u m mo hb
    have hb' : binding t' u m = some mo :=
      hb.elim (binding_grows I t t' c r heffect u m mo) id
    exact run_preserves I (fun s => binding s u m = some mo)
      (fun s c r s' hs he => binding_grows I s s' c r he u m mo hs) later t' t'' rs hb' hlater
  constructor
  · intro hc
    constructor
    · apply bindings_kept I t t' c r heffect
      intro hr
      rcases hc with hf | ⟨b,fs,u,f,url,rfl,-⟩
      · rw [hr] at hf
        cases hf
      · exact ⟨b,fs,u,f,url,rfl⟩
    · intro u
      apply ddf_kept I t t' c r heffect u
      rintro b fs f url rfl hr
      rcases hc with hf | ⟨b',fs',u',f',url',heq,hknown⟩
      · rw [hr] at hf
        cases hf
      · cases heq
        exact hknown
  · intro b fs urn f url hc hfirst hr
    subst hc hr
    obtain ⟨h,hload,hd⟩ := first_registration I t t' b fs urn f url hfirst heffect
    have hd' := run_preserves I (fun s => ddf s urn = some (h.root,url))
      (fun s c r s' hs he => ddf_grows I s s' c r he urn _ hs) later t' t'' rs hd hlater
    exact ⟨h,hload,hd'⟩

def sampleMOTree (next : UInt32) (miids : List Str) : MOTree Unit :=
  { MOs := OrderedMap.empty.set "u".toList
      { sampleHandler with nextMiid := next,
                           instances := miids.foldl (fun is miid => is.set miid ()) .empty } }

theorem registry_only_grows_numbered :
    (∃ chosen, binding (sampleMOTree 1 ["1".toList]) "u".toList chosen = none ∧
      (([] : Str) ≠ [] → chosen = []) ∧
      ∀ u m, binding (sampleMOTree 3 ["1".toList,"2".toList]) u m =
        if u = "u".toList ∧ m = chosen then some ()
        else binding (sampleMOTree 1 ["1".toList]) u m) ∧
    binding (sampleMOTree 3 ["1".toList,"2".toList]) "u".toList "1".toList = some () :=
  have h := registry_only_grows noObjects (.addMO () "u".toList () [])
    [.registerDDF false sampleFile "u".toList [] "url".toList,.addMO () "u".toList () "2".toList]
    (sampleMOTree 1 ["1".toList]) (sampleMOTree 3 ["1".toList,"2".toList])
    (sampleMOTree 3 ["1".toList,"2".toList]) true [true,false] rfl rfl
  ⟨h.1 () "u".toList () [] rfl rfl,h.2.1 "u".toList "1".toList () (Or.inl rfl)⟩

end Grandma.Registry
