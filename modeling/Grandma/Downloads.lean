import Grandma.ServerUrl
import Grandma.Statuses

/-!
# What a download can go wrong with

A download takes its parameters by their index, without a look at how many
there are; it stores under an address that is cut without a look at where it
ends; and it reports success whenever it has got that far, although nothing has
been stored.
-/

set_option autoImplicit false

namespace Grandma.Downloads
open CommandQueue Helper Statuses Registry

variable {M W : Type}

def Storable (codec : Codec) (t : MOTree M) (clientURI body : Str) : Prop :=
  let delim := find "/".toList clientURI
  let rest := substrPast clientURI delim
  ∀ h, t.MOs.find (substrTo clientURI delim) = some h →
    (codec.dump (.string body)).isSome ∧
      (h.instances.find (substrTo rest (find "/".toList rest)) = none ∨ '/' ∈ rest)

/-- A download does not throw: its server URI can be judged, and if that is
accepted there is a client URI under which the response can be stored. -/
def Downloadable (codec : Codec) (t : MOTree M) (fetch : Fetch) : List Str → Prop
  | [] => False
  | serverURI::rest =>
    match blankURL.parseFromString serverURI with
    | (.error _,_) => False
    | (.ok false,_) => True
    | (.ok true,url) =>
      match rest with
      | [] => False
      | clientURI::_ => ∀ res, fetch url = some res → Storable codec t clientURI res.body

def Executable (codec : Codec) (t : MOTree M) (fetch : Fetch) (c : Command) : Prop :=
  c.type = .HGET → Downloadable codec t fetch c.parameter

theorem nodeSet_storable (codec : Codec) (t : MOTree M) (clientURI body : Str) :
    (∃ b, t.nodeSet codec clientURI (.string body) = .ok b) ↔ Storable codec t clientURI body :=
  Addressing.nodeSet_returns codec t clientURI (.string body)

theorem hget_downloadable (codec : Codec) (t : MOTree M) (fetch : Fetch) (params : List Str)
    (rs : List Status) :
    (∃ ss, doHget codec t fetch params rs = .ok ss) ↔ Downloadable codec t fetch params := by
  obtain ⟨pushed,hrun,hget⟩ := hget_run codec t fetch params
  rw [hget]
  cases hrun with
  | noServer => simp [Except.map, Downloadable]
  | unjudged server rest e url parsed => simp [Except.map, Downloadable, parsed]
  | rejected server rest url parsed => simp [Except.map, Downloadable, parsed]
  | noClient server url parsed => simp [Except.map, Downloadable, parsed]
  | unreachable server client more url parsed lost =>
    simp [Except.map, Downloadable, parsed, lost]
  | thrown server client more url res e parsed got set =>
    have hstore := nodeSet_storable codec t client res.body
    simp [Except.map, Downloadable, parsed, got, ← hstore, set]
  | done server client more url res b parsed got set =>
    have hstore := nodeSet_storable codec t client res.body
    simp [Except.map, Downloadable, parsed, got, ← hstore, set]

theorem command_executable (codec : Codec) (t : MOTree M) (fetch : Fetch) (c : Command)
    (rs : List Status) :
    (∃ ss, doCommand codec t fetch c rs = .ok ss) ↔ Executable codec t fetch c := by
  rw [doCommand, Executable]
  split
  · rename_i hget
    rw [hget, hget_downloadable]
    exact ⟨fun h _ => h,fun h => h rfl⟩
  · rename_i hother
    exact ⟨fun _ h => absurd h hother,fun _ => ⟨_,rfl⟩⟩

/-- The parameters that are looked at are there: the second one is needed only
if the first is accepted. -/
def InBounds : List Str → Prop
  | [] => False
  | [serverURI] => (blankURL.parseFromString serverURI).1 ≠ .ok true
  | _ => True

def Reached (codec : Codec) (t : MOTree M) (net : ℕ → Fetch) (cs : List Command) (i : ℕ) : Prop :=
  ∀ (j : ℕ) (d : Command), j < i → cs[j]? = some d → Executable codec t (net j) d

theorem stoi_thrown (s : Str) (e : Fault) (h : stoi s = .error e) : e.Thrown := by
  simp only [stoi] at h
  split_ifs at h <;> cases h <;> decide

theorem parse_thrown (u : URL) (s : Str) (e : Fault) (h : (u.parseFromString s).1 = .error e) :
    e.Thrown := by
  rcases ServerUrl.parse_cases u s with ⟨hreject,-⟩ | ⟨scheme,t,-,hparse⟩
  · rw [hreject] at h
    cases h
  rw [hparse] at h
  rcases ServerUrl.rest_cases u scheme.protocol t with haccept | ⟨port,e',hport,hthrow⟩
  · rw [haccept] at h
    cases h
  · rw [hthrow] at h
    cases h
    exact stoi_thrown port e hport

theorem locate_thrown (codec : Codec) (h : MOHandler M) (uri : Str) (modata : Json) (e : Fault)
    (hl : h.locate codec uri modata = .error e) : e.Thrown := by
  rw [MOHandler.locate] at hl
  generalize find "/".toList uri = delim at hl
  cases hdump : codec.dump modata with
  | none =>
    simp only [hdump] at hl
    cases hl
    decide
  | some text =>
    simp only [hdump] at hl
    cases hfind : h.instances.find (substrTo uri delim) with
    | none =>
      rw [hfind] at hl
      cases hl
    | some mo =>
      rw [hfind] at hl
      cases delim with
      | none =>
        cases hl
        decide
      | some n => cases hl

theorem nodeSet_thrown (codec : Codec) (t : MOTree M) (uri : Str) (modata : Json) (e : Fault)
    (hset : t.nodeSet codec uri modata = .error e) : e.Thrown := by
  rw [MOTree.nodeSet] at hset
  generalize find "/".toList uri = delim at hset
  cases hfind : t.MOs.find (substrTo uri delim) with
  | none =>
    simp only [hfind] at hset
    cases hset
  | some h =>
    simp only [hfind, MOHandler.nodeSet] at hset
    cases hloc : h.locate codec (substrPast uri delim) modata with
    | error e' =>
      rw [hloc] at hset
      cases hset
      exact locate_thrown codec h _ modata e hloc
    | ok found =>
      rw [hloc] at hset
      cases hset

/-- The behaviour is undefined unless `P` holds, and if it does, whatever goes
wrong is thrown. -/
def DefinedIf {α : Type} (P : Prop) (r : Except Fault α) : Prop :=
  (P ∧ ∀ e, r = .error e → e.Thrown) ∨ (¬ P ∧ r = .error .undefined)

theorem defined_iff {α : Type} (P : Prop) (r : Except Fault α) (h : DefinedIf P r) :
    r ≠ .error .undefined ↔ P := by
  rcases h with ⟨hp,hthrown⟩ | ⟨hp,hundefined⟩
  · exact iff_of_true (fun hr => (hthrown _ hr).1 rfl) hp
  · exact iff_of_false (fun hr => hr hundefined) hp

theorem thrown_iff {α : Type} (P : Prop) (r : Except Fault α) (h : DefinedIf P r) :
    (∀ e, r = .error e → e.Thrown) ↔ P := by
  rcases h with ⟨hp,hthrown⟩ | ⟨hp,hundefined⟩
  · exact iff_of_true hthrown hp
  · exact iff_of_false (fun hr => (hr _ hundefined).1 rfl) hp

theorem defined_ends {α : Type} (P : Prop) (r : Except Fault α) (h : DefinedIf P r) :
    r ≠ .error .diverges := by
  intro hr
  rcases h with ⟨-,hthrown⟩ | ⟨-,hundefined⟩
  · exact (hthrown _ hr).2 rfl
  · rw [hundefined] at hr
    cases hr

theorem hget_defined (codec : Codec) (t : MOTree M) (fetch : Fetch) (params : List Str)
    (rs : List Status) : DefinedIf (InBounds params) (doHget codec t fetch params rs) := by
  obtain ⟨pushed,hrun,hget⟩ := hget_run codec t fetch params
  rw [hget]
  cases hrun with
  | noServer => exact Or.inr ⟨id,rfl⟩
  | noClient server url parsed => exact Or.inr ⟨by simp [InBounds, parsed],rfl⟩
  | unjudged server rest e url parsed =>
    have hthrown := parse_thrown blankURL server e (by rw [parsed])
    have hin : InBounds (server::rest) := by cases rest <;> simp [InBounds, parsed]
    exact Or.inl ⟨hin,by simpa [Except.map] using hthrown⟩
  | rejected server rest url parsed =>
    have hin : InBounds (server::rest) := by cases rest <;> simp [InBounds, parsed]
    exact Or.inl ⟨hin,by simp [Except.map]⟩
  | unreachable server client more url parsed lost =>
    exact Or.inl ⟨trivial,by simp [Except.map]⟩
  | thrown server client more url res e parsed got set =>
    have hthrown := nodeSet_thrown codec t client _ e set
    exact Or.inl ⟨trivial,by simpa [Except.map] using hthrown⟩
  | done server client more url res b parsed got set =>
    exact Or.inl ⟨trivial,by simp [Except.map]⟩

theorem command_defined (codec : Codec) (t : MOTree M) (fetch : Fetch) (c : Command)
    (rs : List Status) :
    DefinedIf (c.type = .HGET → InBounds c.parameter) (doCommand codec t fetch c rs) := by
  rw [doCommand]
  split
  · rename_i hget
    have hin : (c.type = .HGET → InBounds c.parameter) ↔ InBounds c.parameter :=
      ⟨fun h => h hget,fun h _ => h⟩
    rw [hin]
    exact hget_defined codec t fetch c.parameter rs
  · rename_i hother
    exact Or.inl ⟨fun h => absurd h hother,by simp⟩

def AllInBounds (codec : Codec) (t : MOTree M) (net : ℕ → Fetch) (cs : List Command) : Prop :=
  ∀ (i : ℕ) (c : Command), cs[i]? = some c → Reached codec t net cs i →
    c.type = .HGET → InBounds c.parameter

theorem reached_succ (codec : Codec) (t : MOTree M) (net : ℕ → Fetch) (c : Command)
    (cs : List Command) (i : ℕ) : Reached codec t net (c::cs) (i+1) ↔
      Executable codec t (net 0) c ∧ Reached codec t (fun n => net (n+1)) cs i := by
  constructor
  · intro h
    constructor
    · exact h 0 c (Nat.succ_pos i) rfl
    · intro j d hj hd
      exact h (j+1) d (Nat.succ_lt_succ hj) hd
  · rintro ⟨hc,h⟩ j d hj hd
    cases j with
    | zero =>
      cases hd
      exact hc
    | succ j => exact h j d (Nat.lt_of_succ_lt_succ hj) hd

theorem bounds_cons (codec : Codec) (t : MOTree M) (net : ℕ → Fetch) (c : Command)
    (cs : List Command) : AllInBounds codec t net (c::cs) ↔
      (c.type = .HGET → InBounds c.parameter) ∧
        (Executable codec t (net 0) c → AllInBounds codec t (fun n => net (n+1)) cs) := by
  constructor
  · intro h
    constructor
    · exact h 0 c rfl (fun j _ hj => absurd hj (Nat.not_lt_zero j))
    · intro hc i d hd hreach
      exact h (i+1) d hd ((reached_succ codec t net c cs i).mpr ⟨hc,hreach⟩)
  · rintro ⟨hfirst,hrest⟩ i d hd hreach
    cases i with
    | zero =>
      cases hd
      exact hfirst
    | succ i =>
      obtain ⟨hc,hreach⟩ := (reached_succ codec t net c cs i).mp hreach
      exact hrest hc i d hd hreach

theorem execution_defined (codec : Codec) (t : MOTree M) (cs : List Command) (net : ℕ → Fetch)
    (rs : List Status) :
    DefinedIf (AllInBounds codec t net cs) (doCommandsFrom codec t net cs rs).1 := by
  induction cs generalizing net rs with
  | nil => exact Or.inl ⟨fun i c hc => by simp at hc,by simp [doCommandsFrom]⟩
  | cons c cs ih =>
    have hcommand := command_defined codec t (net 0) c rs
    have hexec := command_executable codec t (net 0) c rs
    rw [doCommandsFrom, bounds_cons, ← hexec]
    cases hc : doCommand codec t (net 0) c rs with
    | error e =>
      rw [hc] at hcommand
      simpa [DefinedIf] using hcommand
    | ok ss =>
      have hin := (thrown_iff _ _ hcommand).mp (by simp [hc])
      have hall : ((c.type = .HGET → InBounds c.parameter) ∧
          ((∃ ss', (.ok ss : Except Fault (List Status)) = .ok ss') →
            AllInBounds codec t (fun n => net (n+1)) cs)) ↔
          AllInBounds codec t (fun n => net (n+1)) cs :=
        ⟨fun h => h.2 ⟨ss,rfl⟩,fun h => ⟨hin,fun _ => h⟩⟩
      rw [hall]
      exact ih _ _

/-- Executing the queue never indexes a parameter that is not there exactly
when every HGET that is reached has the parameters it looks at. -/
theorem in_bounds_iff (codec : Codec) (t : MOTree M) (net : ℕ → Fetch) (q : CommandQueue) :
    (q.doCommands codec t net).1 ≠ .error .undefined ↔
      ∀ (i : ℕ) (c : Command), q.commands[i]? = some c → Reached codec t net q.commands i →
        c.type = .HGET → InBounds c.parameter :=
  defined_iff _ _ (execution_defined codec t q.commands net q.responses)

/-- An HGET without parameters is accepted by the parser and then indexed. -/
theorem hget_without_parameters :
    Session.parseP2 (Json.tableCodec [("\x7b\"CMD\":[[\"HGET\"]]\x7d".toList,
        .object [("CMD".toList,.array [.array [.string "HGET".toList]])])])
      "\x7b\"CMD\":[[\"HGET\"]]\x7d".toList .empty = (.ok true,⟨[⟨.HGET,[]⟩],[]⟩) ∧
    (doCommands (Json.tableCodec []) (.empty : MOTree Unit) (fun _ _ => none)
      ⟨[⟨.HGET,[]⟩],[]⟩).1 = .error .undefined :=
  ⟨rfl,rfl⟩

def urnOf (uri : Str) : Str := substrTo uri (find "/".toList uri)

/-- The uri is `urn/miid` for a bound instance, with nothing behind it; without
any separator it is taken for the urn and for the miid. -/
def EndsAtInstance (t : MOTree M) (uri : Str) : Prop :=
  ∃ urn miid, '/' ∉ urn ∧ '/' ∉ miid ∧ binding t urn miid ≠ none ∧
    (uri = urn ++ '/' :: miid ∨ (uri = urn ∧ miid = urn))

theorem cut_unique (a a' b b' : Str) (ha : '/' ∉ a) (ha' : '/' ∉ a')
    (h : a ++ '/' :: b = a' ++ '/' :: b') : a = a' ∧ b = b' := by
  have hcut := cut_at '/' a b ha
  have hcut' := cut_at '/' a' b' ha'
  rw [h] at hcut
  exact ⟨hcut.1.symm.trans hcut'.1,hcut.2.1.symm.trans hcut'.2.1⟩

theorem ends_cut (t : MOTree M) (a b : Str) (ha : '/' ∉ a) :
    EndsAtInstance t (a ++ '/' :: b) ↔ '/' ∉ b ∧ binding t a b ≠ none := by
  constructor
  · rintro ⟨urn,miid,hu,hm,hb,heq | ⟨heq,-⟩⟩
    · obtain ⟨rfl,rfl⟩ := cut_unique a urn b miid ha hu heq
      exact ⟨hm,hb⟩
    · rw [← heq] at hu
      simp at hu
  · intro h
    exact ⟨a,b,ha,h.1,h.2,Or.inl rfl⟩

theorem ends_whole (t : MOTree M) (uri : Str) (hu : '/' ∉ uri) :
    EndsAtInstance t uri ↔ binding t uri uri ≠ none := by
  constructor
  · rintro ⟨urn,miid,-,-,hb,rfl | ⟨rfl,rfl⟩⟩
    · simp at hu
    · exact hb
  · intro h
    exact ⟨uri,uri,hu,hu,h,Or.inr ⟨rfl,rfl⟩⟩

/-- `node_set` returns a boolean exactly when the uri does not end at an
instance and the data can be printed, if the type is registered. -/
theorem addressing_returns_iff (codec : Codec) (t : MOTree M) (uri : Str) (modata : Json) :
    (∃ b, t.nodeSet codec uri modata = .ok b) ↔
      ¬ EndsAtInstance t uri ∧
        (t.MOs.find (urnOf uri) = none ∨ (codec.dump modata).isSome) := by
  have hslash : "/".toList = ['/'] := rfl
  rw [Addressing.nodeSet_returns, urnOf, hslash]
  by_cases hu : '/' ∈ uri
  · obtain ⟨a,b,rfl,ha⟩ := List.eq_append_cons_of_mem hu
    obtain ⟨hto,hpast,-⟩ := cut_at '/' a b ha
    rw [hto, hpast, ends_cut t a b ha, binding]
    cases hfind : t.MOs.find a with
    | none => simp
    | some h =>
      by_cases hb : '/' ∈ b
      · simp [hb]
      · rw [find_char_none '/' b hb, substrTo]
        simp [hb, and_comm]
  · have hnone : find ['/'] uri = none := find_char_none '/' uri hu
    have hwhole : substrTo uri none = uri ∧ substrPast uri none = uri := ⟨rfl,rfl⟩
    rw [hnone, hwhole.1, hwhole.2, hnone, hwhole.1, ends_whole t uri hu, binding]
    cases hfind : t.MOs.find uri with
    | none => simp
    | some h => simp [hu, and_comm]

/-- An advertised instance without a path behind it. -/
theorem address_without_path :
    callAll noObjects [.registerDDF true sampleFile "u".toList [] [],
        .addMO () "u".toList () "1".toList] .empty =
      .ok ([true,true],sampleMOTree 1 ["1".toList]) ∧
    (sampleMOTree 1 ["1".toList]).nodeSet (Json.tableCodec []) "u/1".toList (.string []) =
      .error .outOfRange :=
  ⟨rfl,rfl⟩

/-- The value has arrived: the response is a success, `node_set` says so, and
the instance reports the downloaded text at the path. -/
structure Stored (I : Interface M W) (codec : Codec) (t : MOTree M) (w : W)
    (urn miid path : Str) (res : HttpResponse) : Prop where
  success : 200 ≤ res.status ∧ res.status < 300
  accepted : t.nodeSet codec (urn ++ '/' :: (miid ++ '/' :: path)) (.string res.body) = .ok true
  reported : ∃ (handler : MOHandler M) (mo : M) (node : MOHandler.Node),
    t.MOs.find urn = some handler ∧ handler.instances.find miid = some mo ∧
      handler.findNode (vectorizePath path) = some node ∧
      (I.getVal mo path true true w).1 = (res.body,true,true)

def Honest (I : Interface M W) (codec : Codec) (t : MOTree M) (w : W) (fetch : Fetch)
    (server urn miid path : Str) (more : List Str) : Prop :=
  ∀ rs, doHget codec t fetch (server::(urn ++ '/' :: (miid ++ '/' :: path))::more) rs =
      .ok (rs++[status 200]) →
    ∃ url res, blankURL.parseFromString server = (.ok true,url) ∧ fetch url = some res ∧
      Stored I codec t w urn miid path res

theorem nodeSet_false (codec : Codec) (t : MOTree M) (uri : Str) (modata : Json) :
    t.nodeSet codec uri modata ≠ .ok true := by
  rw [Addressing.nodeSet_locate]
  cases t.locate codec uri modata <;> simp [Except.map]

theorem hget_pushes (codec : Codec) (t : MOTree M) (fetch : Fetch) (server client : Str)
    (more : List Str) (rs : List Status) :
    doHget codec t fetch (server::client::more) rs = .ok (rs++[status 200]) ↔
      ∃ url res, blankURL.parseFromString server = (.ok true,url) ∧ fetch url = some res ∧
        ∃ b, t.nodeSet codec client (.string res.body) = .ok b := by
  obtain ⟨pushed,hrun,hget⟩ := hget_run codec t fetch (server::client::more)
  rw [hget]
  cases hrun with
  | unjudged _ _ e url parsed => simp [Except.map, parsed]
  | rejected _ _ url parsed => simp [Except.map, parsed]
  | unreachable _ _ _ url parsed lost => simp [Except.map, parsed, lost]
  | thrown _ _ _ url res e parsed got set => simp [Except.map, parsed, got, set]
  | done _ _ _ url res b parsed got set => simp [Except.map, parsed, got, set]

theorem path_returns (codec : Codec) (t : MOTree M) (urn miid path : Str) (modata : Json) :
    (∃ b, t.nodeSet codec (urn ++ '/' :: (miid ++ '/' :: path)) modata = .ok b) ↔
      (t.MOs.find (urnOf (urn ++ '/' :: (miid ++ '/' :: path))) = none ∨
        (codec.dump modata).isSome) := by
  have hslash : "/".toList = ['/'] := rfl
  obtain ⟨a,b,hab,ha⟩ := List.eq_append_cons_of_mem
    (show '/' ∈ urn ++ '/' :: (miid ++ '/' :: path) by simp)
  have hb : '/' ∈ b := by
    have hcount := congrArg (List.count '/') hab
    simp only [List.count_append, List.count_cons_self, List.count_eq_zero.mpr ha] at hcount
    exact List.count_pos_iff.mp (by omega)
  obtain ⟨hto,hpast,-⟩ := cut_at '/' a b ha
  rw [Addressing.nodeSet_returns, urnOf, hslash, hab, hto, hpast]
  cases t.MOs.find a with
  | none => simp
  | some h => simp [hb]

/-- Status 200 means a stored value exactly when it is not pushed: when the
server URI is not accepted, nothing comes back, or a registered type cannot
print what comes back. -/
theorem honest_iff_unanswered (I : Interface M W) (codec : Codec) (t : MOTree M) (w : W)
    (fetch : Fetch) (server urn miid path : Str) (more : List Str) :
    Honest I codec t w fetch server urn miid path more ↔
      ¬ ∃ url res, blankURL.parseFromString server = (.ok true,url) ∧ fetch url = some res ∧
        (t.MOs.find (urnOf (urn ++ '/' :: (miid ++ '/' :: path))) = none ∨
          (codec.dump (.string res.body)).isSome) := by
  constructor
  · rintro h ⟨url,res,hparse,hfetch,hprint⟩
    have hset := (path_returns codec t urn miid path (.string res.body)).mpr hprint
    have hpush := (hget_pushes codec t fetch server _ more []).mpr ⟨url,res,hparse,hfetch,hset⟩
    obtain ⟨url',res',-,-,hstored⟩ := h [] hpush
    exact nodeSet_false codec t _ _ hstored.accepted
  · intro h rs hpush
    obtain ⟨url,res,hparse,hfetch,hset⟩ := (hget_pushes codec t fetch server _ more rs).mp hpush
    have hprint := (path_returns codec t urn miid path (.string res.body)).mp hset
    exact absurd ⟨url,res,hparse,hfetch,hprint⟩ h

/-- The server answers 404, and the client reports 200 for an existing node. -/
theorem success_for_not_found :
    ¬ Honest noObjects (Json.tableCodec []) (sampleMOTree 1 ["1".toList]) ()
      (fun _ => some ⟨404,"x".toList⟩) "http://h/f".toList "u".toList "1".toList
      "Ext/Mod".toList [] := by
  intro h
  obtain ⟨url,res,-,hfetch,hstored⟩ := h [] rfl
  cases hfetch
  exact absurd hstored.success.2 (by decide)

end Grandma.Downloads
