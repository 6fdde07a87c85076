import Grandma.Addressing
import Grandma.Session

/-!
# One status for every command

The server matches statuses to commands by position, so every command has to
push exactly one. Commands that are not implemented push their refusal; a
download pushes a status only when it has gone through, and a download that
fails leaves a gap which the statuses behind it move into.
-/

set_option autoImplicit false

namespace Grandma.Statuses
open CommandQueue Session Helper

variable {M : Type}

def commandName : CommandType → Str
  | .END => "END".toList
  | .CONT => "CONT".toList
  | .HGET => "HGET".toList
  | .HPUT => "HPUT".toList
  | .HPOST => "HPOST".toList
  | .DELETE => "DELETE".toList
  | .EXEC => "EXEC".toList
  | .GET => "GET".toList
  | .SHOW => "SHOW".toList
  | .DEFAULT => "DEFAULT".toList
  | .SUB => "SUB".toList
  | .UNSUB => "UNSUB".toList

def commandJson (c : Command) : Json :=
  .array (.string (commandName c.type)::c.parameter.map Json.string)

/-- An HGET has a server URI that can be judged and a client URI of the form
`urn/miid/path`, cut at its first two separators. -/
def WellFormed (c : Command) : Prop :=
  c.type ≠ .END ∧ (c.type = .HGET → ∃ (server urn miid path : Str) (accepted : Bool),
    c.parameter = [server,urn ++ '/' :: (miid ++ '/' :: path)] ∧ '/' ∉ urn ∧ '/' ∉ miid ∧
      (blankURL.parseFromString server).1 = .ok accepted)

structure Package where
  text : Str
  commands : List Command
  net : ℕ → Fetch

def IsPackage (codec : Codec) (p : Package) : Prop :=
  (∃ j, codec.parse p.text = .ok j ∧
    j.member "CMD".toList = .ok (.array (p.commands.map commandJson))) ∧
  ∀ c ∈ p.commands, WellFormed c

def serve (codec : Codec) (t : MOTree M) (p : Package) (q : CommandQueue) :
    Except Fault Json × CommandQueue :=
  match parseP2 codec p.text q with
  | (.error e,q) => (.error e,q)
  | (.ok _,q) =>
    match q.doCommands codec t p.net with
    | (.error e,q) => (.error e,q)
    | (.ok (),q) => let (status,q) := q.p3SCJson; (.ok status,q)

def Pushes (codec : Codec) (t : MOTree M) (fetch : Fetch) (c : Command) (s : Status) : Prop :=
  doCommand codec t fetch c [] = .ok [s]

/-- The report has one entry for every command of the package, and the `i`-th
entry is the status of the `i`-th command. -/
def Matched (codec : Codec) (t : MOTree M) (p : Package) (result : Except Fault Json) : Prop :=
  ∃ report, result = .ok report ∧ report.elements.length = p.commands.length ∧
    ∀ (i : ℕ) (c : Command), p.commands[i]? = some c →
      ∃ s, Pushes codec t (p.net i) c s ∧ report.elements[i]? = some (statusJson s)

def AllMatched (codec : Codec) (t : MOTree M) : List Package → CommandQueue → Prop
  | [], _ => True
  | p::ps, q => Matched codec t p (serve codec t p q).1 ∧ AllMatched codec t ps (serve codec t p q).2

/-- The download goes through: the server URI is accepted, there is a response,
and its body can be printed if the type that it is meant for is registered. -/
def Fulfilled (codec : Codec) (t : MOTree M) (fetch : Fetch) (c : Command) : Prop :=
  c.type = .HGET → ∀ server client, c.parameter = [server,client] →
    ∃ url res, blankURL.parseFromString server = (.ok true,url) ∧ fetch url = some res ∧
      (t.MOs.find (substrTo client (find "/".toList client)) = none ∨
        (codec.dump (.string res.body)).isSome)

theorem type_name (type : CommandType) (h : type ≠ .END) :
    commandType (.string (commandName type)) = some type ∧
      (Json.string (commandName type)).equalsText "END".toList = false := by
  cases type with
  | END => exact absurd rfl h
  | _ => exact ⟨by decide,by decide⟩

theorem parameters_strings (ss : List Str) : parameters (ss.map Json.string) = .ok ss := by
  induction ss with
  | nil => rfl
  | cons s ss ih =>
    rw [List.map_cons, parameters, ih]
    rfl

theorem decode_command (c : Command) (h : c.type ≠ .END) :
    decodeCommand (commandJson c) = .ok (.push c) := by
  obtain ⟨hname,hend⟩ := type_name c.type h
  rw [commandJson, decode_array, hend, parameters_strings, hname]
  rfl

theorem parse_commands (cs : List Command) (h : ∀ c ∈ cs, c.type ≠ .END) (b : Bool)
    (q : CommandQueue) :
    parseCommands b (cs.map commandJson) q = (.ok b,{ q with commands := q.commands++cs }) := by
  induction cs generalizing q with
  | nil => simp [parseCommands]
  | cons c cs ih =>
    rw [List.map_cons, parseCommands, decode_command c (h c (by simp))]
    simp only [ih (fun d hd => h d (by simp [hd])), pushCommand, List.append_assoc,
      List.singleton_append]

theorem parse_package (codec : Codec) (p : Package) (hp : IsPackage codec p) (q : CommandQueue) :
    parseP2 codec p.text q = (.ok true,{ q with commands := q.commands++p.commands }) := by
  obtain ⟨⟨j,hj,hcmd⟩,hwf⟩ := hp
  rw [parseP2, hj]
  simp only [hcmd, Json.elements]
  exact parse_commands p.commands (fun c hc => (hwf c hc).1) true q

theorem command_appends (codec : Codec) (t : MOTree M) (fetch : Fetch) (c : Command)
    (rs : List Status) :
    doCommand codec t fetch c rs = (doCommand codec t fetch c []).map (fun new => rs++new) := by
  rw [doCommand, doCommand]
  split
  · obtain ⟨pushed,-,hget⟩ := hget_run codec t fetch c.parameter
    rw [hget, hget]
    cases pushed <;> rfl
  · rfl

theorem commands_statuses (codec : Codec) (t : MOTree M) (cs : List Command) (net : ℕ → Fetch)
    (rs : List Status) (h : ∀ (i : ℕ) (c : Command), cs[i]? = some c →
      ∃ s, Pushes codec t (net i) c s) :
    ∃ ss, doCommandsFrom codec t net cs rs = (.ok (),{ commands := [], responses := rs++ss }) ∧
      ss.length = cs.length ∧ ∀ (i : ℕ) (c : Command), cs[i]? = some c →
        ∃ s, Pushes codec t (net i) c s ∧ ss[i]? = some s := by
  induction cs generalizing net rs with
  | nil => exact ⟨[],by simp [doCommandsFrom],rfl,by simp⟩
  | cons c cs ih =>
    obtain ⟨s,hs⟩ := h 0 c rfl
    obtain ⟨ss,hrun,hlen,hss⟩ := ih (fun n => net (n+1)) (rs++[s]) (fun i d hd => h (i+1) d hd)
    have hc : doCommand codec t (net 0) c rs = .ok (rs++[s]) := by
      rw [command_appends, hs]
      rfl
    have hrun' : doCommandsFrom codec t net (c::cs) rs =
        (.ok (),{ commands := [], responses := rs++s::ss }) := by
      rw [doCommandsFrom, hc]
      simp only [hrun, List.append_assoc, List.singleton_append]
    have hss' : ∀ (i : ℕ) (d : Command), (c::cs)[i]? = some d →
        ∃ s', Pushes codec t (net i) d s' ∧ (s::ss)[i]? = some s' := by
      intro i d hd
      cases i with
      | zero =>
        cases hd
        exact ⟨s,hs,rfl⟩
      | succ i => exact hss i d hd
    exact ⟨s::ss,hrun',by simp [hlen],hss'⟩

theorem nodeSet_prints (codec : Codec) (t : MOTree M) (urn miid path : Str) (modata : Json)
    (hu : '/' ∉ urn) (hm : '/' ∉ miid) :
    (∃ b, t.nodeSet codec (urn ++ '/' :: (miid ++ '/' :: path)) modata = .ok b) ↔
      (t.MOs.find urn = none ∨ (codec.dump modata).isSome) := by
  rw [Addressing.nodeSet_locate, Addressing.tree_cut _ _ _ _ _ hu]
  cases t.MOs.find urn with
  | none => simp [Except.map]
  | some handler =>
    simp only
    rw [Addressing.handler_cut _ _ _ _ _ hm]
    cases codec.dump modata with
    | none => simp [Except.map]
    | some text => cases handler.instances.find miid <;> simp [Except.map]

theorem download_pushes (codec : Codec) (t : MOTree M) (fetch : Fetch)
    (server urn miid path : Str) (hu : '/' ∉ urn) (hm : '/' ∉ miid) :
    (∃ s, doHget codec t fetch [server,urn ++ '/' :: (miid ++ '/' :: path)] [] = .ok [s]) ↔
      ∃ url res, blankURL.parseFromString server = (.ok true,url) ∧ fetch url = some res ∧
        (t.MOs.find urn = none ∨ (codec.dump (.string res.body)).isSome) := by
  obtain ⟨pushed,hrun,hget⟩ :=
    hget_run codec t fetch [server,urn ++ '/' :: (miid ++ '/' :: path)]
  rw [hget]
  cases hrun with
  | unjudged _ _ e url parsed => simp [Except.map, parsed]
  | rejected _ _ url parsed => simp [Except.map, parsed]
  | unreachable _ _ _ url parsed lost => simp [Except.map, parsed, lost]
  | thrown _ _ _ url res e parsed got set =>
    have hprint := nodeSet_prints codec t urn miid path (.string res.body) hu hm
    simp [Except.map, parsed, got, ← hprint, set]
  | done _ _ _ url res b parsed got set =>
    have hprint := nodeSet_prints codec t urn miid path (.string res.body) hu hm
    simp [Except.map, parsed, got, ← hprint, set]

theorem pushes_iff (codec : Codec) (t : MOTree M) (fetch : Fetch) (c : Command)
    (hc : WellFormed c) : (∃ s, Pushes codec t fetch c s) ↔ Fulfilled codec t fetch c := by
  by_cases hget : c.type = .HGET
  · obtain ⟨server,urn,miid,path,-,hparams,hu,hm,-⟩ := hc.2 hget
    have hcut := (cut_at '/' urn (miid ++ '/' :: path) hu).1
    have hslash : "/".toList = ['/'] := rfl
    have hdown := download_pushes codec t fetch server urn miid path hu hm
    simp only [Pushes, doCommand, hget, hparams]
    rw [hdown, Fulfilled, hparams, hslash]
    constructor
    · intro h _ server' client heq
      simp only [List.cons.injEq, and_true] at heq
      rw [← heq.1, ← heq.2, hcut]
      exact h
    · intro h
      have h := h hget server _ rfl
      rwa [hcut] at h
  · constructor
    · intro _ h
      exact absurd h hget
    · intro _
      have hrefused : Pushes codec t fetch c (status 501) := by
        rw [Pushes, doCommand]
        split
        · rename_i h
          exact absurd h hget
        · rfl
      exact ⟨_,hrefused⟩

theorem serve_matched (codec : Codec) (t : MOTree M) (p : Package) (hp : IsPackage codec p)
    (h : ∀ (i : ℕ) (c : Command), p.commands[i]? = some c → Fulfilled codec t (p.net i) c) :
    Matched codec t p (serve codec t p .empty).1 ∧ (serve codec t p .empty).2 = .empty := by
  have hpush : ∀ (i : ℕ) (c : Command), p.commands[i]? = some c →
      ∃ s, Pushes codec t (p.net i) c s :=
    fun i c hc => (pushes_iff codec t _ c (hp.2 c (List.mem_of_getElem? hc))).mpr (h i c hc)
  obtain ⟨ss,hrun,hlen,hss⟩ := commands_statuses codec t p.commands p.net [] hpush
  have hserve : serve codec t p .empty = (.ok (.ofElems (ss.map statusJson)),.empty) := by
    rw [serve, parse_package codec p hp]
    simp only [doCommands, CommandQueue.empty, List.nil_append, hrun]
    rfl
  have hentries : ∀ (i : ℕ) (c : Command), p.commands[i]? = some c → ∃ s,
      Pushes codec t (p.net i) c s ∧
        (Json.ofElems (ss.map statusJson)).elements[i]? = some (statusJson s) := by
    intro i c hc
    obtain ⟨s,hs,hi⟩ := hss i c hc
    exact ⟨s,hs,by simp [hi]⟩
  rw [hserve]
  exact ⟨⟨_,rfl,by simp [hlen],hentries⟩,rfl⟩

/-- Over any run from an empty queue every command gets its status in its place
exactly when every download goes through. -/
theorem matched_iff_fulfilled (codec : Codec) (t : MOTree M) (ps : List Package)
    (hps : ∀ p ∈ ps, IsPackage codec p) :
    AllMatched codec t ps .empty ↔
      ∀ p ∈ ps, ∀ (i : ℕ) (c : Command), p.commands[i]? = some c →
        Fulfilled codec t (p.net i) c := by
  induction ps with
  | nil => simp [AllMatched]
  | cons p ps ih =>
    have ih := ih (fun q hq => hps q (by simp [hq]))
    have hp := hps p (by simp)
    constructor
    · intro h
      have hful : ∀ (i : ℕ) (c : Command), p.commands[i]? = some c →
          Fulfilled codec t (p.net i) c := by
        intro i c hc
        obtain ⟨report,-,-,hall⟩ := h.1
        obtain ⟨s,hs,-⟩ := hall i c hc
        exact (pushes_iff codec t _ c (hp.2 c (List.mem_of_getElem? hc))).mp ⟨s,hs⟩
      have hrest := h.2
      rw [(serve_matched codec t p hp hful).2] at hrest
      intro q hq
      rcases List.mem_cons.mp hq with rfl | hq
      · exact hful
      · exact ih.mp hrest q hq
    · intro h
      have hserve := serve_matched codec t p hp (h p (by simp))
      have hrest := ih.mpr (fun q hq => h q (by simp [hq]))
      rw [← hserve.2] at hrest
      exact ⟨hserve.1,hrest⟩

def sampleCommands (server : Str) : List Command :=
  [⟨.HGET,[server,"u/m/p".toList]⟩,⟨.GET,[]⟩]

def sampleJson (server : Str) : Json :=
  .object [("CMD".toList,.array ((sampleCommands server).map commandJson))]

def samplePackage (server : Str) (fetch : Fetch) : Package :=
  { text := (sampleJson server).print, commands := sampleCommands server, net := fun _ => fetch }

def sampleCodec (server : Str) : Codec :=
  Json.tableCodec [((sampleJson server).print,sampleJson server)]

theorem sample_package (server : Str) (fetch : Fetch) (accepted : Bool)
    (h : (blankURL.parseFromString server).1 = .ok accepted) :
    IsPackage (sampleCodec server) (samplePackage server fetch) := by
  have hparse : (sampleCodec server).parse (samplePackage server fetch).text =
      .ok (sampleJson server) := by
    rw [sampleCodec, Json.tableCodec, samplePackage]
    simp [OrderedMap.lookup]
  constructor
  · exact ⟨sampleJson server,hparse,rfl⟩
  · intro c hc
    simp only [samplePackage, sampleCommands, List.mem_cons, List.not_mem_nil, or_false] at hc
    rcases hc with rfl | rfl
    · exact ⟨(by simp),fun _ => ⟨server,['u'],['m'],['p'],accepted,rfl,by decide,by decide,h⟩⟩
    · exact ⟨(by decide),(by simp)⟩

theorem sample_fulfilled (res : HttpResponse) (i : ℕ) (c : Command)
    (hc : (sampleCommands "http://h/f".toList)[i]? = some c) :
    Fulfilled (sampleCodec "http://h/f".toList) (.empty : MOTree Unit) (fun _ => some res) c := by
  have hmem := List.mem_of_getElem? hc
  simp only [sampleCommands, List.mem_cons, List.not_mem_nil, or_false] at hmem
  rcases hmem with rfl | rfl
  · intro _ server client hparams
    cases hparams
    exact ⟨⟨.HTTP,['h'],8080,['/','f']⟩,res,rfl,rfl,Or.inl rfl⟩
  · intro h
    cases h

theorem matched_iff_fulfilled_sample :
    AllMatched (sampleCodec "http://h/f".toList) (.empty : MOTree Unit)
      [samplePackage "http://h/f".toList (fun _ => some ⟨200,"x".toList⟩),
        samplePackage "http://h/f".toList (fun _ => some ⟨404,[]⟩)] .empty :=
  (matched_iff_fulfilled (sampleCodec "http://h/f".toList) .empty
    [samplePackage "http://h/f".toList (fun _ => some ⟨200,"x".toList⟩),
      samplePackage "http://h/f".toList (fun _ => some ⟨404,[]⟩)]
    (List.forall_mem_cons.mpr ⟨sample_package _ _ true rfl,
      List.forall_mem_singleton.mpr (sample_package _ _ true rfl)⟩)).mpr
    (List.forall_mem_cons.mpr ⟨sample_fulfilled _,
      List.forall_mem_singleton.mpr (sample_fulfilled _)⟩)

/-- The server URI is rejected, and the only status is that of the second command. -/
theorem gap_after_rejected_uri :
    IsPackage (sampleCodec "x".toList) (samplePackage "x".toList (fun _ => none)) ∧
      ¬ AllMatched (sampleCodec "x".toList) (.empty : MOTree Unit)
        [samplePackage "x".toList (fun _ => none)] .empty := by
  constructor
  · exact sample_package _ _ false rfl
  · rintro ⟨⟨report,hreport,hlen,-⟩,-⟩
    cases hreport
    exact absurd hlen (by decide)

end Grandma.Statuses
