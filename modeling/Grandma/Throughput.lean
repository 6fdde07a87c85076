import Grandma.Isolation
import Grandma.Relay
import Grandma.Statuses

/-!
# Commands and statuses over the life of a client

The command queue and the queue of statuses are two queues in a row: reading a
package lets commands arrive, executing one serves it, a report collects the
statuses. A session may leave both queues filled, and the next one goes on from
there; still no command and no status is lost, repeated or overtaken. A command
that throws every time is never served, and everything stands still behind it.

The application may call the client in any order and may catch what a call
throws. Nothing is meant for what comes after undefined behaviour.
-/

set_option autoImplicit false

namespace Grandma.Throughput
open CommandQueue Session DMClient Shapes Isolation

variable {M W : Type}

inductive ClientCall (M W : Type) where
  | registerDDF (rootLeaf : Bool) (fs : FileSystem) (urn filename ddfUrl : Str)
  | addMO (objects : W) (urn : Str) (mo : M) (miid : Str)
  | setP1DumpTree (enable : Bool)
  | startSession (input : SessionInput W)

def commandsIn (codec : Codec) (text : Str) : List Command :=
  match codec.parse text with
  | .error _ => []
  | .ok j =>
    match j.member "CMD".toList with
    | .error _ => []
    | .ok jcommands => queuedFrom jcommands.elements

def receivedIn (codec : Codec) (input : SessionInput W) (run : SessionRun M) : List Command :=
  if run.p1.isSome then commandsIn codec (sendP1 input.post) else []

def reportedIn (rounds : List Round) : List Json :=
  rounds.flatMap (fun round => (round.status.map Json.elements).getD [])

structure Ledger (M : Type) where
  client : DMClient M
  received : List Command
  reported : List Json

def opening (client : DMClient M) : Ledger M :=
  { client := client, received := [], reported := [] }

/-- What a call leaves behind. One that throws leaves the client as it was,
unless it is a session. -/
def callStep (I : Interface M W) (codec : Codec) (fuel : ℕ) (l : Ledger M) :
    ClientCall M W → Ledger M
  | .registerDDF rootLeaf fs urn filename ddfUrl =>
    match l.client.registerDDF rootLeaf fs urn filename ddfUrl with
    | .error _ => l
    | .ok client => { l with client := client }
  | .addMO w urn mo miid =>
    match l.client.addMO I w urn mo miid with
    | .error _ => l
    | .ok client => { l with client := client }
  | .setP1DumpTree enable => { l with client := l.client.setP1DumpTree enable }
  | .startSession input =>
    let run := startSession I codec fuel input l.client
    { client := run.client, received := l.received++receivedIn codec input run,
      reported := l.reported++reportedIn run.rounds }

def callRun (I : Interface M W) (codec : Codec) (fuel : ℕ) :
    List (ClientCall M W) → Ledger M → Ledger M
  | [], l => l
  | c::cs, l => callRun I codec fuel cs (callStep I codec fuel l c)

def view (q : CommandQueue) : Relay.State Command Status := ⟨q.commands,q.responses⟩

def Justified (M : Type) (codec : Codec) (es : List (Relay.Event Command Status)) : Prop :=
  ∀ c ss, .serve c ss ∈ es → ∃ (t : MOTree M) (fetch : Fetch), doCommand codec t fetch c [] = .ok ss

def Relayed (M : Type) (codec : Codec) (q q' : CommandQueue) (received : List Command)
    (reported : List Json) : Prop :=
  ∃ es, Relay.Path (view q) es (view q') ∧ Relay.arrived es = received ∧
    (Relay.collected es).map statusJson = reported ∧ Justified M codec es

theorem relayed_refl (codec : Codec) (q : CommandQueue) : Relayed M codec q q [] [] :=
  ⟨[],.nil _,rfl,rfl,fun _ _ hm => absurd hm List.not_mem_nil⟩

theorem relayed_trans (codec : Codec) (q r s : CommandQueue) (cs ds : List Command)
    (js ks : List Json) (h : Relayed M codec q r cs js) (h' : Relayed M codec r s ds ks) :
    Relayed M codec q s (cs++ds) (js++ks) := by
  obtain ⟨es,hpath,rfl,rfl,hes⟩ := h
  obtain ⟨fs,hpath',rfl,rfl,hfs⟩ := h'
  refine ⟨es++fs,Relay.path_append _ _ _ _ _ hpath hpath',Relay.arrived_append es fs,?_,?_⟩
  · rw [Relay.collected_append, List.map_append]
  · intro c ss hm
    rcases List.mem_append.mp hm with hm | hm
    · exact hes c ss hm
    · exact hfs c ss hm

theorem read_queue (codec : Codec) (text : Str) (q : CommandQueue) :
    (parseP2 codec text q).2 = { q with commands := q.commands++commandsIn codec text } := by
  rw [parseP2, commandsIn]
  cases codec.parse text with
  | error e => cases e <;> simp
  | ok j =>
    simp only
    cases j.member "CMD".toList with
    | error e => simp
    | ok jcommands => simp only [parse_queued]

theorem read_relayed (codec : Codec) (text : Str) (q : CommandQueue) :
    Relayed M codec q (parseP2 codec text q).2 (commandsIn codec text) [] := by
  refine ⟨(commandsIn codec text).map Relay.Event.arrive,?_,?_,?_,?_⟩
  · rw [read_queue]
    exact Relay.path_arrivals _ _ _
  · exact Relay.arrived_arrivals _
  · rw [Relay.collected_arrivals, List.map_nil]
  · intro c ss hm
    obtain ⟨d,-,hd⟩ := List.mem_map.mp hm
    cases hd

theorem execution_path (codec : Codec) (t : MOTree M) (cs : List Command) (net : ℕ → Fetch)
    (rs : List Status) :
    ∃ es, Relay.Path ⟨cs,rs⟩ es (view (doCommandsFrom codec t net cs rs).2) ∧
      Relay.arrived es = [] ∧ Relay.collected es = [] ∧ Justified M codec es ∧
      ((doCommandsFrom codec t net cs rs).1 = .ok () →
        (doCommandsFrom codec t net cs rs).2.commands = []) := by
  induction cs generalizing net rs with
  | nil => exact ⟨[],.nil _,rfl,rfl,fun _ _ hm => absurd hm List.not_mem_nil,fun _ => rfl⟩
  | cons c cs ih =>
    have happend := Statuses.command_appends codec t (net 0) c rs
    rw [doCommandsFrom]
    cases hc : doCommand codec t (net 0) c [] with
    | error e =>
      rw [hc] at happend
      rw [happend]
      exact ⟨[],.nil _,rfl,rfl,fun _ _ hm => absurd hm List.not_mem_nil,fun h => by cases h⟩
    | ok new =>
      rw [hc] at happend
      rw [happend]
      obtain ⟨es,hpath,harrived,hcollected,hes,hdone⟩ := ih (fun n => net (n+1)) (rs++new)
      refine ⟨.serve c new::es,.cons _ _ _ _ _ (.serve c cs rs new) hpath,harrived,hcollected,
        ?_,hdone⟩
      intro d ss hm
      rcases List.mem_cons.mp hm with heq | hm
      · cases heq
        exact ⟨t,net 0,hc⟩
      · exact hes d ss hm

theorem execute_relayed (codec : Codec) (t : MOTree M) (net : ℕ → Fetch) (q : CommandQueue) :
    Relayed M codec q (q.doCommands codec t net).2 [] [] := by
  obtain ⟨es,hpath,harrived,hcollected,hes,-⟩ :=
    execution_path codec t q.commands net q.responses
  exact ⟨es,hpath,harrived,by rw [hcollected, List.map_nil],hes⟩

theorem executed_all (codec : Codec) (t : MOTree M) (net : ℕ → Fetch) (q q' : CommandQueue)
    (h : q.doCommands codec t net = (.ok (),q')) : q'.commands = [] := by
  obtain ⟨-,-,-,-,-,hdone⟩ := execution_path codec t q.commands net q.responses
  rw [doCommands] at h
  rw [h] at hdone
  exact hdone rfl

theorem report_relayed (codec : Codec) (q : CommandQueue) (h : q.commands = []) :
    Relayed M codec q q.p3SCJson.2 [] (q.responses.map statusJson) := by
  have hstep : Relay.Step (view q) (.collect q.responses) (view q.p3SCJson.2) := by
    simp only [view, p3SCJson, h]
    exact .collect _
  refine ⟨[.collect q.responses],.cons _ _ _ _ _ hstep (.nil _),rfl,?_,?_⟩
  · simp [Relay.collected]
  · intro c ss hm
    cases List.mem_singleton.mp hm

theorem loop_relayed (codec : Codec) (t : MOTree M) (hend : codec.parse endText = .ok endPackage)
    (fuel : ℕ) (net : ℕ → ℕ → Fetch) (text : Str) (q : CommandQueue) (aq : AlertQueue) :
    Relayed M codec q (sessionLoop codec t (fuel+2) net text q aq).2.1 (commandsIn codec text)
      (reportedIn (sessionLoop codec t (fuel+2) net text q aq).2.2.2) := by
  have hread := read_relayed (M := M) codec text q
  rw [sessionLoop]
  rcases hparse : parseP2 codec text q with ⟨e | goesOn,q₁⟩
  · rw [hparse] at hread
    exact hread
  rw [hparse] at hread
  cases goesOn with
  | false => exact hread
  | true =>
    have hexec := execute_relayed codec t (net 0) q₁
    simp only
    rcases hdo : q₁.doCommands codec t (net 0) with ⟨e | _,q₂⟩
    · rw [hdo] at hexec
      have h := relayed_trans codec _ _ _ _ _ _ _ hread hexec
      simpa [reportedIn] using h
    · rw [hdo] at hexec
      have hreport := report_relayed (M := M) codec q₂ (executed_all codec t (net 0) q₁ q₂ hdo)
      have h := relayed_trans codec _ _ _ _ _ _ _ (relayed_trans codec _ _ _ _ _ _ _ hread hexec)
        hreport
      simp only [List.append_nil, List.nil_append, p3SCJson] at h
      simp only [p3SCJson]
      cases codec.dump (p3Json (.ofElems (q₂.responses.map statusJson)) aq.packageAlertJson.1) with
      | none => simpa [reportedIn] using h
      | some p3 =>
        simp only [sendP3]
        rw [loop_ended codec t hend]
        simpa [reportedIn] using h

theorem session_relayed (I : Interface M W) (codec : Codec)
    (hend : codec.parse endText = .ok endPackage) (fuel : ℕ) (input : SessionInput W)
    (client : DMClient M) :
    Relayed M codec client.commandQueue
      (startSession I codec (fuel+2) input client).client.commandQueue
      (receivedIn codec input (startSession I codec (fuel+2) input client))
      (reportedIn (startSession I codec (fuel+2) input client).rounds) := by
  simp only [startSession]
  split
  · exact relayed_refl codec _
  · exact loop_relayed codec client.motree hend fuel input.net _ _ _

theorem call_relayed (I : Interface M W) (codec : Codec)
    (hend : codec.parse endText = .ok endPackage) (fuel : ℕ) (l : Ledger M) (c : ClientCall M W) :
    ∃ received reported, (callStep I codec (fuel+2) l c).received = l.received++received ∧
      (callStep I codec (fuel+2) l c).reported = l.reported++reported ∧
      Relayed M codec l.client.commandQueue (callStep I codec (fuel+2) l c).client.commandQueue
        received reported := by
  cases c with
  | registerDDF rootLeaf fs urn filename ddfUrl =>
    refine ⟨[],[],?_⟩
    simp only [callStep, DMClient.registerDDF, List.append_nil]
    cases l.client.motree.registerDDF rootLeaf fs urn filename ddfUrl with
    | error e => exact ⟨rfl,rfl,relayed_refl codec _⟩
    | ok r => exact ⟨rfl,rfl,relayed_refl codec _⟩
  | addMO w urn mo miid =>
    refine ⟨[],[],?_⟩
    simp only [callStep, DMClient.addMO, List.append_nil]
    cases l.client.motree.addMO I w urn mo miid with
    | error e => exact ⟨rfl,rfl,relayed_refl codec _⟩
    | ok r => exact ⟨rfl,rfl,relayed_refl codec _⟩
  | setP1DumpTree enable =>
    exact ⟨[],[],by simp [callStep],by simp [callStep],relayed_refl codec _⟩
  | startSession input =>
    exact ⟨_,_,rfl,rfl,session_relayed I codec hend fuel input l.client⟩

/-- Over any calls the queues go through the events of one relay. -/
theorem run_relayed (I : Interface M W) (codec : Codec)
    (hend : codec.parse endText = .ok endPackage) (fuel : ℕ) (calls : List (ClientCall M W))
    (l : Ledger M) :
    ∃ received reported, (callRun I codec (fuel+2) calls l).received = l.received++received ∧
      (callRun I codec (fuel+2) calls l).reported = l.reported++reported ∧
      Relayed M codec l.client.commandQueue (callRun I codec (fuel+2) calls l).client.commandQueue
        received reported := by
  induction calls generalizing l with
  | nil => exact ⟨[],[],by simp [callRun],by simp [callRun],relayed_refl codec _⟩
  | cons c cs ih =>
    obtain ⟨ds,js,hds,hjs,hstep⟩ := call_relayed I codec hend fuel l c
    obtain ⟨es,ks,hes,hks,hrest⟩ := ih (callStep I codec (fuel+2) l c)
    refine ⟨ds++es,js++ks,?_,?_,relayed_trans codec _ _ _ _ _ _ _ hstep hrest⟩
    · rw [callRun, hes, hds, List.append_assoc]
    · rw [callRun, hks, hjs, List.append_assoc]

theorem ledger_relayed (I : Interface M W) (codec : Codec)
    (hend : codec.parse endText = .ok endPackage) (fuel : ℕ) (hfuel : 2 ≤ fuel)
    (calls : List (ClientCall M W)) (client : DMClient M) :
    Relayed M codec client.commandQueue
      (callRun I codec fuel calls (opening client)).client.commandQueue
      (callRun I codec fuel calls (opening client)).received
      (callRun I codec fuel calls (opening client)).reported := by
  obtain ⟨n,rfl⟩ : ∃ n, fuel = n+2 := ⟨fuel-2,by omega⟩
  obtain ⟨received,reported,hreceived,hreported,hrun⟩ :=
    run_relayed I codec hend n calls (opening client)
  rw [hreceived, hreported]
  exact hrun

/-- A command yields one status at most: 501 if it is not implemented, 200 or
none at all if it is. -/
theorem command_yields (codec : Codec) (t : MOTree M) (fetch : Fetch) (c : Command)
    (ss : List Status) (h : doCommand codec t fetch c [] = .ok ss) :
    if c.type = .HGET then ss = [] ∨ ss = [status 200] else ss = [status 501] := by
  rw [doCommand] at h
  by_cases hc : c.type = .HGET
  · rw [if_pos hc]
    simp only [hc] at h
    obtain ⟨pushed,hrun,hget⟩ := hget_run codec t fetch c.parameter
    rw [hget] at h
    generalize c.parameter = params at hrun
    cases hrun with
    | noServer | unjudged | noClient | thrown => cases h
    | rejected | unreachable =>
      cases h
      exact Or.inl rfl
    | done =>
      cases h
      exact Or.inr rfl
  · rw [if_neg hc]
    split at h
    · rename_i hget
      exact absurd hget hc
    · cases h
      rfl

/-- Over any calls of the application, and however its sessions end: the
commands that waited at first and those received since are, in this order, the
commands served and those that still wait; and the statuses that were there at
first and those of the commands served are, in this order, the statuses reported
and those that are still there. -/
theorem commands_relayed (I : Interface M W) (codec : Codec)
    (hend : codec.parse endText = .ok endPackage) (fuel : ℕ) (hfuel : 2 ≤ fuel)
    (calls : List (ClientCall M W)) (client : DMClient M) :
    let l := callRun I codec fuel calls (opening client)
    ∃ served : List (Command × List Status),
      client.commandQueue.commands++l.received =
        served.map Prod.fst++l.client.commandQueue.commands ∧
      (client.commandQueue.responses++served.flatMap Prod.snd).map statusJson =
        l.reported++l.client.commandQueue.responses.map statusJson ∧
      ∀ c ss, (c,ss) ∈ served →
        if c.type = .HGET then ss = [] ∨ ss = [status 200] else ss = [status 501] := by
  obtain ⟨es,hpath,hreceived,hreported,hes⟩ := ledger_relayed I codec hend fuel hfuel calls client
  have hwaiting := Relay.path_waiting _ _ _ hpath
  rw [hreceived] at hwaiting
  refine ⟨Relay.served es,hwaiting,?_,?_⟩
  · rw [← hreported, ← List.map_append]
    exact congrArg (List.map statusJson) (Relay.path_ready _ _ _ hpath)
  · intro c ss hm
    obtain ⟨t,fetch,hdo⟩ := hes c ss ((Relay.mem_served c ss es).mp hm)
    exact command_yields codec t fetch c ss hdo

def getCommand : Command := { type := .GET, parameter := [] }

theorem commands_relayed_sample :
    let l := callRun noObjects sampleCodec 2
      [.startSession (answered (some ⟨200,getEndPackage.print⟩)),.setP1DumpTree true,
        .startSession (answered (some ⟨200,getPackage.print⟩))] (opening (DMClient.new false))
    ∃ served : List (Command × List Status),
      [getCommand,getCommand] = served.map Prod.fst++l.client.commandQueue.commands ∧
      (served.flatMap Prod.snd).map statusJson =
        l.reported++l.client.commandQueue.responses.map statusJson := by
  obtain ⟨served,hcommands,hstatuses,-⟩ := commands_relayed noObjects sampleCodec rfl 2 (by decide)
    [.startSession (answered (some ⟨200,getEndPackage.print⟩)),.setP1DumpTree true,
      .startSession (answered (some ⟨200,getPackage.print⟩))] (DMClient.new false)
  exact ⟨served,hcommands,hstatuses⟩

/-- The server URI makes the URL parser throw, so executing the command throws
whatever the tree and the network are. -/
def Poisoned (c : Command) (e : Fault) : Prop :=
  c.type = .HGET ∧ ∃ server rest, c.parameter = server::rest ∧
    (blankURL.parseFromString server).1 = .error e

theorem poisoned_throws (codec : Codec) (t : MOTree M) (fetch : Fetch) (c : Command) (e : Fault)
    (h : Poisoned c e) (rs : List Status) : doCommand codec t fetch c rs = .error e := by
  obtain ⟨htype,server,rest,hparam,hparse⟩ := h
  rw [doCommand, htype]
  simp only [hparam, doHget]
  rcases hurl : blankURL.parseFromString server with ⟨r,url⟩
  rw [hurl] at hparse
  simp only at hparse
  rw [hparse]

/-- A command whose server URI makes the URL parser throw blocks the client for
good: whatever the application calls and the servers send, nothing is served any
more, whatever arrives waits behind it, and no status is reported again. -/
theorem blocked_forever (I : Interface M W) (codec : Codec)
    (hend : codec.parse endText = .ok endPackage) (fuel : ℕ) (hfuel : 2 ≤ fuel)
    (calls : List (ClientCall M W)) (client : DMClient M) (c : Command) (cs : List Command)
    (e : Fault) (hqueue : client.commandQueue.commands = c::cs) (hpoison : Poisoned c e) :
    let l := callRun I codec fuel calls (opening client)
    l.client.commandQueue.commands = c::cs++l.received ∧
      l.client.commandQueue.responses = client.commandQueue.responses ∧ l.reported = [] := by
  obtain ⟨es,hpath,hreceived,hreported,hes⟩ := ledger_relayed I codec hend fuel hfuel calls client
  have hnever : ∀ ss, .serve c ss ∉ es := by
    intro ss hm
    obtain ⟨t,fetch,hdo⟩ := hes c ss hm
    rw [poisoned_throws codec t fetch c e hpoison] at hdo
    cases hdo
  obtain ⟨hwaiting,hready,-,hcollected⟩ := Relay.path_stuck _ _ _ hpath c cs hqueue hnever
  rw [hreceived] at hwaiting
  rw [hcollected, List.map_nil] at hreported
  exact ⟨hwaiting,hready,hreported.symm⟩

def poison : Command :=
  { type := .HGET, parameter := ["http://host:port/".toList,"u/1/Id".toList] }

theorem blocked_forever_sample :
    let l := callRun noObjects sampleCodec 2
      [.startSession (answered (some ⟨200,getPackage.print⟩))]
      (opening { DMClient.new false with commandQueue := { commands := [poison], responses := [] } })
    l.client.commandQueue.commands = [poison]++[getCommand] ∧ l.reported = [] := by
  have h := blocked_forever noObjects sampleCodec rfl 2 (by decide)
    [.startSession (answered (some ⟨200,getPackage.print⟩))]
    { DMClient.new false with commandQueue := { commands := [poison], responses := [] } } poison []
    .invalidArgument rfl ⟨rfl,_,_,rfl,rfl⟩
  exact ⟨h.1,h.2.2⟩

end Grandma.Throughput
