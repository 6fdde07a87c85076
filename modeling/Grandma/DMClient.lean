import Grandma.AlertQueue
import Grandma.Session

/-!
# Sessions of the client

A session packages the pending alerts with the structure of the tree, sends
the package, and then reads and executes packages until one ends it or
something throws. Its queues outlive it. The state of the managed objects, the
answer to the first package and the answers to all requests made by commands
are given with each session.
-/

set_option autoImplicit false

namespace Grandma

structure DMClient (M : Type) where
  motree : MOTree M
  commandQueue : CommandQueue
  alertQueue : AlertQueue
  p1DumpTree : Bool

/-- What a session meets. `net r n` answers the `n`-th command of round `r`. -/
structure SessionInput (W : Type) where
  serverInitiated : Bool
  objects : W
  post : Option HttpResponse
  net : ℕ → ℕ → Fetch

/-- A package that was executed: its text, the commands that were waiting when
its execution began, and what was reported if the execution came to its end. -/
structure Round where
  package : Str
  queued : List Command
  status : Option Json

structure SessionRun (M : Type) where
  outcome : Except Fault Unit
  client : DMClient M
  p1 : Option Json
  rounds : List Round

namespace DMClient

variable {M W : Type}

/-- The constructor leaves `P1_dump_tree` as it happens to be. -/
def new (p1DumpTree : Bool) : DMClient M :=
  { motree := .empty, commandQueue := .empty, alertQueue := .empty, p1DumpTree := p1DumpTree }

/-- Pass through to the tree; what the tree returns is dropped. -/
def registerDDF (rootLeaf : Bool) (fs : FileSystem) (client : DMClient M)
    (urn filename ddfUrl : Str) : Except Fault (DMClient M) :=
  match client.motree.registerDDF rootLeaf fs urn filename ddfUrl with
  | .error e => .error e
  | .ok (_,t) => .ok { client with motree := t }

def addMO (I : Interface M W) (w : W) (client : DMClient M) (urn : Str) (mo : M) (miid : Str) :
    Except Fault (DMClient M) :=
  match client.motree.addMO I w urn mo miid with
  | .error e => .error e
  | .ok (_,t) => .ok { client with motree := t }

def setP1DumpTree (client : DMClient M) (enable : Bool) : DMClient M :=
  { client with p1DumpTree := enable }

def sessionAlert (serverInitiated : Bool) : Alert :=
  if serverInitiated then AlertQueue.alert "urn:oma:at:dm:2.0:ServerInitiatedMgmt".toList
  else AlertQueue.alert "urn:oma:at:dm:2.0:ClientInitiatedMgmt".toList

def p1Json (I : Interface M W) (w : W) (t : MOTree M) (p1DumpTree : Bool) (alerts : Json) : Json :=
  let members := OrderedMap.assign "MOS".toList t.p1MOSJson []
  let members := OrderedMap.assign "Alert".toList alerts members
  if p1DumpTree then
    .ofMembers (OrderedMap.assign "MgmtTree".toList (t.dumpSerializedMOS I w).1 members)
  else .ofMembers members

def firstPackage (I : Interface M W) (input : SessionInput W) (client : DMClient M) : Json :=
  p1Json I input.objects client.motree client.p1DumpTree
    (client.alertQueue.addAlert (sessionAlert input.serverInitiated)).packageAlertJson.1

def p3Json (status alerts : Json) : Json :=
  .ofMembers (OrderedMap.assign "Alert".toList alerts
    (OrderedMap.assign "Status".toList status []))

/-- The loop of `start_session`. Running out of fuel is a session that goes on. -/
def sessionLoop (codec : Codec) (t : MOTree M) : ℕ → (ℕ → ℕ → Fetch) → Str → CommandQueue →
    AlertQueue → Except Fault Unit × CommandQueue × AlertQueue × List Round
  | 0, _, _, cq, aq => (.error .diverges,cq,aq,[])
  | fuel+1, net, p2Json, cq, aq =>
    match Session.parseP2 codec p2Json cq with
    | (.error e,cq) => (.error e,cq,aq,[])
    | (.ok false,cq) => (.ok (),cq,aq,[])
    | (.ok true,cq) =>
      match cq.doCommands codec t (net 0) with
      | (.error e,cq') => (.error e,cq',aq,[⟨p2Json,cq.commands,none⟩])
      | (.ok (),cq') =>
        let (status,cq') := cq'.p3SCJson
        let (alerts,aq) := aq.packageAlertJson
        let round : Round := ⟨p2Json,cq.commands,some status⟩
        match codec.dump (p3Json status alerts) with
        | none => (.error .typeError,cq',aq,[round])
        | some p3 =>
          let (outcome,cq',aq,rounds) :=
            sessionLoop codec t fuel (fun r => net (r+1)) (Session.sendP3 p3) cq' aq
          (outcome,cq',aq,round::rounds)

theorem loop_ended (codec : Codec) (t : MOTree M)
    (hend : codec.parse Session.endText = .ok Session.endPackage) (fuel : ℕ)
    (net : ℕ → ℕ → Fetch) (q : CommandQueue) (aq : AlertQueue) :
    sessionLoop codec t (fuel+1) net Session.endText q aq = (.ok (),q,aq,[]) := by
  rw [sessionLoop, Session.end_read codec hend]

/-- Printing the first package comes before sending it and may throw. -/
def startSession (I : Interface M W) (codec : Codec) (fuel : ℕ) (input : SessionInput W)
    (client : DMClient M) : SessionRun M :=
  let aq := client.alertQueue.addAlert (sessionAlert input.serverInitiated)
  let (alerts,aq) := aq.packageAlertJson
  let p1 := p1Json I input.objects client.motree client.p1DumpTree alerts
  match codec.dump p1 with
  | none => ⟨.error .typeError,{ client with alertQueue := aq },none,[]⟩
  | some _ =>
    let (outcome,cq,aq,rounds) := sessionLoop codec client.motree fuel input.net
      (Session.sendP1 input.post) client.commandQueue aq
    ⟨outcome,{ client with commandQueue := cq, alertQueue := aq },some p1,rounds⟩

/-- The alerts behind the first package of a session. -/
def packagedAlerts (input : SessionInput W) (client : DMClient M) : AlertQueue :=
  (client.alertQueue.addAlert (sessionAlert input.serverInitiated)).packageAlertJson.2

theorem session_unsent (I : Interface M W) (codec : Codec) (fuel : ℕ) (input : SessionInput W)
    (client : DMClient M) (h : codec.dump (firstPackage I input client) = none) :
    startSession I codec fuel input client =
      ⟨.error .typeError,{ client with alertQueue := packagedAlerts input client },none,[]⟩ := by
  rw [firstPackage] at h
  simp only [startSession, h]
  rfl

theorem session_sent (I : Interface M W) (codec : Codec) (fuel : ℕ) (input : SessionInput W)
    (client : DMClient M) (text : Str) (h : codec.dump (firstPackage I input client) = some text) :
    startSession I codec fuel input client =
      let (outcome,cq,aq,rounds) := sessionLoop codec client.motree fuel input.net
        (Session.sendP1 input.post) client.commandQueue (packagedAlerts input client)
      ⟨outcome,{ client with commandQueue := cq, alertQueue := aq },
        some (firstPackage I input client),rounds⟩ := by
  rw [firstPackage] at h
  simp only [startSession, h]
  rfl

theorem session_motree (I : Interface M W) (codec : Codec) (fuel : ℕ) (input : SessionInput W)
    (client : DMClient M) : (startSession I codec fuel input client).client.motree =
      client.motree := by
  rw [startSession]
  simp only
  split <;> rfl

theorem session_package (I : Interface M W) (codec : Codec) (fuel : ℕ) (input : SessionInput W)
    (client : DMClient M) (p1 : Json)
    (h : (startSession I codec fuel input client).p1 = some p1) :
    p1 = firstPackage I input client := by
  rw [startSession] at h
  simp only at h
  split at h
  · cases h
  · exact (Option.some.inj h).symm

end DMClient

end Grandma
