import Grandma.AlertDelivery
import Grandma.Downloads
import Grandma.TestServer

/-!
# The client against the test server

Sessions of one client with the test server, one after the other, while its
commands may fetch from other hosts. The server answers the first session with
a download from itself and ends when the second one starts, so it never comes
to the answer for which it has a third state.
-/

set_option autoImplicit false

namespace Grandma.HgetTest
open CommandQueue Session DMClient TestServer Helper

variable {M W : Type}

structure World (M : Type) where
  client : DMClient M
  server : Server

structure Surroundings (W : Type) where
  serverInitiated : Bool
  objects : W
  elsewhere : ℕ → ℕ → Fetch

def testURL : URL :=
  { protocol := .HTTP, server := "localhost".toList, port := 9988, path := "/test_hget".toList }

/-- The server as a GET of the test URL finds it is the one that the POST has
left, since no GET changes that (`get_after_post`). -/
def sessionInput (codec : Codec) (env : Surroundings W) (server : Server) : SessionInput W :=
  { serverInitiated := env.serverInitiated, objects := env.objects,
    post := (serve codec server .post).1,
    net := fun r n url =>
      if url = testURL then (serve codec (serve codec server .post).2 .get).1
      else env.elsewhere r n url }

/-- The server is left alone when the first package cannot be printed. -/
def meet (I : Interface M W) (codec : Codec) (fuel : ℕ) (env : Surroundings W) (w : World M) :
    SessionRun M × World M :=
  let run := startSession I codec fuel (sessionInput codec env w.server) w.client
  (run,{ client := run.client,
         server := if run.p1.isSome then (serve codec w.server .post).2 else w.server })

def meetAll (I : Interface M W) (codec : Codec) (fuel : ℕ) :
    List (Surroundings W) → World M → List (SessionRun M) × World M
  | [], w => ([],w)
  | env::envs, w =>
    let (run,w) := meet I codec fuel env w
    let (runs,w) := meetAll I codec fuel envs w
    (run::runs,w)

theorem get_after_post (codec : Codec) (server : Server) :
    (serve codec (serve codec server .post).2 .get).2 = (serve codec server .post).2 := by
  cases server with
  | running state => cases state <;> rfl
  | exited code => rfl

def hgetCommand : Command :=
  { type := .HGET,
    parameter := ["http://localhost:9988/test_hget".toList,
      "urn:oma:mo:oma-fumo:1.0/apps/DownloadAndUpdate/PkgURL".toList] }

theorem test_url : blankURL.parseFromString "http://localhost:9988/test_hget".toList =
    (.ok true,testURL) := by
  decide

def report : Json := .array [.object [("sc".toList,.number 200)]]

/-- The third package and the downloaded text can be printed, and the texts that
client and server exchange are read as what was printed. -/
structure Speaks (codec : Codec) : Prop where
  printsReport : (codec.dump (p3Json report .null)).isSome
  printsBody : (codec.dump (.string (answer codec hgetResponse).body)).isSome
  readsEnd : codec.parse endText = .ok endPackage
  readsPackage : codec.parse (answer codec hgetPackage).body = .ok hgetPackage
  readsNothing : codec.parse [] = .error .parseError

def AllPrinted (I : Interface M W) (codec : Codec) (fuel : ℕ) :
    List (Surroundings W) → World M → Prop
  | [], _ => True
  | env::envs, w =>
    (codec.dump (firstPackage I (sessionInput codec env w.server) w.client)).isSome ∧
      AllPrinted I codec fuel envs (meet I codec fuel env w).2

theorem package_read (codec : Codec) (h : Speaks codec) :
    parseP2 codec (answer codec hgetPackage).body .empty =
      (.ok true,{ commands := [hgetCommand], responses := [] }) := by
  rw [parseP2, h.readsPackage]
  rfl

theorem command_done (codec : Codec) (h : Speaks codec) (t : MOTree M) (fetch : Fetch)
    (hfetch : fetch testURL = some (answer codec hgetResponse)) :
    doCommand codec t fetch hgetCommand [] = .ok [status 200] := by
  have huri : "urn:oma:mo:oma-fumo:1.0/apps/DownloadAndUpdate/PkgURL".toList =
      "urn:oma:mo:oma-fumo:1.0".toList ++ '/' ::
        ("apps".toList ++ '/' :: "DownloadAndUpdate/PkgURL".toList) := rfl
  have hset := (Downloads.path_returns codec t "urn:oma:mo:oma-fumo:1.0".toList "apps".toList
    "DownloadAndUpdate/PkgURL".toList _).mpr (Or.inr h.printsBody)
  rw [← huri] at hset
  exact (Downloads.hget_pushes codec t fetch _ _ [] []).mpr ⟨_,_,test_url,hfetch,hset⟩

theorem loop_downloads (codec : Codec) (h : Speaks codec) (t : MOTree M) (fuel : ℕ)
    (net : ℕ → ℕ → Fetch) (hnet : net 0 0 testURL = some (answer codec hgetResponse))
    (aq : AlertQueue) (haq : AlertDelivery.pending aq = []) :
    ∃ aq', sessionLoop codec t (fuel+2) net (answer codec hgetPackage).body .empty aq =
      (.ok (),.empty,aq',
        [⟨(answer codec hgetPackage).body,[hgetCommand],some report⟩]) := by
  have hdone := command_done codec h t (net 0 0) hnet
  have halerts : aq.packageAlertJson.1 = .null := by
    rw [AlertDelivery.package_json, haq]
    rfl
  rw [sessionLoop, package_read codec h]
  simp only [doCommands, doCommandsFrom, hdone]
  obtain ⟨p3,hp3⟩ := Option.isSome_iff_exists.mp h.printsReport
  have hreport : Json.ofElems ([status 200].map statusJson) = report := rfl
  simp only [p3SCJson, hreport, halerts, hp3, sendP3]
  rw [loop_ended codec t h.readsEnd]
  exact ⟨_,rfl⟩

theorem loop_unanswered (codec : Codec) (h : Speaks codec) (t : MOTree M) (fuel : ℕ)
    (net : ℕ → ℕ → Fetch) (aq : AlertQueue) :
    sessionLoop codec t (fuel+2) net [] .empty aq = (.ok (),.empty,aq,[]) := by
  have hread : parseP2 codec [] .empty = (.ok false,.empty) := by
    rw [parseP2, h.readsNothing]
  rw [sessionLoop, hread]

theorem session_run (I : Interface M W) (codec : Codec) (fuel : ℕ) (input : SessionInput W)
    (client : DMClient M) (hprint : (codec.dump (firstPackage I input client)).isSome)
    (hq : client.commandQueue = .empty) (rounds : List Round)
    (hloop : ∀ aq, AlertDelivery.pending aq = [] →
      ∃ aq', sessionLoop codec client.motree fuel input.net (sendP1 input.post) .empty aq =
        (.ok (),.empty,aq',rounds)) :
    let run := startSession I codec fuel input client
    run.outcome = .ok () ∧ run.rounds = rounds ∧ run.p1.isSome ∧
      run.client.commandQueue = .empty ∧ run.client.motree = client.motree := by
  obtain ⟨text,htext⟩ := Option.isSome_iff_exists.mp hprint
  obtain ⟨aq',hrun⟩ :=
    hloop (packagedAlerts input client) (AlertDelivery.package_pending _)
  rw [session_sent I codec fuel input client text htext, hq]
  simp only [hrun]
  exact ⟨trivial,trivial,rfl,trivial,trivial⟩

theorem meet_first (I : Interface M W) (codec : Codec) (h : Speaks codec) (fuel : ℕ)
    (env : Surroundings W) (client : DMClient M) (hq : client.commandQueue = .empty)
    (hprint : (codec.dump (firstPackage I (sessionInput codec env (.running .INITIAL))
      client)).isSome) :
    let met := meet I codec (fuel+2) env ⟨client,.running .INITIAL⟩
    met.1.outcome = .ok () ∧
      met.1.rounds = [⟨(answer codec hgetPackage).body,[hgetCommand],some report⟩] ∧
      met.2.client.commandQueue = .empty ∧ met.2.client.motree = client.motree ∧
      met.2.server = .running .TEST_HGET_HGET := by
  obtain ⟨houtcome,hrounds,hp1,hcommands,htree⟩ :=
    session_run I codec (fuel+2) (sessionInput codec env (.running .INITIAL)) client hprint hq _
      (loop_downloads codec h client.motree fuel
        (sessionInput codec env (.running .INITIAL)).net rfl)
  refine ⟨houtcome,hrounds,hcommands,htree,?_⟩
  simp only [meet, if_pos hp1]
  rfl

theorem meet_later (I : Interface M W) (codec : Codec) (h : Speaks codec) (fuel : ℕ)
    (env : Surroundings W) (client : DMClient M) (hq : client.commandQueue = .empty)
    (server : Server) (hserver : serve codec server .post = (none,.exited 1))
    (hprint : (codec.dump (firstPackage I (sessionInput codec env server) client)).isSome) :
    let met := meet I codec (fuel+2) env ⟨client,server⟩
    met.1.outcome = .ok () ∧ met.1.rounds = [] ∧ met.2.client.commandQueue = .empty ∧
      met.2.client.motree = client.motree ∧ met.2.server = .exited 1 := by
  have hpost : (sessionInput codec env server).post = none := by
    rw [sessionInput, hserver]
  obtain ⟨houtcome,hrounds,hp1,hcommands,htree⟩ :=
    session_run I codec (fuel+2) (sessionInput codec env server) client hprint hq [] (by
      intro aq _
      rw [hpost]
      exact ⟨aq,loop_unanswered codec h client.motree fuel _ aq⟩)
  refine ⟨houtcome,hrounds,hcommands,htree,?_⟩
  simp only [meet, if_pos hp1, hserver]

theorem meet_rest (I : Interface M W) (codec : Codec) (h : Speaks codec) (fuel : ℕ)
    (envs : List (Surroundings W)) (client : DMClient M) (hq : client.commandQueue = .empty)
    (server : Server) (hserver : serve codec server .post = (none,.exited 1))
    (hprint : AllPrinted I codec (fuel+2) envs ⟨client,server⟩) :
    let met := meetAll I codec (fuel+2) envs ⟨client,server⟩
    (∀ run ∈ met.1, run.outcome = .ok () ∧ run.rounds = []) ∧
      met.2.client.commandQueue = .empty ∧ met.2.client.motree = client.motree ∧
      met.2.server = if envs = [] then server else .exited 1 := by
  induction envs generalizing client server with
  | nil => exact ⟨fun _ hrun => absurd hrun List.not_mem_nil,hq,rfl,rfl⟩
  | cons env envs ih =>
    obtain ⟨houtcome,hrounds,hcommands,htree,hw⟩ :=
      meet_later I codec h fuel env client hq server hserver hprint.1
    have hprints := hprint.2
    simp only [meetAll]
    rcases hm : meet I codec (fuel+2) env ⟨client,server⟩ with ⟨run,⟨client',server'⟩⟩
    rw [hm] at houtcome hrounds hcommands htree hw hprints
    subst hw
    obtain ⟨hruns,hcommands,htree',hw⟩ := ih client' hcommands (.exited 1) rfl hprints
    refine ⟨?_,hcommands,htree'.trans htree,?_⟩
    · intro r hr
      rcases List.mem_cons.mp hr with rfl | hr
      · exact ⟨houtcome,hrounds⟩
      · exact hruns r hr
    · rw [hw]
      simp

/-- Any number of sessions of one client with the test server, as long as they
can print what they send: the first one executes the download from the server
and reports success although nothing is stored, every later one finds no server
and ends at once, and the server never comes to its last state. -/
theorem hget_test_runs (I : Interface M W) (codec : Codec) (h : Speaks codec) (fuel : ℕ)
    (hfuel : 2 ≤ fuel) (env : Surroundings W) (envs : List (Surroundings W))
    (client : DMClient M) (hq : client.commandQueue = .empty)
    (hprint : AllPrinted I codec fuel (env::envs) ⟨client,.running .INITIAL⟩) :
    let met := meetAll I codec fuel (env::envs) ⟨client,.running .INITIAL⟩
    (∃ run later, met.1 = run::later ∧ run.outcome = .ok () ∧
      run.rounds = [⟨(answer codec hgetPackage).body,[hgetCommand],some report⟩] ∧
      ∀ r ∈ later, r.outcome = .ok () ∧ r.rounds = []) ∧
    met.2.client.commandQueue = .empty ∧ met.2.client.motree = client.motree ∧
    met.2.server = if envs = [] then .running .TEST_HGET_HGET else .exited 1 := by
  obtain ⟨n,rfl⟩ : ∃ n, fuel = n+2 := ⟨fuel-2,by omega⟩
  obtain ⟨houtcome,hrounds,hcommands,htree,hw⟩ := meet_first I codec h n env client hq hprint.1
  have hprints := hprint.2
  simp only [meetAll]
  rcases hm : meet I codec (n+2) env ⟨client,.running .INITIAL⟩ with ⟨run,⟨client',server'⟩⟩
  rw [hm] at houtcome hrounds hcommands htree hw hprints
  subst hw
  obtain ⟨hruns,hcommands,htree',hw⟩ :=
    meet_rest I codec h n envs client' hcommands (.running .TEST_HGET_HGET) rfl hprints
  exact ⟨⟨run,_,rfl,houtcome,hrounds,hruns⟩,hcommands,htree'.trans htree,hw⟩

def testCodec : Codec :=
  Json.tableCodec [(hgetPackage.print,hgetPackage),(endText,endPackage)]

theorem test_speaks : Speaks testCodec := by
  have hend : endText ≠ hgetPackage.print := by decide +kernel
  constructor
  · rfl
  · rfl
  · simp [testCodec, Json.tableCodec, OrderedMap.lookup, hend]
  · simp [testCodec, Json.tableCodec, OrderedMap.lookup, answer]
  · rfl

def nowhere : Surroundings Unit :=
  { serverInitiated := false, objects := (), elsewhere := fun _ _ _ => none }

theorem hget_test_runs_twice :
    (meetAll noObjects testCodec 2 [nowhere,nowhere]
      ⟨DMClient.new true,.running .INITIAL⟩).2.server = .exited 1 :=
  (hget_test_runs noObjects testCodec test_speaks 2 (by decide) nowhere [nowhere]
    (DMClient.new true) rfl ⟨rfl,rfl,trivial⟩).2.2.2

end Grandma.HgetTest
