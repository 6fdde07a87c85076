import Grandma.DMClient
import Grandma.Downloads
import Grandma.Shapes

/-!
# What a session leaves behind

The command queue outlives the session. Commands are pushed while the package
is still being read and are executed only if the package neither ends the
session nor throws, so what was pushed by then stays in the queue, and the next
session executes it.
-/

set_option autoImplicit false

namespace Grandma.Isolation
open CommandQueue Session Statuses Shapes Downloads DMClient

variable {M W : Type}

theorem execute_all (codec : Codec) (t : MOTree M) (cs : List Command) (net : ℕ → Fetch)
    (rs : List Status)
    (h : ∀ (i : ℕ) (c : Command), cs[i]? = some c → Executable codec t (net i) c) :
    ∃ ss, doCommandsFrom codec t net cs rs = (.ok (),{ commands := [], responses := ss }) := by
  induction cs generalizing net rs with
  | nil => exact ⟨rs,rfl⟩
  | cons c cs ih =>
    obtain ⟨ss,hc⟩ := (command_executable codec t (net 0) c rs).mpr (h 0 c rfl)
    rw [doCommandsFrom, hc]
    exact ih (fun n => net (n+1)) ss (fun i d hd => h (i+1) d hd)

theorem execute_stuck (codec : Codec) (t : MOTree M) (cs : List Command) (net : ℕ → Fetch)
    (rs : List Status)
    (h : ¬ ∀ (i : ℕ) (c : Command), cs[i]? = some c → Executable codec t (net i) c) :
    ∃ e q, doCommandsFrom codec t net cs rs = (.error e,q) ∧ q ≠ .empty := by
  induction cs generalizing net rs with
  | nil => simp at h
  | cons c cs ih =>
    rw [doCommandsFrom]
    cases hc : doCommand codec t (net 0) c rs with
    | error e =>
      have hleft : ({ commands := c::cs, responses := rs } : CommandQueue) ≠ .empty := by
        simp [CommandQueue.empty]
      exact ⟨e,_,rfl,hleft⟩
    | ok ss =>
      apply ih
      intro hrest
      apply h
      intro i d hd
      cases i with
      | zero =>
        cases hd
        exact (command_executable codec t (net 0) c rs).mp ⟨ss,hc⟩
      | succ i => exact hrest i d hd

def InPackage (codec : Codec) (text : Str) (P : List Json → Prop) : Prop :=
  ∀ j jcommands, codec.parse text = .ok j → j.member "CMD".toList = .ok jcommands →
    P jcommands.elements

theorem in_package (codec : Codec) (text : Str) (P : List Json → Prop) (j jcommands : Json)
    (hparse : codec.parse text = .ok j) (hmember : j.member "CMD".toList = .ok jcommands) :
    InPackage codec text P ↔ P jcommands.elements := by
  constructor
  · intro h
    exact h j jcommands hparse hmember
  · intro h j' jcommands' hparse' hmember'
    rw [hparse] at hparse'
    cases hparse'
    rw [hmember] at hmember'
    cases hmember'
    exact h

def AllDownloadable (codec : Codec) (t : MOTree M) (net : ℕ → Fetch) (js : List Json) : Prop :=
  ∀ (i : ℕ) (params : List Str), HgetAt js i params → Downloadable codec t (net i) params

/-- Nothing is left in the queue: either no known command comes in front of what
cannot be read, or everything can be read, nothing ends the session, and every
HGET returns. -/
def Contained (codec : Codec) (t : MOTree M) (net : ℕ → Fetch) (js : List Json) : Prop :=
  ¬ ReadsCommand js ∨ (GoesOn js ∧ AllDownloadable codec t net js)

/-- If the commands are executed, every HGET that is reached has the parameters
that it looks at. -/
def Supplied (codec : Codec) (t : MOTree M) (net : ℕ → Fetch) (js : List Json) : Prop :=
  GoesOn js → ∀ (i : ℕ) (params : List Str), HgetAt js i params →
    (∀ (k : ℕ) (others : List Str), k < i → HgetAt js k others →
      Downloadable codec t (net k) others) → InBounds params

/-- Of the commands at some places all can be executed exactly when the HGETs
among them can be carried out. -/
theorem executable_hgets (codec : Codec) (t : MOTree M) (net : ℕ → Fetch) (js : List Json)
    (hr : ∀ j ∈ js, Readable j) (P : ℕ → Prop) :
    (∀ (k : ℕ) (c : Command), P k → (queuedFrom js)[k]? = some c → Executable codec t (net k) c) ↔
      ∀ (k : ℕ) (params : List Str), P k → HgetAt js k params →
        Downloadable codec t (net k) params := by
  constructor
  · intro h k params hk hparams
    exact h k _ hk ((hget_queued js hr k params).mp hparams) rfl
  · intro h k c hk hc hget
    exact h k c.parameter hk (queued_hget js hr k c hc hget)

theorem all_executable (codec : Codec) (t : MOTree M) (net : ℕ → Fetch) (js : List Json)
    (hr : ∀ j ∈ js, Readable j) :
    (∀ (i : ℕ) (c : Command), (queuedFrom js)[i]? = some c → Executable codec t (net i) c) ↔
      AllDownloadable codec t net js := by
  rw [AllDownloadable]
  simpa only [forall_const] using executable_hgets codec t net js hr (fun _ => True)

theorem all_in_bounds (codec : Codec) (t : MOTree M) (net : ℕ → Fetch) (js : List Json)
    (hgoes : GoesOn js) :
    AllInBounds codec t net (queuedFrom js) ↔ Supplied codec t net js := by
  have hreached := fun i => executable_hgets codec t net js hgoes.1 (fun k => k < i)
  constructor
  · intro h _ i params hi hreach
    exact h i _ ((hget_queued js hgoes.1 i params).mp hi) ((hreached i).mpr hreach) rfl
  · intro h i c hc hreach hget
    exact h hgoes i c.parameter (queued_hget js hgoes.1 i c hc hget) ((hreached i).mp hreach)

/-- What a round queued are the known commands of its own package, and what it
reported is what these commands push. -/
def Stems (codec : Codec) (t : MOTree M) (net : ℕ → Fetch) (round : Round) : Prop :=
  (∃ j jcommands, codec.parse round.package = .ok j ∧ j.member "CMD".toList = .ok jcommands ∧
    round.queued.map commandJson = jcommands.elements.filter (fun j => IsCommand j)) ∧
  ∀ report, round.status = some report → ∃ ss,
    doCommandsFrom codec t net round.queued [] = (.ok (),{ commands := [], responses := ss }) ∧
      report = .ofElems (ss.map statusJson)

theorem loop_unexecuted (codec : Codec) (t : MOTree M) (fuel : ℕ) (net : ℕ → ℕ → Fetch)
    (text : Str) (q q' : CommandQueue) (aq : AlertQueue) (r : Except Fault Bool)
    (hread : parseP2 codec text q = (r,q')) (hr : r ≠ .ok true) :
    (sessionLoop codec t (fuel+1) net text q aq).2.1 = q' ∧
      (sessionLoop codec t (fuel+1) net text q aq).2.2.2 = [] := by
  rw [sessionLoop, hread]
  cases r with
  | error e => exact ⟨rfl,rfl⟩
  | ok b =>
    cases b with
    | false => exact ⟨rfl,rfl⟩
    | true => exact absurd rfl hr

theorem loop_executed (codec : Codec) (t : MOTree M) (hend : codec.parse endText = .ok endPackage)
    (fuel : ℕ) (net : ℕ → ℕ → Fetch) (text : Str) (cs : List Command) (aq : AlertQueue)
    (hread : parseP2 codec text .empty = (.ok true,{ commands := cs, responses := [] })) :
    ((sessionLoop codec t (fuel+2) net text .empty aq).2.1 = .empty ↔
      ∀ (i : ℕ) (c : Command), cs[i]? = some c → Executable codec t (net 0 i) c) ∧
    ∀ round ∈ (sessionLoop codec t (fuel+2) net text .empty aq).2.2.2,
      round.package = text ∧ round.queued = cs ∧ ∀ report, round.status = some report →
        ∃ ss, doCommandsFrom codec t (net 0) cs [] = (.ok (),{ commands := [], responses := ss }) ∧
          report = .ofElems (ss.map statusJson) := by
  rw [sessionLoop, hread]
  by_cases hall : ∀ (i : ℕ) (c : Command), cs[i]? = some c → Executable codec t (net 0 i) c
  · obtain ⟨ss,hrun⟩ := execute_all codec t cs (net 0) [] hall
    have hround : ∀ round ∈ [(⟨text,cs,some (.ofElems (ss.map statusJson))⟩ : Round)],
        round.package = text ∧ round.queued = cs ∧ ∀ report, round.status = some report →
          ∃ ss, doCommandsFrom codec t (net 0) cs [] =
              (.ok (),{ commands := [], responses := ss }) ∧
            report = .ofElems (ss.map statusJson) := by
      intro round hround
      rw [List.mem_singleton.mp hround]
      exact ⟨rfl,rfl,fun report hreport => ⟨ss,hrun,(Option.some.inj hreport).symm⟩⟩
    simp only [hrun] at hround
    simp only [doCommands, hrun, p3SCJson]
    cases codec.dump (p3Json (.ofElems (ss.map statusJson)) aq.packageAlertJson.1) with
    | none => exact ⟨iff_of_true rfl hall,hround⟩
    | some p3 =>
      have hloop := loop_ended codec t hend fuel (fun r => net (r+1)) .empty
        aq.packageAlertJson.2
      have hempty : ({ commands := [], responses := [] } : CommandQueue) = .empty := rfl
      simp only [sendP3]
      rw [hempty, hloop]
      exact ⟨iff_of_true rfl hall,hround⟩
  · obtain ⟨e,q,hrun,hq⟩ := execute_stuck codec t cs (net 0) [] hall
    simp only [doCommands, hrun]
    constructor
    · exact iff_of_false hq hall
    · intro round hround
      rw [List.mem_singleton.mp hround]
      exact ⟨rfl,rfl,fun report hreport => absurd hreport (Option.some_ne_none report).symm⟩

theorem read_elements (codec : Codec) (text : Str) (j jcommands : Json)
    (hparse : codec.parse text = .ok j) (hmember : j.member "CMD".toList = .ok jcommands) :
    parseP2 codec text .empty =
      (match firstFault jcommands.elements with
        | some e => .error e
        | none => .ok (true && !hasEnd jcommands.elements),
        { commands := queuedFrom jcommands.elements, responses := [] }) := by
  rw [parseP2, hparse]
  simp only [hmember, parse_queued]
  rfl

theorem read_nothing (codec : Codec) (text : Str)
    (hnone : ∀ j jcommands, codec.parse text = .ok j → j.member "CMD".toList ≠ .ok jcommands) :
    ∃ r, parseP2 codec text .empty = (r,.empty) ∧ r ≠ .ok true := by
  rw [parseP2]
  cases hparse : codec.parse text with
  | error e => cases e <;> exact ⟨_,rfl,by simp⟩
  | ok j =>
    cases hmember : j.member "CMD".toList with
    | error e => exact ⟨.error e,by simp only [hmember],by simp⟩
    | ok jcommands => exact absurd hmember (hnone j jcommands hparse)

theorem loop_package (codec : Codec) (t : MOTree M) (hend : codec.parse endText = .ok endPackage)
    (fuel : ℕ) (net : ℕ → ℕ → Fetch) (text : Str) (aq : AlertQueue) (j jcommands : Json)
    (hparse : codec.parse text = .ok j) (hmember : j.member "CMD".toList = .ok jcommands) :
    ((sessionLoop codec t (fuel+2) net text .empty aq).2.1 = .empty ↔
      Contained codec t (net 0) jcommands.elements) ∧
    ∀ round ∈ (sessionLoop codec t (fuel+2) net text .empty aq).2.2.2,
      round.package = text ∧ Stems codec t (net 0) round := by
  have hread := read_elements codec text j jcommands hparse hmember
  rw [Contained, ← queued_none]
  by_cases hgoes : GoesOn jcommands.elements
  · obtain ⟨hfault,hnoend⟩ := (goes_on jcommands.elements).mp hgoes
    rw [hfault, hnoend] at hread
    have hloop := loop_executed codec t hend fuel net text _ aq hread
    rw [hloop.1, all_executable codec t (net 0) _ hgoes.1]
    constructor
    · constructor
      · intro h
        exact Or.inr ⟨hgoes,h⟩
      · rintro (hnil | h)
        · rw [← all_executable codec t (net 0) _ hgoes.1, hnil]
          simp
        · exact h.2
    · intro round hround
      obtain ⟨hpackage,hqueued,hstatus⟩ := hloop.2 round hround
      have hfilter := queued_filter jcommands.elements hgoes.1
      rw [← hqueued] at hstatus hfilter
      rw [← hpackage] at hparse
      exact ⟨hpackage,⟨j,jcommands,hparse,hmember,hfilter⟩,hstatus⟩
  · have hne : (match firstFault jcommands.elements with
        | some e => .error e
        | none => .ok (true && !hasEnd jcommands.elements) : Except Fault Bool) ≠ .ok true := by
      rw [goes_on] at hgoes
      cases hfault : firstFault jcommands.elements with
      | some e => simp
      | none => simpa [hfault] using hgoes
    obtain ⟨hq,hrounds⟩ := loop_unexecuted codec t (fuel+1) net text _ _ aq _ hread hne
    rw [hq, hrounds]
    constructor
    · constructor
      · intro h
        exact Or.inl (congrArg CommandQueue.commands h)
      · rintro (hnil | h)
        · rw [hnil]
          rfl
        · exact absurd h.1 hgoes
    · simp

theorem loop_isolated (codec : Codec) (t : MOTree M) (hend : codec.parse endText = .ok endPackage)
    (fuel : ℕ) (net : ℕ → ℕ → Fetch) (text : Str) (aq : AlertQueue) :
    ((sessionLoop codec t (fuel+2) net text .empty aq).2.1 = .empty ↔
      InPackage codec text (Contained codec t (net 0))) ∧
    ∀ round ∈ (sessionLoop codec t (fuel+2) net text .empty aq).2.2.2,
      round.package = text ∧ Stems codec t (net 0) round := by
  by_cases hlist : ∃ j jcommands, codec.parse text = .ok j ∧ j.member "CMD".toList = .ok jcommands
  · obtain ⟨j,jcommands,hparse,hmember⟩ := hlist
    rw [in_package codec text _ j jcommands hparse hmember]
    exact loop_package codec t hend fuel net text aq j jcommands hparse hmember
  · have hnone : ∀ j jcommands, codec.parse text = .ok j →
        j.member "CMD".toList ≠ .ok jcommands :=
      fun j jcommands hparse hmember => hlist ⟨j,jcommands,hparse,hmember⟩
    have htext : InPackage codec text (Contained codec t (net 0)) :=
      fun j jcommands hparse hmember => absurd hmember (hnone j jcommands hparse)
    obtain ⟨r,hread,hr⟩ := read_nothing codec text hnone
    obtain ⟨hq,hrounds⟩ := loop_unexecuted codec t (fuel+1) net text _ _ aq r hread hr
    rw [hq, hrounds]
    exact ⟨iff_of_true rfl htext,by simp⟩

theorem reading_thrown (codec : Codec) (hthrown : ∀ text e, codec.parse text = .error e → e.Thrown)
    (text : Str) (q q' : CommandQueue) (e : Fault) (h : parseP2 codec text q = (.error e,q')) :
    e.Thrown := by
  have hparsed := hthrown text
  rw [parseP2] at h
  cases hparse : codec.parse text with
  | error e' =>
    have he := hparsed e' hparse
    rw [hparse] at h
    cases e' <;> cases h <;> exact he
  | ok j =>
    simp only [hparse] at h
    cases hmember : j.member "CMD".toList with
    | error e' => cases j <;> cases hmember <;> cases h <;> decide
    | ok jcommands =>
      simp only [hmember, parse_queued] at h
      cases hfault : firstFault jcommands.elements with
      | none =>
        rw [hfault] at h
        cases h
      | some e' =>
        rw [hfault] at h
        cases h
        rw [first_fault _ _ hfault]
        decide

theorem loop_defined (codec : Codec) (t : MOTree M) (hend : codec.parse endText = .ok endPackage)
    (hthrown : ∀ text e, codec.parse text = .error e → e.Thrown) (fuel : ℕ)
    (net : ℕ → ℕ → Fetch) (text : Str) (q : CommandQueue) (aq : AlertQueue) :
    DefinedIf (∀ q', parseP2 codec text q = (.ok true,q') →
        AllInBounds codec t (net 0) q'.commands)
      (sessionLoop codec t (fuel+2) net text q aq).1 := by
  rw [sessionLoop]
  rcases hread : parseP2 codec text q with ⟨e | goesOn,q₁⟩
  · have he := reading_thrown codec hthrown text q q₁ e hread
    exact Or.inl ⟨by simp,by simpa using he⟩
  cases goesOn with
  | false => exact Or.inl ⟨by simp,by simp⟩
  | true =>
    have hexec := execution_defined codec t q₁.commands (net 0) q₁.responses
    simp only [Prod.mk.injEq, true_and, forall_eq', doCommands]
    rcases hdo : doCommandsFrom codec t (net 0) q₁.commands q₁.responses with ⟨e | _,q₂⟩
    · rw [hdo] at hexec
      simpa [DefinedIf] using hexec
    · rw [hdo] at hexec
      have hin := (thrown_iff _ _ hexec).mp (by simp)
      simp only
      cases codec.dump (p3Json q₂.p3SCJson.1 aq.packageAlertJson.1) with
      | none => exact Or.inl ⟨hin,by simp [Fault.Thrown]⟩
      | some p3 =>
        simp only [sendP3]
        rw [loop_ended codec t hend]
        exact Or.inl ⟨hin,by simp⟩

theorem text_supplied (codec : Codec) (t : MOTree M) (net : ℕ → Fetch) (text : Str) :
    (∀ q', parseP2 codec text .empty = (.ok true,q') → AllInBounds codec t net q'.commands) ↔
      InPackage codec text (Supplied codec t net) := by
  by_cases hlist : ∃ j jcommands, codec.parse text = .ok j ∧ j.member "CMD".toList = .ok jcommands
  · obtain ⟨j,jcommands,hparse,hmember⟩ := hlist
    rw [in_package codec text _ j jcommands hparse hmember,
      read_elements codec text j jcommands hparse hmember]
    by_cases hgoes : GoesOn jcommands.elements
    · obtain ⟨hfault,hnoend⟩ := (goes_on jcommands.elements).mp hgoes
      rw [hfault, hnoend, ← all_in_bounds codec t net _ hgoes]
      simp
    · apply iff_of_true
      · intro q' hq'
        rw [goes_on] at hgoes
        cases hfault : firstFault jcommands.elements with
        | some e => simp [hfault] at hq'
        | none =>
          simp only [hfault, Prod.mk.injEq, Except.ok.injEq] at hq'
          exact absurd ⟨hfault,by simpa using hq'.1⟩ hgoes
      · exact fun h => absurd h hgoes
  · have hnone : ∀ j jcommands, codec.parse text = .ok j →
        j.member "CMD".toList ≠ .ok jcommands :=
      fun j jcommands hparse hmember => hlist ⟨j,jcommands,hparse,hmember⟩
    obtain ⟨r,hread,hr⟩ := read_nothing codec text hnone
    apply iff_of_true
    · intro q' hq'
      rw [hread] at hq'
      cases hq'
      exact absurd rfl hr
    · exact fun j jcommands hparse hmember => absurd hmember (hnone j jcommands hparse)

def InAnswer (I : Interface M W) (codec : Codec) (input : SessionInput W) (client : DMClient M)
    (P : List Json → Prop) : Prop :=
  (codec.dump (firstPackage I input client)).isSome → InPackage codec (sendP1 input.post) P

def Ends (run : SessionRun M) : Prop := ∀ e, run.outcome = .error e → e.Thrown

def Isolated (codec : Codec) (t : MOTree M) (input : SessionInput W) (run : SessionRun M) : Prop :=
  run.client.commandQueue = .empty ∧
    ∀ round ∈ run.rounds, round.package = sendP1 input.post ∧ Stems codec t (input.net 0) round

/-- Every session that ends is isolated; behind one that does not, nothing is meant. -/
def AllIsolated (I : Interface M W) (codec : Codec) (fuel : ℕ) :
    List (SessionInput W) → DMClient M → Prop
  | [], _ => True
  | input::inputs, client =>
    Ends (startSession I codec fuel input client) →
      Isolated codec client.motree input (startSession I codec fuel input client) ∧
        AllIsolated I codec fuel inputs (startSession I codec fuel input client).client

def AllContained (I : Interface M W) (codec : Codec) (fuel : ℕ) :
    List (SessionInput W) → DMClient M → Prop
  | [], _ => True
  | input::inputs, client =>
    InAnswer I codec input client (Supplied codec client.motree (input.net 0)) →
      InAnswer I codec input client (Contained codec client.motree (input.net 0)) ∧
        AllContained I codec fuel inputs (startSession I codec fuel input client).client

theorem session_isolated (I : Interface M W) (codec : Codec)
    (hend : codec.parse endText = .ok endPackage) (fuel : ℕ) (input : SessionInput W)
    (client : DMClient M) (hq : client.commandQueue = .empty) :
    Isolated codec client.motree input (startSession I codec (fuel+2) input client) ↔
      InAnswer I codec input client (Contained codec client.motree (input.net 0)) := by
  have hloop := loop_isolated codec client.motree hend fuel input.net (sendP1 input.post)
    (packagedAlerts input client)
  rw [Isolated, InAnswer]
  cases hdump : codec.dump (firstPackage I input client) with
  | none =>
    rw [session_unsent I codec _ input client hdump]
    simp [hq]
  | some text =>
    rw [session_sent I codec _ input client text hdump, hq]
    simp only
    rw [hloop.1]
    constructor
    · intro h _
      exact h.1
    · intro h
      exact ⟨h rfl,hloop.2⟩

def SessionSupplied (I : Interface M W) (codec : Codec) (input : SessionInput W)
    (client : DMClient M) : Prop :=
  (codec.dump (firstPackage I input client)).isSome →
    ∀ q, parseP2 codec (sendP1 input.post) client.commandQueue = (.ok true,q) →
      AllInBounds codec client.motree (input.net 0) q.commands

theorem session_defined (I : Interface M W) (codec : Codec)
    (hend : codec.parse endText = .ok endPackage)
    (hthrown : ∀ text e, codec.parse text = .error e → e.Thrown) (fuel : ℕ)
    (input : SessionInput W) (client : DMClient M) :
    DefinedIf (SessionSupplied I codec input client)
      (startSession I codec (fuel+2) input client).outcome := by
  have hloop := loop_defined codec client.motree hend hthrown fuel input.net (sendP1 input.post)
    client.commandQueue (packagedAlerts input client)
  rw [SessionSupplied]
  cases hdump : codec.dump (firstPackage I input client) with
  | none =>
    rw [session_unsent I codec _ input client hdump]
    exact Or.inl ⟨by simp,by simp [Fault.Thrown]⟩
  | some text =>
    rw [session_sent I codec _ input client text hdump]
    simp only [Option.isSome_some, forall_const]
    exact hloop

theorem session_supplied (I : Interface M W) (codec : Codec) (input : SessionInput W)
    (client : DMClient M) (hq : client.commandQueue = .empty) :
    SessionSupplied I codec input client ↔
      InAnswer I codec input client (Supplied codec client.motree (input.net 0)) := by
  rw [SessionSupplied, hq, text_supplied, InAnswer]

/-- Over any run of sessions that starts with empty queues, every session
leaves the queues empty and keeps to its own package exactly when every package
that comes back is contained. -/
theorem isolated_iff_contained (I : Interface M W) (codec : Codec)
    (hend : codec.parse endText = .ok endPackage)
    (hthrown : ∀ text e, codec.parse text = .error e → e.Thrown) (fuel : ℕ) (hfuel : 2 ≤ fuel)
    (inputs : List (SessionInput W)) (client : DMClient M) (hq : client.commandQueue = .empty) :
    AllIsolated I codec fuel inputs client ↔ AllContained I codec fuel inputs client := by
  obtain ⟨n,rfl⟩ : ∃ n, fuel = n+2 := ⟨fuel-2,by omega⟩
  induction inputs generalizing client with
  | nil => exact Iff.rfl
  | cons input inputs ih =>
    have hsession := session_isolated I codec hend n input client hq
    have hends := thrown_iff _ _ (session_defined I codec hend hthrown n input client)
    rw [AllIsolated, AllContained, Ends, hends, session_supplied I codec input client hq]
    constructor
    · intro h hin
      obtain ⟨hthis,hrest⟩ := h hin
      exact ⟨hsession.mp hthis,(ih _ hthis.1).mp hrest⟩
    · intro h hin
      obtain ⟨hcontained,hrest⟩ := h hin
      have hthis := hsession.mpr hcontained
      exact ⟨hthis,(ih _ hthis.1).mpr hrest⟩

def getPackage : Json := .object [("CMD".toList,.array [.array [.string "GET".toList]])]

def getEndPackage : Json :=
  .object [("CMD".toList,.array [.array [.string "GET".toList],.array [.string "END".toList]])]

def sampleCodec : Codec :=
  Json.tableCodec [(endText,endPackage),(getPackage.print,getPackage),
    (getEndPackage.print,getEndPackage)]

def answered (post : Option HttpResponse) : SessionInput Unit :=
  { serverInitiated := true, objects := (), post := post, net := fun _ _ _ => none }

theorem sample_thrown (text : Str) (e : Fault) (h : sampleCodec.parse text = .error e) :
    e.Thrown := by
  simp only [sampleCodec, Json.tableCodec] at h
  split at h <;> cases h
  decide

theorem get_goes_on : GoesOn [.array [.string "GET".toList]] := by
  constructor
  · intro j hj
    rw [List.mem_singleton.mp hj]
    exact Or.inr (fun _ hparam => by cases hparam)
  · intro j hj hend
    rw [List.mem_singleton.mp hj] at hend
    exact absurd (Json.string.inj hend) (by decide)

theorem no_download (i : ℕ) (params : List Str) :
    ¬ HgetAt [.array [.string "GET".toList]] i params := by
  have hfilter : [Json.array [.string "GET".toList]].filter (fun j => IsCommand j) =
      [.array [.string "GET".toList]] := rfl
  rw [HgetAt, hfilter]
  cases i with
  | zero => simp
  | succ i => simp

theorem isolated_iff_contained_sample :
    AllIsolated noObjects sampleCodec 2
      [answered (some ⟨200,getPackage.print⟩),answered none] (DMClient.new false) := by
  apply (isolated_iff_contained noObjects sampleCodec rfl sample_thrown 2 (by decide)
    [answered (some ⟨200,getPackage.print⟩),answered none] (DMClient.new false) rfl).mpr
  intro _
  constructor
  · intro _ j jcommands hj hm
    have hjson : (.ok getPackage : Except Fault Json) = .ok j := hj
    cases hjson
    cases hm
    exact Or.inr ⟨get_goes_on,fun i params hi => absurd hi (no_download i params)⟩
  intro _
  constructor
  · intro _ j jcommands hj
    cases hj
  · trivial

/-- The command in front of END stays in the queue for the next session. -/
theorem command_before_end :
    ¬ AllIsolated noObjects sampleCodec 2 [answered (some ⟨200,getEndPackage.print⟩)]
      (DMClient.new false) := by
  intro h
  obtain ⟨⟨hq,-⟩,-⟩ := h (fun e he => by cases he)
  cases hq

end Grandma.Isolation
