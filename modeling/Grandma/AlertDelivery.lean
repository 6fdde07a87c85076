import Grandma.DMClient
import Grandma.Outbox

/-!
# What happens to alerts

An alert waits in the queue until it is marked as being in transit, so packaging
is a flush of an outbox, and an alert that carries the mark from the beginning
never waits. Over a run of sessions the alerts of a package that does not go out
are gone, and since every session adds an alert of its own before it packages,
every such session loses one.
-/

set_option autoImplicit false

namespace Grandma.AlertDelivery
open AlertQueue

def pending (q : AlertQueue) : List Str :=
  (q.alertQueue.filter (fun a => !a.inTransit)).map Alert.alertType

theorem pending_added (q : AlertQueue) (a : Alert) :
    pending (q.addAlert a) = if !a.inTransit then pending q++[a.alertType] else pending q := by
  rw [pending, addAlert, List.filter_append, List.map_append, pending]
  cases htransit : a.inTransit <;> simp [htransit]

theorem packaged_pending (as : List Alert) : (packageAlerts as).1 =
    ((as.filter (fun a => !a.inTransit)).map Alert.alertType).map (fun t => alertJson (alert t)) := by
  induction as with
  | nil => rfl
  | cons a as ih =>
    cases htransit : a.inTransit with
    | true => simpa [packageAlerts, htransit] using ih
    | false =>
      simp only [packageAlerts, htransit, ih, Bool.false_eq_true, if_false, Bool.not_false,
        List.filter_cons_of_pos, List.map_cons]
      rfl

theorem packaged_marked (as : List Alert) : ∀ a ∈ (packageAlerts as).2, a.inTransit = true := by
  induction as with
  | nil => simp [packageAlerts]
  | cons a as ih =>
    rw [packageAlerts]
    cases htransit : a.inTransit <;> simpa [htransit] using ih

theorem package_json (q : AlertQueue) :
    q.packageAlertJson.1 = .ofElems ((pending q).map (fun t => alertJson (alert t))) := by
  rw [pending, ← packaged_pending]
  rfl

theorem package_alerts (q : AlertQueue) :
    q.packageAlertJson.1.elements = (pending q).map (fun t => alertJson (alert t)) := by
  rw [package_json]
  exact Json.elements_ofElems _

theorem package_pending (q : AlertQueue) : pending q.packageAlertJson.2 = [] := by
  rw [pending, packageAlertJson, List.map_eq_nil_iff, List.filter_eq_nil_iff]
  intro a ha
  simp [packaged_marked q.alertQueue a ha]

inductive AlertOp where
  | add (a : Alert)
  | package
  deriving DecidableEq

def runOps : List AlertOp → AlertQueue → List Json × AlertQueue
  | [], q => ([],q)
  | .add a::ops, q => runOps ops (q.addAlert a)
  | .package::ops, q =>
    let (alerts,q) := q.packageAlertJson
    let (returned,q) := runOps ops q
    (alerts::returned,q)

def alertsOf : List AlertOp → List Alert
  | [] => []
  | .add a::ops => a::alertsOf ops
  | .package::ops => alertsOf ops

def untilLastPackage : List AlertOp → List AlertOp
  | [] => []
  | op::ops => if .package ∈ op::ops then op::untilLastPackage ops else []

def Fresh (ops : List AlertOp) : Prop := ∀ a, .add a ∈ ops → a.inTransit = false

def event : AlertOp → Outbox.Event Str
  | .add a => .add a.alertType (!a.inTransit)
  | .package => .flush true

/-- What the calls return is what arrives in the account of the outbox. -/
theorem run_account (ops : List AlertOp) (q : AlertQueue) (s : Outbox.Account Str)
    (hq : pending q = s.pending) :
    (Outbox.enterAll s (ops.map event)).arrived.map (fun t => alertJson (alert t)) =
      s.arrived.map (fun t => alertJson (alert t))++(runOps ops q).1.flatMap Json.elements := by
  induction ops generalizing q s with
  | nil => simp [Outbox.enterAll, runOps]
  | cons op ops ih =>
    cases op with
    | add a =>
      have hq' : pending (q.addAlert a) = (Outbox.enter s (event (.add a))).pending := by
        rw [pending_added, hq]
        rfl
      exact ih (q.addAlert a) (Outbox.enter s (event (.add a))) hq'
    | package =>
      have h := ih q.packageAlertJson.2 (Outbox.enter s (event .package)) (package_pending q)
      rw [List.map_cons, Outbox.enterAll, h, runOps]
      simp [event, Outbox.enter, package_alerts, hq]

theorem added_alerts (ops : List AlertOp) (s : Outbox.Account Str) :
    (Outbox.enterAll s (ops.map event)).added = s.added++(alertsOf ops).map Alert.alertType := by
  induction ops generalizing s with
  | nil => simp [Outbox.enterAll, alertsOf]
  | cons op ops ih => cases op <;> simp [Outbox.enterAll, event, ih, Outbox.enter, alertsOf]

theorem all_arrive (ops : List AlertOp) (hf : Fresh ops) (s : Outbox.Account Str) :
    Outbox.AllLossless s (ops.map event) := by
  induction ops generalizing s with
  | nil => trivial
  | cons op ops ih =>
    constructor
    · cases op with
      | add a => simp [event, Outbox.Lossless, hf a (by simp)]
      | package => exact Or.inl rfl
    · exact ih (fun a ha => hf a (by simp [ha])) _

theorem until_fresh (ops : List AlertOp) (hf : Fresh ops) : Fresh (untilLastPackage ops) := by
  induction ops with
  | nil => exact hf
  | cons op ops ih =>
    intro a ha
    rw [untilLastPackage] at ha
    split_ifs at ha
    · rcases List.mem_cons.mp ha with rfl | ha
      · exact hf a (by simp)
      · exact ih (fun b hb => hf b (by simp [hb])) a ha
    · cases ha

theorem last_empty (ops : List AlertOp) (h : .package ∉ ops) : untilLastPackage ops = [] := by
  cases ops with
  | nil => rfl
  | cons op ops => rw [untilLastPackage, if_neg h]

theorem no_package (ops : List AlertOp) (h : .package ∉ ops) (s : Outbox.Account Str) :
    (Outbox.enterAll s (ops.map event)).arrived = s.arrived := by
  induction ops generalizing s with
  | nil => rfl
  | cons op ops ih =>
    obtain ⟨hop,hops⟩ := List.ne_and_not_mem_of_not_mem_cons h
    cases op with
    | add a => exact ih hops _
    | package => exact absurd rfl hop

theorem until_last (ops : List AlertOp) (s : Outbox.Account Str) :
    (Outbox.enterAll s (ops.map event)).arrived =
        (Outbox.enterAll s ((untilLastPackage ops).map event)).arrived ∧
      (.package ∈ ops → (Outbox.enterAll s ((untilLastPackage ops).map event)).pending = []) := by
  induction ops generalizing s with
  | nil => simp [untilLastPackage]
  | cons op ops ih =>
    by_cases h : .package ∈ op::ops
    · rw [untilLastPackage, if_pos h]
      constructor
      · exact (ih (Outbox.enter s (event op))).1
      · intro _
        by_cases hops : .package ∈ ops
        · exact (ih (Outbox.enter s (event op))).2 hops
        · have hop : op = .package := by simpa [hops, eq_comm] using h
          rw [last_empty ops hops, hop]
          rfl
    · rw [untilLastPackage, if_neg h]
      exact ⟨no_package (op::ops) h s,fun h' => absurd h' h⟩

/-- Each alert is packaged exactly once and in order, whatever the interleaving. -/
theorem packaged_once (ops : List AlertOp) (hf : Fresh ops) :
    (runOps ops .empty).1.flatMap Json.elements =
      (alertsOf (untilLastPackage ops)).map alertJson := by
  have hrun := run_account ops .empty Outbox.opening rfl
  have hlast := until_last ops Outbox.opening
  have hadded := added_alerts (untilLastPackage ops) Outbox.opening
  have hbal := Outbox.lossless_balance Outbox.opening ((untilLastPackage ops).map event) rfl
    (all_arrive _ (until_fresh ops hf) _)
  have hpend : (Outbox.enterAll Outbox.opening ((untilLastPackage ops).map event)).pending = [] := by
    by_cases h : .package ∈ ops
    · exact hlast.2 h
    · rw [last_empty ops h]
      rfl
  rw [hpend, List.append_nil, hadded] at hbal
  rw [hlast.1, ← hbal] at hrun
  simp only [Outbox.opening, List.map_nil, List.nil_append, List.map_map] at hrun
  exact hrun.symm

theorem packaged_once_interleaved :
    (runOps [.add (alert "a".toList),.package,.package,.add (alert "b".toList),
        .add (alert "a".toList),.package,.add (alert "c".toList)] .empty).1.flatMap Json.elements =
      [alertJson (alert "a".toList),alertJson (alert "b".toList),alertJson (alert "a".toList)] :=
  packaged_once _ (by intro a ha; simp at ha; rcases ha with rfl | rfl | rfl | rfl <;> rfl)

/-- An alert that is in transit when it is added is never packaged. -/
theorem marked_never_packaged :
    (runOps [.add ⟨"a".toList,true⟩,.package] .empty).1.flatMap Json.elements ≠
      (alertsOf (untilLastPackage [.add ⟨"a".toList,true⟩,.package])).map alertJson := by
  intro h
  cases h

section Sessions
open DMClient

variable {M W : Type}

inductive ClientOp (W : Type) where
  | addAlert (a : Alert)
  | session (input : SessionInput W)

structure History (M : Type) where
  client : DMClient M
  added : List Json
  delivered : List Json

def deliveredAlerts (input : SessionInput W) (run : SessionRun M) : List Json :=
  match input.post, run.p1 with
  | some _, some p1 => (p1.field "Alert".toList).elements
  | _, _ => []

def clientStep (I : Interface M W) (codec : Codec) (fuel : ℕ) (h : History M) :
    ClientOp W → History M
  | .addAlert a =>
    { h with client := { h.client with alertQueue := h.client.alertQueue.addAlert a },
             added := h.added++[alertJson a] }
  | .session input =>
    let run := startSession I codec fuel input h.client
    { client := run.client, added := h.added++[alertJson (sessionAlert input.serverInitiated)],
      delivered := h.delivered++deliveredAlerts input run }

def clientRun (I : Interface M W) (codec : Codec) (fuel : ℕ) :
    List (ClientOp W) → History M → History M
  | [], h => h
  | op::ops, h => clientRun I codec fuel ops (clientStep I codec fuel h op)

def start (client : DMClient M) : History M :=
  { client := { client with alertQueue := .empty }, added := [], delivered := [] }

/-- Every alert ever added, occurrence by occurrence, was delivered or is in
what the next call of `package_alert_json` returns. -/
def AlertsKept (h : History M) : Prop :=
  h.added.Subperm (h.delivered++h.client.alertQueue.packageAlertJson.1.elements)

def GoesOut (I : Interface M W) (codec : Codec) (input : SessionInput W)
    (client : DMClient M) : Prop :=
  (codec.dump (firstPackage I input client)).isSome ∧ input.post.isSome

instance (I : Interface M W) (codec : Codec) (input : SessionInput W) (client : DMClient M) :
    Decidable (GoesOut I codec input client) := inferInstanceAs (Decidable (_ ∧ _))

def AllGoOut (I : Interface M W) (codec : Codec) (fuel : ℕ) :
    List (ClientOp W) → History M → Prop
  | [], _ => True
  | .addAlert a::ops, h => AllGoOut I codec fuel ops (clientStep I codec fuel h (.addAlert a))
  | .session input::ops, h => GoesOut I codec input h.client ∧
      AllGoOut I codec fuel ops (clientStep I codec fuel h (.session input))

def FreshAlerts (ops : List (ClientOp W)) : Prop := ∀ a, .addAlert a ∈ ops → a.inTransit = false

theorem p1_alerts (I : Interface M W) (w : W) (t : MOTree M) (dump : Bool) (alerts : Json) :
    (p1Json I w t dump alerts).field "Alert".toList = alerts := by
  cases dump <;> simp [p1Json, OrderedMap.lookup_assign]

theorem session_alert (serverInitiated : Bool) :
    (sessionAlert serverInitiated).inTransit = false := by
  cases serverInitiated <;> rfl

/-- The loop packages again in every round, but nothing is pending by then. -/
theorem loop_pending (codec : Codec) (t : MOTree M) (fuel : ℕ) (net : ℕ → ℕ → Fetch)
    (text : Str) (cq : CommandQueue) (aq : AlertQueue) (ha : pending aq = []) :
    pending (sessionLoop codec t fuel net text cq aq).2.2.1 = [] := by
  induction fuel generalizing net text cq aq with
  | zero => exact ha
  | succ fuel ih =>
    have hp := package_pending aq
    simp only [sessionLoop]
    split
    · exact ha
    · exact ha
    · split
      · exact ha
      · split
        · exact hp
        · exact ih _ _ _ _ hp

theorem pending_session (q : AlertQueue) (serverInitiated : Bool) :
    pending (q.addAlert (sessionAlert serverInitiated)) =
      pending q++[(sessionAlert serverInitiated).alertType] := by
  rw [pending_added, session_alert]
  rfl

theorem session_pending (I : Interface M W) (codec : Codec) (fuel : ℕ) (input : SessionInput W)
    (client : DMClient M) :
    pending (startSession I codec fuel input client).client.alertQueue = [] := by
  have hp := package_pending (client.alertQueue.addAlert (sessionAlert input.serverInitiated))
  simp only [startSession]
  split
  · exact hp
  · exact loop_pending _ _ _ _ _ _ _ hp

theorem session_delivers (I : Interface M W) (codec : Codec) (fuel : ℕ) (input : SessionInput W)
    (client : DMClient M) :
    deliveredAlerts input (startSession I codec fuel input client) =
      if GoesOut I codec input client then
        (pending client.alertQueue++[(sessionAlert input.serverInitiated).alertType]).map
          (fun t => alertJson (alert t)) else [] := by
  have halerts :=
    package_alerts (client.alertQueue.addAlert (sessionAlert input.serverInitiated))
  rw [pending_session] at halerts
  cases hpost : input.post with
  | none => simp [deliveredAlerts, hpost, GoesOut]
  | some res =>
    cases hdump : codec.dump (firstPackage I input client) with
    | none =>
      rw [session_unsent I codec fuel input client hdump]
      simp [deliveredAlerts, hdump, GoesOut]
    | some text =>
      rw [session_sent I codec fuel input client text hdump,
        if_pos ⟨by simp [hdump],by simp [hpost]⟩, ← halerts]
      simp only [deliveredAlerts, hpost]
      rw [firstPackage, p1_alerts]

structure Accounted (h : History M) (s : Outbox.Account Str) : Prop where
  queue : pending h.client.alertQueue = s.pending
  added : h.added = s.added.map (fun t => alertJson (alert t))
  delivered : h.delivered = s.arrived.map (fun t => alertJson (alert t))

theorem alertJson_injective (t u : Str) (h : alertJson (alert t) = alertJson (alert u)) :
    t = u := by
  have hf := congrArg (Json.field "AlertType".toList) h
  simpa [alertJson, OrderedMap.lookup_assign, alert] using hf

theorem accounted_kept (h : History M) (s : Outbox.Account Str) (ha : Accounted h s) :
    AlertsKept h ↔ Outbox.Kept s := by
  rw [AlertsKept, Outbox.Kept, package_alerts, ha.queue, ha.added, ha.delivered,
    ← List.map_append]
  exact List.map_subperm_map_iff alertJson_injective

theorem add_accounted (I : Interface M W) (codec : Codec) (fuel : ℕ) (h : History M)
    (s : Outbox.Account Str) (ha : Accounted h s) (a : Alert) :
    Accounted (clientStep I codec fuel h (.addAlert a))
      (Outbox.enter s (.add a.alertType (!a.inTransit))) where
  queue := by
    simp only [clientStep, pending_added, ha.queue]
    rfl
  added := by
    simp only [clientStep, ha.added, Outbox.enter, List.map_append]
    rfl
  delivered := ha.delivered

theorem session_accounted (I : Interface M W) (codec : Codec) (fuel : ℕ) (h : History M)
    (s : Outbox.Account Str) (ha : Accounted h s) (input : SessionInput W) :
    Accounted (clientStep I codec fuel h (.session input))
      (Outbox.enter (Outbox.enter s (.add (sessionAlert input.serverInitiated).alertType true))
        (.flush (decide (GoesOut I codec input h.client)))) where
  queue := session_pending I codec fuel input h.client
  added := by
    simp only [clientStep, ha.added, Outbox.enter, List.map_append]
    rfl
  delivered := by
    simp only [clientStep, ha.delivered, Outbox.enter, if_true,
      session_delivers I codec fuel input h.client, ha.queue, decide_eq_true_eq]
    split_ifs <;> simp

theorem fresh_add (a : Alert) (ops : List (ClientOp W)) :
    FreshAlerts (.addAlert a::ops) ↔ a.inTransit = false ∧ FreshAlerts ops := by
  constructor
  · intro h
    exact ⟨h a (by simp),fun b hb => h b (by simp [hb])⟩
  · rintro ⟨ha,h⟩ b hb
    rcases List.mem_cons.mp hb with heq | hb
    · cases heq
      exact ha
    · exact h b hb

theorem fresh_session (input : SessionInput W) (ops : List (ClientOp W)) :
    FreshAlerts (.session input::ops) ↔ FreshAlerts ops := by
  constructor
  · intro h b hb
    exact h b (by simp [hb])
  · intro h b hb
    rcases List.mem_cons.mp hb with heq | hb
    · cases heq
    · exact h b hb

/-- Along a run of the client an account can be kept in which exactly the marked
alerts and the sessions whose package does not go out lose something. -/
theorem run_accounted (I : Interface M W) (codec : Codec) (fuel : ℕ) (ops : List (ClientOp W))
    (h : History M) (s : Outbox.Account Str) (ha : Accounted h s) :
    ∃ es, Accounted (clientRun I codec fuel ops h) (Outbox.enterAll s es) ∧
      (Outbox.AllLossless s es ↔ FreshAlerts ops ∧ AllGoOut I codec fuel ops h) := by
  induction ops generalizing h s with
  | nil => exact ⟨[],ha,iff_of_true trivial ⟨by simp [FreshAlerts],trivial⟩⟩
  | cons op ops ih =>
    cases op with
    | addAlert a =>
      have hstep := add_accounted I codec fuel h s ha a
      obtain ⟨es,hrun,hes⟩ := ih _ _ hstep
      have hall : Outbox.AllLossless s (.add a.alertType (!a.inTransit)::es) ↔
          FreshAlerts (.addAlert a::ops) ∧ AllGoOut I codec fuel (.addAlert a::ops) h := by
        rw [Outbox.AllLossless, hes, fresh_add, and_assoc]
        exact and_congr_left' (by simp [Outbox.Lossless])
      exact ⟨.add a.alertType (!a.inTransit)::es,hrun,hall⟩
    | session input =>
      have hstep := session_accounted I codec fuel h s ha input
      obtain ⟨es,hrun,hes⟩ := ih _ _ hstep
      have hl : Outbox.Lossless
          (Outbox.enter s (.add (sessionAlert input.serverInitiated).alertType true))
          (.flush (decide (GoesOut I codec input h.client))) ↔ GoesOut I codec input h.client := by
        simp [Outbox.Lossless, Outbox.enter]
      have hall : Outbox.AllLossless s (.add (sessionAlert input.serverInitiated).alertType true::
          .flush (decide (GoesOut I codec input h.client))::es) ↔
          FreshAlerts (.session input::ops) ∧ AllGoOut I codec fuel (.session input::ops) h := by
        rw [Outbox.AllLossless, Outbox.AllLossless, hes, hl, fresh_session, AllGoOut]
        constructor
        · rintro ⟨-,hgoes,hfresh,hrest⟩
          exact ⟨hfresh,hgoes,hrest⟩
        · rintro ⟨hfresh,hgoes,hrest⟩
          exact ⟨rfl,hgoes,hfresh,hrest⟩
      exact ⟨.add (sessionAlert input.serverInitiated).alertType true::
        .flush (decide (GoesOut I codec input h.client))::es,hrun,hall⟩

/-- No alert is lost over a run exactly when no alert is added with the mark, and
every session's first package can be printed and reaches the server. -/
theorem kept_iff_delivered (I : Interface M W) (codec : Codec) (fuel : ℕ)
    (ops : List (ClientOp W)) (client : DMClient M) :
    AlertsKept (clientRun I codec fuel ops (start client)) ↔
      FreshAlerts ops ∧ AllGoOut I codec fuel ops (start client) := by
  have hstart : Accounted (start client) Outbox.opening := ⟨rfl,rfl,rfl⟩
  obtain ⟨es,hrun,hes⟩ := run_accounted I codec fuel ops _ _ hstart
  rw [accounted_kept _ _ hrun, Outbox.kept_iff _ _ rfl, hes]

def endCodec : Codec := Json.tableCodec [(Session.endText,Session.endPackage)]

def sessionWith (post : Option HttpResponse) : SessionInput Unit :=
  { serverInitiated := false, objects := (), post := post, net := fun _ _ _ => none }

theorem kept_over_two_sessions :
    AlertsKept (clientRun noObjects endCodec 2
      [.addAlert (alert "custom".toList),.session (sessionWith (some ⟨200,Session.endText⟩)),
        .session (sessionWith (some ⟨500,[]⟩))] (start (DMClient.new true))) :=
  (kept_iff_delivered noObjects endCodec 2 _ (DMClient.new true)).mpr
    ⟨by intro a ha; simp at ha; rw [ha]; rfl,⟨rfl,rfl⟩,⟨rfl,rfl⟩,trivial⟩

/-- A session without a connection loses its own alert. -/
theorem lost_without_connection :
    ¬ AlertsKept (clientRun noObjects endCodec 2 [.session (sessionWith none)]
      (start (DMClient.new true))) := by
  intro h
  exact absurd h.length_le (by decide)

end Sessions

end Grandma.AlertDelivery
