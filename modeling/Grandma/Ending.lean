import Grandma.Throughput

/-!
# How a session ends

The third package is never sent and its answer is made up, so the loop of a
session goes round once at most. Nothing that a round calls goes on for ever.
What it calls may index a parameter that is not there, and then nothing is said
about the session.
-/

set_option autoImplicit false

namespace Grandma.Ending
open CommandQueue Session DMClient Downloads Isolation

variable {M W : Type}

theorem loop_stops (codec : Codec) (t : MOTree M) (hend : codec.parse endText = .ok endPackage)
    (fuel : ℕ) (net : ℕ → ℕ → Fetch) (text : Str) (q : CommandQueue) (aq : AlertQueue) :
    (sessionLoop codec t (fuel+2) net text q aq).2.2.2.length ≤ 1 ∧
      sessionLoop codec t 2 net text q aq = sessionLoop codec t (fuel+2) net text q aq := by
  rw [sessionLoop, sessionLoop]
  rcases parseP2 codec text q with ⟨e | goesOn,q₁⟩
  · exact ⟨by simp,rfl⟩
  cases goesOn with
  | false => exact ⟨by simp,rfl⟩
  | true =>
    simp only [doCommands]
    rcases doCommandsFrom codec t (net 0) q₁.commands q₁.responses with ⟨e | _,q₂⟩
    · exact ⟨by simp,rfl⟩
    · simp only
      cases codec.dump (p3Json q₂.p3SCJson.1 aq.packageAlertJson.1) with
      | none => exact ⟨by simp,rfl⟩
      | some p3 =>
        have hstop := fun n => loop_ended codec t hend n (fun r => net (r+1))
          q₂.p3SCJson.2 aq.packageAlertJson.2
        simp only [sendP3]
        rw [hstop fuel, hstop 0]
        exact ⟨by simp,rfl⟩

/-- Every session returns or throws, unless it executes an HGET without a
parameter that is looked at, and executes one package at most, whatever is in
its queues and whatever comes back. -/
theorem session_ends (I : Interface M W) (codec : Codec)
    (hend : codec.parse endText = .ok endPackage)
    (hthrown : ∀ text e, codec.parse text = .error e → e.Thrown) (fuel : ℕ) (hfuel : 2 ≤ fuel)
    (input : SessionInput W) (client : DMClient M) :
    (Ends (startSession I codec fuel input client) ↔ SessionSupplied I codec input client) ∧
      (startSession I codec fuel input client).outcome ≠ .error .diverges ∧
      (startSession I codec fuel input client).rounds.length ≤ 1 ∧
      startSession I codec 2 input client = startSession I codec fuel input client := by
  obtain ⟨n,rfl⟩ : ∃ n, fuel = n+2 := ⟨fuel-2,by omega⟩
  have hdefined := session_defined I codec hend hthrown n input client
  refine ⟨thrown_iff _ _ hdefined,defined_ends _ _ hdefined,?_⟩
  cases hdump : codec.dump (firstPackage I input client) with
  | none =>
    have hunsent := fun m => session_unsent I codec m input client hdump
    rw [hunsent, hunsent]
    exact ⟨by simp,rfl⟩
  | some text =>
    have hsent := fun m => session_sent I codec m input client text hdump
    obtain ⟨hrounds,hloop⟩ := loop_stops codec client.motree hend n input.net
      (sendP1 input.post) client.commandQueue (packagedAlerts input client)
    rw [hsent, hsent, hloop]
    exact ⟨hrounds,rfl⟩

theorem session_ends_sample :
    Ends (startSession noObjects sampleCodec 5 (answered (some ⟨200,getPackage.print⟩))
      (DMClient.new false)) := by
  apply (session_ends noObjects sampleCodec rfl sample_thrown 5 (by decide)
    (answered (some ⟨200,getPackage.print⟩)) (DMClient.new false)).1.mpr
  intro _ q hq i c hc _ hget
  cases hq
  rw [List.mem_singleton.mp (List.mem_of_getElem? hc)] at hget
  cases hget

end Grandma.Ending
