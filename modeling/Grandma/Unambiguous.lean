import Grandma.Advertised
import Grandma.AlertDelivery

/-!
# The first package is unambiguous

Different structures, different alerts and different dumps give different first
packages: no member is left out or overwritten that the server would need, and
a type without url or without instances is not taken for one that has them.
-/

set_option autoImplicit false

namespace Grandma.Unambiguous
open Advertised AlertDelivery AlertQueue DMClient MOHandler

variable {M W : Type}

theorem maps_iff {α β γ : Type*} (f : α → β) (g : α → γ) (h : ∀ a b, f a = f b ↔ g a = g b)
    (as bs : List α) : as.map f = bs.map f ↔ as.map g = bs.map g := by
  induction as generalizing bs with
  | nil => cases bs <;> simp
  | cons a as ih =>
    cases bs with
    | nil => simp
    | cons b bs => simp [h a b, ih bs]

theorem elems_iff (js ks : List Json) : Json.ofElems js = Json.ofElems ks ↔ js = ks := by
  constructor
  · intro h
    simpa using congrArg Json.elements h
  · intro h
    rw [h]

def advert (h : MOHandler M) : Str × Str × List Str :=
  (h.urn,h.ddfUrl,h.instances.entries.map Prod.fst)

def outline (t : MOTree M) : List (Str × Str × List Str) := t.MOs.entries.map (fun MO => advert MO.2)

theorem entry_ddf (h : MOHandler M) :
    h.p1MOSJson.field "DDF".toList = if h.ddfUrl = [] then .null else .string h.ddfUrl := by
  rw [p1MOSJson, Json.field_ofMembers, Json.pushAt_other _ _ (by decide),
    OrderedMap.lookup_assign, if_neg (by decide)]
  split_ifs <;> rfl

theorem entry_iff (h g : MOHandler M) : h.p1MOSJson = g.p1MOSJson ↔ advert h = advert g := by
  constructor
  · intro heq
    have hurn : h.urn = g.urn := by
      have hfield := congrArg (Json.field "MOID".toList) heq
      rw [entry_moid, entry_moid] at hfield
      simpa using hfield
    have hurl : h.ddfUrl = g.ddfUrl := by
      have hfield := congrArg (Json.field "DDF".toList) heq
      rw [entry_ddf, entry_ddf] at hfield
      split_ifs at hfield with hh hg
      · rw [hh, hg]
      · simpa using hfield
    have hmiids : h.instances.entries.map Prod.fst = g.instances.entries.map Prod.fst := by
      have hfield := congrArg (fun j => (Json.field "MIID".toList j).elements) heq
      simp only [entry_miids] at hfield
      exact (maps_iff _ Prod.fst (by simp) _ _).mp hfield
    rw [advert, advert, hurn, hurl, hmiids]
  · intro heq
    simp only [advert, Prod.mk.injEq] at heq
    obtain ⟨hurn,hurl,hmiids⟩ := heq
    have hstrings := (maps_iff (fun mi : Str × M => Json.string mi.1) Prod.fst (by simp)
      h.instances.entries g.instances.entries).mpr hmiids
    rw [p1MOSJson, p1MOSJson, hurn, hurl, hstrings]

theorem mos_iff (t t' : MOTree M) : t.p1MOSJson = t'.p1MOSJson ↔ outline t = outline t' := by
  rw [MOTree.p1MOSJson, MOTree.p1MOSJson, elems_iff, outline, outline]
  exact maps_iff _ _ (fun MO MO' => entry_iff MO.2 MO'.2) _ _

theorem alerts_iff (q q' : AlertQueue) :
    q.packageAlertJson.1 = q'.packageAlertJson.1 ↔ pending q = pending q' := by
  have hinj : Function.Injective (fun t => alertJson (alert t)) := alertJson_injective
  rw [packageAlertJson, packageAlertJson]
  simp only [elems_iff, packaged_pending]
  exact (List.map_injective_iff.mpr hinj).eq_iff

theorem session_type (b b' : Bool)
    (h : (sessionAlert b).alertType = (sessionAlert b').alertType) : b = b' := by
  revert h
  cases b <;> cases b' <;> decide

theorem p1_mos (I : Interface M W) (w : W) (t : MOTree M) (dump : Bool) (alerts : Json) :
    (p1Json I w t dump alerts).field "MOS".toList = t.p1MOSJson := by
  cases dump <;> simp [p1Json, OrderedMap.lookup_assign]

theorem p1_tree (I : Interface M W) (w : W) (t : MOTree M) (dump : Bool) (alerts : Json) :
    (p1Json I w t dump alerts).field "MgmtTree".toList =
      if dump then (t.dumpSerializedMOS I w).1 else .null := by
  cases dump <;> simp [p1Json, OrderedMap.lookup_assign, OrderedMap.lookup]

/-- Two first packages are equal exactly when they have the same types with the
same urls and miids, the same pending alerts, were asked for by the same side,
and both have no dump or the same dump. -/
theorem first_package_iff (I : Interface M W) (input input' : SessionInput W)
    (client client' : DMClient M) :
    firstPackage I input client = firstPackage I input' client' ↔
      outline client.motree = outline client'.motree ∧
      pending client.alertQueue = pending client'.alertQueue ∧
      input.serverInitiated = input'.serverInitiated ∧
      client.p1DumpTree = client'.p1DumpTree ∧
      (client.p1DumpTree = true → (client.motree.dumpSerializedMOS I input.objects).1 =
        (client'.motree.dumpSerializedMOS I input'.objects).1) := by
  rw [firstPackage, firstPackage]
  constructor
  · intro h
    have hmos := congrArg (Json.field "MOS".toList) h
    rw [p1_mos, p1_mos, mos_iff] at hmos
    have halerts := congrArg (Json.field "Alert".toList) h
    rw [p1_alerts, p1_alerts, alerts_iff, pending_session, pending_session] at halerts
    obtain ⟨hpending,hsession⟩ := List.append_inj' halerts rfl
    have htree := congrArg (Json.field "MgmtTree".toList) h
    rw [p1_tree, p1_tree] at htree
    refine ⟨hmos,hpending,session_type _ _ (by simpa using hsession),?_⟩
    cases hdump : client.p1DumpTree with
    | true =>
      cases hdump' : client'.p1DumpTree with
      | true =>
        rw [hdump, hdump'] at htree
        exact ⟨rfl,fun _ => htree⟩
      | false =>
        rw [hdump, hdump'] at htree
        cases htree
    | false =>
      cases hdump' : client'.p1DumpTree with
      | true =>
        rw [hdump, hdump'] at htree
        cases htree
      | false => exact ⟨rfl,fun h => by cases h⟩
  · rintro ⟨hmos,hpending,hside,hdump,htree⟩
    have halerts := (alerts_iff (client.alertQueue.addAlert (sessionAlert input.serverInitiated))
      (client'.alertQueue.addAlert (sessionAlert input'.serverInitiated))).mpr (by
        rw [pending_session, pending_session, hpending, hside])
    rw [halerts, p1Json, p1Json, (mos_iff _ _).mpr hmos, ← hdump]
    cases hd : client.p1DumpTree with
    | true => simp only [htree hd]
    | false => rfl

end Grandma.Unambiguous
