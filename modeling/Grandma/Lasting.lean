import Grandma.Growing
import Grandma.Throughput
import Grandma.Unambiguous

/-!
# What a session has told stays told

The first package of a later session lists every type and every instance that
an earlier session listed, in the same order and with the same urls. Where the
objects answer as before, its dump has all that the earlier dump had.
-/

set_option autoImplicit false

namespace Grandma.Lasting
open Advertised DMClient MOHandler OrderedMap Registry Report Throughput Unambiguous

variable {M W : Type}

structure Kept (h h' : MOHandler M) : Prop where
  urn : h'.urn = h.urn
  ddfUrl : h'.ddfUrl = h.ddfUrl
  root : h'.root = h.root
  instances : Grows Eq h.instances h'.instances

theorem kept_refl (h : MOHandler M) : Kept h h :=
  ⟨rfl,rfl,rfl,grows_refl Eq (fun _ => rfl) h.instances⟩

theorem kept_trans (h g f : MOHandler M) (hhg : Kept h g) (hgf : Kept g f) : Kept h f where
  urn := hgf.urn.trans hhg.urn
  ddfUrl := hgf.ddfUrl.trans hhg.ddfUrl
  root := hgf.root.trans hhg.root
  instances := grows_trans Eq (fun _ _ _ => Eq.trans) _ _ _ hhg.instances hgf.instances

def Extends (t t' : MOTree M) : Prop := Grows Kept t.MOs t'.MOs

theorem extends_refl (t : MOTree M) : Extends t t := grows_refl Kept kept_refl t.MOs

theorem extends_trans (t s r : MOTree M) (hts : Extends t s) (hsr : Extends s r) : Extends t r :=
  grows_trans Kept kept_trans _ _ _ hts hsr

theorem effect_extends (I : Interface M W) (t t' : MOTree M) (c : Call M W) (r : Bool)
    (h : Effect I t c r t') : Extends t t' := by
  cases h with
  | again | unreadable | unknown => exact extends_refl t
  | register rootLeaf fs urn filename url handler fresh loaded =>
    apply grows_set Kept kept_refl
    intro g hg
    rw [fresh] at hg
    cases hg
  | refuse w urn mo miid handler next known =>
    apply grows_set Kept kept_refl
    intro g hg
    rw [known] at hg
    cases hg
    exact ⟨rfl,rfl,rfl,grows_refl Eq (fun _ => rfl) _⟩
  | add w urn mo miid chosen handler next known fresh given compatible =>
    apply grows_set Kept kept_refl
    intro g hg
    rw [known] at hg
    cases hg
    refine ⟨rfl,rfl,rfl,grows_set Eq (fun _ => rfl) _ _ _ ?_⟩
    intro mo' hmo'
    rw [fresh] at hmo'
    cases hmo'

theorem call_extends (I : Interface M W) (codec : Codec) (fuel : ℕ) (l : Ledger M)
    (c : ClientCall M W) : Extends l.client.motree (callStep I codec fuel l c).client.motree := by
  cases c with
  | registerDDF rootLeaf fs urn filename ddfUrl =>
    rw [callStep, DMClient.registerDDF]
    rcases hcall : l.client.motree.registerDDF rootLeaf fs urn filename ddfUrl with e | ⟨r,t⟩
    · exact extends_refl _
    · exact effect_extends I _ t (.registerDDF rootLeaf fs urn filename ddfUrl) r
        (call_effect I _ t (.registerDDF rootLeaf fs urn filename ddfUrl) r hcall)
  | addMO w urn mo miid =>
    rw [callStep, DMClient.addMO]
    rcases hcall : l.client.motree.addMO I w urn mo miid with e | ⟨r,t⟩
    · exact extends_refl _
    · exact effect_extends I _ t _ r (call_effect I _ t (.addMO w urn mo miid) r hcall)
  | setP1DumpTree enable => exact extends_refl _
  | startSession input =>
    rw [callStep, session_motree]
    exact extends_refl _

theorem run_extends (I : Interface M W) (codec : Codec) (fuel : ℕ) (calls : List (ClientCall M W))
    (l : Ledger M) : Extends l.client.motree (callRun I codec fuel calls l).client.motree := by
  induction calls generalizing l with
  | nil => exact extends_refl _
  | cons c calls ih =>
    exact extends_trans _ _ _ (call_extends I codec fuel l c) (ih _)

def Extended (entry entry' : Json) : Prop :=
  entry'.field "MOID".toList = entry.field "MOID".toList ∧
  entry'.field "DDF".toList = entry.field "DDF".toList ∧
  (entry.field "MIID".toList).elements.Sublist (entry'.field "MIID".toList).elements

theorem entry_extended (h h' : MOHandler M) (hk : Kept h h') :
    Extended h.p1MOSJson h'.p1MOSJson := by
  have hmiids : (h.instances.entries.map (fun mi => Json.string mi.1)).Sublist
      (h'.instances.entries.map (fun mi => Json.string mi.1)) := by
    apply sublist_eq
    apply sublist_map _ Eq _ _ _ _ _ (grows_entries Eq _ _ hk.instances)
    intro mi mi' hmi
    rw [hmi.1]
  refine ⟨by rw [entry_moid, entry_moid, hk.urn],by rw [entry_ddf, entry_ddf, hk.ddfUrl],?_⟩
  rwa [entry_miids, entry_miids]

theorem list_extended (t t' : MOTree M) (h : Extends t t') :
    List.SublistForall₂ Extended t.p1MOSJson.elements t'.p1MOSJson.elements := by
  rw [MOTree.p1MOSJson, MOTree.p1MOSJson, Json.elements_ofElems, Json.elements_ofElems]
  exact sublist_map _ Extended _ _ (fun MO MO' hMO => entry_extended MO.2 MO'.2 hMO.2) _ _
    (grows_entries Kept _ _ h)

theorem listed_extended (t t' : MOTree M) (h : Extends t t') :
    List.SublistForall₂ (fun p p' : Listed M => p.1.2.root = p'.1.2.root ∧ p.2.2 = p'.2.2)
      (listed t) (listed t') := by
  apply sublist_flatMap _ _ _ _ _ _ _ (grows_entries Kept _ _ h)
  intro MO MO' hMO
  apply sublist_map _ _ _ _ _ _ _ (grows_entries Eq _ _ hMO.2.instances)
  intro mi mi' hmi
  exact ⟨hMO.2.root.symm,hmi.2⟩

theorem dump_extended (I : Interface M W) (value : M → Str → Option Str) (w w' : W)
    (hI : ∀ mo, AnswersAt I mo (value mo) w) (hI' : ∀ mo, AnswersAt I mo (value mo) w')
    (t t' : MOTree M) (h : Extends t t') : (t.dumpSerializedMOS I w).1.elements.Sublist
      (t'.dumpSerializedMOS I w').1.elements := by
  rw [dump_still I value w hI, dump_still I value w' hI']
  apply sublist_eq
  apply sublist_map _ Eq _ _ _ _ _ (listed_extended t t' h)
  intro p p' hp
  rw [instanceReport, instanceReport, hp.1, hp.2]

/-- Whatever is called between two sessions, the later one lists what the
earlier one listed, and has in its dump what the earlier one had if all objects
answer as before. -/
theorem sessions_extend (I : Interface M W) (codec : Codec) (fuel : ℕ) (client : DMClient M)
    (input input' : SessionInput W) (calls : List (ClientCall M W)) (p1 p1' : Json)
    (hp1 : (startSession I codec fuel input client).p1 = some p1)
    (hp1' : (startSession I codec fuel input'
      (callRun I codec fuel (.startSession input::calls) (opening client)).client).p1 = some p1') :
    List.SublistForall₂ Extended (p1.field "MOS".toList).elements
      (p1'.field "MOS".toList).elements ∧
    ∀ value : M → Str → Option Str, (∀ mo, AnswersAt I mo (value mo) input.objects) →
      (∀ mo, AnswersAt I mo (value mo) input'.objects) → p1'.field "MgmtTree".toList ≠ .null →
      (p1.field "MgmtTree".toList).elements.Sublist (p1'.field "MgmtTree".toList).elements := by
  have hextends := run_extends I codec fuel (.startSession input::calls) (opening client)
  rw [session_package I codec fuel input client p1 hp1,
    session_package I codec fuel input' _ p1' hp1', firstPackage, firstPackage, p1_mos, p1_mos,
    p1_tree, p1_tree]
  constructor
  · exact list_extended _ _ hextends
  · intro value hI hI' hdump
    by_cases hflag : client.p1DumpTree
    · split_ifs at hdump with hflag'
      · rw [if_pos hflag, if_pos hflag']
        exact dump_extended I value _ _ hI hI' _ _ hextends
      · exact absurd rfl hdump
    · rw [if_neg hflag]
      exact List.nil_sublist _

def sampleSetup : List (ClientCall Unit Unit) :=
  [.registerDDF true sampleFile "u".toList [] "url".toList,.addMO () "u".toList () "7".toList]

def sampleLater : List (ClientCall Unit Unit) :=
  [.addMO () "u".toList () [],.registerDDF true sampleFile "t".toList [] [],
    .addMO () "t".toList () []]

def sampleClient : DMClient Unit :=
  (callRun noObjects (Json.tableCodec []) 2 sampleSetup (opening (DMClient.new true))).client

def sampleInput : SessionInput Unit :=
  { serverInitiated := false, objects := (), post := none, net := fun _ _ _ => none }

theorem sessions_extend_sample :
    let codec := Json.tableCodec []
    ∃ p1 p1', (startSession noObjects codec 2 sampleInput sampleClient).p1 = some p1 ∧
      (startSession noObjects codec 2 sampleInput (callRun noObjects codec 2
        (.startSession sampleInput::sampleLater) (opening sampleClient)).client).p1 = some p1' ∧
      List.SublistForall₂ Extended (p1.field "MOS".toList).elements
        (p1'.field "MOS".toList).elements ∧
      (p1.field "MgmtTree".toList).elements.Sublist (p1'.field "MgmtTree".toList).elements := by
  intro codec
  have h := sessions_extend noObjects codec 2 sampleClient sampleInput sampleInput sampleLater
    _ _ rfl rfl
  have hanswers : ∀ mo, AnswersAt noObjects mo (fun _ => some []) () :=
    fun _ _ => ⟨[],true,true,rfl,rfl⟩
  exact ⟨_,_,rfl,rfl,h.1,h.2 (fun _ _ => some []) hanswers hanswers (fun hnull => by cases hnull)⟩

end Grandma.Lasting
