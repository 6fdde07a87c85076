import Grandma.Application
import Grandma.SetupOrder
import Grandma.Unambiguous
import Grandma.Unwinding

/-!
# What is in uninitialised members

The leaf flag of a root read from a file, and the leaf flags of the nodes that
a local write creates, are whatever the memory held before. No session sends
them and no reading of a node returns them, over every run of the application.
-/

set_option autoImplicit false

namespace Grandma.Uninitialised
open Advertised Application BaseCached DMClient DumpContents Helper MOHandler Registry SetupOrder

variable {M W : Type}

def veiled (h : MOHandler M) : MOHandler M :=
  { h with root := .node h.root.label false h.root.children }

def veil (t : MOTree M) : MOTree M := { MOs := t.MOs.map veiled }

theorem find_veil (t : MOTree M) (urn : Str) :
    (veil t).MOs.find urn = (t.MOs.find urn).map veiled :=
  OrderedMap.find_map veiled t.MOs urn

theorem veil_veil (t : MOTree M) : veil (veil t) = veil t := by
  rw [veil, MOTree.mk.injEq]
  apply OrderedMap.ext_find
  intro u
  have htwice : veiled ∘ veiled = (veiled : MOHandler M → MOHandler M) := rfl
  rw [OrderedMap.find_map, find_veil, Option.map_map, htwice]

theorem veil_put (t : MOTree M) (urn : Str) (h : MOHandler M) :
    veil (put t urn h) = put (veil t) urn (veiled h) := by
  rw [veil, put, MOTree.mk.injEq]
  apply OrderedMap.ext_find
  intro u
  rw [OrderedMap.find_map, find_put, OrderedMap.find_set, find_veil]
  split_ifs <;> rfl

theorem put_veil (t : MOTree M) (urn : Str) (h g : MOHandler M) (hv : veiled h = veiled g) :
    veil (put t urn h) = veil (put (veil t) urn g) := by
  rw [veil_put, veil_put, veil_veil, hv]

def told (r : Except Fault (Bool × MOTree M)) : Except Fault (Bool × MOTree M) :=
  r.map (fun p => (p.1,veil p.2))

theorem told_cases (r r' : Except Fault (Bool × MOTree M)) (h : told r = told r') :
    (∃ e, r = .error e ∧ r' = .error e) ∨
    ∃ b t t', r = .ok (b,t) ∧ r' = .ok (b,t') ∧ veil t = veil t' := by
  rcases r with e | ⟨b,t⟩ <;> rcases r' with e' | ⟨b',t'⟩
  · exact Or.inl ⟨e,rfl,by cases h; rfl⟩
  · cases h
  · cases h
  · simp only [told, Except.map, Except.ok.injEq, Prod.mk.injEq] at h
    obtain ⟨rfl,hveil⟩ := h
    exact Or.inr ⟨b,t,t',rfl,rfl,hveil⟩

theorem register_veil (b b' : Bool) (fs : FileSystem) (t : MOTree M) (urn filename url : Str) :
    told (t.registerDDF b fs urn filename url) =
      told ((veil t).registerDDF b' fs urn filename url) := by
  rw [MOTree.registerDDF, MOTree.registerDDF, find_veil]
  cases hfind : t.MOs.find urn with
  | some h =>
    simp only [Option.map_some, told, Except.map, veil_veil]
  | none =>
    simp only [Option.map_none]
    rw [generate_new, generate_new]
    rcases loaded urn (fs filename) with e | _ | ⟨label,nodes⟩
    · rfl
    · simp only [told, Except.map, veil_veil]
    · have hfree : (veil t).MOs.find urn = none := by rw [find_veil, hfind, Option.map_none]
      simp only [told, Except.map, OrderedMap.insert_fresh _ _ _ hfind,
        OrderedMap.insert_fresh _ _ _ hfree]
      rw [← put, ← put]
      congr 2
      exact put_veil t urn _ _ rfl

theorem add_veiled (I : Interface M W) (w : W) (h : MOHandler M) (mo : M) (miid : Str) :
    (veiled h).addInstance I w mo miid =
      (h.addInstance I w mo miid).map (fun r => (r.1,veiled r.2)) := by
  have hchoose : (veiled h).chooseMiid miid = h.chooseMiid miid := rfl
  rw [addInstance, addInstance, hchoose]
  rcases h.chooseMiid miid with e | _ | ⟨chosen,next⟩
  · rfl
  · rfl
  · have hurn : (veiled h).urn = h.urn := rfl
    simp only [hurn]
    split_ifs <;> rfl

theorem add_veil (I : Interface M W) (w : W) (t : MOTree M) (urn : Str) (mo : M) (miid : Str) :
    told (t.addMO I w urn mo miid) = told ((veil t).addMO I w urn mo miid) := by
  rw [MOTree.addMO, MOTree.addMO, find_veil]
  cases t.MOs.find urn with
  | none => simp only [Option.map_none, told, Except.map, veil_veil]
  | some h =>
    simp only [Option.map_some, add_veiled]
    rcases h.addInstance I w mo miid with e | ⟨b,g⟩
    · rfl
    · simp only [told, Except.map]
      rw [← put, ← put]
      congr 2
      exact put_veil t urn _ _ rfl

theorem face_veil (t : MOTree M) : (veil t).MOs.map face = t.MOs.map face := by
  apply OrderedMap.ext_find
  intro u
  have hface : face ∘ veiled = (face : MOHandler M → MOHandler M) := rfl
  rw [OrderedMap.find_map, find_veil, Option.map_map, hface, OrderedMap.find_map]

theorem p1_veil (t : MOTree M) : (veil t).p1MOSJson = t.p1MOSJson := by
  rw [p1_face, face_veil, ← p1_face]

theorem dump_veil (I : Interface M W) (t : MOTree M) :
    (veil t).dumpSerializedMOS I = t.dumpSerializedMOS I := by
  funext w
  rw [dump_face, face_veil, ← dump_face]

theorem nodes_veiled (codec : Codec) (h : MOHandler M) :
    (veiled h).nodeSet codec = h.nodeSet codec := by
  funext uri modata
  have hinst : (veiled h).instances = h.instances := rfl
  rw [MOHandler.nodeSet, MOHandler.nodeSet, MOHandler.locate, MOHandler.locate, hinst]
  generalize find "/".toList uri = delim
  cases codec.dump modata with
  | none => rfl
  | some text =>
    simp only
    cases h.instances.find (substrTo uri delim) with
    | none => rfl
    | some mo => cases substrFrom uri delim <;> rfl

theorem nodes_veil (codec : Codec) (t : MOTree M) : (veil t).nodeSet codec = t.nodeSet codec := by
  funext uri modata
  rw [MOTree.nodeSet, MOTree.nodeSet, find_veil]
  generalize find "/".toList uri = delim
  cases t.MOs.find (substrTo uri delim) with
  | none => rfl
  | some h => simp only [Option.map_some, nodes_veiled]

theorem loop_nodes (codec : Codec) (t t' : MOTree M) (h : t.nodeSet codec = t'.nodeSet codec) :
    sessionLoop codec t = sessionLoop codec t' := by
  have hhget : CommandQueue.doHget codec t = CommandQueue.doHget codec t' := by
    funext fetch params responses
    simp only [CommandQueue.doHget, h]
  have hcommands : ∀ net cs responses, CommandQueue.doCommandsFrom codec t net cs responses =
      CommandQueue.doCommandsFrom codec t' net cs responses := by
    intro net cs
    induction cs generalizing net with
    | nil => exact fun _ => rfl
    | cons c cs ih =>
      intro responses
      simp only [CommandQueue.doCommandsFrom, CommandQueue.doCommand, hhget, ih]
  funext fuel
  induction fuel with
  | zero => rfl
  | succ fuel ih =>
    funext net text cq aq
    simp only [sessionLoop, CommandQueue.doCommands, hcommands, ih]

def texts (s : StaticData) : LabelTree Str Str := s.root.map Cell.data

theorem set_texts (fresh : ℕ → Bool) (s : StaticData) (p data : Str) (add : Bool) :
    texts (s.localSetNode fresh p data add) =
      ((texts s).writeAt add (fun _ => data) (fun _ => []) (vectorizePath p)).getD (texts s) := by
  have himage := LabelTree.write_image add (Cell.setData data) (fun _ => data) Cell.data
    (fun _ => rfl) (vectorizePath p) (blank fresh) s.root
  have hblank : (fun n => (blank fresh n).data) = fun _ => [] := rfl
  rw [hblank] at himage
  rw [localSetNode, texts, texts, ← himage]
  cases s.root.writeAt add (Cell.setData data) (blank fresh) (vectorizePath p) <;> rfl

theorem get_texts (s : StaticData) (p : Str) : s.localGetNode p =
    (((texts s).descend (vectorizePath p)).map LabelTree.val).getD [] := by
  rw [localGetNode, texts, LabelTree.descend_map]
  cases s.root.descend (vectorizePath p) with
  | none => rfl
  | some node => simp

/-- What there is of a device besides the leaf flags. -/
def view (d : Device M) : DMClient M × (M → LabelTree Str Str) :=
  ({ d.client with motree := veil d.client.motree },fun mo => texts (d.objects mo))

theorem view_iff (d e : Device M) : view d = view e ↔
    veil d.client.motree = veil e.client.motree ∧ d.client.commandQueue = e.client.commandQueue ∧
      d.client.alertQueue = e.client.alertQueue ∧ d.client.p1DumpTree = e.client.p1DumpTree ∧
      ∀ mo, texts (d.objects mo) = texts (e.objects mo) := by
  simp [view, funext_iff, and_assoc]

theorem get_view (d e : Device M) (h : view d = view e) (mo : M) (p : Str) :
    (d.objects mo).localGetNode p = (e.objects mo).localGetNode p := by
  rw [get_texts, get_texts, ((view_iff d e).mp h).2.2.2.2 mo]

theorem dump_view (d e : Device M) (h : view d = view e) :
    (d.client.motree.dumpSerializedMOS stores d.objects).1 =
      (e.client.motree.dumpSerializedMOS stores e.objects).1 := by
  have hstored : ∀ mo, stored (d.objects mo) = stored (e.objects mo) := by
    intro mo
    funext p
    rw [stored, stored, get_view d e h]
  have hanswers : ∀ (o : Objects M) mo, Report.AnswersAt stores mo (stored (o mo)) o :=
    fun o mo path => ⟨(o mo).localGetNode path,true,true,rfl,rfl⟩
  rw [← dump_veil, ((view_iff d e).mp h).1, dump_veil, dump_still stores _ d.objects
    (hanswers d.objects), dump_still stores _ e.objects (hanswers e.objects)]
  simp only [hstored]

/-- What comes out of an action: how it ends, and what a session sends. -/
def answer (codec : Codec) (fuel : ℕ) (d : Device M) :
    Action M → Except Fault Unit × Option Json × List Round
  | .localSetNode _ _ _ _ _ => (.ok (),none,[])
  | .registerDDF rootLeaf fs urn filename ddfUrl =>
    ((d.client.registerDDF rootLeaf fs urn filename ddfUrl).map (fun _ => ()),none,[])
  | .addMO urn mo miid => ((d.client.addMO stores d.objects urn mo miid).map (fun _ => ()),none,[])
  | .setP1DumpTree _ => (.ok (),none,[])
  | .startSession serverInitiated post net =>
    let run := session codec fuel d serverInitiated post net
    (run.outcome,run.p1,run.rounds)

theorem session_view (codec : Codec) (fuel : ℕ) (d e : Device M) (h : view d = view e)
    (serverInitiated : Bool) (post : Option HttpResponse) (net : ℕ → ℕ → Fetch) :
    answer codec fuel d (.startSession serverInitiated post net) =
      answer codec fuel e (.startSession serverInitiated post net) ∧
    view { d with client := (session codec fuel d serverInitiated post net).client } =
      view { e with client := (session codec fuel e serverInitiated post net).client } := by
  have hdump := dump_view d e h
  obtain ⟨htree,hcq,haq,hflag,htexts⟩ := (view_iff d e).mp h
  have hp1 : d.client.motree.p1MOSJson = e.client.motree.p1MOSJson := by
    rw [← p1_veil, htree, p1_veil]
  have hnodes : d.client.motree.nodeSet codec = e.client.motree.nodeSet codec := by
    rw [← nodes_veil, htree, nodes_veil]
  rw [view_iff]
  simp only [answer, session, startSession, p1Json, hdump, hp1, hflag, hcq, haq,
    loop_nodes codec _ _ hnodes]
  split <;> exact ⟨rfl,htree,rfl,rfl,rfl,htexts⟩

def unflagged : Action M → Action M
  | .localSetNode _ mo nodePath data addMissingNode =>
    .localSetNode (fun _ => false) mo nodePath data addMissingNode
  | .registerDDF _ fs urn filename ddfUrl => .registerDDF false fs urn filename ddfUrl
  | .addMO urn mo miid => .addMO urn mo miid
  | .setP1DumpTree enable => .setP1DumpTree enable
  | .startSession serverInitiated post net => .startSession serverInitiated post net

theorem register_view (b b' : Bool) (fs : FileSystem) (d e : Device M) (h : view d = view e)
    (urn filename url : Str) :
    told (d.client.motree.registerDDF b fs urn filename url) =
      told (e.client.motree.registerDDF b' fs urn filename url) := by
  rw [register_veil b b', ((view_iff d e).mp h).1, ← register_veil b' b']

theorem add_view (d e : Device M) (h : view d = view e) (urn : Str) (mo : M) (miid : Str) :
    told (d.client.motree.addMO stores d.objects urn mo miid) =
      told (e.client.motree.addMO stores e.objects urn mo miid) := by
  have hobjects : e.client.motree.addMO stores e.objects urn mo miid =
      e.client.motree.addMO stores d.objects urn mo miid := rfl
  rw [hobjects, add_veil, ((view_iff d e).mp h).1, ← add_veil]

/-- The dump is switched on or off before the first session. -/
def Announced : List (Action M) → Prop
  | [] => True
  | .localSetNode _ _ _ _ _::as => Announced as
  | .registerDDF _ _ _ _ _::as => Announced as
  | .addMO _ _ _::as => Announced as
  | .setP1DumpTree _::_ => True
  | .startSession _ _ _::_ => False

def withFlag (b : Bool) (d : Device M) : Device M :=
  { d with client := d.client.setP1DumpTree b }

def Quiet : Action M → Prop
  | .setP1DumpTree _ => False
  | .startSession _ _ _ => False
  | _ => True

theorem announced_quiet (a : Action M) (ha : Quiet a) (as : List (Action M)) :
    Announced (a::as) ↔ Announced as := by
  cases a with
  | localSetNode | registerDDF | addMO => rfl
  | setP1DumpTree => exact ha.elim
  | startSession => exact ha.elim

theorem session_shows (codec : Codec) (fuel : ℕ) (d : Device M) (serverInitiated : Bool)
    (post : Option HttpResponse) (net : ℕ → ℕ → Fetch) (p1 : Json)
    (hp1 : (session codec fuel d serverInitiated post net).p1 = some p1) :
    d.client.p1DumpTree = true ↔ p1.field "MgmtTree".toList ≠ .null := by
  rw [session_package stores codec fuel _ d.client p1 hp1, firstPackage, Unambiguous.p1_tree]
  split_ifs with hflag
  · simp [hflag, MOTree.dumpSerializedMOS]
  · simp [hflag]

section Runs
variable [DecidableEq M]

def step (codec : Codec) (fuel : ℕ) (d : Device M) (a : Action M) :
    (Except Fault Unit × Option Json × List Round) × Device M :=
  (answer codec fuel d a,act codec fuel d a)

theorem step_view (codec : Codec) (fuel : ℕ) (d e : Device M) (h : view d = view e)
    (a : Action M) : (step codec fuel d a).1 = (step codec fuel e (unflagged a)).1 ∧
      view (step codec fuel d a).2 = view (step codec fuel e (unflagged a)).2 := by
  obtain ⟨htree,hcq,haq,hflag,htexts⟩ := (view_iff d e).mp h
  cases a with
  | localSetNode fresh target nodePath data add =>
    refine ⟨rfl,(view_iff _ _).mpr ⟨htree,hcq,haq,hflag,?_⟩⟩
    intro mo
    simp only [step, act, unflagged]
    by_cases hmo : mo = target
    · subst hmo
      rw [Function.update_self, Function.update_self, set_texts, set_texts, htexts]
    · rw [Function.update_of_ne hmo, Function.update_of_ne hmo, htexts]
  | registerDDF rootLeaf fs urn filename ddfUrl =>
    simp only [step, answer, act, unflagged, DMClient.registerDDF]
    rcases told_cases _ _ (register_view rootLeaf false fs d e h urn filename ddfUrl) with
      ⟨fault,hd,he⟩ | ⟨b,t,t',hd,he,hveil⟩
    · rw [hd, he]
      exact ⟨rfl,h⟩
    · rw [hd, he]
      exact ⟨rfl,(view_iff _ _).mpr ⟨hveil,hcq,haq,hflag,htexts⟩⟩
  | addMO urn mo miid =>
    simp only [step, answer, act, unflagged, DMClient.addMO]
    rcases told_cases _ _ (add_view d e h urn mo miid) with
      ⟨fault,hd,he⟩ | ⟨b,t,t',hd,he,hveil⟩
    · rw [hd, he]
      exact ⟨rfl,h⟩
    · rw [hd, he]
      exact ⟨rfl,(view_iff _ _).mpr ⟨hveil,hcq,haq,hflag,htexts⟩⟩
  | setP1DumpTree enable => exact ⟨rfl,(view_iff _ _).mpr ⟨htree,hcq,haq,rfl,htexts⟩⟩
  | startSession serverInitiated post net =>
    exact session_view codec fuel d e h serverInitiated post net

theorem step_hides (codec : Codec) (fuel : ℕ) :
    Unwinding.Hides (step codec fuel) (view (M := M)) unflagged := by
  intro d e a b hview hasked
  obtain ⟨hanswer,hnext⟩ := step_view codec fuel d e hview a
  obtain ⟨hanswer',hnext'⟩ := step_view codec fuel e e rfl b
  rw [hanswer, hnext, hasked, hanswer', hnext']
  exact ⟨rfl,rfl⟩

theorem final_actAll (codec : Codec) (fuel : ℕ) (as : List (Action M)) (d : Device M) :
    Unwinding.final (step codec fuel) as d = actAll codec fuel as d := by
  induction as generalizing d with
  | nil => rfl
  | cons a as ih => exact ih _

def answers (codec : Codec) (fuel : ℕ) (as : List (Action M)) (d : Device M) :
    List (Except Fault Unit × Option Json × List Round) :=
  Unwinding.answers (step codec fuel) as d

theorem run_view (codec : Codec) (fuel : ℕ) (as bs : List (Action M)) (d e : Device M)
    (hdevice : view d = view e) (hactions : as.map unflagged = bs.map unflagged) :
    answers codec fuel as d = answers codec fuel bs e ∧
      view (actAll codec fuel as d) = view (actAll codec fuel bs e) := by
  rw [← final_actAll, ← final_actAll]
  exact Unwinding.run_hides (step codec fuel) view unflagged (step_hides codec fuel) as bs d e
    hdevice hactions

/-- Two runs of the application that differ in nothing but what the leaf flags
happen to be when a type is registered or a node created, and that start with
devices which differ in such flags alone, go on alike: every call ends alike,
every session sends and executes the same, and in the end every node of every
object has the same data. -/
theorem flags_stay_hidden (codec : Codec) (fuel : ℕ) (as bs : List (Action M)) (d e : Device M)
    (hdevice : view d = view e) (hactions : as.map unflagged = bs.map unflagged) :
    answers codec fuel as d = answers codec fuel bs e ∧
      ∀ mo p, ((actAll codec fuel as d).objects mo).localGetNode p =
        ((actAll codec fuel bs e).objects mo).localGetNode p := by
  obtain ⟨hanswers,hview⟩ := run_view codec fuel as bs d e hdevice hactions
  exact ⟨hanswers,get_view _ _ hview⟩

def sampleRun (rootLeaf : Bool) (fresh : ℕ → Bool) : List (Action Unit) :=
  [.registerDDF rootLeaf sampleFile "u".toList [] [],.addMO "u".toList () [],
    .localSetNode fresh () "New/Node".toList "x".toList true,
    .startSession true none (fun _ _ _ => none)]

theorem flags_stay_hidden_sample :
    answers (Json.tableCodec []) 2 (sampleRun true (fun _ => true)) sampleDevice =
      answers (Json.tableCodec []) 2 (sampleRun false (fun _ => false)) sampleDevice :=
  (flags_stay_hidden (Json.tableCodec []) 2 (sampleRun true (fun _ => true))
    (sampleRun false (fun _ => false)) sampleDevice sampleDevice rfl rfl).1

theorem quiet_flag (codec : Codec) (fuel : ℕ) (b : Bool) (d : Device M) (a : Action M)
    (ha : Quiet a) : answer codec fuel (withFlag b d) a = answer codec fuel d a ∧
      act codec fuel (withFlag b d) a = withFlag b (act codec fuel d a) := by
  cases a with
  | localSetNode fresh target nodePath data add => exact ⟨rfl,rfl⟩
  | registerDDF rootLeaf fs urn filename ddfUrl =>
    simp only [answer, act, DMClient.registerDDF, withFlag, setP1DumpTree]
    rcases d.client.motree.registerDDF rootLeaf fs urn filename ddfUrl with e | ⟨r,t⟩ <;>
      exact ⟨rfl,rfl⟩
  | addMO urn mo miid =>
    simp only [answer, act, DMClient.addMO, withFlag, setP1DumpTree]
    rcases d.client.motree.addMO stores d.objects urn mo miid with e | ⟨r,t⟩ <;> exact ⟨rfl,rfl⟩
  | setP1DumpTree enable => exact ha.elim
  | startSession serverInitiated post net => exact ha.elim

theorem flag_kept (codec : Codec) (fuel : ℕ) (d : Device M) (a : Action M) (ha : Quiet a) :
    (act codec fuel d a).client.p1DumpTree = d.client.p1DumpTree := by
  have hsame := (quiet_flag codec fuel d.client.p1DumpTree d a ha).2
  have hself : withFlag d.client.p1DumpTree d = d := rfl
  rw [hself] at hsame
  rw [hsame]
  rfl

/-- A dump that is switched on or off in time hides what was there before. -/
theorem announced_hidden (codec : Codec) (fuel : ℕ) (as : List (Action M)) (d e : Device M)
    (has : Announced as) (hdevice : view (withFlag false d) = view (withFlag false e)) :
    answers codec fuel as d = answers codec fuel as e := by
  induction as generalizing d e with
  | nil => rfl
  | cons a as ih =>
    by_cases ha : Quiet a
    · obtain ⟨hanswer,hnext⟩ := step_hides codec fuel _ _ a a hdevice rfl
      simp only [step, (quiet_flag codec fuel false _ a ha).1,
        (quiet_flag codec fuel false _ a ha).2] at hanswer hnext
      have hrest := ih _ _ ((announced_quiet a ha as).mp has) hnext
      rw [answers, answers, Unwinding.answers, Unwinding.answers, step, step, hanswer]
      exact congrArg _ hrest
    · cases a with
      | localSetNode | registerDDF | addMO => exact absurd trivial ha
      | setP1DumpTree enable =>
        obtain ⟨htree,hcq,haq,-,htexts⟩ := (view_iff _ _).mp hdevice
        have hset : view (withFlag enable d) = view (withFlag enable e) :=
          (view_iff _ _).mpr ⟨htree,hcq,haq,rfl,htexts⟩
        have hrest := (run_view codec fuel as as _ _ hset rfl).1
        exact congrArg (List.cons (.ok (),none,[])) hrest
      | startSession => exact has.elim

theorem unannounced_shows (codec : Codec) (fuel : ℕ) (as : List (Action M)) (d e : Device M)
    (has : ¬ Announced as) (hflag : d.client.p1DumpTree ≠ e.client.p1DumpTree)
    (hsent : ∀ before after serverInitiated post net,
      as = before++.startSession serverInitiated post net::after →
      (session codec fuel (actAll codec fuel before d) serverInitiated post net).p1.isSome) :
    answers codec fuel as d ≠ answers codec fuel as e := by
  induction as generalizing d e with
  | nil => exact absurd trivial has
  | cons a as ih =>
    rw [answers, answers, Unwinding.answers, Unwinding.answers, step, step, Ne, List.cons.injEq]
    rintro ⟨hanswer,hrest⟩
    by_cases ha : Quiet a
    · refine ih (act codec fuel d a) (act codec fuel e a) ?_ ?_ ?_ hrest
      · rwa [announced_quiet a ha as] at has
      · rwa [flag_kept codec fuel d a ha, flag_kept codec fuel e a ha]
      · intro before after serverInitiated post net has
        exact hsent (a::before) after serverInitiated post net (by rw [has, List.cons_append])
    · cases a with
      | localSetNode | registerDDF | addMO => exact absurd trivial ha
      | setP1DumpTree => exact absurd trivial has
      | startSession serverInitiated post net =>
        have hd := hsent [] as serverInitiated post net rfl
        obtain ⟨p1,hp1⟩ := Option.isSome_iff_exists.mp hd
        have hsame := congrArg (fun r => r.2.1) hanswer
        simp only [answer] at hsame
        have he := hp1
        rw [actAll, hsame] at he
        have hshown := (session_shows codec fuel d serverInitiated post net p1 hp1).trans
          (session_shows codec fuel e serverInitiated post net p1 he).symm
        exact hflag (Bool.eq_iff_iff.mpr hshown)

/-- Of two clients that hold different values in `P1_dump_tree` at the start,
and whose sessions get as far as a package, none can be told from the other
exactly when the dump is switched on or off before the first session. All leaf
flags may differ as well. -/
theorem dump_flag_hidden_iff (codec : Codec) (fuel : ℕ) (as bs : List (Action M)) (d e : Device M)
    (hdevice : view (withFlag false d) = view (withFlag false e))
    (hactions : as.map unflagged = bs.map unflagged)
    (hflag : d.client.p1DumpTree ≠ e.client.p1DumpTree)
    (hsent : ∀ before after serverInitiated post net,
      as = before++.startSession serverInitiated post net::after →
      (session codec fuel (actAll codec fuel before d) serverInitiated post net).p1.isSome) :
    answers codec fuel as d = answers codec fuel bs e ↔ Announced as := by
  rw [← (run_view codec fuel as bs e e rfl hactions).1]
  constructor
  · intro h
    by_contra has
    exact unannounced_shows codec fuel as d e has hflag hsent h
  · intro has
    exact announced_hidden codec fuel as d e has hdevice

end Runs

theorem dump_flag_hidden_iff_sample :
    answers (Json.tableCodec []) 2 (sampleRun true (fun _ => true)) (withFlag true sampleDevice) ≠
      answers (Json.tableCodec []) 2 (sampleRun true (fun _ => true))
        (withFlag false sampleDevice) := by
  rw [Ne, dump_flag_hidden_iff (Json.tableCodec []) 2 (sampleRun true (fun _ => true))
    (sampleRun true (fun _ => true)) (withFlag true sampleDevice) (withFlag false sampleDevice)
    rfl rfl (by decide) (fun _ _ _ _ _ _ => rfl)]
  exact id

end Grandma.Uninitialised
