import Grandma.Advertised

/-!
# The calls that a dump makes

Reading a value may change the objects, so it matters which values are read,
how often and in which order. The dump asks every instance once for every leaf
of its type, in the order of the file, whatever the objects answer.
-/

set_option autoImplicit false

namespace Grandma.Callbacks
open Advertised MOHandler

variable {M W : Type}

structure Read (M : Type) where
  mo : M
  path : Str
  nodeExists : Bool
  validData : Bool

def logging (I : Interface M W) : Interface M (W × List (Read M)) :=
  { getVal := fun mo path nodeExists validData w =>
      let (answer,objects) := I.getVal mo path nodeExists validData w.1
      (answer,(objects,w.2++[⟨mo,path,nodeExists,validData⟩])),
    checkDdfNameCompatibility := fun mo ddfname w => I.checkDdfNameCompatibility mo ddfname w.1 }

mutual
def leafPaths (uriPrefix : Str) : Node → List Str
  | .node uri isLeaf children =>
    if isLeaf then [uriPrefix ++ '/' :: uri] else childPaths (uriPrefix ++ '/' :: uri) children

def childPaths (uriPrefix : Str) : List Node → List Str
  | [] => []
  | c::cs => leafPaths uriPrefix c++childPaths uriPrefix cs
end

def asked (mo : M) (path : Str) : Read M := ⟨mo,path,true,true⟩

theorem child_logged (I : Interface M W) (mo : M) (t : Node) (uriPrefix : Str)
    (members : List (Str × Json)) (w : W) (log : List (Read M)) :
    serializeChild (logging I) mo uriPrefix t (members,(w,log)) =
      ((serializeChild I mo uriPrefix t (members,w)).1,
        ((serializeChild I mo uriPrefix t (members,w)).2,
          log++(leafPaths uriPrefix t).map (asked mo))) := by
  induction t using LabelTree.by_children generalizing uriPrefix members w log with
  | node uri isLeaf children ih =>
    have hloop : ∀ (cs : List Node), (∀ c ∈ cs, c ∈ children) → ∀ ms w log,
        serializeInto (logging I) mo (uriPrefix ++ '/' :: uri) cs (ms,(w,log)) =
          ((serializeInto I mo (uriPrefix ++ '/' :: uri) cs (ms,w)).1,
            ((serializeInto I mo (uriPrefix ++ '/' :: uri) cs (ms,w)).2,
              log++(childPaths (uriPrefix ++ '/' :: uri) cs).map (asked mo))) := by
      intro cs hcs
      induction cs with
      | nil =>
        intro ms w log
        simp [serializeInto, childPaths]
      | cons c cs ihcs =>
        intro ms w log
        rw [serializeInto, ih c (hcs c List.mem_cons_self),
          ihcs (fun d hd => hcs d (List.mem_cons_of_mem _ hd)), serializeInto, childPaths,
          List.map_append, List.append_assoc]
    cases isLeaf with
    | true =>
      simp only [serializeChild, leafPaths, logging, if_true]
      rfl
    | false =>
      simp only [serializeChild, leafPaths, Bool.false_eq_true, if_false,
        hloop children (fun c hc => hc)]

theorem into_logged (I : Interface M W) (mo : M) (uriPrefix : Str) (cs : List Node)
    (members : List (Str × Json)) (w : W) (log : List (Read M)) :
    serializeInto (logging I) mo uriPrefix cs (members,(w,log)) =
      ((serializeInto I mo uriPrefix cs (members,w)).1,
        ((serializeInto I mo uriPrefix cs (members,w)).2,
          log++(childPaths uriPrefix cs).map (asked mo))) := by
  induction cs generalizing members w log with
  | nil => simp [serializeInto, childPaths]
  | cons c cs ih =>
    rw [serializeInto, child_logged, ih, serializeInto, childPaths, List.map_append,
      List.append_assoc]

def instanceReads (h : MOHandler M) (mo : M) : List (Read M) :=
  (childPaths [] h.root.children).map (asked mo)

theorem instance_logged (I : Interface M W) (h : MOHandler M) (mo : M) (w : W)
    (log : List (Read M)) :
    h.serializeMI (logging I) mo (w,log) =
      ((h.serializeMI I mo w).1,((h.serializeMI I mo w).2,log++instanceReads h mo)) := by
  rw [serializeMI, serializeChildren, into_logged]
  rfl

theorem instances_logged (I : Interface M W) (h : MOHandler M) (w : W) (log : List (Read M)) :
    h.serializeMIs (logging I) (w,log) =
      ((h.serializeMIs I w).1,((h.serializeMIs I w).2,
        log++h.instances.entries.flatMap (fun mi => instanceReads h mi.2))) := by
  rw [serializeMIs, Traversal.traverse_logged (fun mi => h.serializeMI I mi.2) _
    (fun mi => instanceReads h mi.2)]
  · rfl
  · intro mi _ w log
    exact instance_logged I h mi.2 w log

/-- A dump reads the instances in the order in which they are listed, every one
at every leaf of its type, with both flags set. What the objects answer and how
they change makes no difference. -/
theorem dump_reads (I : Interface M W) (t : MOTree M) (w : W) (log : List (Read M)) :
    t.dumpSerializedMOS (logging I) (w,log) =
      ((t.dumpSerializedMOS I w).1,((t.dumpSerializedMOS I w).2,
        log++(listed t).flatMap (fun p =>
          (childPaths [] p.1.2.root.children).map (asked p.2.2)))) := by
  have hreads : (listed t).flatMap (fun p => instanceReads p.1.2 p.2.2) =
      t.MOs.entries.flatMap (fun MO =>
        MO.2.instances.entries.flatMap (fun mi => instanceReads MO.2 mi.2)) := by
    rw [listed, List.flatMap_assoc]
    simp only [List.flatMap_map]
  show _ = (_,(_,log++(listed t).flatMap (fun p => instanceReads p.1.2 p.2.2)))
  rw [hreads, MOTree.dumpSerializedMOS, Traversal.traverse_logged (fun MO => MO.2.serializeMIs I) _
    (fun MO => MO.2.instances.entries.flatMap (fun mi => instanceReads MO.2 mi.2))]
  · rfl
  · intro MO _ w log
    exact instances_logged I MO.2 w log

end Grandma.Callbacks
