import Grandma.Commuting
import Grandma.Outline
import Grandma.Overwriting

/-!
# Histories of writes

Of all the writes to a tree only the last one to every path can be told
afterwards: how often a path was written before, and in which order the paths
were written, does not show to the getter or to the serialiser.
-/

set_option autoImplicit false

namespace Grandma.Converging
open BaseCached CachedMap Helper LabelTree Outline

def put (fresh : ℕ → Bool) (ks : List Str) (d : Str) (t : BaseCached.Node) : BaseCached.Node :=
  (t.writeAt true (Cell.setData d) (blank fresh) ks).getD t

theorem put_write (fresh : ℕ → Bool) (ks : List Str) (d : Str) (t : BaseCached.Node) :
    t.writeAt true (Cell.setData d) (blank fresh) ks = some (put fresh ks d t) := by
  obtain ⟨s,hs⟩ := write_creates (Cell.setData d) ks (blank fresh) t
  rw [put, hs, Option.getD_some]

theorem set_put (fresh : ℕ → Bool) (mo : BaseCached) (p d : Str) :
    (mo.localSetNode fresh p d true).root = put fresh (vectorizePath p) d mo.root := by
  rw [put, set_root fresh mo p d, Option.getD_some]

theorem put_laws (fresh : ℕ → Bool) : Overwriting.Laws (put fresh) Alike where
  same := alike_equivalence
  lift := fun ks d t s h =>
    write_lift (Cell.setData d) ks (blank fresh) t s _ _ h (put_write fresh ks d t)
      (put_write fresh ks d s)
  exchange := fun ks js d e t hne =>
    writes_alike (Cell.setData e) (Cell.setData d) js ks hne.symm (blank fresh) t _ _ _ _
      (put_write fresh js e t) (put_write fresh ks d _) (put_write fresh ks d t)
      (put_write fresh js e _)
  absorb := fun ks d e t =>
    write_absorb (Cell.setData d) (Cell.setData e) (fun _ => rfl) ks (blank fresh) t _ _ _
      (put_write fresh ks e t) (put_write fresh ks d _) (put_write fresh ks d t)

def latest (ws : List Write) : List (Σ _ : List Str, Str) :=
  (ws.map (fun w => ⟨vectorizePath w.path,w.data⟩)).reverse

theorem latest_append (ws : List Write) (w : Write) :
    latest (ws++[w]) = ⟨vectorizePath w.path,w.data⟩::latest ws := by
  simp [latest]

theorem latest_written (ws : List Write) (p : Str) :
    (latest ws).dlookup (vectorizePath p) = lastWritten ws p := by
  induction ws using List.reverseRecOn with
  | nil => rfl
  | append_singleton ws w ih =>
    rw [latest_append, lastWritten, List.reverse_append, List.reverse_singleton,
      List.singleton_append]
    by_cases h : vectorizePath w.path = vectorizePath p
    · rw [← h, List.dlookup_cons_eq, List.find?_cons_of_pos (by simp [h]), Option.map_some]
    · rw [List.dlookup_cons_ne _ _ (Ne.symm h), List.find?_cons_of_neg (by simpa using h), ih,
        lastWritten]

theorem writes_append (ws vs : List Write) (mo : BaseCached) :
    writeAll (ws++vs) mo = writeAll vs (writeAll ws mo) := by
  induction ws generalizing mo with
  | nil => rfl
  | cons w ws ih => exact ih _

theorem writes_run (fresh : ℕ → Bool) (ws : List Write) (hws : ∀ w ∈ ws, w.fresh = fresh)
    (mo : BaseCached) : (writeAll ws mo).root = Overwriting.run (put fresh) (latest ws) mo.root := by
  induction ws using List.reverseRecOn with
  | nil => rfl
  | append_singleton ws w ih =>
    have hall : ∀ v ∈ ws, v.fresh = fresh := fun v hv => hws v (List.mem_append_left _ hv)
    rw [writes_append, writeAll, writeAll, latest_append, Overwriting.run, set_put, ih hall,
      hws w (by simp)]

theorem latest_same (ws ws' : List Write) (h : ∀ p, lastWritten ws p = lastWritten ws' p)
    (ks : List Str) : (latest ws).dlookup ks = (latest ws').dlookup ks := by
  by_cases hks : ∃ p, vectorizePath p = ks
  · obtain ⟨p,rfl⟩ := hks
    rw [latest_written, latest_written, h p]
  · have hnone : ∀ vs : List Write, (latest vs).dlookup ks = none := by
      intro vs
      rw [List.dlookup_eq_none, latest, List.keys, ← List.map_reverse, List.map_map, List.mem_map]
      rintro ⟨w,-,hw⟩
      exact hks ⟨w.path,hw⟩
    rw [hnone, hnone]

theorem option_getD {α : Type*} (x y : α) (hxy : x ≠ y) (o o' : Option α)
    (h : ∀ d, o.getD d = o'.getD d) : o = o' := by
  cases o with
  | none =>
    cases o' with
    | none => rfl
    | some v => exact absurd ((h x).trans (h y).symm) hxy
  | some v =>
    cases o' with
    | none => exact absurd ((h x).symm.trans (h y)) hxy
    | some v' => exact congrArg some (h x)

/-- Two histories of writes cannot be told apart on any tree exactly when they
have the same last write to every path. A node created at depth `n` has the
leaf flag `fresh n` in both. -/
theorem histories_alike_iff (fresh : ℕ → Bool) (ws ws' : List Write)
    (hws : ∀ w ∈ ws++ws', w.fresh = fresh) :
    (∀ mo : BaseCached, (∀ q, (writeAll ws mo).localGetNode q = (writeAll ws' mo).localGetNode q) ∧
      (writeAll ws mo).serializeJson = (writeAll ws' mo).serializeJson) ↔
    ∀ p, lastWritten ws p = lastWritten ws' p := by
  constructor
  · intro h p
    apply option_getD [] "x".toList (by simp)
    intro d
    have hget := (h ((BaseCached.new (fun _ => none) []).localSetNode fresh p d true)).1 p
    rwa [get_last, get_last, get_contents, set_contents, Function.update_self] at hget
  · intro h mo
    constructor
    · intro q
      rw [get_last, get_last, h q]
    · apply Commuting.alike_json
      rw [writes_run fresh ws (fun w hw => hws w (List.mem_append_left _ hw)),
        writes_run fresh ws' (fun w hw => hws w (List.mem_append_right _ hw))]
      exact Overwriting.run_last (put fresh) Alike (put_laws fresh) _ _ (latest_same ws ws' h)
        mo.root

theorem histories_alike_sample :
    let w : Str → Str → Write := fun p d => ⟨fun n => n = 1,p,d⟩
    let ws := [w "New/b".toList "1".toList,w "Id".toList "2".toList,w "/New/b".toList "3".toList]
    let ws' := [w "New/b".toList "3".toList,w "Id".toList "2".toList]
    (writeAll ws (BaseCached.new sampleFile [])).serializeJson =
      (writeAll ws' (BaseCached.new sampleFile [])).serializeJson := by
  intro w ws ws'
  have hlast : ∀ p, lastWritten ws p = lastWritten ws' p := by
    intro p
    have hslash : vectorizePath "/New/b".toList = vectorizePath "New/b".toList := by decide
    have hother : vectorizePath "Id".toList ≠ vectorizePath "New/b".toList := by decide
    simp only [lastWritten, ws, ws', w, List.reverse_cons, List.reverse_nil, List.nil_append,
      List.cons_append, List.find?_cons, hslash]
    by_cases h : vectorizePath p = vectorizePath "New/b".toList
    · simp only [h, hother, decide_true, decide_false, Option.map_some]
    · simp only [Ne.symm h, decide_false]
  exact ((histories_alike_iff (fun n => n = 1) ws ws' (by simp [ws, ws', w])).mpr hlast _).2

end Grandma.Converging
