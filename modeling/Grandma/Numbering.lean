import Grandma.MOHandler

/-!
# The search for a free number

An instance that comes without a miid is numbered. The counter wraps, and the
application may have taken any numbers for names of its own; the search ends
because the names it tries differ until the counter has gone round.
-/

set_option autoImplicit false

namespace Grandma.Numbering
open MOHandler

variable {M : Type}

/-- The name tried in round `n`, where the first round is round zero. -/
def candidate (next : UInt32) (n : ℕ) : Str := Nat.toDigits 10 (next+UInt32.ofNat n).toNat

theorem digits_injective (m n : ℕ) (h : Nat.toDigits 10 m = Nat.toDigits 10 n) : m = n := by
  have hread := congrArg (fun digits => Nat.ofDigitChars 10 digits 0) h
  simpa only [Nat.ofDigitChars_ten_toDigits] using hread

theorem candidate_zero (next : UInt32) : candidate next 0 = Nat.toDigits 10 next.toNat := by
  have hzero : next+UInt32.ofNat 0 = next := by simp
  rw [candidate, hzero]

theorem counter_succ (next : UInt32) (n : ℕ) :
    next+UInt32.ofNat (n+1) = (next+1)+UInt32.ofNat n := by
  rw [UInt32.ofNat_add, UInt32.add_assoc, UInt32.add_comm (UInt32.ofNat n)]
  rfl

theorem candidate_succ (next : UInt32) (n : ℕ) : candidate next (n+1) = candidate (next+1) n := by
  rw [candidate, candidate, counter_succ]

theorem candidate_injective (next : UInt32) (m n : ℕ) (hm : m < 2^32) (hn : n < 2^32)
    (h : candidate next m = candidate next n) : m = n := by
  have hcounter : next+UInt32.ofNat m = next+UInt32.ofNat n :=
    UInt32.toNat_inj.mp (digits_injective _ _ h)
  have hoffset : UInt32.ofNat m = UInt32.ofNat n := by
    simpa using hcounter
  have hnat := congrArg UInt32.toNat hoffset
  rwa [UInt32.toNat_ofNat_of_lt' hm, UInt32.toNat_ofNat_of_lt' hn] at hnat

/-- One more name than there are keys: one of them is free. -/
theorem free_candidate (instances : OrderedMap Str M) (next : UInt32)
    (hsize : instances.entries.length < 2^32) :
    ∃ n ≤ instances.entries.length, instances.find (candidate next n) = none := by
  have hnames : ((Finset.range (instances.entries.length+1)).image (candidate next)).card =
      instances.entries.length+1 := by
    rw [Finset.card_image_of_injOn, Finset.card_range]
    intro m hm n hn h
    have hm := Finset.mem_range.mp hm
    have hn := Finset.mem_range.mp hn
    exact candidate_injective next m n (by omega) (by omega) h
  have hkeys : (instances.entries.map Prod.fst).toFinset.card ≤ instances.entries.length := by
    simpa using List.toFinset_card_le (instances.entries.map Prod.fst)
  have hmore : (instances.entries.map Prod.fst).toFinset.card <
      ((Finset.range (instances.entries.length+1)).image (candidate next)).card := by
    rw [hnames]
    omega
  obtain ⟨name,hname,hfree⟩ := Finset.exists_mem_notMem_of_card_lt_card hmore
  obtain ⟨n,hn,rfl⟩ := Finset.mem_image.mp hname
  refine ⟨n,by simpa [Nat.lt_succ_iff] using hn,?_⟩
  rw [List.mem_toFinset, OrderedMap.mem_keys, Option.not_isSome_iff_eq_none] at hfree
  exact hfree

theorem auto_runs (instances : OrderedMap Str M) (n fuel : ℕ) (next : UInt32)
    (htaken : ∀ i < n, (instances.find (candidate next i)).isSome)
    (hfree : instances.find (candidate next n) = none) :
    autoMiid instances fuel next =
      if n < fuel then some (candidate next n,next+UInt32.ofNat (n+1)) else none := by
  induction fuel generalizing n next with
  | zero => simp [autoMiid]
  | succ fuel ih =>
    rw [autoMiid, ← candidate_zero]
    cases n with
    | zero =>
      rw [hfree]
      simp
    | succ n =>
      obtain ⟨mo,hmo⟩ := Option.isSome_iff_exists.mp (htaken 0 (by omega))
      have htaken : ∀ i < n, (instances.find (candidate (next+1) i)).isSome := by
        intro i hi
        rw [← candidate_succ]
        exact htaken (i+1) (by omega)
      rw [candidate_succ] at hfree
      rw [hmo, candidate_succ, counter_succ next (n+1)]
      simpa using ih n (next+1) htaken hfree

structure Found (h : MOHandler M) (n : ℕ) : Prop where
  taken : ∀ i < n, (h.instances.find (candidate h.nextMiid i)).isSome
  free : h.instances.find (candidate h.nextMiid n) = none
  runs : ∀ rounds, autoMiid h.instances rounds h.nextMiid = if n < rounds
    then some (candidate h.nextMiid n,h.nextMiid+UInt32.ofNat (n+1)) else none
  chosen : h.chooseMiid [] = .ok (some (candidate h.nextMiid n,h.nextMiid+UInt32.ofNat (n+1)))

/-- Wherever the counter stands, the search ends after at most one round more
than there are instances. -/
theorem search_ends (h : MOHandler M) (hsize : h.instances.entries.length < 2^32) :
    ∃ n ≤ h.instances.entries.length, Found h n := by
  obtain ⟨m,hm,hfree⟩ := free_candidate h.instances h.nextMiid hsize
  have hexists : ∃ n, h.instances.find (candidate h.nextMiid n) = none := ⟨m,hfree⟩
  have hleast : Nat.find hexists ≤ h.instances.entries.length :=
    (Nat.find_min' hexists hfree).trans hm
  have htaken : ∀ i < Nat.find hexists, (h.instances.find (candidate h.nextMiid i)).isSome := by
    intro i hi
    exact Option.isSome_iff_ne_none.mpr (Nat.find_min hexists hi)
  have hruns := fun rounds => auto_runs h.instances (Nat.find hexists) rounds h.nextMiid htaken
    (Nat.find_spec hexists)
  refine ⟨Nat.find hexists,hleast,htaken,Nat.find_spec hexists,hruns,?_⟩
  rw [chooseMiid, if_pos rfl, hruns, if_pos (Nat.lt_succ_of_le hleast)]

def wrapping : MOHandler Unit :=
  { sampleHandler with
    nextMiid := 4294967295,
    instances := (OrderedMap.empty.set "4294967295".toList ()).set "0".toList () }

example : wrapping.chooseMiid [] = .ok (some ("1".toList,2)) := by decide

theorem search_ends_wrapping : ∃ n ≤ wrapping.instances.entries.length, Found wrapping n :=
  search_ends wrapping (by decide)

end Grandma.Numbering
