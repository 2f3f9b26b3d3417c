import InaneOS.Fat.Alloc
import InaneOS.Fat.Certify

/-!
# Taking and freeing clusters on any table

`alloc_clus` and `free_chain` on their own, for a table that need not hold a tree.
Taking is complete: the search goes round the whole table, whatever the hint was left
at (`nextFree_eq_none`). Freeing ends, also where the links run in a circle or into
another chain, and clears what can be reached, nothing else; the loop is that of
`Lib.Clear`.
-/

namespace InaneOS.Fat

open InaneOS.Lib

/-! ## `alloc_clus` -/

/-- What `alloc_clus` has done when it returns the cluster `c`. -/
structure Taken (f : Vol) (c : Nat) (f' : Vol) : Prop where
  inRange : InRange f.toGeo c
  free : ∀ k < f.numFats, fatEntry f.toGeo f.disk k c = 0
  marked : ∀ k < f.numFats, fatEntry f.toGeo f'.disk k c = 0x0FFFFFFF
  others : ∀ k < f.numFats, ∀ a < f.fatSz * 128, a ≠ c →
    fatEntry f.toGeo f'.disk k a = fatEntry f.toGeo f.disk k a
  outside : ∀ l, l < f.fatStart ∨ f.dataStart ≤ l → f'.disk.data l = f.disk.data l
  hint : f'.allocHint = c

theorem SetDone.taken {f f' : Vol} {c : Nat} {ws : List (Nat × Sector)}
    (h : SetDone f c lastMark f' ws) (hg : f.toGeo.Ok) (hcp : Copies f.toGeo f.disk)
    (hc : InRange f.toGeo c) (hfree : fatEntry f.toGeo f.disk 0 c = 0) (hhint : f'.allocHint = c) :
    Taken f c f' where
  inRange := hc
  free := by
    intro k hk
    rw [hcp k hk c hc.2]
    exact hfree
  marked := h.entry
  others := fun k hk a ha hac => h.sameOff.entry hg hk ha fun _ => hac
  outside := fun l hl => h.sameOff.outside hg hl
  hint := hhint

/-- **Allocation is sound and complete**: a cluster that is returned was free and is marked on
every copy, nothing else; none is returned only if none is free, and nothing changed then. -/
theorem allocClus_complete {f : Vol} (hg : f.toGeo.Ok) (ho : FatsOn f.toGeo f.disk)
    (hcp : Copies f.toGeo f.disk) (hh : f.allocHint < 2 ^ 28) :
    ∃ c f', allocClus f = (c, f') ∧ (c ≠ 0 → Taken f c f') ∧
      (c = 0 ↔ ∀ a, InRange f.toGeo a → ∀ k < f.numFats, fatEntry f.toGeo f.disk k a ≠ 0) ∧
      (c = 0 → ∃ s, f' = { f with sec := s }) := by
  rcases allocClus_next hg ho with ⟨hnone, s, hrun⟩ | ⟨c, f', ws, -, hrun, hr, hfree, hdone, hhint⟩
  · refine ⟨0, _, hrun, fun h0 => absurd rfl h0, iff_of_true rfl fun a ha k hk hzero => ?_,
      fun _ => ⟨s, rfl⟩⟩
    rw [hcp k hk a ha.2] at hzero
    exact List.not_mem_nil ((nextFree_eq_none hg hh).mp hnone a ha hzero)
  · have hne : c ≠ 0 := by
      have hlo := hr.1
      omega
    refine ⟨c, f', hrun, fun _ => hdone.taken hg hcp hr hfree hhint, iff_of_false hne fun h => ?_,
      fun h0 => absurd h0 hne⟩
    exact h c hr 0 hg.fats_pos hfree

/-- The sample, with a hint that is far behind its table. -/
def staleVol : Vol := { sampleVol with allocHint := 200000000 }

/-- Cluster 5 is free, so there is one to be found. -/
theorem allocClus_complete_stale : ∃ c f', allocClus staleVol = (c, f') ∧ Taken staleVol c f' := by
  obtain ⟨c, f', hrun, htaken, hnone, -⟩ := allocClus_complete (f := staleVol)
    sampleVol_certified.geo sampleVol_certified.wellFormed.tree.fatsOn sampleVol_certified.copies
    (by decide)
  refine ⟨c, f', hrun, htaken fun h0 => ?_⟩
  exact hnone.mp h0 5 (by decide) 0 (by decide) (by decide +kernel)

/-! ## `free_chain` -/

/-- More rounds change nothing. -/
theorem freeChain_more {m : Nat} : ∀ {n c : Nat} {f f' : Vol}, freeChain n c f = some f' → n ≤ m →
    freeChain m c f = some f' := by
  induction m with
  | zero =>
    intro n c f f' h hn
    obtain rfl := Nat.le_zero.mp hn
    exact h
  | succ m ih =>
    intro n c f f' h hn
    cases n with
    | zero => exact absurd h (by simp [freeChain])
    | succ n =>
      rw [freeChain] at h ⊢
      by_cases hc : 2 ≤ c ∧ c < eoc
      · rw [if_pos hc] at h ⊢
        exact ih h (Nat.le_of_succ_le_succ hn)
      · rw [if_neg hc] at h ⊢
        exact h

/-- What `free_chain(c)` has done: the clusters that `c` leads to are free on every copy. -/
structure Freed (f : Vol) (c : Nat) (f' : Vol) : Prop where
  freed : ∀ a, Follows (link f.toGeo f.disk) IsLink c a → ∀ k < f.numFats,
    fatEntry f.toGeo f'.disk k a = 0
  kept : ∀ a < f.fatSz * 128, ¬ Follows (link f.toGeo f.disk) IsLink c a → ∀ k < f.numFats,
    fatEntry f.toGeo f'.disk k a = fatEntry f.toGeo f.disk k a
  outside : ∀ l, l < f.fatStart ∨ f.dataStart ≤ l → f'.disk.data l = f.disk.data l

theorem FreeDone.freed {f f' : Vol} {c : Nat} {cs : List Nat} {ws : List (Nat × Sector)}
    (h : FreeDone f cs f' ws) (hg : f.toGeo.Ok)
    (hcs : ∀ a, a ∈ cs ↔ Follows (link f.toGeo f.disk) IsLink c a) : Freed f c f' := by
  have hoff : SameOff f.toGeo (· ∈ cs) (fun _ => False) f.disk f'.disk := by
    rw [h.ran.disk]
    exact h.cuts.final
  refine ⟨fun a ha => h.entry a ((hcs a).mpr ha), fun a ha hno k hk => ?_,
    fun l hl => hoff.outside hg hl⟩
  exact hoff.entry hg hk ha fun _ hmem => hno ((hcs a).mp hmem)

/-- **Freeing ends and frees what is reachable**, whatever the table holds, as long as its links
lead into the table or to an end mark. -/
theorem freeChain_frees {f : Vol} {c : Nat} (hg : f.toGeo.Ok) (ho : FatsOn f.toGeo f.disk)
    (hlinks : ∀ a < f.fatSz * 128,
      link f.toGeo f.disk a < f.fatSz * 128 ∨ eoc ≤ link f.toGeo f.disk a)
    (hc : InRange f.toGeo c) : ∃ f', (∀ fuel ≥ f.fatSz * 128 + 2, freeChain fuel c f = some f') ∧
      Freed f c f' := by
  have hz : ¬ IsLink 0 := by decide
  have hclosed : ∀ a ∈ Finset.range (f.fatSz * 128), IsLink (link f.toGeo f.disk a) →
      link f.toGeo f.disk a ∈ Finset.range (f.fatSz * 128) := by
    intro a ha hlink
    rw [Finset.mem_range] at ha ⊢
    exact (hlinks a ha).resolve_right (Nat.not_le.mpr hlink.2)
  have hcount : ((Finset.range (f.fatSz * 128)).filter fun a => IsLink (link f.toGeo f.disk a)).card
      ≤ f.fatSz * 128 := (Finset.card_filter_le _ _).trans (by rw [Finset.card_range])
  obtain ⟨cs, hp⟩ := passed_some (n := f.fatSz * 128 + 2) hz hclosed
    (fun _ => Finset.mem_range.mpr hc.2) (Nat.add_le_add_right hcount 2)
  have hcs : ∀ a, a ∈ cs ↔ Follows (link f.toGeo f.disk) IsLink c a := fun a => mem_passed hz hp
  have hin : ∀ a ∈ cs, InRange f.toGeo a := by
    intro a ha
    have hreach := (hcs a).mp ha
    refine ⟨hreach.last.1, ?_⟩
    have hmem := hreach.mem (s := Finset.range (f.fatSz * 128)) (by simpa using hc.2) hclosed
    simpa using hmem
  obtain ⟨f', ws, hrun, hdone⟩ := freeChain_passed hg ho hp fun a ha => ⟨hin a ha, rfl⟩
  exact ⟨f', fun fuel hfuel => freeChain_more hrun hfuel, hdone.freed hg hcs⟩

/-- A table in which 2 leads to 3, and 3 and 4 lead to each other. -/
def loopSector : Sector := wr32 (wr32 (wr32 (fun _ => 0) 8 3) 12 4) 16 3

def loopVol : Vol := { sampleVol with
  disk := { sampleDisk with data := fun l => if l = 2 ∨ l = 3 then loopSector else fun _ => 0 } }

/-- All three are free afterwards. -/
theorem freeChain_frees_loop : ∃ f', freeChain 130 2 loopVol = some f' ∧
    ∀ k < 2, ∀ a ∈ [2, 3, 4], fatEntry loopVol.toGeo f'.disk k a = 0 := by
  have hfats : FatsOn loopVol.toGeo loopVol.disk :=
    sampleVol_certified.wellFormed.tree.fatsOn.congr rfl
  have hlinks : ∀ a < 128,
      link loopVol.toGeo loopVol.disk a < 128 ∨ eoc ≤ link loopVol.toGeo loopVol.disk a := by
    decide +kernel
  obtain ⟨f', hrun, hfreed⟩ := freeChain_frees (f := loopVol) sampleVol_certified.geo hfats hlinks
    (c := 2) (by decide)
  have h2 : Follows (link loopVol.toGeo loopVol.disk) IsLink 2 2 := .start (by decide)
  have h3 : Follows (link loopVol.toGeo loopVol.disk) IsLink 2 3 := h2.step (by decide +kernel)
  have h4 : Follows (link loopVol.toGeo loopVol.disk) IsLink 2 4 := h3.step (by decide +kernel)
  refine ⟨f', hrun 130 (Nat.le_refl _), fun k hk a ha => ?_⟩
  simp only [List.mem_cons, List.not_mem_nil, or_false] at ha
  rcases ha with rfl | rfl | rfl
  · exact hfreed.freed 2 h2 k hk
  · exact hfreed.freed 3 h3 k hk
  · exact hfreed.freed 4 h4 k hk

end InaneOS.Fat
