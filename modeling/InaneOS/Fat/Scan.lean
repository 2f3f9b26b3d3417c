import InaneOS.Fat.Tree
import InaneOS.Lib.Fold

/-!
# Scanning a directory

`scanDir` runs its body over the slots of the directory's chain, in order, until
the body stops it (`scanDir_spec`). Only the sector buffer changes, and a scan
that is stopped leaves the sector of the slot it was stopped at in the buffer,
which is what `fat_write` relies on when it stores an entry there.

`walk`, `lookup` and `dir_slot` gather nothing on the way, so for them the scan
is a search for the first slot that stops it (`foldlM_first`).
-/

namespace InaneOS.Fat

open InaneOS.Lib

section Scan

variable {α σ : Type} (fail : α) (body : σ → Nat → Nat → Sector → Except α σ)

/-- The body at a slot of the disk. -/
def atSlot (d : Disk) (a : σ) (sl : Slot) : Except α σ :=
  body a sl.1 sl.2 (d.data sl.1)

/-- Scanning `sls` from `a` came to `res` and left `f'`. -/
structure Scanned (f : Vol) (sls : List Slot) (a : σ) (res : Except α σ) (f' : Vol) : Prop where
  fold : sls.foldlM (atSlot body f.disk) a = res
  state : ∃ s, f' = { f with sec := s }
  stop : ∀ r, res = .error r → ∃ sl ∈ sls, f'.sec = f.disk.data sl.1 ∧
    ∃ b, atSlot body f.disk b sl = .error r

/-- The slots of one sector. -/
def secSlots (l : Nat) : List Slot := (List.range 16).map fun i => (l, i * 32)

theorem slots_cons (g : Geo) (c : Nat) (cs : List Nat) :
    slots g (c :: cs) = (List.range' (clusLba c g) g.secPerClus).flatMap secSlots ++
      slots g cs := by
  rw [show c :: cs = [c] ++ cs from rfl, slots_append, slots, secsOf, List.flatMap_cons,
    List.flatMap_nil, List.append_nil, List.range'_eq_map_range]
  rfl

theorem scanSec_eq (l : Nat) (f : Vol) (a : σ) :
    scanSec body l (f.disk.data l) a = (secSlots l).foldlM (atSlot body f.disk) a := by
  rw [secSlots, List.foldlM_map]
  rfl

/-- Scanning a cluster: a sector fails, or the scan is a fold over its slots; one that is not
stopped has read all of it. -/
theorem scanClus_cases : ∀ (n l : Nat) (a : σ) (f : Vol),
    (∃ s, scanClus fail body n l a f = (.error fail, { f with sec := s }) ∧
      ∃ k, l ≤ k ∧ k < l + n ∧ f.disk.drive.reads k = false) ∨
    ∃ res f', scanClus fail body n l a f = (res, f') ∧
      Scanned body f ((List.range' l n).flatMap secSlots) a res f' ∧
      ∀ b, res = .ok b → ∀ k, l ≤ k → k < l + n → f.disk.drive.reads k = true
  | 0, l, a, f => Or.inr ⟨.ok a, f, rfl, ⟨rfl, ⟨f.sec, rfl⟩, by simp⟩, fun _ _ k h1 h2 => by omega⟩
  | n + 1, l, a, f => by
    by_cases hon : f.disk.drive.reads l = true
    · rw [List.range'_succ, List.flatMap_cons]
      simp only [scanClus, ideRead_works hon, scanSec_eq]
      split
      next r hr =>
        refine Or.inr ⟨.error r, _, rfl,
          ⟨foldlM_append_error hr, ⟨_, rfl⟩, fun r' hr' => ?_⟩, by simp⟩
        cases hr'
        obtain ⟨sl, hsl, hstop⟩ := foldlM_stop hr
        obtain ⟨i, -, rfl⟩ := List.mem_map.mp hsl
        exact ⟨_, List.mem_append_left _ hsl, rfl, hstop⟩
      next b hb =>
        rcases scanClus_cases n (l + 1) b { f with sec := f.disk.data l } with
          ⟨s, hrun, k, h1, h2, hoff⟩ | ⟨res, f', hrun, hsc, hread⟩
        · exact Or.inl ⟨s, hrun, k, by omega, by omega, hoff⟩
        · refine Or.inr ⟨res, f', hrun, ⟨?_, ?_, fun r hr => ?_⟩, fun b hb k h1 h2 => ?_⟩
          · rw [foldlM_append_ok hb]
            exact hsc.fold
          · obtain ⟨s, rfl⟩ := hsc.state
            exact ⟨s, rfl⟩
          · obtain ⟨sl, hsl, hstop⟩ := hsc.stop r hr
            exact ⟨sl, List.mem_append_right _ hsl, hstop⟩
          · rcases Nat.eq_or_lt_of_le h1 with rfl | hlt
            · exact hon
            · exact hread b hb k hlt (by omega)
    · have hoff : f.disk.drive.reads l = false := by simpa using hon
      refine Or.inl ⟨f.sec, ?_, l, Nat.le_refl _, by omega, hoff⟩
      simp only [scanClus, ideRead_fails hoff]

/-- The end of a scan that was not stopped: what was gathered, and the last
cluster of the chain. -/
def scanEnd (prev : Nat) (cs : List Nat) : Except α σ → Except α (σ × Nat)
  | .error r => .error r
  | .ok a => .ok (a, cs.getLastD prev)

/-- Scanning a chain: a sector fails, or the scan is a fold over the slots; one that is not
stopped has read all of the chain. -/
theorem scanDir_cases : ∀ (cs : List Nat) (fuel c prev : Nat) (a : σ) (f : Vol), f.toGeo.Ok →
    FatsOn f.toGeo f.disk → ClusChain f.toGeo f.disk c cs → cs.length < fuel →
    (∃ s, scanDir fail body fuel c prev a f = some (.error fail, { f with sec := s }) ∧
      ∃ l ∈ secsOf f.toGeo cs, f.disk.drive.reads l = false) ∨
    ∃ res f', scanDir fail body fuel c prev a f = some (scanEnd prev cs res, f') ∧
      Scanned body f (slots f.toGeo cs) a res f' ∧
      ∀ b, res = .ok b → ∀ l ∈ secsOf f.toGeo cs, f.disk.drive.reads l = true
  | [], fuel + 1, c, prev, a, f, _, _, hch, _ => by
    have hc : ¬ c < eoc := Nat.not_lt.mpr hch.1
    exact Or.inr ⟨.ok a, f, by rw [scanDir, if_neg hc]; rfl, ⟨rfl, ⟨f.sec, rfl⟩, by simp⟩,
      by simp [secsOf]⟩
  | x :: cs, fuel + 1, c, prev, a, f, hg, ho, hch, hfuel => by
    obtain ⟨rfl, hlt, hrest⟩ := hch.1
    have hr : InRange f.toGeo c := hch.2 c (by simp)
    rw [slots_cons]
    simp only [scanDir, if_pos (Nat.not_le.mp hlt)]
    rcases scanClus_cases fail body f.secPerClus (clusLba c f.toGeo) a f with
      ⟨s, hrun₁, k, h1, h2, hoff⟩ | ⟨res₁, f₁, hrun₁, hsc₁, hread₁⟩
    · exact Or.inl ⟨s, by rw [hrun₁], k, mem_secsOf.mpr ⟨c, by simp, h1, h2⟩, hoff⟩
    · rw [hrun₁]
      cases res₁ with
      | error r =>
        refine Or.inr ⟨.error r, f₁, rfl, ⟨foldlM_append_error hsc₁.fold, hsc₁.state,
          fun r' hr' => ?_⟩, by simp⟩
        obtain ⟨sl, hsl, hstop⟩ := hsc₁.stop r' hr'
        exact ⟨sl, List.mem_append_left _ hsl, hstop⟩
      | ok b =>
        obtain ⟨s, rfl⟩ := hsc₁.state
        have hnext := fatNext_eq (c := c) (f := { f with sec := s }) hg ho hr.2
        simp only [hnext]
        rcases scanDir_cases cs fuel (link f.toGeo f.disk c) c b
          { f with sec := f.disk.data (fatLba f.toGeo 0 c) } hg ho
          ⟨hrest, fun y hy => hch.2 y (List.mem_cons_of_mem _ hy)⟩ (Nat.lt_of_succ_lt_succ hfuel)
            with
          ⟨t, hrun, l, hl, hoff⟩ | ⟨res, f', hrun, hsc, hread⟩
        · refine Or.inl ⟨t, hrun, l, ?_, hoff⟩
          rw [mem_secsOf] at hl ⊢
          obtain ⟨y, hy, hp⟩ := hl
          exact ⟨y, List.mem_cons_of_mem _ hy, hp⟩
        · refine Or.inr ⟨res, f', ?_, ⟨?_, ?_, fun r hr => ?_⟩, fun b' hb' l hl => ?_⟩
          · refine hrun.trans ?_
            cases res with
            | error r => rfl
            | ok b' => cases cs <;> rfl
          · rw [foldlM_append_ok hsc₁.fold]
            exact hsc.fold
          · obtain ⟨t, rfl⟩ := hsc.state
            exact ⟨t, rfl⟩
          · obtain ⟨sl, hsl, hstop⟩ := hsc.stop r hr
            exact ⟨sl, List.mem_append_right _ hsl, hstop⟩
          · obtain ⟨y, hy, hp⟩ := mem_secsOf.mp hl
            rcases List.mem_cons.mp hy with rfl | hy
            · exact hread₁ b rfl l hp.1 hp.2
            · exact hread b' hb' l (mem_secsOf.mpr ⟨y, hy, hp⟩)

/-- **A scan is a fold over the slots** of a chain whose sectors can be read. -/
theorem scanDir_spec (cs : List Nat) (fuel c prev : Nat) (a : σ) (f : Vol) (hg : f.toGeo.Ok)
    (ho : FatsOn f.toGeo f.disk) (hch : ClusChain f.toGeo f.disk c cs) (hfuel : cs.length < fuel)
    (hon : ∀ l ∈ secsOf f.toGeo cs, f.disk.drive.reads l) :
    ∃ res f', scanDir fail body fuel c prev a f = some (scanEnd prev cs res, f') ∧
      Scanned body f (slots f.toGeo cs) a res f' := by
  rcases scanDir_cases fail body cs fuel c prev a f hg ho hch hfuel with
    ⟨-, -, l, hl, hoff⟩ | ⟨res, f', hrun, hsc, -⟩
  · exact absurd ((hon l hl).symm.trans hoff) (by simp)
  · exact ⟨res, f', hrun, hsc⟩

end Scan

end InaneOS.Fat
