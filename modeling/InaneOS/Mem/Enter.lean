import InaneOS.Mem.Boot

/-!
# Entering a program

A call of `enter_program` clears the user range, loads the image, maps the stack and
writes the arguments to the upper stack page. `enterProgram_load` describes all of it
as one `Load` from the state behind the clearing (`Cleared.wf` and the lemmas beside
it), in terms of the state before the call: `stock m` are the frames the allocator will
have once the range is cleared, and `Lasts` says that they last.
-/

namespace InaneOS.Mem

open InaneOS.Lib

/-! ## The arguments -/

section Args

variable {I : Nat → Prop} {m₁ : Mach} {ms : List Mapping} {l : List Nat}

/-- A byte of the upper stack page. -/
theorem putUser_load (hw₁ : Wf m₁) (hin : 0x40001 ∈ pages ms) {va b : Nat}
    (hva : va / 4096 = 0x40001)
    {m : Mach} (h : Load I m₁ ms l [] m) : Load I m₁ ms l [] (putUser va b m) := by
  obtain ⟨f, hf, -, hphys⟩ := h.phys (show va < 2 ^ 48 by omega) (hva ▸ hin)
  unfold putUser
  split
  · exact h
  · refine h.write hw₁ hf rfl rfl rfl (fun g hg => ?_) fun _ => rfl
    refine pokeByte_frame b m ?_
    rw [hphys]
    omega

theorem putUserBytes_load (hw₁ : Wf m₁) (hin : 0x40001 ∈ pages ms) :
    ∀ {bs : List Nat} {va : Nat} {m : Mach},
    Load I m₁ ms l [] m → 0x40001000 ≤ va → va + bs.length ≤ ustackTop →
    Load I m₁ ms l [] (putUserBytes bs va m)
  | [], _, _, h, _, _ => h
  | b :: bs, va, m, h, hlo, hhi => by
    rw [List.length_cons] at hhi
    unfold ustackTop at hhi
    have hone := putUser_load hw₁ hin (b := b) (show va / 4096 = 0x40001 by omega) h
    rw [putUserBytes]
    exact putUserBytes_load hw₁ hin hone (by omega) (by unfold ustackTop; omega)

theorem leBytes_length (w : Nat) : (leBytes w).length = 8 := by
  rw [leBytes, List.length_map, List.length_range]

/-- **The arguments** fit the upper stack page. -/
theorem pushArgs_load (hw₁ : Wf m₁) (hin : 0x40001 ∈ pages ms) {name arg : List Nat}
    (hname : name.length ≤ 31) (harg : arg.length ≤ 127) {m : Mach} (h : Load I m₁ ms l [] m) :
    Load I m₁ ms l [] (pushArgs name arg m).2 := by
  have hput : ∀ {bs : List Nat} {va : Nat} {m : Mach}, Load I m₁ ms l [] m → 0x40001000 ≤ va →
      va + bs.length ≤ 0x40002000 → Load I m₁ ms l [] (putUserBytes bs va m) :=
    fun h hlo hhi => putUserBytes_load hw₁ hin h hlo hhi
  have hslot : ∀ {w va : Nat} {m : Mach}, Load I m₁ ms l [] m → 0x40001000 ≤ va →
      va + 8 ≤ 0x40002000 → Load I m₁ ms l [] (putUserBytes (leBytes w) va m) :=
    fun h hlo hhi => hput h hlo (by rw [leBytes_length]; exact hhi)
  have hstr : ∀ {s : List Nat}, s.length ≤ 127 → (s ++ [0]).length ≤ (s.length + 8) / 8 * 8 ∧
      (s.length + 8) / 8 * 8 ≤ s.length + 8 := by
    intro s hs
    rw [List.length_append, List.length_singleton]
    omega
  obtain ⟨hn1, hn2⟩ := hstr (show name.length ≤ 127 by omega)
  obtain ⟨ha1, ha2⟩ := hstr harg
  have hsp : ustackTop - (name.length + 8) / 8 * 8 = 0x40002000 - (name.length + 8) / 8 * 8 := rfl
  unfold pushArgs
  dsimp only
  rw [hsp]
  have hfirst := @hput (name ++ [0]) (0x40002000 - (name.length + 8) / 8 * 8) m h
    (by omega) (by omega)
  by_cases hnil : arg = []
  · rw [if_pos hnil]
    dsimp only
    rw [if_pos (by omega)]
    refine hslot (hslot (hslot (hslot (hslot hfirst ?_ ?_) ?_ ?_) ?_ ?_) ?_ ?_) ?_ ?_ <;> omega
  · rw [if_neg hnil]
    dsimp only
    rw [if_neg (by omega)]
    have hsecond := @hput (arg ++ [0])
      (0x40002000 - (name.length + 8) / 8 * 8 - (arg.length + 8) / 8 * 8) _ hfirst
      (by omega) (by omega)
    refine hslot (hslot (hslot (hslot hsecond ?_ ?_) ?_ ?_) ?_ ?_) ?_ ?_ <;> omega

end Args

/-! ## Behind the clearing -/

/-- The first page of the user range and the first behind it. -/
def rangeStart : Nat := 0x400
def rangeEnd : Nat := 0x40002

/-- An entry of the user range points at the frame, which `vmm_unmap_range` gives back. -/
def Given (m : Mach) (f : Nat) : Prop := Targeted m rangeStart rangeEnd f

open scoped Classical in
/-- The frames that are free once the user range is cleared, in the order of the allocator. -/
noncomputable def stock (m : Mach) : List Nat :=
  nextFit (fun f => m.pmm.used f && !decide (Given m f)) m.pmm.cursor m.pmm.totalFrames

theorem mem_stock {m : Mach} (hok : PmmOk m.pmm) {f : Nat} :
    f ∈ stock m ↔ f < 262144 ∧ (m.pmm.used f = false ∨ Given m f) := by
  classical
  rw [stock, mem_nextFit hok.cursor, hok.total, Bool.and_eq_false_iff, Bool.not_eq_false',
    decide_eq_true_iff]

section Clearing

variable {m m₁ : Mach} (hc : Cleared rangeStart rangeEnd m m₁)

include hc

theorem Cleared.supply (hok : PmmOk m.pmm) : Mem.supply m₁.pmm = stock m := by
  have hcur := hok.cursor
  rw [Mem.supply, stock, hc.cursor, hc.total]
  refine (nextFit_congr hcur fun f hf => ?_).symm
  rw [Bool.eq_iff_iff, Bool.and_eq_true, Bool.not_eq_true', decide_eq_false_iff_not, hc.used f]
  constructor
  · intro h
    obtain ⟨hu, hno⟩ := h
    exact ⟨hu, fun hboth => hno hboth.2⟩
  · intro h
    obtain ⟨hu, hno⟩ := h
    exact ⟨hu, fun htarget => hno ⟨hf, htarget⟩⟩

theorem Cleared.still_used {f : Nat} (hu : m.pmm.used f = true) (hf : ¬ Given m f) :
    m₁.pmm.used f = true :=
  (hc.used f).mpr ⟨hu, fun hboth => hf hboth.2⟩

/-- No table is given back: the tables stay as they should be. -/
theorem Cleared.wf (hw : Wf m) (hno : ∀ f, IsTable m f → ¬ Given m f) : Wf m₁ where
  tree := by
    rw [hc.pml4]
    refine hw.tree.congr fun p => ?_
    have hnode := hc.node p
    unfold Mach.node at hnode
    rw [hc.pml4] at hnode
    exact hnode
  used f hf hlt := by
    have hold := (hc.isTable f).mp hf
    exact hc.still_used (hw.used f hold hlt) (hno f hold)
  nonnull f hf := hw.nonnull f ((hc.isTable f).mp hf)
  pmm := by
    refine ⟨hc.total.trans hw.pmm.total, ?_⟩
    rw [hc.cursor, hc.total]
    exact hw.pmm.cursor

theorem Cleared.low (hlow : Low m) : Low m₁ := by
  obtain ⟨t, ht⟩ := hlow
  exact ⟨t, (hc.node _).trans ht⟩

theorem Cleared.blocks_eq : blocks m₁ = blocks m := by
  funext b
  unfold blocks
  rw [hc.small]

theorem Cleared.flat (hflat : Flat m) : Flat m₁ := by
  intro v hv hsmall
  have hold : ¬ Small m v := fun hs => hsmall ((hc.small v).mpr hs)
  rw [hc.kept v (by omega) fun hin => hold hin.2.2.1]
  exact hflat v hv hold

/-- No page of the range has a 4 KB entry any more. -/
theorem Cleared.bare {v : Nat} (hlo : rangeStart ≤ v) (hhi : v < rangeEnd) : ¬ Mapped4K m₁ v := by
  intro h
  obtain ⟨hs, hp⟩ := h
  have hv : v < 2 ^ 36 := by
    unfold rangeEnd at hhi
    omega
  by_cases hmapped : Mapped4K m v
  · rw [hc.cleared v hlo hhi hmapped] at hp
    exact zero_not_present hp
  · rw [hc.kept v hv fun hin => hmapped hin.2.2] at hp
    exact hmapped ⟨(hc.small v).mp hs, hp⟩

end Clearing

/-! ## The call -/

/-- The frames the allocator has behind the clearing last for the image at `img`: memory does not
run out between a page and its page table. All of them that are taken are `ok`; `lone` says
whether the last free frame may be taken for a stack that needs two. -/
structure Lasts (ok : Nat → Prop) (lone : Prop) (m : Mach) (img len : Nat) : Prop where
  serves : Serves ok (fun T L => (elfPlan m img len).2 = true → StackServes ok lone T L) (blocks m)
    (stock m) ((elfPlan m img len).1.map Prod.fst)

/-- Two frames for every page of the image, and three for the stack. -/
theorem lasts_of_length {ok : Nat → Prop} {lone : Prop} {m : Mach} {img len : Nat}
    (hok : ∀ f ∈ stock m, ok f) (h : 2 * (elfPlan m img len).1.length + 3 ≤ (stock m).length) :
    Lasts ok lone m img len := by
  refine ⟨@serves_of_length ok _ 3 (fun T L hL hlen _ => ?_) _ _ _ hok ?_⟩
  · match L, hlen with
    | s1 :: s2 :: t :: L, _ =>
      exact ⟨hL s1 (by simp), hL s2 (by simp), Or.inr ⟨t, L, rfl, hL t (by simp)⟩⟩
  · rw [List.length_map]
    exact h

/-- What a call rests on: no table is given back, frame 0 stays in use, and the image is in frames
of its own. -/
structure Ready (m : Mach) (mod : Module) : Prop where
  wf : Wf m
  low : Low m
  flat : Flat m
  starved : m.starved = false
  null : m.pmm.used 0 = true ∧ ¬ Given m 0
  tables : ∀ f, IsTable m f → ¬ Given m f
  bound : mod.fin ≤ 0x40000000
  name : mod.name.length ≤ 31
  image : ∀ f, InImage mod.start (mod.fin - mod.start) f →
    m.pmm.used f = true ∧ ¬ Given m f ∧ ¬ IsTable m f

theorem enterProgram_none {mods : List Module} {idx : Int} {mod : Module} (h0 : 0 ≤ idx)
    (hmod : mods[idx.toNat]? = some mod) (arg : List Nat) {m : Mach}
    (h : (loadProgram mod.start (mod.fin - mod.start) m).1 = none) : enterProgram mods idx arg m =
      (none, (loadProgram mod.start (mod.fin - mod.start) m).2) := by
  unfold enterProgram
  rw [if_neg (by omega), hmod]
  dsimp only
  rw [h]

theorem enterProgram_some {mods : List Module} {idx : Int} {mod : Module} (h0 : 0 ≤ idx)
    (hmod : mods[idx.toNat]? = some mod) (arg : List Nat) {m : Mach} {entry : Nat}
    (h : (loadProgram mod.start (mod.fin - mod.start) m).1 = some entry) :
    enterProgram mods idx arg m =
      (some (entry, (pushArgs mod.name arg (loadProgram mod.start (mod.fin - mod.start) m).2).1),
        (pushArgs mod.name arg (loadProgram mod.start (mod.fin - mod.start) m).2).2) := by
  unfold enterProgram
  rw [if_neg (by omega), hmod]
  dsimp only
  rw [h]

section Call

variable {I : Nat → Prop} {ok : Nat → Prop} {lone : Prop} {m m₁ : Mach} {mod : Module}

theorem Ready.no_null (h : Ready m mod) (hc : Cleared rangeStart rangeEnd m m₁) (hw₁ : Wf m₁) :
    0 ∉ supply m₁.pmm := by
  intro hin
  have hfree := ((mem_supply hw₁.pmm).mp hin).2
  rw [hc.still_used h.null.1 h.null.2] at hfree
  exact absurd hfree (by simp)

/-- The image is what it was before the clearing. -/
theorem Ready.image_same (h : Ready m mod) (hc : Cleared rangeStart rangeEnd m m₁) :
    ∀ f, InImage mod.start (mod.fin - mod.start) f → m₁.mem f = m.mem f :=
  fun f hf => hc.mem f (h.image f hf).2.2

theorem Ready.fits (h : Ready m mod) (hne : mod.start < mod.fin) :
    mod.start + (mod.fin - mod.start) ≤ 0x40000000 := by
  have hbound := h.bound
  omega

/-- The image and the stack, when the memory lasts, are a load from the state behind the
clearing. -/
theorem loadProgram_ready (h : Ready m mod) (hne : mod.start < mod.fin)
    (hm₁ : vmmUnmapRange userMin ustackTop m = m₁)
    (hwrap : NoWrap m mod.start (mod.fin - mod.start))
    (hI : ∀ f, InImage mod.start (mod.fin - mod.start) f → I f)
    (hin : ehdrSize ≤ mod.fin - mod.start → (ehdrAt m mod.start).accepted (mod.fin - mod.start) →
      ∀ j < (ehdrAt m mod.start).phnum, ¬ (hdr m mod.start j).skipped →
        ¬ (hdr m mod.start j).refused (mod.fin - mod.start) → (hdr m mod.start j).In I mod.start)
    (hlasts : Lasts ok lone m mod.start (mod.fin - mod.start)) :
    Cleared rangeStart rangeEnd m m₁ ∧ Wf m₁ ∧
    ∃ ms l sp, Load I m₁ ms l sp (loadProgram mod.start (mod.fin - mod.start) m).2 ∧
      made ms <+: programPlan m mod.start (mod.fin - mod.start) ∧
      (∀ f, f ∈ l ∨ f ∈ frames ms → ok f) ∧ (¬ lone → sp = []) ∧
      ((loadProgram mod.start (mod.fin - mod.start) m).1.isSome = true →
        made ms = programPlan m mod.start (mod.fin - mod.start) ∧ sp = [] ∧ 0x40001 ∈ pages ms) ∧
      ((loadProgram mod.start (mod.fin - mod.start) m).1 = none →
        (elfPlan m mod.start (mod.fin - mod.start)).2 = false ∨
        (stock m).length ≤ 2 * (elfPlan m mod.start (mod.fin - mod.start)).1.length + 1) := by
  have hc : Cleared rangeStart rangeEnd m m₁ := hm₁ ▸ vmmUnmapRange_cleared h.wf.tree
  have hw₁ : Wf m₁ := hc.wf h.wf h.tables
  have hfit : mod.start + (mod.fin - mod.start) < 2 ^ 64 :=
    Nat.lt_of_le_of_lt (h.fits hne) (by decide)
  have hsame := h.image_same hc
  have helf := elfPlan_same hfit hsame hwrap
  have hplan := programPlan_same hfit hsame hwrap
  have hown : ∀ f, InImage mod.start (mod.fin - mod.start) f → m₁.pmm.used f = true ∧
    ¬ IsTable m₁ f := by
    intro f hf
    obtain ⟨hu, hgiven, htable⟩ := h.image f hf
    exact ⟨hc.still_used hu hgiven, fun ht => htable ((hc.isTable f).mp ht)⟩
  have him : ImageOk I m₁ mod.start (mod.fin - mod.start) := by
    refine imageOk_of hw₁ hfit hown hI (hwrap.same hfit hsame) fun hlen hacc j hj hs hr => ?_
    rw [ehdrAt_same hfit hsame hlen] at hacc hj
    rw [hdr_same hfit hsame hlen hwrap hacc hj] at hs hr ⊢
    exact hin hlen hacc j hj hs hr
  have hserve : Serves ok (fun T L => (elfPlan m₁ mod.start (mod.fin - mod.start)).2 = true →
      StackServes ok lone T L) (blocks m₁) (supply m₁.pmm)
      ((elfPlan m₁ mod.start (mod.fin - mod.start)).1.map Prod.fst) := by
    rw [helf, hc.blocks_eq, hc.supply h.wf.pmm]
    exact hlasts.serves
  obtain ⟨ms, l, sp, hload, hpre, hok, hsp, hdone, hfail⟩ := loadProgram_served hm₁ hw₁
    (hc.low h.low) (hc.flat h.flat).dense (h.no_null hc hw₁) (hc.starved.trans h.starved) him hserve
  rw [hplan] at hpre hdone
  rw [helf, hc.supply h.wf.pmm] at hfail
  refine ⟨hc, hw₁, ms, l, sp, hload, hpre, hok, hsp, fun hsome => ?_, hfail⟩
  obtain ⟨hmade, hsp', hacc⟩ := hdone hsome
  refine ⟨hmade, hsp', ?_⟩
  have hmem : (0x40001, 7) ∈ made ms := by
    rw [hmade, programPlan, ← helf, if_pos hacc]
    exact List.mem_append_right _ (by simp [stackWant])
  have hpage : 0x40001 ∈ (made ms).map Prod.fst := List.mem_map_of_mem hmem
  rw [made_pages] at hpage
  exact List.mem_reverse.mp hpage

/-- **A call of `enter_program`**, when the memory lasts, is a load from the state behind the
clearing. -/
theorem enterProgram_load (h : Ready m mod) (hne : mod.start < mod.fin)
    (hm₁ : vmmUnmapRange userMin ustackTop m = m₁)
    (hwrap : NoWrap m mod.start (mod.fin - mod.start))
    (hI : ∀ f, InImage mod.start (mod.fin - mod.start) f → I f)
    (hin : ehdrSize ≤ mod.fin - mod.start → (ehdrAt m mod.start).accepted (mod.fin - mod.start) →
      ∀ j < (ehdrAt m mod.start).phnum, ¬ (hdr m mod.start j).skipped →
        ¬ (hdr m mod.start j).refused (mod.fin - mod.start) → (hdr m mod.start j).In I mod.start)
    (hlasts : Lasts ok lone m mod.start (mod.fin - mod.start))
    {mods : List Module} {idx : Int} (h0 : 0 ≤ idx) (hmod : mods[idx.toNat]? = some mod)
    {arg : List Nat} (harg : arg.length ≤ 127) :
    Cleared rangeStart rangeEnd m m₁ ∧ Wf m₁ ∧
    ∃ ms l sp, Load I m₁ ms l sp (enterProgram mods idx arg m).2 ∧
      made ms <+: programPlan m mod.start (mod.fin - mod.start) ∧
      (∀ f, f ∈ l ∨ f ∈ frames ms → ok f) ∧ (¬ lone → sp = []) ∧
      ((enterProgram mods idx arg m).1.isSome = true →
        made ms = programPlan m mod.start (mod.fin - mod.start)) ∧
      ((enterProgram mods idx arg m).1 = none →
        (elfPlan m mod.start (mod.fin - mod.start)).2 = false ∨
        (stock m).length ≤ 2 * (elfPlan m mod.start (mod.fin - mod.start)).1.length + 1) := by
  obtain ⟨hc, hw₁, ms, l, sp, hload, hpre, hok, hsp, hdone, hfail⟩ :=
    loadProgram_ready h hne hm₁ hwrap hI hin hlasts
  refine ⟨hc, hw₁, ?_⟩
  cases hres : (loadProgram mod.start (mod.fin - mod.start) m).1 with
  | none =>
    rw [enterProgram_none h0 hmod arg hres]
    exact ⟨ms, l, sp, hload, hpre, hok, hsp, fun hsome => absurd hsome (by simp),
      fun _ => hfail hres⟩
  | some entry =>
    obtain ⟨hmade, hsp', hstack⟩ := hdone (by rw [hres]; rfl)
    rw [hsp'] at hload
    have hargs := pushArgs_load hw₁ hstack h.name harg hload
    rw [enterProgram_some h0 hmod arg hres]
    dsimp only
    exact ⟨ms, l, [], hargs, hpre, hok, fun _ => rfl, fun _ => hmade,
      fun hnone => absurd hnone (Option.some_ne_none _)⟩

end Call

end InaneOS.Mem
