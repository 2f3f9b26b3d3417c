import InaneOS.Mem.Loader

/-!
# `elf_load` and the stack

What a whole call of `enter_program` maps is planned by the image alone:
`programPlan` lists the pages, with their flags, that `elf_load` and the stack mapping
ask for, in order. `loadProgram_load` says that a call maps a prefix of the plan, and
all of it when it succeeds.
-/

namespace InaneOS.Mem

open InaneOS.Lib

section

variable {I : Nat → Prop} {m₁ : Mach} {img len : Nat}

/-! ## The image -/

/-- The pages `elf_load` will ask for, and whether it will accept the image. -/
def elfPlan (m : Mach) (img len : Nat) : List (Nat × Nat) × Bool :=
  if len < ehdrSize ∨ ¬ (ehdrAt m img).accepted len then ([], false)
  else
    let p := planFrom len (fun j => phdrAt m (hdrAddr img (ehdrAt m img) j)) (ehdrAt m img).phnum 0
    (p.1, p.2 && !decide ((ehdrAt m img).entry < userMin ∨ (ehdrAt m img).entry ≥ userMax))

/-- The headers of the image can be read, and read the same all through the load. -/
structure ImageOk (I : Nat → Prop) (m₁ : Mach) (img len : Nat) : Prop where
  head : ehdrSize ≤ len → img + ehdrSize ≤ 2 ^ 64 ∧ ∀ k < ehdrSize, I ((img + k) / 4096)
  read : ehdrSize ≤ len → (ehdrAt m₁ img).accepted len → ∀ j < (ehdrAt m₁ img).phnum,
    Readable I m₁ (hdrAddr img (ehdrAt m₁ img) j)
  good : ehdrSize ≤ len → (ehdrAt m₁ img).accepted len → ∀ j < (ehdrAt m₁ img).phnum,
    (phdrAt m₁ (hdrAddr img (ehdrAt m₁ img) j)).Good I img len

/-- **`elf_load`** maps the pages of the plan. -/
theorem elfLoad_load (hw₁ : Wf m₁) (hlow : Low m₁) (him : ImageOk I m₁ img len)
    (hst : (elfLoad img len m₁).2.starved = false) :
    Outcome I m₁ [] [] (elfPlan m₁ img len).1
      ((elfLoad img len m₁).1.isSome, (elfLoad img len m₁).2) ∧
    ((elfLoad img len m₁).1.isSome = true → (elfPlan m₁ img len).2 = true) := by
  have hrefl : Load I m₁ [] [] [] m₁ := Load.refl hw₁
  unfold elfLoad elfPlan at *
  by_cases hlen : len < ehdrSize
  · rw [if_pos hlen, if_pos (Or.inl hlen)]
    exact ⟨Outcome.refused hrefl _, fun hok => absurd hok (by simp)⟩
  · obtain ⟨hfit, hI⟩ := him.head (by omega)
    have hlook := hrefl.lookBytes hfit hI
    rw [if_neg hlen] at hst ⊢
    dsimp only at hst ⊢
    by_cases hacc : (ehdrAt m₁ img).accepted len
    · rw [if_neg (not_not.mpr hacc)] at hst ⊢
      rw [if_neg (not_or.mpr ⟨hlen, not_not.mpr hacc⟩)]
      obtain ⟨r, hr⟩ : ∃ r, phdrLoop img len (ehdrAt m₁ img) (ehdrAt m₁ img).phnum 0
        (touchBytes ehdrSize img m₁) = r := ⟨_, rfl⟩
      have hloop := phdrLoop_load (i := 0) hw₁ hlow (ehdrAt m₁ img).phnum hlook
        (fun j _ hj => him.read (by omega) hacc j (by omega))
        (fun j _ hj => him.good (by omega) hacc j (by omega))
      rw [hr] at hst hloop ⊢
      have hstr : r.2.starved = false := by
        split at hst
        · exact hst
        · split at hst
          · exact hst
          · exact hst
      obtain ⟨hout, hplan⟩ := hloop hstr
      by_cases hok : r.1 = false
      · rw [if_pos hok]
        have hstop := hout.stop []
        rw [List.append_nil] at hstop
        exact ⟨hstop, fun hok' => absurd hok' (by simp)⟩
      · rw [if_neg hok]
        have htrue : r.1 = true := by simpa using hok
        by_cases hentry : (ehdrAt m₁ img).entry < userMin ∨ (ehdrAt m₁ img).entry ≥ userMax
        · rw [if_pos hentry]
          have hstop := hout.stop []
          rw [List.append_nil] at hstop
          exact ⟨hstop, fun hok' => absurd hok' (by simp)⟩
        · rw [if_neg hentry, decide_eq_false hentry, hplan htrue]
          obtain ⟨new, l', m', hload, hstop, hpre, hdone⟩ := hout
          exact ⟨⟨new, l', m', hload, hstop, hpre, fun _ => hdone htrue⟩, fun _ => rfl⟩
    · rw [if_pos hacc, if_pos (Or.inr hacc)]
      exact ⟨Outcome.refused hlook _, fun hok => absurd hok (by simp)⟩

/-! ## The stack -/

def stackWant : List (Nat × Nat) := [(0x40000, 7), (0x40001, 7)]

section Stack

variable {m : Mach}

theorem mapStack_nil (hs : supply m.pmm = []) : mapStack m = (false, m) := by
  rw [mapStack, pmmAllocFrame_nil hs]
  dsimp only
  rw [pmmAllocFrame_nil hs]
  rfl

theorem mapStack_null {rest : List Nat} (hs : supply m.pmm = 0 :: rest) :
    ∃ q, mapStack m = (false, { m with pmm := q }) := by
  rw [mapStack, pmmAllocFrame_cons hs]
  exact ⟨_, if_pos (Or.inl rfl)⟩

theorem mapStack_one {f : Nat} (hs : supply m.pmm = [f]) :
    mapStack m = (false, { m with pmm := m.pmm.take f }) := by
  rw [mapStack, pmmAllocFrame_cons hs]
  dsimp only
  rw [pmmAllocFrame_nil (supply_take hs)]
  exact if_pos (Or.inr rfl)

theorem mapStack_two_null {f : Nat} {rest : List Nat} (hs : supply m.pmm = f :: 0 :: rest) :
    ∃ q, mapStack m = (false, { m with pmm := q }) := by
  rw [mapStack, pmmAllocFrame_cons hs]
  dsimp only
  rw [pmmAllocFrame_cons (supply_take hs)]
  exact ⟨_, if_pos (Or.inr rfl)⟩

theorem mapStack_two {f g : Nat} {rest : List Nat} (hs : supply m.pmm = f :: g :: rest)
    (hf : f ≠ 0) (hg : g ≠ 0) : mapStack m = (true, vmmMap (0x40001 * 4096) (g * 4096) 7
      (vmmMap (0x40000 * 4096) (f * 4096) 7 { m with pmm := (m.pmm.take f).take g })) := by
  rw [mapStack, pmmAllocFrame_cons hs]
  dsimp only
  rw [pmmAllocFrame_cons (supply_take hs)]
  refine if_neg (not_or.mpr ⟨?_, ?_⟩)
  · exact Nat.mul_ne_zero hf (by decide)
  · exact Nat.mul_ne_zero hg (by decide)

end Stack

/-- **The stack mapping.** Only when exactly one frame is left is it taken for nothing. -/
theorem mapStack_load (hlow : Low m₁) {ms : List Mapping} {l : List Nat} {m : Mach}
    (h : Load I m₁ ms l [] m) (hst : (mapStack m).2.starved = false) :
    ∃ new l' sp m', Load I m₁ (new ++ ms) (l ++ l') sp m' ∧ Stop m' (mapStack m).2 ∧
      made new <+: stackWant ∧
      ((mapStack m).1 = true → (mapStack m).2 = m' ∧ made new = stackWant ∧ sp = []) ∧
      (0 ∉ supply m.pmm → (supply m.pmm).length ≠ 1 → sp = []) := by
  have hkeep : ∀ {sp : List Nat} {mk : Mach}, Load I m₁ ms l sp mk →
    Load I m₁ ([] ++ ms) (l ++ []) sp mk :=
    fun hk => by
      rw [List.append_nil]
      exact hk
  cases hs : supply m.pmm with
  | nil =>
    rw [mapStack_nil hs]
    exact ⟨[], [], [], m, hkeep h, Stop.refl m, List.nil_prefix, fun hok => absurd hok (by simp),
      fun _ _ => rfl⟩
  | cons f rest =>
    by_cases hf : f = 0
    · rw [hf] at hs
      obtain ⟨q, hq⟩ := mapStack_null hs
      rw [hq]
      refine ⟨[], [], [], m, hkeep h, ⟨q, rfl, fun hno => ?_⟩, List.nil_prefix,
        fun hok => absurd hok (by simp), fun _ _ => rfl⟩
      exact absurd (by rw [hs]; exact List.mem_cons_self) hno
    · have htake : Load I m₁ ms l [f] { m with pmm := m.pmm.take f } := h.take hs hf
      have hrest : supply (m.pmm.take f) = rest := supply_take hs
      cases rest with
      | nil =>
        rw [mapStack_one hs]
        exact ⟨[], [], [f], _, hkeep htake, Stop.refl _, List.nil_prefix,
          fun hok => absurd hok (by simp), fun _ hlen => absurd rfl hlen⟩
      | cons g rest =>
        by_cases hg : g = 0
        · rw [hg] at hs hrest
          obtain ⟨q, hq⟩ := mapStack_two_null hs
          rw [hq]
          refine ⟨[], [], [f], _, hkeep htake, ⟨q, rfl, fun hno => ?_⟩, List.nil_prefix,
            fun hok => absurd hok (by simp), fun hno => ?_⟩
          · exact absurd (by rw [hrest]; exact List.mem_cons_self) hno
          · exact absurd (by rw [hg]; simp) hno
        · have htake2 : Load I m₁ ms l [f, g] { m with pmm := (m.pmm.take f).take g } :=
            htake.take hrest hg
          rw [mapStack_two hs hf hg] at hst ⊢
          rcases @Load.map I m₁ _ ms l [g] f htake2 0x40000 7 (by omega)
            (htake2.low hlow).present with
            ⟨hstarved, -⟩ | ⟨l', hload, -⟩
          · rw [vmmMap_starved _ _ _ hstarved] at hst
            exact absurd hst (by simp)
          · rcases @Load.map I m₁ _ _ _ [] g hload 0x40001 7 (by omega) (hload.low hlow).present
              with
              ⟨hstarved, -⟩ | ⟨l'', hload', -⟩
            · rw [hstarved] at hst
              exact absurd hst (by simp)
            · rw [List.append_assoc] at hload'
              exact ⟨[⟨0x40001, g, 7⟩, ⟨0x40000, f, 7⟩], l' ++ l'', [], _, hload', Stop.refl _,
                List.prefix_rfl, fun _ => ⟨rfl, rfl, rfl⟩, fun _ _ => rfl⟩

theorem mapStack_starved {m : Mach} (h : m.starved = true) : (mapStack m).2.starved = true := by
  unfold mapStack
  dsimp only
  split
  · exact h
  · exact vmmMap_starved _ _ _ (vmmMap_starved _ _ _ h)

/-! ## The whole call up to the stack -/

/-- The pages a call will ask for. -/
def programPlan (m : Mach) (img len : Nat) : List (Nat × Nat) :=
  (elfPlan m img len).1 ++ if (elfPlan m img len).2 = true then stackWant else []

/-- **The unmapping**: all 4 KB entries of the user range. -/
theorem vmmUnmapRange_cleared {m : Mach} (hT : tables.Tree m.mem m.pml4) :
    Cleared 0x400 0x40002 m (vmmUnmapRange userMin ustackTop m) := by
  have hloop := @unmapLoop_cleared 261122 0x400 m hT (by omega)
  have hcount : (ustackTop - userMin / 4096 * 4096 + 4095) / 4096 = 261122 := by decide
  have hstart : userMin / 4096 * 4096 = 0x400 * 4096 := by decide
  rw [vmmUnmapRange, hcount, hstart]
  exact hloop

theorem loadProgram_none {m : Mach}
    (h : (elfLoad img len (vmmUnmapRange userMin ustackTop m)).1 = none) :
    loadProgram img len m = (none, (elfLoad img len (vmmUnmapRange userMin ustackTop m)).2) := by
  unfold loadProgram
  dsimp only
  rw [h]

theorem loadProgram_some {m : Mach} {entry : Nat}
    (h : (elfLoad img len (vmmUnmapRange userMin ustackTop m)).1 = some entry) :
    loadProgram img len m =
      if (mapStack (elfLoad img len (vmmUnmapRange userMin ustackTop m)).2).1 = false then
        (none, (mapStack (elfLoad img len (vmmUnmapRange userMin ustackTop m)).2).2)
      else (some entry, (mapStack (elfLoad img len (vmmUnmapRange userMin ustackTop m)).2).2) := by
  unfold loadProgram
  dsimp only
  rw [h]

/-- The state is that of the stack mapping, whether it failed or not. -/
theorem loadProgram_state {m : Mach} {entry : Nat}
    (h : (elfLoad img len (vmmUnmapRange userMin ustackTop m)).1 = some entry) :
    (loadProgram img len m).2 =
      (mapStack (elfLoad img len (vmmUnmapRange userMin ustackTop m)).2).2 := by
  rw [loadProgram_some h]
  split
  · rfl
  · rfl

/-- **`enter_program` up to the stack mapping** maps the pages of the plan, unless a table
allocation fails. -/
theorem loadProgram_load {m : Mach} (hm₁ : vmmUnmapRange userMin ustackTop m = m₁) (hw₁ : Wf m₁)
    (hlow : Low m₁) (him : ImageOk I m₁ img len) (hst : (loadProgram img len m).2.starved = false) :
    ∃ ms l sp m', Load I m₁ ms l sp m' ∧ Stop m' (loadProgram img len m).2 ∧
      made ms <+: programPlan m₁ img len ∧
      ((loadProgram img len m).1.isSome = true → (loadProgram img len m).2 = m' ∧
        made ms = programPlan m₁ img len ∧ sp = []) := by
  cases helf : (elfLoad img len m₁).1 with
  | none =>
    have hrun := @loadProgram_none img len m (by rw [hm₁]; exact helf)
    rw [hm₁] at hrun
    rw [hrun] at hst ⊢
    obtain ⟨⟨new, l', m', hload, hstop, hpre, -⟩, -⟩ := elfLoad_load hw₁ hlow him hst
    rw [List.append_nil] at hload
    exact ⟨new, _, [], m', hload, hstop, hpre.trans (List.prefix_append _ _),
      fun hok => absurd hok (by simp)⟩
  | some entry =>
    have hstate := @loadProgram_state img len m entry (by rw [hm₁]; exact helf)
    rw [hm₁] at hstate
    rw [hstate] at hst ⊢
    have hste : (elfLoad img len m₁).2.starved = false := by
      by_contra hne
      rw [mapStack_starved (by simpa using hne)] at hst
      exact absurd hst (by simp)
    obtain ⟨⟨new, l', m', hload, -, -, hdone⟩, hplan⟩ := elfLoad_load hw₁ hlow him hste
    have hsome : (elfLoad img len m₁).1.isSome = true := by rw [helf]; rfl
    obtain ⟨hm', hmade⟩ := hdone hsome
    obtain ⟨new', l'', sp, m'', hload', hstop', hpre', hdone', -⟩ :=
      mapStack_load hlow (by rw [hm']; exact hload) hst
    rw [List.append_nil, List.nil_append] at hload'
    have hwant : programPlan m₁ img len = made new ++ stackWant := by
      rw [programPlan, if_pos (hplan hsome), ← hmade]
    refine ⟨new' ++ new, l' ++ l'', sp, m'', hload', hstop', ?_, fun hok => ?_⟩
    · rw [made_append, hwant]
      exact (List.prefix_append_right_inj _).mpr hpre'
    · have hstack : (mapStack (elfLoad img len m₁).2).1 = true := by
        by_contra hne
        have hrun := @loadProgram_some img len m entry (by rw [hm₁]; exact helf)
        rw [hm₁, if_pos (by simpa using hne)] at hrun
        rw [hrun] at hok
        exact absurd hok (by simp)
      obtain ⟨hm'', hmade', hsp⟩ := hdone' hstack
      exact ⟨hm'', by rw [made_append, hwant, hmade'], hsp⟩

end

end InaneOS.Mem
