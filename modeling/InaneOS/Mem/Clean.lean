import InaneOS.Mem.OnePage

/-!
# `vmm_map` without a frame for a table

When `pmm_alloc_frame` fails below an entry that is not present, `vmm_map` gives up, and
nothing has happened but that empty tables were added. When it fails in `split_large`,
the result is not looked at, and `walk` goes on through the 2 MB page as if its entry led
to a page table: the entry for the page is written to the first frame of the 2 MB page,
over what lies there. `vmmMap_clean_iff` says that this is the only way to do harm, and
when it does (`Spoils`).
-/

namespace InaneOS.Mem

open InaneOS.Lib

/-- No memory outside the page tables was written, and every address is mapped as before. -/
structure Undisturbed (m m' : Mach) : Prop where
  mem : ∀ f, ¬ IsTable m f → ¬ IsTable m' f → m'.mem f = m.mem f
  phys : ∀ a, vmmPhys a m' = vmmPhys a m

/-- Either the call maps the page of `virt` to that of `phys`, or it does no harm. -/
def Clean (virt phys flags : Nat) (m : Mach) : Prop :=
  ¬ Established virt phys (vmmMap virt phys flags m) → Undisturbed m (vmmMap virt phys flags m)

/-- Page `v` lies in the 2 MB page with the directory entry `e`. -/
structure InLarge (m : Mach) (v e : Nat) : Prop where
  entry : ∃ pd, m.node (path v 2) = some pd ∧ m.mem pd (pageIdx v 2) = e
  present : Mem.present e
  large : Mem.large e

/-- The entry for the page, written to the first frame of the 2 MB page with the entry `e`. -/
def strayWord (virt phys flags e : Nat) (m : Mach) : Mach :=
  poke (e / 4096) (pageIdx (virt / 4096) 3) (leafEntry phys flags) m

/-- The call does harm: the 2 MB page of `virt` cannot be split, and the word that is written to its
first frame is not the one that stands there, while the page is not mapped to `phys` already. If
that frame happens to be a page table, the word changes what some address is mapped to. -/
def Spoils (virt phys flags : Nat) (m : Mach) : Prop :=
  ∃ e, InLarge m (virt / 4096) e ∧ Short m ∧ e / 4096 ≠ 0 ∧
    ((¬ IsTable m (e / 4096) ∧ e / 2 ^ 21 * 512 + virt / 4096 % 512 ≠ phys / 4096 ∧
        m.mem (e / 4096) (pageIdx (virt / 4096) 3) ≠ leafEntry phys flags) ∨
      (IsTable m (e / 4096) ∧ ¬ Established virt phys (strayWord virt phys flags e m) ∧
        ∃ a, vmmPhys a (strayWord virt phys flags e m) ≠ vmmPhys a m))

section

variable {m : Mach} {v e : Nat}

theorem InLarge.unique {e' : Nat} (h : InLarge m v e) (h' : InLarge m v e') : e' = e := by
  obtain ⟨pd, hpd, he⟩ := h.entry
  obtain ⟨pd', hpd', he'⟩ := h'.entry
  rw [← he, ← he', Option.some.inj (hpd'.symm.trans hpd)]

theorem inLarge_iff : (∃ e, InLarge m v e) ↔ ¬ NoLarge m v := by
  constructor
  · intro ⟨e, h⟩ hno
    obtain ⟨pd, hpd, he⟩ := h.entry
    exact hno pd hpd (by rw [he]; exact h.present) (by rw [he]; exact h.large)
  · intro h
    unfold NoLarge at h
    push Not at h
    obtain ⟨pd, hpd, hp, hl⟩ := h
    exact ⟨_, ⟨pd, hpd, rfl⟩, hp, hl⟩

theorem InLarge.pte (h : InLarge m v e) : Mem.pte m v = splitEntry e (v % 512) := by
  obtain ⟨pd, hpd, rfl⟩ := h.entry
  have hnone : m.node (path v 3) = none := by
    rw [node_path_succ hpd]
    exact next_of_large h.large
  rw [pte_of_directory hnone hpd, if_pos h.present]

/-- `walk` passes through a 2 MB page. -/
theorem walk_through (h : InLarge m v e) :
    (walk (v * 4096) true m).1 = e / 4096 ∧ (walk (v * 4096) true m).2.mem = m.mem ∧
      (walk (v * 4096) true m).2.pml4 = m.pml4 := by
  obtain ⟨pd, h2, he⟩ := h.entry
  obtain ⟨pdpt, h1, hnext1⟩ := node_path_above h2
  obtain ⟨root, h0, hnext0⟩ := node_path_above h1
  obtain rfl : m.pml4 = root := Option.some.inj h0
  obtain ⟨-, hp0, -, hf0⟩ := next_some hnext0
  obtain ⟨-, hp1, -, hf1⟩ := next_some hnext1
  have hidx0 := tableIdx_zero v (show 3 + 0 = 3 from rfl)
  have hidx1 := tableIdx_zero v (show 2 + 1 = 3 from rfl)
  have hidx2 := tableIdx_zero v (show 1 + 2 = 3 from rfl)
  rw [← hidx0] at hp0 hf0
  rw [← hidx1] at hp1 hf1
  rw [← hidx2] at he
  have hp2 := h.present
  rw [← he] at hp2
  have hdown : ∀ {level t s : Nat} {m' : Mach}, m'.mem = m.mem →
      present (m.mem t (tableIdx (level + 1) (v * 4096))) →
      m.mem t (tableIdx (level + 1) (v * 4096)) / 4096 = s →
      walkFrom (v * 4096) true (level + 1) t m' = walkFrom (v * 4096) true level s
        (touch (t * 4096 + 8 * tableIdx (level + 1) (v * 4096)) m') := by
    intro level t s m' hmem hp hf
    rw [walkFrom_down (by rw [hmem]; exact hp), hmem, hf]
  unfold walk
  rw [hdown rfl hp0 hf0, hdown (touch_mem _ _) hp1 hf1,
    hdown (by rw [touch_mem, touch_mem]) hp2 (congrArg (· / 4096) he),
    walkFrom]
  exact ⟨rfl, rfl, rfl⟩

/-- **A 2 MB page that cannot be split** is written to as if it were a page table. -/
theorem vmmMap_stuck {virt : Nat} (hm : Paged m) (h : InLarge m (virt / 4096) e) (hshort : Short m)
    (phys flags : Nat) : ∃ mg, mg.mem = m.mem ∧ mg.pml4 = m.pml4 ∧ vmmMap virt phys flags m =
      if e / 4096 = 0 then mg
      else store (e / 4096) (pageIdx (virt / 4096) 3) (leafEntry phys flags) mg := by
  have hstuck : Stuck (virt / 4096) m := ⟨inLarge_iff.mp ⟨e, h⟩, hshort⟩
  obtain ⟨hspread, -, hkeep⟩ := splitLarge_spread hm (virt / 4096)
  have hmem := (hkeep hstuck).1
  obtain ⟨ms, hms⟩ : ∃ ms, (splitLarge (virt / 4096 * 4096) m).2 = ms := ⟨_, rfl⟩
  rw [hms] at hspread hmem
  have hnode : ∀ p, ms.node p = m.node p := by
    intro p
    unfold Mach.node
    rw [hmem, hspread.pml4]
  have hlarge : InLarge ms (virt / 4096) e := by
    obtain ⟨pd, hpd, he⟩ := h.entry
    exact ⟨⟨pd, (hnode _).trans hpd, by rw [hmem, he]⟩, h.present, h.large⟩
  obtain ⟨hpt, hwmem, hwpml4⟩ := walk_through hlarge
  obtain ⟨r, hr⟩ : ∃ r, walk (virt / 4096 * 4096) true ms = r := ⟨_, rfl⟩
  rw [hr] at hpt hwmem hwpml4
  refine ⟨r.2, hwmem.trans hmem, hwpml4.trans hspread.pml4, ?_⟩
  have hpage := vmmMap_page (v := virt / 4096) (Nat.mod_lt virt (by omega)) phys flags m
  rw [page_split] at hpage
  rw [hpage, ← hpt, ← tableIdx_zero (virt / 4096) (show 0 + 3 = 3 from rfl), ← hr, ← hms]
  rfl

/-- The translation depends on memory and `pml4` alone. -/
theorem vmmPhys_mem {m' : Mach} (hmem : m'.mem = m.mem) (hpml4 : m'.pml4 = m.pml4) (a : Nat) :
    vmmPhys a m' = vmmPhys a m := by
  unfold vmmPhys
  rw [hmem, hpml4]

end

/-- Nothing but tables was added. -/
theorem Spread.undisturbed {m m' : Mach} (h : Spread m m') : Undisturbed m m' :=
  ⟨fun f _ hf => h.mem f hf, fun _ => vmmPhys_congr (h.pte _)⟩

/-- The word in the first frame of the 2 MB page, when that is no table: no address is mapped
elsewhere, but the frame was written. -/
theorem strayWord_clean_iff {m m' : Mach} {virt phys flags e : Nat} (h : InLarge m (virt / 4096) e)
    (ht : ¬ IsTable m (e / 4096)) (hmem : m'.mem = (strayWord virt phys flags e m).mem)
    (hpml4 : m'.pml4 = m.pml4) :
    (¬ Established virt phys m' → Undisturbed m m') ↔
    (e / 2 ^ 21 * 512 + virt / 4096 % 512 = phys / 4096 ∨
      m.mem (e / 4096) (pageIdx (virt / 4096) 3) = leafEntry phys flags) := by
  have hsame : SameTables m m' := sameTables_of_frame ht hpml4 fun f hf => by
    rw [hmem]
    exact poke_frame _ _ m hf
  have hphys : ∀ a, vmmPhys a m' = vmmPhys a m := fun a => vmmPhys_congr (hsame.pte _)
  have hest : Established virt phys m' ↔ e / 2 ^ 21 * 512 + virt / 4096 % 512 = phys / 4096 := by
    rw [established_iff, hsame.pte, h.pte, splitEntry_present, splitEntry_frame]
    exact and_iff_right h.present
  have hword : m'.mem (e / 4096) (pageIdx (virt / 4096) 3) = leafEntry phys flags := by
    rw [hmem]
    exact poke_same _ _ _ _
  constructor
  · intro hclean
    by_cases he : e / 2 ^ 21 * 512 + virt / 4096 % 512 = phys / 4096
    · exact Or.inl he
    · have hframe := (hclean fun hin => he (hest.mp hin)).mem (e / 4096) ht fun hin =>
        ht ((hsame.isTable _).mp hin)
      rw [hframe] at hword
      exact Or.inr hword
  · intro hor hno
    have hold := hor.resolve_left fun he => hno (hest.mpr he)
    refine ⟨fun f _ _ => ?_, hphys⟩
    rw [hmem]
    funext j
    by_cases hj : f = e / 4096 ∧ j = pageIdx (virt / 4096) 3
    · rw [hj.1, hj.2, hold]
      exact poke_same _ _ _ _
    · exact poke_other _ _ hj

/-- The word in a frame that is a table. -/
theorem strayWord_table {m m' : Mach} {virt phys flags e : Nat} (ht : IsTable m (e / 4096))
    (hmem : m'.mem = (strayWord virt phys flags e m).mem) (hpml4 : m'.pml4 = m.pml4) :
    (¬ Established virt phys m' → Undisturbed m m') ↔
    (Established virt phys (strayWord virt phys flags e m) ∨
      ∀ a, vmmPhys a (strayWord virt phys flags e m) = vmmPhys a m) := by
  have hphys : ∀ a, vmmPhys a m' = vmmPhys a (strayWord virt phys flags e m) :=
    vmmPhys_mem hmem hpml4
  have hest : Established virt phys m' ↔ Established virt phys (strayWord virt phys flags e m) := by
    unfold Established
    simp only [hphys]
  have hrest : ∀ f, ¬ IsTable m f → m'.mem f = m.mem f := by
    intro f hf
    rw [hmem]
    exact poke_frame _ _ m fun he => hf (he ▸ ht)
  rw [hest]
  constructor
  · intro hclean
    by_cases hin : Established virt phys (strayWord virt phys flags e m)
    · exact Or.inl hin
    · right
      intro a
      rw [← hphys]
      exact (hclean hin).phys a
  · intro hor hno
    refine ⟨fun f hf _ => hrest f hf, fun a => ?_⟩
    rw [hphys]
    exact hor.resolve_left hno a

/-- What a call has come to that could not split the 2 MB page. -/
theorem vmmMap_stray {m : Mach} {virt e : Nat} (hm : Paged m) (h : InLarge m (virt / 4096) e)
    (hshort : Short m)
    (h0 : e / 4096 ≠ 0) (phys flags : Nat) :
    (vmmMap virt phys flags m).mem = (strayWord virt phys flags e m).mem ∧
      (vmmMap virt phys flags m).pml4 = m.pml4 := by
  obtain ⟨mg, hmem, hpml4, hrun⟩ := vmmMap_stuck hm h hshort phys flags
  rw [if_neg h0] at hrun
  rw [hrun]
  refine ⟨?_, hpml4⟩
  rw [store_mem]
  unfold strayWord poke
  rw [hmem]

/-- Where the 2 MB page begins with a frame that is no table. -/
theorem clean_frame_iff {m : Mach} {virt e : Nat} (hm : Paged m) (h : InLarge m (virt / 4096) e)
    (hshort : Short m)
    (h0 : e / 4096 ≠ 0) (ht : ¬ IsTable m (e / 4096)) (phys flags : Nat) : Clean virt phys flags m ↔
    (e / 2 ^ 21 * 512 + virt / 4096 % 512 = phys / 4096 ∨
      m.mem (e / 4096) (pageIdx (virt / 4096) 3) = leafEntry phys flags) := by
  obtain ⟨hmem, hpml4⟩ := vmmMap_stray hm h hshort h0 phys flags
  exact strayWord_clean_iff h ht hmem hpml4

/-- Where it begins with a frame that is one. -/
theorem clean_table_iff {m : Mach} {virt e : Nat} (hm : Paged m) (h : InLarge m (virt / 4096) e)
    (hshort : Short m)
    (h0 : e / 4096 ≠ 0) (ht : IsTable m (e / 4096)) (phys flags : Nat) : Clean virt phys flags m ↔
    (Established virt phys (strayWord virt phys flags e m) ∨
      ∀ a, vmmPhys a (strayWord virt phys flags e m) = vmmPhys a m) := by
  obtain ⟨hmem, hpml4⟩ := vmmMap_stray hm h hshort h0 phys flags
  exact strayWord_table ht hmem hpml4

/-- A 2 MB page in frame 0 makes the call give up: its address is taken for the null pointer. -/
theorem clean_null {m : Mach} {virt e : Nat} (hm : Paged m) (h : InLarge m (virt / 4096) e)
    (hshort : Short m)
    (h0 : e / 4096 = 0) (phys flags : Nat) : Clean virt phys flags m := by
  obtain ⟨mg, hmem, hpml4, hrun⟩ := vmmMap_stuck hm h hshort phys flags
  rw [if_pos h0] at hrun
  intro _
  rw [hrun]
  exact ⟨fun f _ _ => by rw [hmem], fun a => vmmPhys_mem hmem hpml4 a⟩

/-- A call that is not stuck in a 2 MB page maps the page, or gives up with nothing but empty tables
added. -/
theorem clean_free {m : Mach} {virt : Nat} (hm : Paged m) (hfree : ¬ Stuck (virt / 4096) m)
    (phys flags : Nat) :
    Clean virt phys flags m := by
  intro hno
  have hpage := vmmMap_page (v := virt / 4096) (Nat.mod_lt virt (by omega)) phys flags m
  rw [page_split] at hpage
  rw [hpage] at hno ⊢
  obtain ⟨mg, hspread, hend⟩ := vmmMap_spread hm hfree phys flags
  rcases hend with ⟨hrun, -⟩ | ⟨t, ht, hrun⟩
  · rw [hrun]
    exact hspread.undisturbed
  · rw [hrun] at hno
    exact absurd (established_leaf hspread.wf ht phys flags) hno

/-- The machine `m` without a free frame. -/
def exhausted (m : Mach) : Mach := { m with pmm := fullPmm }

theorem exhausted_short (m : Mach) : Short (exhausted m) := by
  intro f l hs
  have hin : f ∈ supply fullPmm := by
    have hcons : supply fullPmm = f :: l := hs
    rw [hcons]
    exact List.mem_cons_self
  have hfree := ((mem_supply fullPmm_inv.ok).mp hin).2
  rw [fullPmm_used] at hfree
  exact absurd hfree (by simp)

theorem exhausted_paged {m : Mach} (hm : Paged m) : Paged (exhausted m) where
  wf := ⟨hm.wf.tree, fun f _ _ => fullPmm_used f, hm.wf.nonnull, fullPmm_inv.ok⟩
  low := hm.low
  high := hm.high

/-- At start-up page `v` of the first gigabyte lies in a 2 MB page. -/
theorem boot_inLarge (b : Boot) {v : Nat} (hv : v < 2 ^ 18) :
    InLarge b.mach v (v / 512 * 2 ^ 21 + 0x83) where
  entry := by
    have hpath : path v 2 = [0, 0] := by
      simp only [path, pageIdx, List.cons.injEq, and_true]
      omega
    have hentry := @bootMem_pd b.base b.ram 0 (pageIdx v 2) (by omega)
    rw [show 0 * 512 + pageIdx v 2 = v / 512 by unfold pageIdx; omega] at hentry
    exact ⟨_, by rw [hpath]; exact boot_pd (show 0 < 4 by omega), hentry⟩
  present := bigEntry_present _
  large := bigEntry_large _

end InaneOS.Mem
