import InaneOS.Mem.Tables

/-!
# Creating page tables

`Wf` is what the code of `vmm.c` needs of a state: the tables are a tree, and no table
lies in a frame the allocator would hand out. `Grow l m m'` says that `m'` has the
tables of `m` and those in the frames `l`, taken from the allocator, and that nothing
else is different: every page is mapped as before, no page is more accessible, and no
frame outside the tables was written. `table_alloc`, `split_large` and `walk` are
steps of this kind (`grow_hang`, `splitLarge_grow`, `walkFrom_grow`).
-/

namespace InaneOS.Mem

open InaneOS.Lib

/-- The page tables are a tree, in frames that are not free; a null pointer is no table. -/
structure Wf (m : Mach) : Prop where
  tree : tables.Tree m.mem m.pml4
  used : ∀ f, IsTable m f → f < 262144 → m.pmm.used f = true
  nonnull : ∀ f, IsTable m f → f ≠ 0
  pmm : PmmOk m.pmm

/-- The frame is mapped to itself, so that its address can be used as a pointer. -/
def Steady (m : Mach) (f : Nat) : Prop := present (pte m f) ∧ pte m f / 4096 = f

theorem vmmPhys_steady {m : Mach} {f o : Nat} (h : Steady m f) (ho : o < 4096) :
    vmmPhys (f * 4096 + o) m = f * 4096 + o := by
  rw [vmmPhys_eq m f ho, if_pos h.1, h.2]

theorem touch_calm {m : Mach} {f o : Nat} (h : Steady m f) (ho : o < 4096) :
    (touch (f * 4096 + o) m).strayed = m.strayed := by
  show (m.strayed || decide (vmmPhys (f * 4096 + o) m ≠ f * 4096 + o)) = m.strayed
  rw [vmmPhys_steady h ho]
  simp

/-- A frame the allocator would hand out is no table. -/
theorem Wf.supply_not_table {m : Mach} (hw : Wf m) {f : Nat} (hf : f ∈ supply m.pmm) :
    ¬ IsTable m f := by
  intro ht
  obtain ⟨hlt, hfree⟩ := (mem_supply hw.pmm).mp hf
  rw [hw.used f ht hlt] at hfree
  exact absurd hfree (by simp)

theorem SameTables.steady {m m' : Mach} (h : SameTables m m') (f : Nat) :
    Steady m' f ↔ Steady m f := by
  unfold Steady
  rw [h.pte]

/-! ## Growing -/

/-- `m'` is `m` with page tables added in the frames `l`. -/
structure Grow (l : List Nat) (m m' : Mach) : Prop where
  wf : Wf m'
  pml4 : m'.pml4 = m.pml4
  node : ∀ p f, m.node p = some f → m'.node p = some f
  table : ∀ f, IsTable m' f ↔ IsTable m f ∨ f ∈ l
  supply : supply m.pmm = l ++ supply m'.pmm
  used : ∀ f, m'.pmm.used f = true ↔ m.pmm.used f = true ∨ f ∈ l
  pte : ∀ w, pte m' w = pte m w
  upper : ∀ (bit : Nat → Prop) w, Upper bit m' w → Upper bit m w
  opened : ∀ bit : Nat → Prop, (∀ f, bit (openEntry f)) → ∀ w, Upper bit m w → Upper bit m' w
  mem : ∀ f, ¬ IsTable m' f → m'.mem f = m.mem f
  starved : m'.starved = m.starved
  calm : (∀ f, IsTable m' f → Steady m f) → m'.strayed = m.strayed

namespace Grow

variable {m m' m'' : Mach} {l l' : List Nat}

theorem steady (h : Grow l m m') (f : Nat) : Steady m' f ↔ Steady m f := by
  unfold Steady
  rw [h.pte]

theorem refl (hw : Wf m) : Grow [] m m where
  wf := hw
  pml4 := rfl
  node _ _ hp := hp
  table f := by simp
  supply := rfl
  used f := by simp
  pte _ := rfl
  upper _ _ hu := hu
  opened _ _ _ hu := hu
  mem _ _ := rfl
  starved := rfl
  calm _ := rfl

theorem trans (h : Grow l m m') (h' : Grow l' m' m'') : Grow (l ++ l') m m'' where
  wf := h'.wf
  pml4 := h'.pml4.trans h.pml4
  node p f hp := h'.node p f (h.node p f hp)
  table f := by rw [h'.table, h.table, List.mem_append, or_assoc]
  supply := by rw [h.supply, h'.supply, List.append_assoc]
  used f := by rw [h'.used, h.used, List.mem_append, or_assoc]
  pte w := (h'.pte w).trans (h.pte w)
  upper bit w hu := h.upper bit w (h'.upper bit w hu)
  opened bit hb w hu := h'.opened bit hb w (h.opened bit hb w hu)
  mem f hf := by
    rw [h'.mem f hf, h.mem f fun ht => hf ((h'.table f).mpr (Or.inl ht))]
  starved := h'.starved.trans h.starved
  calm hs := by
    rw [h'.calm fun f hf => (h.steady f).mpr (hs f hf),
      h.calm fun f hf => hs f ((h'.table f).mpr (Or.inl hf))]

end Grow

/-- `m'` is `m` with page tables added, an allocation having failed or not. -/
structure Spread (m m' : Mach) : Prop where
  wf : Wf m'
  pml4 : m'.pml4 = m.pml4
  node : ∀ p f, m.node p = some f → m'.node p = some f
  pte : ∀ w, pte m' w = pte m w
  upper : ∀ (bit : Nat → Prop) w, Upper bit m' w → Upper bit m w
  opened : ∀ bit : Nat → Prop, (∀ f, bit (openEntry f)) → ∀ w, Upper bit m w → Upper bit m' w
  mem : ∀ f, ¬ IsTable m' f → m'.mem f = m.mem f
  fresh : ∀ f, IsTable m' f → IsTable m f ∨ f ∈ supply m.pmm
  left : ∀ f ∈ supply m'.pmm, f ∈ supply m.pmm
  calm : (∀ f, IsTable m' f → Steady m f) → m'.strayed = m.strayed

namespace Spread

variable {m m' m'' : Mach}

theorem table (h : Spread m m') {f : Nat} (hf : IsTable m f) : IsTable m' f :=
  hf.imp fun p hp => h.node p f hp

theorem steady (h : Spread m m') (f : Nat) : Steady m' f ↔ Steady m f := by
  unfold Steady
  rw [h.pte]

theorem trans (h : Spread m m') (h' : Spread m' m'') : Spread m m'' where
  wf := h'.wf
  pml4 := h'.pml4.trans h.pml4
  node p f hp := h'.node p f (h.node p f hp)
  pte w := (h'.pte w).trans (h.pte w)
  upper bit w hu := h.upper bit w (h'.upper bit w hu)
  opened bit hb w hu := h'.opened bit hb w (h.opened bit hb w hu)
  mem f hf := by
    rw [h'.mem f hf, h.mem f fun ht => hf (h'.table ht)]
  fresh f hf := (h'.fresh f hf).elim (h.fresh f) fun hin => Or.inr (h.left f hin)
  left f hf := h.left f (h'.left f hf)
  calm hs := by
    rw [h'.calm fun f hf => (h.steady f).mpr (hs f hf), h.calm fun f hf => hs f (h'.table hf)]

/-- The tables are the same, frames are only taken. -/
theorem of_pmm (hw : Wf m) {q : Pmm} (hq : PmmOk q)
    (hused : ∀ f, m.pmm.used f = true → q.used f = true)
    (hleft : ∀ f ∈ supply q, f ∈ supply m.pmm) :
    Spread m { m with pmm := q, starved := true } where
  wf := ⟨hw.tree, fun f hf hlt => hused f (hw.used f hf hlt), hw.nonnull, hq⟩
  pml4 := rfl
  node _ _ hp := hp
  pte _ := rfl
  upper _ _ hu := hu
  opened _ _ _ hu := hu
  mem _ _ := rfl
  fresh _ hf := Or.inl hf
  left := hleft
  calm _ := rfl

end Spread

theorem Grow.spread {m m' : Mach} {l : List Nat} (h : Grow l m m') : Spread m m' where
  wf := h.wf
  pml4 := h.pml4
  node := h.node
  pte := h.pte
  upper := h.upper
  opened := h.opened
  mem := h.mem
  fresh f hf := ((h.table f).mp hf).imp_right fun hin => by
    rw [h.supply]
    exact List.mem_append_left _ hin
  left f hf := by
    rw [h.supply]
    exact List.mem_append_right _ hf
  calm := h.calm

/-- Using a table as a pointer is no change. -/
theorem grow_touch {m : Mach} (hw : Wf m) {t i : Nat} (ht : IsTable m t) (hi : i < 512) :
    Grow [] m (touch (t * 4096 + 8 * i) m) where
  wf := ⟨hw.tree, hw.used, hw.nonnull, hw.pmm⟩
  pml4 := rfl
  node _ _ hp := hp
  table f := ⟨Or.inl, fun h => h.elim id fun hmem => absurd hmem (by simp)⟩
  supply := rfl
  used f := by simp
  pte _ := rfl
  upper _ _ hu := hu
  opened _ _ _ hu := hu
  mem _ _ := rfl
  starved := rfl
  calm hs := touch_calm (hs t ht) (by omega)

/-! ## One table more -/

/-- `m₁` is `m` with the frame `n` taken and filled with `row`. -/
structure Fresh (m m₁ : Mach) (n : Nat) (row : Nat → Nat) : Prop where
  pml4 : m₁.pml4 = m.pml4
  pmm : m₁.pmm = m.pmm.take n
  starved : m₁.starved = m.starved
  mem : ∀ f, f ≠ n → m₁.mem f = m.mem f
  row : ∀ j < 512, m₁.mem n j = row j
  calm : Steady m n → m₁.strayed = m.strayed

section Fill

variable {m : Mach} {t : Nat}

theorem sameTables_of_frame {m' : Mach} (ht : ¬ IsTable m t) (hpml4 : m'.pml4 = m.pml4)
    (h : ∀ f, f ≠ t → m'.mem f = m.mem f) : SameTables m m' :=
  ⟨hpml4, fun f hf => h f fun he => ht (he ▸ hf)⟩

/-- Filling a frame that is no table leaves its own address mapped. -/
theorem fillLoop_calm (val : Nat → Nat) : ∀ {n i : Nat} {m : Mach}, ¬ IsTable m t → Steady m t →
    i + n ≤ 512 → (fillLoop val t n i m).strayed = m.strayed
  | 0, _, _, _, _, _ => rfl
  | n + 1, i, m, ht, hs, hi => by
    have hsame : SameTables m (store t i (val i) m) :=
      sameTables_of_frame ht rfl fun f hf => poke_frame _ _ _ hf
    rw [fillLoop, fillLoop_calm val (fun h => ht ((hsame.isTable t).mp h)) ((hsame.steady t).mpr hs)
      (by omega)]
    exact touch_calm hs (by omega)

theorem Fresh.fill {m₁ : Mach} {n : Nat} {row : Nat → Nat} (h : Fresh m m₁ n row)
    (hn : ¬ IsTable m n) (val : Nat → Nat) : Fresh m (fillLoop val n 512 0 m₁) n val where
  pml4 := (fillLoop_pml4 ..).trans h.pml4
  pmm := (fillLoop_pmm ..).trans h.pmm
  starved := (fillLoop_starved ..).trans h.starved
  mem f hf := by rw [fillLoop_frame _ _ _ _ hf, h.mem f hf]
  row j hj := by rw [fillLoop_mem, if_pos ⟨rfl, Nat.zero_le _, by omega⟩]
  calm hs := by
    have hsame : SameTables m m₁ := sameTables_of_frame hn h.pml4 h.mem
    rw [fillLoop_calm val (fun ht => hn ((hsame.isTable n).mp ht)) ((hsame.steady n).mpr hs)
      (by omega), h.calm hs]

end Fill

/-- `pmm_alloc_frame` returns 0. -/
def Short (m : Mach) : Prop := ∀ f l, supply m.pmm = f :: l → f = 0

/-- **`table_alloc`**: it starves, or takes the next frame of the supply and clears it. -/
theorem tableAlloc_spec {m : Mach} (hw : Wf m) :
    ((tableAlloc m).1 = 0 ∧ (tableAlloc m).2.starved = true ∧ Short m) ∨
    ∃ n l, supply m.pmm = n :: l ∧ n ≠ 0 ∧ (tableAlloc m).1 = n ∧
      Fresh m (tableAlloc m).2 n fun _ => 0 := by
  cases hs : supply m.pmm with
  | nil =>
    left
    have hshort : Short m := fun f l h => absurd (hs.symm.trans h) (by simp)
    rw [tableAlloc, pmmAllocFrame_nil hs]
    exact ⟨rfl, rfl, hshort⟩
  | cons n l =>
    by_cases hn : n = 0
    · left
      have hshort : Short m := fun f l h => (List.cons.inj (h.symm.trans hs)).1.trans hn
      rw [tableAlloc, pmmAllocFrame_cons hs, hn]
      exact ⟨rfl, rfl, hshort⟩
    · right
      have hnt : ¬ IsTable m n := hw.supply_not_table (by rw [hs]; exact List.mem_cons_self)
      have hne : ¬ n * frameSize = 0 := Nat.mul_ne_zero hn (by decide)
      have hdiv : n * frameSize / 4096 = n := Nat.mul_div_cancel n (by decide)
      have hrun : tableAlloc m =
        (n, fillLoop (fun _ => 0) n 512 0 { m with pmm := m.pmm.take n }) := by
        rw [tableAlloc, pmmAllocFrame_cons hs]
        dsimp only
        rw [if_neg hne, hdiv]
        rfl
      have hbase : Fresh m { m with pmm := m.pmm.take n } n (m.mem n) :=
        ⟨rfl, rfl, rfl, fun _ _ => rfl, fun _ _ => rfl, fun _ => rfl⟩
      have hfill := hbase.fill hnt fun _ => 0
      have hstate : (tableAlloc m).2 = fillLoop (fun _ => 0) n 512 0
        { m with pmm := m.pmm.take n } := by
        rw [hrun]
      rw [← hstate] at hfill
      exact ⟨n, l, rfl, hn, by rw [hrun], hfill⟩

/-- A failed `table_alloc` leaves memory as it is; no frame is left, but for a null frame. -/
theorem tableAlloc_fail {m : Mach} (hw : Wf m) (h0 : (tableAlloc m).1 = 0) :
    Spread m (tableAlloc m).2 ∧ (tableAlloc m).2.mem = m.mem ∧ (tableAlloc m).2.starved = true ∧
      Short m ∧ (0 ∉ supply m.pmm → supply (tableAlloc m).2.pmm = []) := by
  rcases tableAlloc_spec hw with ⟨-, -, hshort⟩ | ⟨n, l, -, hn, h1, -⟩
  · cases hs : supply m.pmm with
    | nil =>
      have hrun : (tableAlloc m).2 = { m with pmm := m.pmm, starved := true } := by
        rw [tableAlloc, pmmAllocFrame_nil hs]
        rfl
      rw [hrun]
      exact ⟨Spread.of_pmm hw hw.pmm (fun _ hu => hu) fun _ hf => hf, rfl, rfl, hshort, fun _ => hs⟩
    | cons n l =>
      have hn : n = 0 := hshort n l hs
      subst hn
      have hrun : (tableAlloc m).2 = { m with pmm := m.pmm.take 0, starved := true } := by
        rw [tableAlloc, pmmAllocFrame_cons hs]
        rfl
      rw [hrun]
      refine ⟨Spread.of_pmm hw (take_ok hw.pmm 0) (fun f hu => ?_) (fun f hf => ?_),
        rfl, rfl, hshort,
        fun hno => absurd List.mem_cons_self hno⟩
      · rw [take_used, hu, Bool.or_true]
      · rw [supply_take hs] at hf
        rw [hs]
        exact List.mem_cons_of_mem _ hf
  · exact absurd (h1.symm.trans h0) hn

/-- **Hanging a new table** below an entry that led nowhere. -/
theorem grow_hang {m m₁ : Mach} (hw : Wf m) {p : List Nat} {i t n : Nat} {l : List Nat}
    {row : Nat → Nat} (ht : m.node p = some t) (hi : i < 512) (hd : p.length < 3)
    (hun : tables.next p.length (m.mem t i) = none) (hs : supply m.pmm = n :: l) (hn : n ≠ 0)
    (hf : Fresh m m₁ n row) (hempty : ∀ j < 512, tables.next (p.length + 1) (row j) = none)
    (hleaf : ∀ w, path w 3 = i :: p → row (pageIdx w 3) = pte m w)
    (hdir : ∀ w, path w 2 = i :: p → ¬ present (row (pageIdx w 2))) :
    Grow [n] m (store t i (openEntry n) m₁) ∧
      (store t i (openEntry n) m₁).node (i :: p) = some n ∧
      ∀ j < 512, (store t i (openEntry n) m₁).mem n j = row j := by
  have hnt : ¬ IsTable m n := hw.supply_not_table (by rw [hs]; exact List.mem_cons_self)
  have htn : t ≠ n := fun he => hnt ⟨p, by rw [← he]; exact ht⟩
  have hmem : ∀ f, f ≠ t → (store t i (openEntry n) m₁).mem f = m₁.mem f := fun f hft =>
    poke_frame i (openEntry n) m₁ hft
  have hrow : ∀ j < 512, (store t i (openEntry n) m₁).mem n j = row j := by
    intro j hj
    rw [hmem n (Ne.symm htn)]
    exact hf.row j hj
  have hlink : tables.Link m.mem (store t i (openEntry n) m₁).mem m.pml4 p i t n :=
    { table := ht
      index := hi
      unlinked := hun
      fresh := fun q hq => hnt ⟨q, hq⟩
      link := by
        rw [store_mem, poke_same]
        exact next_openEntry hd n
      empty := fun j hj => by
        rw [hrow j hj]
        exact hempty j hj
      rest := fun f j hfn hne => by
        rw [store_mem, poke_other _ _ hne, hf.mem f hfn] }
  have hpml4 : (store t i (openEntry n) m₁).pml4 = m.pml4 := hf.pml4
  have hpmm : (store t i (openEntry n) m₁).pmm = m.pmm.take n := hf.pmm
  have htable : ∀ f, IsTable (store t i (openEntry n) m₁) f ↔ IsTable m f ∨ f ∈ [n] :=
    isTable_hang hw.tree hpml4 hlink
  have hused : ∀ f, (store t i (openEntry n) m₁).pmm.used f = true ↔
      m.pmm.used f = true ∨ f ∈ [n] := by
    intro f
    rw [hpmm, take_used, Bool.or_eq_true, decide_eq_true_eq, List.mem_singleton, or_comm]
  refine ⟨?_, by rw [node_hang hw.tree hpml4 hlink, if_pos rfl], hrow⟩
  refine
    { wf := ⟨?_, fun f hft hlt => ?_, fun f hft => ?_, ?_⟩
      pml4 := hpml4
      node := fun q f => node_kept hw.tree hpml4 hlink
      table := htable
      supply := by rw [hs, hpmm, supply_take hs]; rfl
      used := hused
      pte := pte_link hw.tree hpml4 hlink (fun w hw3 => ?_) fun w hw2 => ?_
      upper := fun bit w => upper_link hw.tree hpml4 hlink
      opened := fun bit hb w => upper_opened hw.tree hpml4 hlink ?_
      mem := fun f hft => ?_
      starved := hf.starved
      calm := fun hsteady => ?_ }
  · rw [hpml4]
    exact hw.tree.link hlink
  · exact (hused f).mpr (((htable f).mp hft).imp_left fun hold => hw.used f hold hlt)
  · rcases (htable f).mp hft with hold | hfn
    · exact hw.nonnull f hold
    · rw [List.mem_singleton.mp hfn]
      exact hn
  · rw [hpmm]
    exact take_ok hw.pmm n
  · rw [hrow _ (pageIdx_lt w 3)]
    exact hleaf w hw3
  · rw [hrow _ (pageIdx_lt w 2)]
    exact hdir w hw2
  · rw [show (store t i (openEntry n) m₁).mem t i = openEntry n from poke_same _ _ _ _]
    exact hb n
  · have hft' : f ≠ t := fun he => hft ((htable f).mpr (Or.inl ⟨p, by rw [he]; exact ht⟩))
    have hfn : f ≠ n := fun he => hft ((htable f).mpr (Or.inr (List.mem_singleton.mpr he)))
    rw [hmem f hft', hf.mem f hfn]
  · have hsame : SameTables m m₁ := sameTables_of_frame hnt hf.pml4 hf.mem
    have hst : Steady m₁ t := (hsame.steady t).mpr (hsteady t ((htable t).mpr (Or.inl ⟨p, ht⟩)))
    show (touch (t * 4096 + 8 * i) m₁).strayed = m.strayed
    rw [touch_calm hst (by omega), hf.calm (hsteady n ((htable n).mpr (Or.inr (by simp))))]

end InaneOS.Mem
