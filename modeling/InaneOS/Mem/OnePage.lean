import InaneOS.Mem.Run

/-!
# One page and nothing else

`vmm_map` for every address, also above the 512 GB that `pml4[0]` covers. There
`split_large` still looks below `pml4[0]`, and may split a 2 MB page that has nothing to
do with the address; `Spread` covers that, as a 2 MB page reads the same when it is split.

`Allows bit a m` is what the processor makes of a protection bit: it is set in every
entry on the way to the address. Splitting opens the directory entry and leaves the
protection to the 512 entries below, so only the conjunction stays the same
(`Spread.allows`). `vmmMap_one_page` is the main result.
-/

namespace InaneOS.Mem

open InaneOS.Lib

/-! ## The indices of an address -/

/-- The addresses a pointer can hold. -/
def Canonical (a : Nat) : Prop := a < 2 ^ 47 ∨ (2 ^ 64 - 2 ^ 47 ≤ a ∧ a < 2 ^ 64)

theorem canonical_page {a b : Nat} (ha : Canonical a) (hb : Canonical b)
    (h : a / 4096 % 2 ^ 36 = b / 4096 % 2 ^ 36) : a / 4096 = b / 4096 := by
  unfold Canonical at ha hb
  omega

/-- The tables see 36 bits of a page number. -/
theorem pageIdx_mod (v d : Nat) : pageIdx (v % 2 ^ 36) d = pageIdx v d := by
  unfold pageIdx
  match d with
  | 0 => omega
  | 1 => omega
  | 2 => omega
  | d + 3 =>
    rw [show 3 - (d + 3) = 0 by omega]
    omega

theorem path_mod (v : Nat) : ∀ d, path (v % 2 ^ 36) d = path v d
  | 0 => rfl
  | d + 1 => by rw [path, path, pageIdx_mod, path_mod v d]

/-- `split_large` sees 27 of them. -/
theorem pageIdx_low (v : Nat) {d : Nat} (hd : 0 < d) : pageIdx (v % 2 ^ 27) d = pageIdx v d := by
  unfold pageIdx
  match d, hd with
  | 1, _ => omega
  | 2, _ => omega
  | d + 3, _ =>
    rw [show 3 - (d + 3) = 0 by omega]
    omega

theorem path_low {v : Nat} (h0 : pageIdx v 0 = 0) : ∀ d, path (v % 2 ^ 27) d = path v d
  | 0 => rfl
  | 1 => by
    have hlow : pageIdx (v % 2 ^ 27) 0 = 0 := by
      unfold pageIdx
      omega
    show [pageIdx (v % 2 ^ 27) 0] = [pageIdx v 0]
    rw [h0, hlow]
  | d + 2 => by
    rw [path, path.eq_def v (d + 2)]
    dsimp only
    rw [pageIdx_low v (Nat.succ_pos d), path_low h0 (d + 1)]

theorem pte_mod (m : Mach) (v : Nat) : pte m (v % 2 ^ 36) = pte m v := by
  have hmod : v % 2 ^ 36 % 512 = v % 512 := by omega
  unfold pte
  rw [path_mod, path_mod, pageIdx_mod, pageIdx_mod, hmod]

/-- `vmm_map` does not look at the offset in the page. -/
theorem walkFrom_page {v o : Nat} (ho : o < 4096) (create : Bool) {level : Nat} (hl : level ≤ 3) :
    ∀ t m, walkFrom (v * 4096 + o) create level t m = walkFrom (v * 4096) create level t m := by
  induction level with
  | zero =>
    intro t m
    rw [walkFrom, walkFrom]
  | succ level ih =>
    intro t m
    have hd : level + 1 + (2 - level) = 3 := by omega
    have hidx := (tableIdx_page v o ho hd).trans (tableIdx_zero v hd).symm
    have hrest := ih (by omega)
    rw [walkFrom, walkFrom, hidx]
    dsimp only
    rw [hrest, hrest]

theorem splitLarge_page {v o : Nat} (ho : o < 4096) (m : Mach) :
    splitLarge (v * 4096 + o) m = splitLarge (v * 4096) m := by
  unfold splitLarge
  rw [tableIdx_page v o ho (show 2 + 1 = 3 from rfl),
    tableIdx_page v o ho (show 1 + 2 = 3 from rfl),
    tableIdx_zero v (show 2 + 1 = 3 from rfl), tableIdx_zero v (show 1 + 2 = 3 from rfl)]

theorem splitLarge_low (v : Nat) (m : Mach) :
    splitLarge (v * 4096) m = splitLarge (v % 2 ^ 27 * 4096) m := by
  unfold splitLarge
  rw [tableIdx_zero v (show 2 + 1 = 3 from rfl), tableIdx_zero v (show 1 + 2 = 3 from rfl),
    tableIdx_zero _ (show 2 + 1 = 3 from rfl), tableIdx_zero _ (show 1 + 2 = 3 from rfl),
    pageIdx_low v (show 0 < 1 by omega), pageIdx_low v (show 0 < 2 by omega)]

theorem vmmMap_page {v o : Nat} (ho : o < 4096) (phys flags : Nat) (m : Mach) :
    vmmMap (v * 4096 + o) phys flags m = vmmMap (v * 4096) phys flags m := by
  have hidx : tableIdx 0 (v * 4096 + o) = tableIdx 0 (v * 4096) :=
    (tableIdx_page v o ho (show 0 + 3 = 3 from rfl)).trans
      (tableIdx_zero v (show 0 + 3 = 3 from rfl)).symm
  unfold vmmMap walk
  simp only [splitLarge_page ho, walkFrom_page ho true (Nat.le_refl 3), hidx]

/-! ## Rights -/

/-- The bit is set in every entry on the way to `virt`, from the table `t` at `level` on. -/
def allowsFrom (bit : Nat → Prop) (mem : Nat → Nat → Nat) (virt : Nat) : Nat → Nat → Prop
  | 0, t => present (mem t (tableIdx 0 virt)) ∧ bit (mem t (tableIdx 0 virt))
  | level + 1, t =>
    let e := mem t (tableIdx (level + 1) virt)
    present e ∧ bit e ∧ (¬ (level = 0 ∧ large e) → allowsFrom bit mem virt level (e / 4096))

/-- The effective value of a protection bit at `virt`: the conjunction over the levels. -/
def Allows (bit : Nat → Prop) (virt : Nat) (m : Mach) : Prop := allowsFrom bit m.mem virt 3 m.pml4

/-- A bit that a split 2 MB page hands on to its pages, and that tables are opened with. -/
structure Protection (bit : Nat → Prop) : Prop where
  split : ∀ e i, bit (splitEntry e i) ↔ bit e
  opened : ∀ f, bit (openEntry f)

theorem protection_present : Protection present where
  split := splitEntry_present
  opened := openEntry_present

theorem protection_writable : Protection writable where
  split e i := by
    unfold writable splitEntry
    omega
  opened f := by
    unfold writable openEntry
    omega

theorem protection_user : Protection user where
  split e i := by
    unfold user splitEntry
    omega
  opened f := by
    unfold user openEntry
    omega

section Allows

variable {m m' : Mach} {bit : Nat → Prop} {v o : Nat}

/-- From a table at depth `d` on: the page's entry and the entries of the tables from `d` on. -/
theorem allowsFrom_iff (hb : Protection bit) (ho : o < 4096) : ∀ {level d t : Nat}, level + d = 3 →
    m.node (path v d) = some t →
    (allowsFrom bit m.mem (v * 4096 + o) level t ↔ present (pte m v) ∧ bit (pte m v) ∧
      ∀ k, d ≤ k → k < 3 → ∀ s, m.node (path v k) = some s → m.node (path v (k + 1)) ≠ none →
        bit (m.mem s (pageIdx v k)))
  | 0, d, t, hd, ht => by
    rw [show d = 3 by omega] at ht
    rw [allowsFrom, tableIdx_page v o ho (show 0 + 3 = 3 from rfl), pte_of_table ht]
    constructor
    · intro ⟨hp, hbit⟩
      exact ⟨hp, hbit, fun k h1 h2 => by omega⟩
    · intro ⟨hp, hbit, _⟩
      exact ⟨hp, hbit⟩
  | level + 1, d, t, hd, ht => by
    have hstep := node_path_succ ht
    rw [allowsFrom, tableIdx_page v o ho hd]
    by_cases hp : present (m.mem t (pageIdx v d))
    · by_cases hl : level = 0 ∧ large (m.mem t (pageIdx v d))
      · -- a 2 MB page
        obtain ⟨rfl, hlarge⟩ := hl
        obtain rfl : d = 2 := by omega
        rw [next_of_large hlarge] at hstep
        have hpte := pte_of_directory hstep ht
        rw [if_pos hp] at hpte
        rw [hpte, hb.split, splitEntry_present]
        constructor
        · intro ⟨_, hbit, _⟩
          refine ⟨hp, hbit, fun k h1 h2 s hs hn => ?_⟩
          obtain rfl : k = 2 := by omega
          exact absurd hstep hn
        · intro ⟨_, hbit, _⟩
          exact ⟨hp, hbit, fun hno => absurd ⟨rfl, hlarge⟩ hno⟩
      · have hl' : ¬ (d = 2 ∧ large (m.mem t (pageIdx v d))) := fun hb => hl ⟨by omega, hb.2⟩
        rw [next_of_present (by omega) hp hl'] at hstep
        have ih := allowsFrom_iff hb ho (show level + (d + 1) = 3 by omega) hstep
        constructor
        · intro ⟨_, hbit, hrest⟩
          obtain ⟨hpp, hpb, hup⟩ := ih.mp (hrest hl)
          refine ⟨hpp, hpb, fun k h1 h2 s hs hn => ?_⟩
          by_cases hk : k = d
          · subst hk
            rw [Option.some.inj (hs.symm.trans ht)]
            exact hbit
          · exact hup k (by omega) h2 s hs hn
        · intro ⟨hpp, hpb, hup⟩
          refine ⟨hp, hup d (Nat.le_refl _) (by omega) t ht (by rw [hstep]; simp), fun _ => ?_⟩
          exact ih.mpr ⟨hpp, hpb, fun k h1 h2 => hup k (by omega) h2⟩
    · -- nothing is mapped below the entry
      rw [next_of_not_present hp] at hstep
      have hnone : pte m v = 0 := by
        by_cases h2 : d = 2
        · subst h2
          rw [pte_of_directory hstep ht, if_neg hp]
        · exact pte_of_none (node_path_none_le hstep (by omega))
      rw [hnone]
      exact ⟨fun h => absurd h.1 hp, fun h => absurd h.1 zero_not_present⟩

/-- **The effective bit** of a page is that of its entry and of the tables above. -/
theorem allows_iff (hb : Protection bit) (ho : o < 4096) : Allows bit (v * 4096 + o) m ↔
    present (pte m v) ∧ bit (pte m v) ∧ Upper bit m v := by
  rw [Allows, allowsFrom_iff hb ho (show 3 + 0 = 3 from rfl) (show m.node (path v 0) =
    some m.pml4 from rfl)]
  refine and_congr_right fun _ => and_congr_right fun _ => ?_
  exact ⟨fun h d hd => h d (Nat.zero_le _) hd, fun h k _ hk => h k hk⟩

/-- An address is its page and its offset. -/
theorem page_split (a : Nat) : a / 4096 * 4096 + a % 4096 = a := by omega

theorem allows_page (hb : Protection bit) (a : Nat) : Allows bit a m ↔
    present (pte m (a / 4096)) ∧ bit (pte m (a / 4096)) ∧ Upper bit m (a / 4096) := by
  rw [← allows_iff hb (Nat.mod_lt a (by omega)), page_split]

theorem Spread.upper_iff (h : Spread m m') (hb : Protection bit) (w : Nat) :
    Upper bit m' w ↔ Upper bit m w :=
  ⟨h.upper bit w, h.opened bit hb.opened w⟩

end Allows

/-! ## Tables in order -/

/-- The page tables are in order: a tree of distinct tables in frames that are not free, with
`pml4[0]` present and 2 MB pages only below it. -/
structure Paged (m : Mach) : Prop where
  wf : Wf m
  low : present (m.mem m.pml4 0)
  high : ∀ v, pageIdx v 0 ≠ 0 → NoLarge m v

section Paged

variable {m m' : Mach} {v t : Nat}

/-- A 2 MB page is not made by adding tables. -/
theorem Spread.noLarge (h : Spread m m') (hnl : NoLarge m v) : NoLarge m' v := by
  intro t ht hp hl
  have hnone : m'.node (path v 3) = none := by
    rw [node_path_succ ht]
    exact next_of_large hl
  have hpte : present (Mem.pte m' v) := by
    rw [pte_of_directory hnone ht, if_pos hp]
    exact (splitEntry_present _ _).mpr hp
  rw [h.pte] at hpte
  obtain ⟨s, hs⟩ := Dense.small_of_noLarge (Or.inr hpte) hnl
  rw [h.node _ _ hs] at hnone
  exact absurd hnone (by simp)

theorem low_node (h : present (m.mem m.pml4 0)) : Low m :=
  ⟨_, (Radix.node_cons (R := tables) (by decide) rfl).trans
    (next_of_present (by decide) h (by simp))⟩

theorem Paged.spread (hm : Paged m) (h : Spread m m') : Paged m' where
  wf := h.wf
  low := Low.present ((low_node hm.low).imp fun t ht => h.node _ t ht)
  high v hv := h.noLarge (hm.high v hv)

theorem noLarge_leaf (hw : Wf m) (ht : m.node (path v 3) = some t) (i e : Nat) {w : Nat}
    (h : NoLarge m w) : NoLarge (poke t i e m) w := by
  intro s hs hp hl
  have hold : m.node (path w 2) = some s := (node_leaf hw.tree ht i e _).symm.trans hs
  rw [poke_frame _ _ _ (ne_leaf hw.tree ht (by omega) hold)] at hp hl
  exact h s hold hp hl

theorem Paged.leaf (hm : Paged m) (ht : m.node (path v 3) = some t) (e : Nat) :
    Paged (store t (pageIdx v 3) e m) where
  wf := wf_leaf hm.wf ht e
  low := by
    have hroot : m.node (path v 0) = some m.pml4 := rfl
    rw [store_mem, store_pml4, poke_frame _ _ _ (ne_leaf hm.wf.tree ht (by omega) hroot)]
    exact hm.low
  high w hw := noLarge_leaf hm.wf ht (pageIdx v 3) e (hm.high w hw)

/-- Only the entry of the page changes. -/
theorem pte_leaf_mod (hw : Wf m) (ht : m.node (path v 3) = some t) (e w : Nat) :
    pte (store t (pageIdx v 3) e m) w = if w % 2 ^ 36 = v % 2 ^ 36 then e else pte m w := by
  have ht' : m.node (path (v % 2 ^ 36) 3) = some t := by rw [path_mod, ht]
  have hleaf := pte_leaf hw.tree ht' e (Nat.mod_lt v (by omega)) (Nat.mod_lt w (by omega))
  rw [pte_mod, pte_mod, pageIdx_mod] at hleaf
  exact hleaf

/-! ## The two steps of `vmm_map` -/

/-- The address lies in a 2 MB page, and there is no frame for the table that is to replace it. -/
def Stuck (v : Nat) (m : Mach) : Prop := ¬ NoLarge m v ∧ Short m

theorem noLarge_low {v : Nat} (h0 : pageIdx v 0 = 0) : NoLarge m (v % 2 ^ 27) ↔ NoLarge m v := by
  unfold NoLarge
  rw [path_low h0, pageIdx_low v (show 0 < 2 by omega)]

/-- **`split_large`**, of whatever 2 MB page, only adds tables. -/
theorem splitLarge_spread (hm : Paged m) (v : Nat) :
    Spread m (splitLarge (v * 4096) m).2 ∧
      (¬ Stuck v m → NoLarge (splitLarge (v * 4096) m).2 v) ∧
      (Stuck v m → (splitLarge (v * 4096) m).2.mem = m.mem ∧
        (splitLarge (v * 4096) m).2.starved = true) := by
  rw [splitLarge_low]
  have hlt : v % 2 ^ 27 < 2 ^ 27 := Nat.mod_lt v (by omega)
  rcases splitLarge_grow hm.wf hlt hm.low with ⟨hstarved, -, hshort, hspread, hmem⟩ |
    ⟨l, hgrow, hnl, hcase⟩
  · refine ⟨hspread, fun hok => ?_, fun _ => ⟨hmem, hstarved⟩⟩
    have hno : NoLarge m v := not_not.mp fun hbig => hok ⟨hbig, hshort⟩
    exact hspread.noLarge hno
  · have hafter : NoLarge (splitLarge (v % 2 ^ 27 * 4096) m).2 v := by
      by_cases h0 : pageIdx v 0 = 0
      · exact (noLarge_low h0).mp hnl
      · exact hgrow.spread.noLarge (hm.high v h0)
    refine ⟨hgrow.spread, fun _ => hafter, fun hstuck => ?_⟩
    -- a 2 MB page is split only with a frame that is not 0
    exfalso
    obtain ⟨hbig, hshort⟩ := hstuck
    have h0 : pageIdx v 0 = 0 := not_not.mp fun h => hbig (hm.high v h)
    rcases hcase with ⟨-, hno⟩ | ⟨n, rfl, -, -⟩
    · exact hbig ((noLarge_low h0).mp hno)
    · have hn : n = 0 := hshort n _ hgrow.supply
      exact hgrow.wf.nonnull n ((hgrow.table n).mpr (Or.inr (by simp))) hn

/-- **`vmm_map`**, unless the 2 MB page of the address could not be split: tables are added, and
then the entry of the page is written, or an allocation has failed. -/
theorem vmmMap_spread (hm : Paged m) {v : Nat} (hok : ¬ Stuck v m) (phys flags : Nat) :
    ∃ mg, Spread m mg ∧ ((vmmMap (v * 4096) phys flags m = mg ∧ mg.starved = true) ∨
      ∃ t, mg.node (path v 3) = some t ∧
        vmmMap (v * 4096) phys flags m = store t (pageIdx v 3) (leafEntry phys flags) mg) := by
  obtain ⟨hsplit, hnl, -⟩ := splitLarge_spread hm v
  obtain ⟨ms, hms⟩ : ∃ ms, (splitLarge (v * 4096) m).2 = ms := ⟨_, rfl⟩
  rw [hms] at hsplit hnl
  obtain ⟨r, hr⟩ : ∃ r, walkFrom (v * 4096) true 3 ms.pml4 ms = r := ⟨_, rfl⟩
  have hrun : vmmMap (v * 4096) phys flags m =
      if r.1 = 0 then r.2 else store r.1 (pageIdx v 3) (leafEntry phys flags) r.2 := by
    rw [← hr, ← hms, ← tableIdx_zero v (show 0 + 3 = 3 from rfl)]
    rfl
  rcases walkFrom_grow (show 3 + 0 = 3 from rfl) hsplit.wf
    (show ms.node (path v 0) = some ms.pml4 from rfl) (hnl hok) with
    ⟨h0, hspread, hstarved, -⟩ | ⟨l, hgrow, hnode, -⟩
  · rw [hr] at h0 hspread hstarved
    rw [if_pos h0] at hrun
    exact ⟨r.2, hsplit.trans hspread, Or.inl ⟨hrun, hstarved⟩⟩
  · rw [hr] at hgrow hnode
    rw [if_neg (hgrow.wf.nonnull _ ⟨_, hnode⟩)] at hrun
    exact ⟨r.2, hsplit.trans hgrow.spread, Or.inr ⟨r.1, hnode, hrun⟩⟩

theorem Paged.take (hm : Paged m) (f : Nat) : Paged { m with pmm := m.pmm.take f } where
  wf := hm.wf.take f
  low := hm.low
  high := hm.high

/-- The tables stay in order. -/
theorem Paged.map (hm : Paged m) {v : Nat} (hok : ¬ Stuck v m) (phys flags : Nat) :
    Paged (vmmMap (v * 4096) phys flags m) := by
  obtain ⟨mg, hspread, ⟨hrun, -⟩ | ⟨t, ht, hrun⟩⟩ := vmmMap_spread hm hok phys flags
  · rw [hrun]
    exact hm.spread hspread
  · rw [hrun]
    exact (hm.spread hspread).leaf ht _

/-- Below 512 GB: the page gets its table and its entry, or it is not mapped and no frame is left.
-/
theorem vmmMap_low (hm : Paged m) {v : Nat} (hv : v < 2 ^ 27) (hok : ¬ Stuck v m)
    (hnull : 0 ∉ supply m.pmm)
    (phys flags : Nat) :
    (∃ l t mg, Grow l m mg ∧ mg.node (path v 3) = some t ∧
      vmmMap (v * 4096) phys flags m = store t (pageIdx v 3) (leafEntry phys flags) mg) ∨
    (Spread m (vmmMap (v * 4096) phys flags m) ∧ supply (vmmMap (v * 4096) phys flags m).pmm = [] ∧
      ¬ present (pte m v)) := by
  obtain ⟨ms, hms⟩ : ∃ ms, (splitLarge (v * 4096) m).2 = ms := ⟨_, rfl⟩
  obtain ⟨r, hr⟩ : ∃ r, walkFrom (v * 4096) true 3 ms.pml4 ms = r := ⟨_, rfl⟩
  have hrun : vmmMap (v * 4096) phys flags m =
      if r.1 = 0 then r.2 else store r.1 (pageIdx v 3) (leafEntry phys flags) r.2 := by
    rw [← hr, ← hms, ← tableIdx_zero v (show 0 + 3 = 3 from rfl)]
    rfl
  rcases splitLarge_grow hm.wf hv hm.low with ⟨-, hbig, hshort, -, -⟩ | ⟨l, hgrow, hnl, -⟩
  · exact absurd ⟨hbig, hshort⟩ hok
  · rw [hms] at hgrow hnl
    rcases walkFrom_grow (show 3 + 0 = 3 from rfl) hgrow.wf
      (show ms.node (path v 0) = some ms.pml4 from rfl) hnl with
      ⟨h0, hspread, -, hno, hempty⟩ | ⟨l', hgrow', hnode, -⟩
    · right
      rw [hr] at h0 hspread hempty
      rw [if_pos h0] at hrun
      rw [hrun]
      refine ⟨hgrow.spread.trans hspread, hempty fun hin => hnull (hgrow.spread.left 0 hin),
        fun hp => ?_⟩
      have hdense : Dense ms v := by
        right
        rw [hgrow.pte]
        exact hp
      exact hno (hdense.small_of_noLarge hnl)
    · left
      rw [hr] at hgrow' hnode
      rw [if_neg (hgrow'.wf.nonnull _ ⟨_, hnode⟩)] at hrun
      exact ⟨_, r.1, r.2, hgrow.trans hgrow', hnode, hrun⟩

end Paged

/-! ## The mapping and the rest -/

/-- The page of `virt` is mapped to the page of `phys`. -/
def Established (virt phys : Nat) (m : Mach) : Prop :=
  ∀ o < 4096, vmmPhys (virt / 4096 * 4096 + o) m = phys / 4096 * 4096 + o

theorem established_iff {virt phys : Nat} {m : Mach} : Established virt phys m ↔
    present (pte m (virt / 4096)) ∧ pte m (virt / 4096) / 4096 = phys / 4096 := by
  constructor
  · intro h
    have hone := h 1 (by omega)
    rw [vmmPhys_eq m _ (by omega)] at hone
    split at hone
    · next hp => exact ⟨hp, by omega⟩
    · omega
  · intro ⟨hp, hf⟩ o ho
    rw [vmmPhys_eq m _ ho, if_pos hp, hf]

theorem vmmPhys_congr {m m' : Mach} {a : Nat} (h : pte m' (a / 4096) = pte m (a / 4096)) :
    vmmPhys a m' = vmmPhys a m := by
  have ha := page_split a
  rw [← ha, vmmPhys_eq m' _ (Nat.mod_lt a (by omega)), vmmPhys_eq m _ (Nat.mod_lt a (by omega)), h]

theorem established_leaf {m : Mach} (hw : Wf m) {virt t : Nat}
    (ht : m.node (path (virt / 4096) 3) = some t)
    (phys flags : Nat) :
    Established virt phys (store t (pageIdx (virt / 4096) 3) (leafEntry phys flags) m) := by
  rw [established_iff, pte_leaf_mod hw ht, if_pos rfl]
  exact ⟨leafEntry_present _ _, leafEntry_frame _ _⟩

theorem Boot.paged (b : Boot) : Paged b.mach where
  wf := b.wf
  low := (boot_low b).present
  high v hv t ht := by
    exfalso
    have hlen := path_length v 2
    rcases boot_node ht with ⟨hp, -⟩ | ⟨hp, -⟩ | ⟨i, -, hp, -⟩
    · rw [hp] at hlen
      simp at hlen
    · rw [hp] at hlen
      simp at hlen
    · exact hv (List.cons.inj (List.cons.inj hp).2).1

/-- An allocator with a free frame does not fail when frame 0 is in use. -/
theorem not_short {m : Mach} (hok : PmmOk m.pmm) (h0 : m.pmm.used 0 = true) {f : Nat}
    (hf : f < 262144)
    (hfree : m.pmm.used f = false) : ¬ Short m := by
  intro hshort
  have hin : f ∈ supply m.pmm := (mem_supply hok).mpr ⟨hf, hfree⟩
  cases hs : supply m.pmm with
  | nil =>
    rw [hs] at hin
    exact absurd hin (by simp)
  | cons n l =>
    have hnull : 0 ∈ supply m.pmm := by
      rw [hs, hshort n l hs]
      exact List.mem_cons_self
    rw [((mem_supply hok).mp hnull).2] at h0
    exact absurd h0 (by simp)

theorem neighbours_not_short : ¬ Short neighbours.mach :=
  not_short neighbours.pmm_spec.1 neighbours.pmm_spec.2.1 (show 0x200 < 262144 by omega)
    (sample_free (by decide) (by decide))

end InaneOS.Mem
