import InaneOS.Mem.Grow

/-!
# Mapping a page

`vmm_map` splits the 2 MB page the address lies in, walks down to the page table
creating what is missing, and writes the entry. The two first steps only add tables
(`splitLarge_grow`, `walkFrom_grow`); `vmmMap_grow` puts them together, and says how
many frames the tables take: none when the page has a page table already, one when it
is part of a 2 MB page.

`walk` does not look at bit 0x80, so it must not meet a 2 MB page. That it does not is
what `split_large` is for, and holds as long as no allocation fails.
-/

namespace InaneOS.Mem

open InaneOS.Lib

/-- The directory entry of page `v`, if there is one, is no 2 MB page. -/
def NoLarge (m : Mach) (v : Nat) : Prop :=
  ∀ t, m.node (path v 2) = some t → present (m.mem t (pageIdx v 2)) →
    ¬ large (m.mem t (pageIdx v 2))

theorem noLarge_of_small {m : Mach} {v : Nat} (h : Small m v) : NoLarge m v := by
  intro t ht hp hl
  obtain ⟨s, hs⟩ := h
  rw [node_path_succ ht, next_of_large hl] at hs
  exact absurd hs (by simp)

/-- **Splitting a 2 MB page** adds one table. -/
theorem splitTable_grow {m : Mach} (hw : Wf m) {v pd : Nat} (hpd : m.node (path v 2) = some pd)
    (hp : present (m.mem pd (pageIdx v 2))) (hl : large (m.mem pd (pageIdx v 2))) :
    (Spread m (splitTable pd (pageIdx v 2) m).2 ∧ (splitTable pd (pageIdx v 2) m).2.mem = m.mem ∧
      (splitTable pd (pageIdx v 2) m).2.starved = true ∧ Short m) ∨
    ∃ n, Grow [n] m (splitTable pd (pageIdx v 2) m).2 ∧
      Small (splitTable pd (pageIdx v 2) m).2 v := by
  rcases tableAlloc_spec hw with ⟨h0, -, -⟩ | ⟨n, l, hs, hn, h0, hf⟩
  · left
    unfold splitTable
    dsimp only
    rw [if_pos h0]
    obtain ⟨hspread, hmem, hstarved, hshort, -⟩ := tableAlloc_fail hw h0
    exact ⟨hspread, hmem, hstarved, hshort⟩
  · right
    have hnt : ¬ IsTable m n := hw.supply_not_table (by rw [hs]; exact List.mem_cons_self)
    have hpdn : pd ≠ n := fun he => hnt ⟨path v 2, by rw [← he]; exact hpd⟩
    have hrun : (splitTable pd (pageIdx v 2) m).2 = store pd (pageIdx v 2) (openEntry n)
        (fillLoop (splitEntry (m.mem pd (pageIdx v 2))) n 512 0 (tableAlloc m).2) := by
      unfold splitTable ptEntries
      dsimp only
      rw [h0, if_neg hn, hf.mem pd hpdn]
    have hun : tables.next (path v 2).length (m.mem pd (pageIdx v 2)) = none := by
      rw [path_length]
      exact next_of_large hl
    have hgrow := grow_hang hw hpd (pageIdx_lt v 2) (by rw [path_length]; omega) hun hs hn
      (hf.fill hnt (splitEntry (m.mem pd (pageIdx v 2))))
      (fun j _ => by rw [path_length]; exact next_leaf (Nat.le_refl 3))
      (fun w hw3 => ?_) (fun w hw2 => ?_)
    · rw [hrun]
      exact ⟨n, hgrow.1, n, hgrow.2.1⟩
    · -- the pages of the block had the entries of the 2 MB page
      obtain ⟨hidx, hpath⟩ := List.cons.inj hw3
      have hpdw : m.node (path w 2) = some pd := hpath ▸ hpd
      have h3 : m.node (path w 3) = none := by
        rw [node_path_succ hpdw, hidx]
        exact next_of_large hl
      rw [pte_of_directory h3 hpdw, hidx, if_pos hp, pageIdx_three]
    · have hlen := congrArg List.length hw2
      rw [List.length_cons, path_length, path_length] at hlen
      omega

section SplitLarge

variable {m : Mach} {virt pdpt pd : Nat}

/-- The reads of `pml4[0]` and of the entry behind it. -/
def splitReads (virt pdpt : Nat) (m : Mach) : Mach :=
  touch (pdpt * 4096 + 8 * tableIdx 2 virt) (touch (m.pml4 * 4096 + 8 * 0) m)

theorem splitLarge_absent (h0 : m.mem m.pml4 0 / 4096 = pdpt)
    (hp : ¬ present (m.mem pdpt (tableIdx 2 virt))) :
    splitLarge virt m = (-1, splitReads virt pdpt m) := by
  subst h0
  exact if_pos hp

theorem splitLarge_small (h0 : m.mem m.pml4 0 / 4096 = pdpt)
    (hp : present (m.mem pdpt (tableIdx 2 virt))) (h1 : m.mem pdpt (tableIdx 2 virt) / 4096 = pd)
    (hs : ¬ present (m.mem pd (tableIdx 1 virt)) ∨ ¬ large (m.mem pd (tableIdx 1 virt))) :
    splitLarge virt m = (0, touch (pd * 4096 + 8 * tableIdx 1 virt) (splitReads virt pdpt m)) := by
  subst h0 h1
  exact (if_neg (not_not.mpr hp)).trans (if_pos hs)

theorem splitLarge_split (h0 : m.mem m.pml4 0 / 4096 = pdpt)
    (hp : present (m.mem pdpt (tableIdx 2 virt))) (h1 : m.mem pdpt (tableIdx 2 virt) / 4096 = pd)
    (hs : ¬ (¬ present (m.mem pd (tableIdx 1 virt)) ∨ ¬ large (m.mem pd (tableIdx 1 virt)))) :
    splitLarge virt m = splitTable pd (tableIdx 1 virt)
      (touch (pd * 4096 + 8 * tableIdx 1 virt) (splitReads virt pdpt m)) := by
  subst h0 h1
  exact (if_neg (not_not.mpr hp)).trans (if_neg hs)

end SplitLarge

/-- **`split_large`** for a page below 512 GB. -/
theorem splitLarge_grow {m : Mach} (hw : Wf m) {v : Nat} (hv : v < 2 ^ 27)
    (hlow : present (m.mem m.pml4 0)) :
    ((splitLarge (v * 4096) m).2.starved = true ∧ ¬ NoLarge m v ∧ Short m ∧
      Spread m (splitLarge (v * 4096) m).2 ∧ (splitLarge (v * 4096) m).2.mem = m.mem) ∨
    ∃ l, Grow l m (splitLarge (v * 4096) m).2 ∧ NoLarge (splitLarge (v * 4096) m).2 v ∧
      ((l = [] ∧ NoLarge m v) ∨
        ∃ n, l = [n] ∧ ¬ Small m v ∧ Small (splitLarge (v * 4096) m).2 v) := by
  have hidx0 : pageIdx v 0 = 0 := by
    rw [pageIdx]
    omega
  have hidx1 := tableIdx_zero v (show 2 + 1 = 3 from rfl)
  have hidx2 := tableIdx_zero v (show 1 + 2 = 3 from rfl)
  have h0 : m.node (path v 0) = some m.pml4 := rfl
  obtain ⟨pdpt, hpdpt⟩ : ∃ pdpt, m.mem m.pml4 0 / 4096 = pdpt := ⟨_, rfl⟩
  have h1 := node_path_succ h0
  rw [hidx0, next_of_present (by omega) hlow (by omega), hpdpt] at h1
  have h2 := node_path_succ h1
  have hg1 : Grow [] m (splitReads (v * 4096) pdpt m) := by
    have hg0 : Grow [] m (touch (m.pml4 * 4096 + 8 * 0) m) := grow_touch hw ⟨_, h0⟩ (by omega)
    rw [splitReads, hidx1]
    exact hg0.trans (grow_touch hg0.wf ⟨_, h1⟩ (pageIdx_lt v 1))
  by_cases hp1 : present (m.mem pdpt (pageIdx v 1))
  · obtain ⟨pd, hpd⟩ : ∃ pd, m.mem pdpt (pageIdx v 1) / 4096 = pd := ⟨_, rfl⟩
    rw [next_of_present (by omega) hp1 (by omega), hpd] at h2
    have hg2 := hg1.trans (grow_touch hg1.wf ⟨_, h2⟩ (pageIdx_lt v 2))
    rw [← hidx1] at hp1 hpd
    by_cases hsmall : ¬ present (m.mem pd (pageIdx v 2)) ∨ ¬ large (m.mem pd (pageIdx v 2))
    · rw [splitLarge_small hpdpt hp1 hpd (by rw [hidx2]; exact hsmall), hidx2]
      have hnl : NoLarge m v := by
        intro t ht hp hl
        have htpd : t = pd := Option.some.inj (ht.symm.trans h2)
        rw [htpd] at hp hl
        exact hsmall.elim (fun h => h hp) fun h => h hl
      exact Or.inr ⟨[], hg2, hnl, Or.inl ⟨rfl, hnl⟩⟩
    · obtain ⟨hp, hl⟩ := not_or.mp hsmall
      have hbig : ¬ NoLarge m v := fun hold => hold pd h2 (not_not.mp hp) (not_not.mp hl)
      have hno : ¬ Small m v := fun hold => hbig (noLarge_of_small hold)
      rw [splitLarge_split hpdpt hp1 hpd (by rw [hidx2]; exact hsmall), hidx2]
      rcases splitTable_grow hg2.wf h2 (not_not.mp hp) (not_not.mp hl) with
        ⟨hspread, hmem, hstarved, hshort⟩ | ⟨n, hgrow, hsm⟩
      · exact Or.inl ⟨hstarved, hbig, hshort, hg2.spread.trans hspread, hmem⟩
      · exact Or.inr ⟨[n], hg2.trans hgrow, noLarge_of_small hsm, Or.inr ⟨n, rfl, hno, hsm⟩⟩
  · rw [next_of_not_present hp1] at h2
    rw [splitLarge_absent hpdpt (by rw [hidx1]; exact hp1)]
    have hnl : NoLarge m v := fun t ht => absurd (ht.symm.trans h2) (by simp)
    exact Or.inr ⟨[], hg1, hnl, Or.inl ⟨rfl, hnl⟩⟩

/-! ## Walking -/

theorem tableAlloc_starved {m : Mach} (h : m.starved = true) : (tableAlloc m).2.starved = true := by
  unfold tableAlloc
  dsimp only
  split
  · rfl
  · rw [fillLoop_starved]
    exact h

theorem walkFrom_starved (virt : Nat) (create : Bool) : ∀ (level t : Nat) {m : Mach},
    m.starved = true → (walkFrom virt create level t m).2.starved = true
  | 0, _, _, h => h
  | level + 1, t, m, h => by
    rw [walkFrom]
    dsimp only
    split
    · exact walkFrom_starved virt create level _ h
    · split
      · exact h
      · split
        · exact tableAlloc_starved h
        · exact walkFrom_starved virt create level _ (tableAlloc_starved h)

section Walk

variable {m : Mach} {virt t level : Nat}

theorem walkFrom_down (hp : present (m.mem t (tableIdx (level + 1) virt))) :
    walkFrom virt true (level + 1) t m = walkFrom virt true level
      (m.mem t (tableIdx (level + 1) virt) / 4096)
        (touch (t * 4096 + 8 * tableIdx (level + 1) virt) m) :=
  if_pos hp

/-- The state behind the creation of a table. -/
def created (virt level t : Nat) (m : Mach) : Mach :=
  store t (tableIdx (level + 1) virt)
    (openEntry (tableAlloc (touch (t * 4096 + 8 * tableIdx (level + 1) virt) m)).1)
    (tableAlloc (touch (t * 4096 + 8 * tableIdx (level + 1) virt) m)).2

theorem walkFrom_fail (hp : ¬ present (m.mem t (tableIdx (level + 1) virt)))
    (h0 : (tableAlloc (touch (t * 4096 + 8 * tableIdx (level + 1) virt) m)).1 = 0) :
    walkFrom virt true (level + 1) t m =
      (0, (tableAlloc (touch (t * 4096 + 8 * tableIdx (level + 1) virt) m)).2) :=
  (if_neg hp).trans ((if_neg (by simp)).trans (if_pos h0))

theorem walkFrom_create (hp : ¬ present (m.mem t (tableIdx (level + 1) virt)))
    (h0 : (tableAlloc (touch (t * 4096 + 8 * tableIdx (level + 1) virt) m)).1 ≠ 0) :
    walkFrom virt true (level + 1) t m = walkFrom virt true level
      (tableAlloc (touch (t * 4096 + 8 * tableIdx (level + 1) virt) m)).1
        (created virt level t m) := by
  have hback : (created virt level t m).mem t (tableIdx (level + 1) virt) / 4096 =
      (tableAlloc (touch (t * 4096 + 8 * tableIdx (level + 1) virt) m)).1 := by
    rw [created, store_mem, poke_same, openEntry_frame]
  rw [← hback]
  exact (if_neg hp).trans ((if_neg (by simp)).trans (if_neg h0))

end Walk

/-- An empty table hung at depth `d + 1` on the way to `v` has no 2 MB page below it. -/
theorem noLarge_of_empty {m : Mach} {v d n : Nat} (hd : d < 3)
    (h : m.node (path v (d + 1)) = some n)
    (hrow : ∀ j < 512, m.mem n j = 0) : NoLarge m v := by
  have hidx : ∀ k, ¬ present (m.mem n (pageIdx v k)) := fun k => by
    rw [hrow _ (pageIdx_lt v k)]
    exact zero_not_present
  intro t ht hp
  match d, hd with
  | 0, _ =>
    rw [node_path_succ h, next_of_not_present (hidx 1)] at ht
    exact absurd ht (by simp)
  | 1, _ =>
    rw [Option.some.inj (ht.symm.trans h)] at hp
    exact absurd hp (hidx 2)
  | 2, _ => exact noLarge_of_small ⟨n, h⟩ t ht hp

/-- **One level of `walk`**: the entry leads on, no frame is to be had for a table, or a table is
hung below the entry. -/
theorem walkFrom_step {m : Mach} {v level d t : Nat} (hd : level + 1 + d = 3) (hw : Wf m)
    (ht : m.node (path v d) = some t) (hnl : NoLarge m v) :
    (∃ s, m.node (path v (d + 1)) = some s ∧ walkFrom (v * 4096) true (level + 1) t m =
      walkFrom (v * 4096) true level s (touch (t * 4096 + 8 * pageIdx v d) m)) ∨
    (m.node (path v (d + 1)) = none ∧ (tableAlloc (touch (t * 4096 + 8 * pageIdx v d) m)).1 = 0 ∧
      walkFrom (v * 4096) true (level + 1) t m =
        (0, (tableAlloc (touch (t * 4096 + 8 * pageIdx v d) m)).2)) ∨
    ∃ n m', m.node (path v (d + 1)) = none ∧ Grow [n] m m' ∧ m'.node (path v (d + 1)) = some n ∧
      NoLarge m' v ∧ walkFrom (v * 4096) true (level + 1) t m = walkFrom (v * 4096)
        true level n m' := by
  have hidx := tableIdx_zero v hd
  have hg := grow_touch hw ⟨_, ht⟩ (pageIdx_lt v d)
  have hstep := node_path_succ ht
  by_cases hp : present (m.mem t (pageIdx v d))
  · left
    have hlarge : ¬ (d = 2 ∧ large (m.mem t (pageIdx v d))) := by
      intro hboth
      obtain ⟨rfl, hl⟩ := hboth
      exact hnl t ht hp hl
    rw [next_of_present (by omega) hp hlarge] at hstep
    refine ⟨_, hstep, ?_⟩
    rw [walkFrom_down (by rw [hidx]; exact hp), hidx]
  · right
    rw [next_of_not_present hp] at hstep
    rcases tableAlloc_spec hg.wf with ⟨h0, -, -⟩ | ⟨n, l, hs, hn, h0, hf⟩
    · left
      refine ⟨hstep, h0, ?_⟩
      rw [walkFrom_fail (by rw [hidx]; exact hp) (by rw [hidx]; exact h0), hidx]
    · right
      have hun : tables.next (path v d).length (m.mem t (pageIdx v d)) = none :=
        next_of_not_present hp
      have hhang := grow_hang hg.wf ht (pageIdx_lt v d) (by rw [path_length]; omega) hun hs hn hf
        (fun _ _ => next_of_not_present zero_not_present) (fun w hw3 => ?_)
        (fun _ _ => zero_not_present)
      · have hrun : created (v * 4096) level t m = store t (pageIdx v d) (openEntry n)
            (tableAlloc (touch (t * 4096 + 8 * pageIdx v d) m)).2 := by
          rw [created, hidx, h0]
        obtain ⟨hgrow, hnode, hrow⟩ := hhang
        rw [← path] at hnode
        refine ⟨n, _, hstep, hg.trans hgrow, hnode, noLarge_of_empty (by omega) hnode hrow, ?_⟩
        rw [walkFrom_create (by rw [hidx]; exact hp) (by rw [hidx, h0]; exact hn), hrun, hidx, h0]
      · -- no page had an entry below the missing table
        have hlen := congrArg List.length hw3
        rw [List.length_cons, path_length, path_length] at hlen
        obtain ⟨hidx2, hpath⟩ := List.cons.inj hw3
        rw [show d = 2 by omega] at hpath hidx2 ht hp
        have htw : m.node (path w 2) = some t := hpath ▸ ht
        have hpw : ¬ present (m.mem t (pageIdx w 2)) := hidx2 ▸ hp
        have h3 : m.node (path w 3) = none := by
          rw [node_path_succ htw]
          exact next_of_not_present hpw
        have hpte : pte m w = 0 := by
          rw [pte_of_directory h3 htw, if_neg hpw]
        exact hpte.symm

/-- **`walk`** reaches the page table of `v`, creating what is missing on the way, or has no frame
for a table. -/
theorem walkFrom_grow {v : Nat} : ∀ {level d t : Nat} {m : Mach}, level + d = 3 → Wf m →
    m.node (path v d) = some t → NoLarge m v →
    ((walkFrom (v * 4096) true level t m).1 = 0 ∧ Spread m (walkFrom (v * 4096) true level t m).2 ∧
      (walkFrom (v * 4096) true level t m).2.starved = true ∧ ¬ Small m v ∧
      (0 ∉ supply m.pmm → supply (walkFrom (v * 4096) true level t m).2.pmm = [])) ∨
    ∃ l, Grow l m (walkFrom (v * 4096) true level t m).2 ∧
      (walkFrom (v * 4096) true level t m).2.node (path v 3) =
        some (walkFrom (v * 4096) true level t m).1 ∧ (Small m v → l = [])
  | 0, d, t, m, hd, hw, ht, _ => by
    rw [show d = 3 by omega] at ht
    exact Or.inr ⟨[], Grow.refl hw, ht, fun _ => rfl⟩
  | level + 1, d, t, m, hd, hw, ht, hnl => by
    have hg := grow_touch hw ⟨_, ht⟩ (pageIdx_lt v d)
    have hno : m.node (path v (d + 1)) = none → ¬ Small m v := by
      intro hnone ⟨s, hsm⟩
      rw [node_path_none_le hnone (by omega)] at hsm
      exact absurd hsm (by simp)
    rcases walkFrom_step hd hw ht hnl with ⟨s, hs, hrun⟩ | ⟨hnone, h0, hrun⟩ |
      ⟨n, m', hnone, hgrow, hn, hnl', hrun⟩
    · rw [hrun]
      rcases walkFrom_grow (show level + (d + 1) = 3 by omega) hg.wf hs hnl with
        ⟨hz, hspread, hrest⟩ | ⟨l, hgrow, hnode, hsmall⟩
      · exact Or.inl ⟨hz, hg.spread.trans hspread, hrest⟩
      · exact Or.inr ⟨l, hg.trans hgrow, hnode, hsmall⟩
    · rw [hrun]
      obtain ⟨hspread, -, hstarved, -, hempty⟩ := tableAlloc_fail hg.wf h0
      exact Or.inl ⟨rfl, hg.spread.trans hspread, hstarved, hno hnone, hempty⟩
    · rw [hrun]
      rcases walkFrom_grow (show level + (d + 1) = 3 by omega) hgrow.wf hn hnl' with
        ⟨hz, hspread, hstarved, -, hempty⟩ | ⟨l, hgrow', hnode, -⟩
      · exact Or.inl ⟨hz, hgrow.spread.trans hspread, hstarved, hno hnone,
          fun hnull => hempty fun hin => hnull (hgrow.spread.left 0 hin)⟩
      · exact Or.inr ⟨_, hgrow.trans hgrow', hnode, fun hsm => absurd hsm (hno hnone)⟩

/-! ## `vmm_map` -/

/-- The page has a page table or is part of a 2 MB page. -/
def Dense (m : Mach) (v : Nat) : Prop := Small m v ∨ present (pte m v)

theorem Dense.small_of_noLarge {m : Mach} {v : Nat} (h : Dense m v) (hnl : NoLarge m v) :
    Small m v := by
  refine h.elim id fun hp => ?_
  cases h3 : m.node (path v 3) with
  | some t => exact ⟨t, h3⟩
  | none =>
    exfalso
    cases h2 : m.node (path v 2) with
    | some t =>
      rw [pte_of_directory h3 h2] at hp
      split at hp
      · next he =>
        rw [node_path_succ h2, next_of_present (by omega) he fun hb => hnl t h2 he hb.2] at h3
        exact absurd h3 (by simp)
      · exact zero_not_present hp
    | none =>
      rw [pte_of_none h2] at hp
      exact zero_not_present hp

/-- **`vmm_map`**: a table allocation fails, or tables are added until the page has one, and then
its entry is written. -/
theorem vmmMap_grow {m : Mach} (hw : Wf m) {v : Nat} (hv : v < 2 ^ 27)
    (hlow : present (m.mem m.pml4 0)) (phys flags : Nat) :
    ((vmmMap (v * 4096) phys flags m).starved = true ∧ ¬ Small m v ∧ (Dense m v → Short m)) ∨
    ∃ l t mg, Grow l m mg ∧ mg.node (path v 3) = some t ∧
      vmmMap (v * 4096) phys flags m = store t (pageIdx v 3) (leafEntry phys flags) mg ∧
      (Small m v → l = []) ∧ (Dense m v → ¬ Small m v → ∃ n, l = [n]) := by
  obtain ⟨ms, hms⟩ : ∃ ms, (splitLarge (v * 4096) m).2 = ms := ⟨_, rfl⟩
  obtain ⟨r, hr⟩ : ∃ r, walkFrom (v * 4096) true 3 ms.pml4 ms = r := ⟨_, rfl⟩
  have hidx := tableIdx_zero v (show 0 + 3 = 3 from rfl)
  have hrun : vmmMap (v * 4096) phys flags m =
      if r.1 = 0 then r.2 else store r.1 (pageIdx v 3) (leafEntry phys flags) r.2 := by
    rw [← hr, ← hms, ← hidx]
    rfl
  have hstarved : r.2.starved = true → (vmmMap (v * 4096) phys flags m).starved = true := by
    intro h
    rw [hrun]
    split
    · exact h
    · exact h
  rcases splitLarge_grow hw hv hlow with ⟨hs, hbig, hshort, -, -⟩ | ⟨l₁, hg₁, hnl, hcase⟩
  · left
    rw [hms] at hs
    have hwalk := walkFrom_starved (v * 4096) true 3 ms.pml4 hs
    rw [hr] at hwalk
    exact ⟨hstarved hwalk, fun hsm => hbig (noLarge_of_small hsm), fun _ => hshort⟩
  · rw [hms] at hg₁ hnl hcase
    have hkeep : Small m v → Small ms v := fun ⟨t, ht⟩ => ⟨t, hg₁.node _ _ ht⟩
    -- behind `split_large` a page of a 2 MB page has a page table
    have hready : Dense m v → Small ms v := by
      intro hdense
      rcases hcase with ⟨-, hnlm⟩ | ⟨n, -, -, hsm⟩
      · exact hkeep (hdense.small_of_noLarge hnlm)
      · exact hsm
    rcases walkFrom_grow (show 3 + 0 = 3 from rfl) hg₁.wf
      (show ms.node (path v 0) = some ms.pml4 from rfl) hnl with
      ⟨-, -, hs, hno, -⟩ | ⟨l₂, hg₂, hnode, hsmall⟩
    · rw [hr] at hs
      exact Or.inl ⟨hstarved hs, fun hsm => hno (hkeep hsm), fun hd => absurd (hready hd) hno⟩
    · rw [hr] at hg₂ hnode
      refine Or.inr ⟨l₁ ++ l₂, r.1, r.2, hg₁.trans hg₂, hnode, ?_, fun hsm => ?_, fun hd hnsm => ?_⟩
      · rw [hrun, if_neg (hg₂.wf.nonnull _ ⟨_, hnode⟩)]
      · rcases hcase with ⟨h1, -⟩ | ⟨n, -, hno, -⟩
        · rw [h1, hsmall (hkeep hsm)]
          rfl
        · exact absurd hsm hno
      · rcases hcase with ⟨-, hnlm⟩ | ⟨n, h1, -, hsm⟩
        · exact absurd (hd.small_of_noLarge hnlm) hnsm
        · exact ⟨n, by rw [h1, hsmall hsm]; rfl⟩

theorem splitLarge_starved {m : Mach} (virt : Nat) (h : m.starved = true) :
    (splitLarge virt m).2.starved = true := by
  unfold splitLarge splitTable
  dsimp only
  split
  · exact h
  · split
    · exact h
    · split
      · exact tableAlloc_starved h
      · rw [store_starved, fillLoop_starved]
        exact tableAlloc_starved h

/-- A table allocation that failed in the split is seen behind the call. -/
theorem vmmMap_starved_split {m : Mach} (virt phys flags : Nat)
    (h : (splitLarge virt m).2.starved = true) : (vmmMap virt phys flags m).starved = true := by
  have hwalk := walkFrom_starved virt true 3 (splitLarge virt m).2.pml4 h
  unfold vmmMap walk
  dsimp only
  split
  · exact hwalk
  · exact hwalk

theorem vmmMap_starved {m : Mach} (virt phys flags : Nat) (h : m.starved = true) :
    (vmmMap virt phys flags m).starved = true :=
  vmmMap_starved_split virt phys flags (splitLarge_starved virt h)

end InaneOS.Mem
