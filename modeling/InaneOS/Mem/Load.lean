import InaneOS.Mem.Unmap
import InaneOS.Mem.Elf

/-!
# What a load leaves behind

`Load I m₁ ms l sp m` describes every state `m` on the way of `enter_program` from the
state `m₁` behind `vmm_unmap_range`: the mappings `ms` were made (newest first), each
to a frame of its own from the allocator, page tables were added in the frames `l`,
and the frames `sp` were taken but are not mapped. Everything else is as in `m₁`: no
other page is mapped differently, no page that was not mapped here is more accessible,
and no frame is written but the tables and the frames of the program. In particular the
image, whose frames are `I`, stays.

`Load.take` (a frame is taken), `Load.tables` (tables are added), `Load.leaf` (a page is
mapped to the frame), `Load.byte` (one byte written to a page of the program) and
`Load.look` (one byte of the image read) are its steps.
-/

namespace InaneOS.Mem

open InaneOS.Lib

/-- `vmm_map(page, frame, flags)` was called. -/
structure Mapping where
  page : Nat
  frame : Nat
  flags : Nat

def frames (ms : List Mapping) : List Nat := ms.map Mapping.frame
def pages (ms : List Mapping) : List Nat := ms.map Mapping.page

/-- The entry that the newest mapping of a page left. -/
def entryOf (ms : List Mapping) (w : Nat) : Option Nat :=
  (ms.find? fun x => x.page = w).map fun x => leafEntry (x.frame * 4096) x.flags

theorem entryOf_cons (x : Mapping) (ms : List Mapping) (w : Nat) :
    entryOf (x :: ms) w =
      if x.page = w then some (leafEntry (x.frame * 4096) x.flags) else entryOf ms w := by
  unfold entryOf
  by_cases h : x.page = w
  · rw [if_pos h, List.find?_cons_of_pos (by simpa using h)]
    rfl
  · rw [if_neg h, List.find?_cons_of_neg (by simpa using h)]

theorem entryOf_some {ms : List Mapping} {w e : Nat} (h : entryOf ms w = some e) :
    ∃ x ∈ ms, x.page = w ∧ leafEntry (x.frame * 4096) x.flags = e := by
  obtain ⟨x, hx, he⟩ := Option.map_eq_some_iff.mp h
  exact ⟨x, List.mem_of_find?_eq_some hx, by simpa using List.find?_some hx, he⟩

theorem entryOf_none {ms : List Mapping} {w : Nat} (h : w ∉ pages ms) : entryOf ms w = none := by
  unfold entryOf
  rw [List.find?_eq_none.mpr, Option.map_none]
  intro x hx hw
  exact h (List.mem_map.mpr ⟨x, hx, by simpa using hw⟩)

theorem entryOf_isSome {ms : List Mapping} {w : Nat} (h : w ∈ pages ms) :
    ∃ e, entryOf ms w = some e := by
  cases he : entryOf ms w with
  | some e => exact ⟨e, rfl⟩
  | none =>
    obtain ⟨x, hx, hw⟩ := List.mem_map.mp h
    have hnone := List.find?_eq_none.mp (Option.map_eq_none_iff.mp he) x hx
    exact absurd hw (by simpa using hnone)

/-- When no page is mapped twice, every mapping is the newest of its page. -/
theorem entryOf_of_nodup : ∀ {ms : List Mapping}, (pages ms).Nodup → ∀ {x : Mapping}, x ∈ ms →
    entryOf ms x.page = some (leafEntry (x.frame * 4096) x.flags)
  | [], _, _, hx => absurd hx (by simp)
  | y :: ms, hnd, x, hx => by
    obtain ⟨hy, hnd⟩ := List.nodup_cons.mp hnd
    rw [entryOf_cons]
    rcases List.mem_cons.mp hx with rfl | hx
    · rw [if_pos rfl]
    · rw [if_neg fun he => hy (List.mem_map.mpr ⟨x, hx, he.symm⟩)]
      exact entryOf_of_nodup hnd hx

/-- A state on the way of a load that began in `m₁`. -/
structure Load (I : Nat → Prop) (m₁ : Mach) (ms : List Mapping) (l sp : List Nat) (m : Mach) :
    Prop where
  wf : Wf m
  pml4 : m.pml4 = m₁.pml4
  node : ∀ p f, m₁.node p = some f → m.node p = some f
  table : ∀ f, IsTable m f ↔ IsTable m₁ f ∨ f ∈ l
  supply : ∃ ts, supply m₁.pmm = ts ++ supply m.pmm ∧
    ts.length = l.length + (ms.length + sp.length) ∧ ∀ f, f ∈ ts ↔ f ∈ l ∨ f ∈ frames ms ∨ f ∈ sp
  used : ∀ f, m.pmm.used f = true ↔ m₁.pmm.used f = true ∨ f ∈ l ∨ f ∈ frames ms ∨ f ∈ sp
  apart : ∀ f ∈ l, f ∉ frames ms ∧ f ∉ sp
  nonnull : ∀ f, f ∈ frames ms ∨ f ∈ sp → f ≠ 0
  small : ∀ x ∈ ms, Small m x.page
  pte : ∀ w < 2 ^ 36, pte m w = (entryOf ms w).getD (pte m₁ w)
  upper : ∀ (bit : Nat → Prop) w, Upper bit m w → Upper bit m₁ w
  opened : ∀ bit : Nat → Prop, (∀ f, bit (openEntry f)) → ∀ w, Upper bit m₁ w → Upper bit m w
  mem : ∀ f, ¬ IsTable m f → f ∉ frames ms → m.mem f = m₁.mem f
  starved : m.starved = m₁.starved
  calm : (∀ f, IsTable m f ∨ f ∈ frames ms ∨ I f → f < 2 ^ 36 ∧ Steady m₁ f ∧ f ∉ pages ms) →
    m.strayed = m₁.strayed

section Leaf

variable {m : Mach} {v t : Nat}

/-- Writing the entry of a page keeps the tables. -/
theorem wf_leaf (hw : Wf m) (ht : m.node (path v 3) = some t) (e : Nat) :
    Wf (store t (pageIdx v 3) e m) := by
  have hnode : ∀ p, (store t (pageIdx v 3) e m).node p = m.node p :=
    node_leaf hw.tree ht (pageIdx v 3) e
  have htable : ∀ {f}, IsTable (store t (pageIdx v 3) e m) f → IsTable m f := fun ⟨p, hp⟩ =>
    ⟨p, (hnode p).symm.trans hp⟩
  exact ⟨hw.tree.congr hnode, fun f hf => hw.used f (htable hf),
    fun f hf => hw.nonnull f (htable hf),
    hw.pmm⟩

theorem Wf.take (hw : Wf m) (f : Nat) : Wf { m with pmm := m.pmm.take f } where
  tree := hw.tree
  used g hg hlt := by
    show (m.pmm.take f).used g = true
    rw [take_used, hw.used g hg hlt, Bool.or_true]
  nonnull := hw.nonnull
  pmm := take_ok hw.pmm f

end Leaf

namespace Load

variable {I : Nat → Prop} {m₁ m : Mach} {ms : List Mapping} {l sp : List Nat}

theorem refl (hw : Wf m) : Load I m [] [] [] m where
  wf := hw
  pml4 := rfl
  node _ _ hp := hp
  table f := by simp
  supply := ⟨[], rfl, rfl, fun f => by simp [frames]⟩
  used f := by simp [frames]
  apart f hf := absurd hf (by simp)
  nonnull f hf := absurd hf (by simp [frames])
  small x hx := absurd hx (by simp)
  pte w _ := rfl
  upper _ _ hu := hu
  opened _ _ _ hu := hu
  mem _ _ _ := rfl
  starved := rfl
  calm _ := rfl

/-- A frame that was taken was free. -/
theorem taken_free (h : Load I m₁ ms l sp m) (hw : Wf m₁) {f : Nat}
    (hf : f ∈ l ∨ f ∈ frames ms ∨ f ∈ sp) : f < 262144 ∧ m₁.pmm.used f = false := by
  obtain ⟨ts, hs, -, hts⟩ := h.supply
  refine (mem_supply hw.pmm).mp ?_
  rw [hs]
  exact List.mem_append_left _ ((hts f).mpr hf)

/-- The frames a load took are all different. -/
theorem frames_nodup (h : Load I m₁ ms l sp m) : (frames ms).Nodup := by
  obtain ⟨ts, hts, hlen, hmem⟩ := h.supply
  have hnodup : ts.Nodup := by
    have hall : (Mem.supply m₁.pmm).Nodup := nextFit_nodup
    rw [hts] at hall
    exact hall.of_append_left
  have hsub : ts ⊆ l ++ (frames ms ++ sp) := by
    intro f hf
    rw [List.mem_append, List.mem_append]
    exact (hmem f).mp hf
  have hperm : ts.Perm (l ++ (frames ms ++ sp)) := by
    refine (List.subperm_of_subset hnodup hsub).perm_of_length_le ?_
    rw [hlen, List.length_append, List.length_append, frames, List.length_map]
  exact (hperm.nodup_iff.mp hnodup).of_append_right.of_append_left

theorem frame_not_table (h : Load I m₁ ms l sp m) (hw : Wf m₁) {f : Nat} (hf : f ∈ frames ms) :
    ¬ IsTable m f := by
  intro ht
  rcases (h.table f).mp ht with hold | hnew
  · obtain ⟨hlt, hfree⟩ := h.taken_free hw (Or.inr (Or.inl hf))
    rw [hw.used f hold hlt] at hfree
    exact absurd hfree (by simp)
  · exact (h.apart f hnew).1 hf

/-- Frames that were in use and are no tables are never written. -/
theorem keeps (h : Load I m₁ ms l sp m) (hw : Wf m₁) {f : Nat}
    (hu : m₁.pmm.used f = true) (ht : ¬ IsTable m₁ f) : m.mem f = m₁.mem f := by
  have hno : ¬ (f ∈ l ∨ f ∈ frames ms ∨ f ∈ sp) := by
    intro hin
    rw [(h.taken_free hw hin).2] at hu
    exact absurd hu (by simp)
  refine h.mem f (fun hft => ?_) fun hin => hno (Or.inr (Or.inl hin))
  exact ((h.table f).mp hft).elim ht fun hin => hno (Or.inl hin)

/-- The page is mapped where its newest mapping says. -/
theorem pte_mapped (h : Load I m₁ ms l sp m) {w : Nat} (hw : w < 2 ^ 36) (hin : w ∈ pages ms) :
    ∃ x ∈ ms, x.page = w ∧ Mem.pte m w = leafEntry (x.frame * 4096) x.flags := by
  obtain ⟨e, he⟩ := entryOf_isSome hin
  obtain ⟨x, hx, hpage, hentry⟩ := entryOf_some he
  exact ⟨x, hx, hpage, by rw [h.pte w hw, he, hentry]; rfl⟩

theorem pte_other (h : Load I m₁ ms l sp m) {w : Nat} (hw : w < 2 ^ 36) (hout : w ∉ pages ms) :
    Mem.pte m w = Mem.pte m₁ w := by
  rw [h.pte w hw, entryOf_none hout]
  rfl

theorem dense (h : Load I m₁ ms l sp m) {w : Nat} (hw : w < 2 ^ 36) (hd : Dense m₁ w) :
    Dense m w := by
  rcases hd with ⟨t, ht⟩ | hp
  · exact Or.inl ⟨t, h.node _ _ ht⟩
  · by_cases hin : w ∈ pages ms
    · obtain ⟨x, hx, rfl, -⟩ := h.pte_mapped hw hin
      exact Or.inl (h.small x hx)
    · exact Or.inr (by rw [h.pte_other hw hin]; exact hp)

/-! ## One page more -/

/-- **A frame is taken** from the supply. -/
theorem take (h : Load I m₁ ms l sp m) {f : Nat} {rest : List Nat}
    (hs : Mem.supply m.pmm = f :: rest) (hf : f ≠ 0) :
    Load I m₁ ms l (sp ++ [f]) { m with pmm := m.pmm.take f } := by
  have hfree : m.pmm.used f = false :=
    ((mem_supply h.wf.pmm).mp (by rw [hs]; exact List.mem_cons_self)).2
  refine
    { h with
      wf := h.wf.take f
      supply := ?_
      used := fun g => ?_
      apart := fun g hg => ⟨(h.apart g hg).1, fun hin => ?_⟩
      nonnull := fun g hg => ?_ }
  · obtain ⟨ts, hts, hlen, hmem⟩ := h.supply
    refine ⟨ts ++ [f], ?_, ?_, fun g => ?_⟩
    · rw [hts, hs, supply_take hs, List.append_assoc]
      rfl
    · rw [List.length_append, hlen, List.length_append, List.length_singleton]
      omega
    · rw [List.mem_append, hmem, List.mem_append, or_assoc, or_assoc]
  · show (m.pmm.take f).used g = true ↔ _
    rw [take_used, Bool.or_eq_true, decide_eq_true_eq, h.used, List.mem_append, List.mem_singleton]
    constructor
    · intro h
      rcases h with h1 | h1 | h1 | h1 | h1
      all_goals simp [h1]
    · intro h
      rcases h with h1 | h1 | h1 | h1 | h1
      all_goals simp [h1]
  · rcases List.mem_append.mp hin with hold | hnew
    · exact (h.apart g hg).2 hold
    · rw [List.mem_singleton.mp hnew] at hg
      rw [(h.used f).mpr (Or.inr (Or.inl hg))] at hfree
      exact absurd hfree (by simp)
  · rcases hg with hg | hg
    · exact h.nonnull g (Or.inl hg)
    · rcases List.mem_append.mp hg with hold | hnew
      · exact h.nonnull g (Or.inr hold)
      · rw [List.mem_singleton.mp hnew]
        exact hf

/-- A frame that was mapped to itself still is, when no page with its number was mapped. -/
theorem steady {g : Nat} (h : Load I m₁ ms l sp m) (hlt : g < 2 ^ 36) (hst : Steady m₁ g)
    (hout : g ∉ pages ms) : Steady m g := by
  unfold Steady
  rw [h.pte_other hlt hout]
  exact hst

/-- **Tables are added** on the way to the page. -/
theorem tables (h : Load I m₁ ms l sp m) {l' : List Nat} {mg : Mach} (hg : Grow l' m mg) :
    Load I m₁ ms (l ++ l') sp mg where
  wf := hg.wf
  pml4 := hg.pml4.trans h.pml4
  node p g hp := hg.node p g (h.node p g hp)
  table g := by rw [hg.table, h.table, List.mem_append, or_assoc]
  supply := by
    obtain ⟨ts, hts, hlen, hmem⟩ := h.supply
    refine ⟨ts ++ l', ?_, ?_, fun g => ?_⟩
    · rw [hts, hg.supply, List.append_assoc]
    · rw [List.length_append, hlen, List.length_append]
      omega
    · rw [List.mem_append, hmem, List.mem_append]
      exact or_right_comm
  used g := by
    rw [hg.used, h.used, List.mem_append, or_assoc]
    exact or_congr_right or_right_comm
  apart g hgl := by
    rcases List.mem_append.mp hgl with hold | hnew
    · exact h.apart g hold
    · -- a frame the load has taken is not in the supply any more
      have hfree : m.pmm.used g = false := by
        refine ((mem_supply h.wf.pmm).mp ?_).2
        rw [hg.supply]
        exact List.mem_append_left _ hnew
      refine not_or.mp fun hin => ?_
      rw [(h.used g).mpr (Or.inr (Or.inr hin))] at hfree
      exact absurd hfree (by simp)
  nonnull := h.nonnull
  small x hx := by
    obtain ⟨s, hs⟩ := h.small x hx
    exact ⟨s, hg.node _ _ hs⟩
  pte w hw := (hg.pte w).trans (h.pte w hw)
  upper bit w hu := h.upper bit w (hg.upper bit w hu)
  opened bit hb w hu := hg.opened bit hb w (h.opened bit hb w hu)
  mem g hgt hin := by
    rw [hg.mem g hgt]
    exact h.mem g (fun hold => hgt ((hg.table g).mpr (Or.inl hold))) hin
  starved := hg.starved.trans h.starved
  calm hX := by
    have hsteady : ∀ g, IsTable mg g → Steady m g := by
      intro g hgt
      obtain ⟨hlt, hst, hout⟩ := hX g (Or.inl hgt)
      exact h.steady hlt hst hout
    refine (hg.calm hsteady).trans (h.calm fun g hin => ?_)
    exact hX g (hin.imp_left fun hgt => (hg.table g).mpr (Or.inl hgt))

/-- **The entry of a page is written**, where its table is there. -/
theorem leaf {f : Nat} (h : Load I m₁ ms l (f :: sp) m) {v t : Nat} (hv : v < 2 ^ 27)
    (ht : m.node (path v 3) = some t) (flags : Nat) :
    Load I m₁ (⟨v, f, flags⟩ :: ms) l sp
      (store t (pageIdx v 3) (leafEntry (f * 4096) flags) m) := by
  have hT := h.wf.tree
  have hnode : ∀ p, (store t (pageIdx v 3) (leafEntry (f * 4096) flags) m).node p = m.node p :=
    node_leaf hT ht _ _
  have htable : ∀ g, IsTable (store t (pageIdx v 3) (leafEntry (f * 4096) flags) m) g ↔
    IsTable m g := by
    intro g
    unfold IsTable
    simp only [hnode]
  have hheld : ∀ g, g ∈ frames (⟨v, f, flags⟩ :: ms) ∨ g ∈ sp ↔ g ∈ frames ms ∨ g ∈ f :: sp := by
    intro g
    show g ∈ f :: frames ms ∨ g ∈ sp ↔ _
    rw [List.mem_cons, List.mem_cons, or_assoc, or_left_comm]
  refine
    { wf := wf_leaf h.wf ht _
      pml4 := h.pml4
      node := fun p g hp => (hnode p).trans (h.node p g hp)
      table := fun g => (htable g).trans (h.table g)
      supply := ?_
      used := fun g => ?_
      apart := fun g hgl => ?_
      nonnull := fun g hin => h.nonnull g ((hheld g).mp hin)
      small := fun x hx => ?_
      pte := fun w hw => ?_
      upper := fun bit w hu => h.upper bit w ((upper_leaf hT ht _ _ bit w).mp hu)
      opened := fun bit hb w hu => (upper_leaf hT ht _ _ bit w).mpr (h.opened bit hb w hu)
      mem := fun g hgt hin => ?_
      starved := h.starved
      calm := fun hX => ?_ }
  · obtain ⟨ts, hts, hlen, hmem⟩ := h.supply
    refine ⟨ts, hts, ?_, fun g => ?_⟩
    · rw [hlen, List.length_cons, List.length_cons]
      omega
    · rw [hmem, hheld]
  · show m.pmm.used g = true ↔ _
    rw [h.used, hheld]
  · refine not_or.mp fun hin => ?_
    rw [hheld] at hin
    exact hin.elim (h.apart g hgl).1 (h.apart g hgl).2
  · rcases List.mem_cons.mp hx with rfl | hx
    · exact ⟨t, (hnode _).trans ht⟩
    · obtain ⟨s, hs⟩ := h.small x hx
      exact ⟨s, (hnode _).trans hs⟩
  · refine (pte_leaf hT ht _ (by omega) hw).trans ?_
    rw [entryOf_cons, h.pte w hw]
    by_cases hwv : w = v
    · rw [if_pos hwv, if_pos hwv.symm]
      rfl
    · rw [if_neg hwv, if_neg fun he => hwv he.symm]
  · have hgm : ¬ IsTable m g := fun hin => hgt ((htable g).mpr hin)
    have hne : g ≠ t := fun he => hgm ⟨_, by rw [he]; exact ht⟩
    refine (poke_frame _ _ m hne).trans (h.mem g hgm fun hold => hin ?_)
    exact List.mem_cons_of_mem _ hold
  · -- the table itself is mapped to itself, so the entry goes where it should
    have hold : m.strayed = m₁.strayed := by
      refine h.calm fun g hin => ?_
      obtain ⟨hlt, hst, hout⟩ :=
        hX g (hin.imp (htable g).mpr (Or.imp_left (List.mem_cons_of_mem _)))
      exact ⟨hlt, hst, fun hin => hout (List.mem_cons_of_mem _ hin)⟩
    have hst : Steady m t := by
      obtain ⟨hlt, hst, hout⟩ := hX t (Or.inl ((htable t).mpr ⟨_, ht⟩))
      exact h.steady hlt hst fun hin => hout (List.mem_cons_of_mem _ hin)
    have hidx := pageIdx_lt v 3
    have htouch : (touch (t * 4096 + 8 * pageIdx v 3) m).strayed = m.strayed :=
      touch_calm hst (by omega)
    exact htouch.trans hold

/-- The entry of a page is written, behind the tables that were added for it. -/
theorem grown {f : Nat} (h : Load I m₁ ms l (f :: sp) m) {v t : Nat} {l' : List Nat} {mg : Mach}
    (hv : v < 2 ^ 27) (hg : Grow l' m mg) (ht : mg.node (path v 3) = some t) (flags : Nat) :
    Load I m₁ (⟨v, f, flags⟩ :: ms) (l ++ l') sp
        (store t (pageIdx v 3) (leafEntry (f * 4096) flags) mg) ∧
      ∀ p g, m.node p = some g →
        (store t (pageIdx v 3) (leafEntry (f * 4096) flags) mg).node p = some g := by
  refine ⟨(h.tables hg).leaf hv ht flags, fun p g hp => ?_⟩
  exact (node_leaf hg.wf.tree ht _ _ p).trans (hg.node p g hp)

/-- **A page is mapped** to a frame that was taken. -/
theorem map {f : Nat} (h : Load I m₁ ms l (f :: sp) m) {v flags : Nat} (hv : v < 2 ^ 27)
    (hlow : present (m.mem m.pml4 0)) :
    ((vmmMap (v * 4096) (f * 4096) flags m).starved = true ∧ ¬ Small m v ∧
      (Dense m v → Short m)) ∨
    ∃ l', Load I m₁ (⟨v, f, flags⟩ :: ms) (l ++ l') sp (vmmMap (v * 4096) (f * 4096) flags m) ∧
      (∀ p g, m.node p = some g → (vmmMap (v * 4096) (f * 4096) flags m).node p = some g) ∧
      Mem.supply m.pmm = l' ++ Mem.supply (vmmMap (v * 4096) (f * 4096) flags m).pmm ∧
      (Small m v → l' = []) ∧ (Dense m v → ¬ Small m v → ∃ n, l' = [n]) := by
  rcases vmmMap_grow h.wf hv hlow (f * 4096) flags with
    hst | ⟨l', t, mg, hg, ht, hrun, hsmall, hdense⟩
  · exact Or.inl hst
  · right
    rw [hrun]
    obtain ⟨hload, hkeep⟩ := h.grown hv hg ht flags
    exact ⟨l', hload, hkeep, hg.supply, hsmall, hdense⟩

/-! ## Bytes -/

theorem storeByte_frame {f o g : Nat} (b : Nat) (m : Mach) (ho : o < 4096) (hg : g ≠ f) :
    (storeByte (f * 4096 + o) b m).mem g = m.mem g := by
  refine pokeByte_frame b (touch (f * 4096 + o) m) ?_
  rw [show (f * 4096 + o) / 4096 = f by omega]
  exact hg

theorem byte_same (h : Load I m₁ ms l sp m) (hw₁ : Wf m₁) {f o b : Nat} (hf : f ∈ frames ms)
    (ho : o < 4096) : SameTables m (storeByte (f * 4096 + o) b m) :=
  sameTables_of_frame (h.frame_not_table hw₁ hf) rfl fun _ hg => storeByte_frame b m ho hg

/-- **A frame of the program is written to.** -/
theorem write (h : Load I m₁ ms l sp m) (hw₁ : Wf m₁) {f : Nat} (hf : f ∈ frames ms) {m' : Mach}
    (hpml4 : m'.pml4 = m.pml4) (hpmm : m'.pmm = m.pmm) (hst : m'.starved = m.starved)
    (hmem : ∀ g, g ≠ f → m'.mem g = m.mem g) (hcalm : Steady m f → m'.strayed = m.strayed) :
    Load I m₁ ms l sp m' := by
  have hsame : SameTables m m' := sameTables_of_frame (h.frame_not_table hw₁ hf) hpml4 hmem
  refine
    { wf := ⟨?_, fun g hg => ?_, fun g hg => h.wf.nonnull g ((hsame.isTable g).mp hg), ?_⟩
      pml4 := hpml4.trans h.pml4
      node := fun p g hp => (hsame.node p).trans (h.node p g hp)
      table := fun g => (hsame.isTable g).trans (h.table g)
      supply := ?_
      used := ?_
      apart := h.apart
      nonnull := h.nonnull
      small := fun x hx => ?_
      pte := fun w hw => (hsame.pte w).trans (h.pte w hw)
      upper := fun bit w hu => h.upper bit w ((hsame.upper bit w).mp hu)
      opened := fun bit hb w hu => (hsame.upper bit w).mpr (h.opened bit hb w hu)
      mem := fun g hgt hin => ?_
      starved := hst.trans h.starved
      calm := fun hX => ?_ }
  · rw [hpml4]
    refine h.wf.tree.congr fun p => ?_
    have hnode := hsame.node p
    unfold Mach.node at hnode
    rw [hpml4] at hnode
    exact hnode
  · rw [hpmm]
    exact h.wf.used g ((hsame.isTable g).mp hg)
  · rw [hpmm]
    exact h.wf.pmm
  · rw [hpmm]
    exact h.supply
  · rw [hpmm]
    exact h.used
  · obtain ⟨t, ht⟩ := h.small x hx
    exact ⟨t, (hsame.node _).trans ht⟩
  · have hgf : g ≠ f := fun he => hin (he ▸ hf)
    rw [hmem g hgf]
    exact h.mem g (fun hg => hgt ((hsame.isTable g).mpr hg)) hin
  · obtain ⟨hlt, hst1, hout⟩ := hX f (Or.inr (Or.inl hf))
    have hsteady : Steady m f := by
      unfold Steady
      rw [h.pte_other hlt hout]
      exact hst1
    have hold := h.calm fun g hin => hX g (hin.imp_left fun hg => (hsame.isTable g).mpr hg)
    exact (hcalm hsteady).trans hold

/-- A byte is written to a frame of the program. -/
theorem byte (h : Load I m₁ ms l sp m) (hw₁ : Wf m₁) {f o b : Nat} (hf : f ∈ frames ms)
    (ho : o < 4096) : Load I m₁ ms l sp (storeByte (f * 4096 + o) b m) :=
  h.write hw₁ hf rfl rfl rfl (fun _ hg => storeByte_frame b m ho hg) fun hst => touch_calm hst ho

/-- **A byte of the image is read.** -/
theorem look (h : Load I m₁ ms l sp m) {p : Nat} (hp : I (p / 4096)) :
    Load I m₁ ms l sp (touch p m) := by
  have hsplit : p = p / 4096 * 4096 + p % 4096 := by omega
  refine { h with wf := ⟨h.wf.tree, h.wf.used, h.wf.nonnull, h.wf.pmm⟩, calm := fun hX => ?_ }
  obtain ⟨hlt, hst1, hout⟩ := hX (p / 4096) (Or.inr (Or.inr hp))
  have hst : Steady m (p / 4096) := by
    unfold Steady
    rw [h.pte_other hlt hout]
    exact hst1
  have hcalm : (touch p m).strayed = m.strayed := by
    rw [hsplit]
    exact touch_calm hst (Nat.mod_lt _ (by omega))
  exact hcalm.trans (h.calm hX)

theorem lookBytes : ∀ {n p : Nat} {m : Mach}, Load I m₁ ms l sp m → p + n ≤ 2 ^ 64 →
    (∀ k < n, I ((p + k) / 4096)) → Load I m₁ ms l sp (touchBytes n p m)
  | 0, _, _, h, _, _ => h
  | n + 1, p, m, h, hn, hI => by
    rw [touchBytes]
    by_cases hlast : n = 0
    · rw [hlast]
      exact h.look (hI 0 (by omega))
    · rw [Nat.mod_eq_of_lt (by omega)]
      refine lookBytes (h.look (hI 0 (by omega))) (by omega) fun k hk => ?_
      rw [show p + 1 + k = p + (k + 1) by omega]
      exact hI (k + 1) (by omega)

end Load

end InaneOS.Mem
