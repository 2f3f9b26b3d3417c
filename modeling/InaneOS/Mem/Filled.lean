import InaneOS.Lib.Bytes
import InaneOS.Mem.Clean

/-!
# What a segment puts into memory

The loops of one segment again, now with the bytes. `mapPages_done` says what the pages
are like when the loop over them returned normally: either every page has its frame, or
the last one is not mapped and the loops over the bytes will fail on it (`putBytes_gap`).
That a page in a 2 MB page could not be split off is left out (`Splits`); `vmm_map` then
does not map the page, and nobody notices.

No two pages share a frame (`Load.phys_inj`), so a byte that was written stays
(`putBytes_filled`). `fillSegment_filled` puts the loops together, from the state in which
the segment's header is met.
-/

namespace InaneOS.Mem

open InaneOS.Lib

/-! ## Bytes -/

section Bytes

variable {m m' : Mach}

theorem byteAt_frame {f o : Nat} (ho : o < 4096) (m : Mach) :
    byteAt m (f * 4096 + o) = m.mem f (o / 8) / 256 ^ (o % 8) % 256 := by
  unfold byteAt
  rw [show (f * 4096 + o) / 4096 = f by omega, show (f * 4096 + o) % 4096 = o by omega,
    show (f * 4096 + o) % 8 = o % 8 by omega]

/-- Bytes of a frame that was not written. -/
theorem byteAt_congr {f o : Nat} (ho : o < 4096) (h : m'.mem f = m.mem f) :
    byteAt m' (f * 4096 + o) = byteAt m (f * 4096 + o) := by
  rw [byteAt_frame ho, byteAt_frame ho, h]

/-- A byte store writes its byte and no other. -/
theorem byteAt_storeByte (p : Nat) {b : Nat} (hb : b < 256) (m : Mach) (q : Nat) :
    byteAt (storeByte p b m) q = if q = p then b else byteAt m q := by
  have hword : ∀ f j, (storeByte p b m).mem f j =
      if f = p / 4096 ∧ j = p % 4096 / 8 then setDigit (m.mem f j) (p % 8) b else m.mem f j := by
    intro f j
    by_cases hfj : f = p / 4096 ∧ j = p % 4096 / 8
    · rw [if_pos hfj, hfj.1, hfj.2]
      exact poke_same _ _ _ _
    · rw [if_neg hfj]
      exact poke_other _ _ hfj
  unfold byteAt
  rw [hword]
  by_cases hw : q / 4096 = p / 4096 ∧ q % 4096 / 8 = p % 4096 / 8
  · rw [if_pos hw, setDigit_digit _ hb]
    by_cases hq : q = p
    · rw [if_pos hq, if_pos (by rw [hq])]
    · rw [if_neg hq, if_neg (by omega)]
  · rw [if_neg hw, if_neg fun hq => hw (by rw [hq]; exact ⟨rfl, rfl⟩)]

theorem SameTables.trans {m'' : Mach} (h : SameTables m m') (h' : SameTables m' m'') :
    SameTables m m'' :=
  ⟨h'.pml4.trans h.pml4, fun f hf => (h'.mem f ((h.isTable f).mpr hf)).trans (h.mem f hf)⟩

theorem SameTables.phys (h : SameTables m m') (a : Nat) : vmmPhys a m' = vmmPhys a m :=
  vmmPhys_congr (h.pte _)

end Bytes

/-! ## Where the pages lead -/

namespace Load

variable {I : Nat → Prop} {m₁ m m' : Mach} {ms : List Mapping} {l sp : List Nat}

/-- A page that was mapped leads to the frame of one of its mappings. -/
theorem phys_mapping (h : Load I m₁ ms l sp m) {va : Nat} (hva : va < 2 ^ 48)
    (hin : va / 4096 ∈ pages ms) :
    ∃ x ∈ ms, x.page = va / 4096 ∧ Mem.pte m (va / 4096) = leafEntry (x.frame * 4096) x.flags ∧
      vmmPhys va m = x.frame * 4096 + va % 4096 := by
  obtain ⟨x, hx, hpage, hpte⟩ := h.pte_mapped (show va / 4096 < 2 ^ 36 by omega) hin
  refine ⟨x, hx, hpage, hpte, ?_⟩
  have hphys := vmmPhys_eq m (va / 4096) (show va % 4096 < 4096 from Nat.mod_lt _ (by omega))
  rw [hpte, if_pos (leafEntry_present _ _), leafEntry_frame,
    Nat.mul_div_cancel _ (by decide : 0 < 4096), page_split] at hphys
  exact hphys

/-- Different addresses on mapped pages are different bytes. -/
theorem phys_inj (h : Load I m₁ ms l sp m) {va vb : Nat} (hva : va < 2 ^ 48) (hvb : vb < 2 ^ 48)
    (ha : va / 4096 ∈ pages ms) (hb : vb / 4096 ∈ pages ms) (he : vmmPhys va m = vmmPhys vb m) :
    va = vb := by
  obtain ⟨x, hx, hxp, -, hxa⟩ := h.phys_mapping hva ha
  obtain ⟨y, hy, hyp, -, hyb⟩ := h.phys_mapping hvb hb
  rw [hxa, hyb] at he
  have hframe : x.frame = y.frame := by omega
  have hxy : x = y := List.inj_on_of_nodup_map h.frames_nodup hx hy hframe
  rw [hxy] at hxp
  omega

/-- The same mappings lead to the same place. -/
theorem phys_same (h : Load I m₁ ms l sp m) (h' : Load I m₁ ms l sp m') {va : Nat}
    (hva : va < 2 ^ 48) :
    vmmPhys va m' = vmmPhys va m := by
  refine vmmPhys_congr ?_
  rw [h.pte _ (by omega), h'.pte _ (by omega)]

/-- A frame that was neither free nor a table is not written. -/
theorem untouched (h : Load I m₁ ms l sp m) {f : Nat} (hfree : f ∉ Mem.supply m₁.pmm)
    (ht : ¬ IsTable m₁ f) : ¬ IsTable m f ∧ f ∉ Mem.supply m.pmm ∧ m.mem f = m₁.mem f := by
  obtain ⟨ts, hs, -, hts⟩ := h.supply
  have hno : ¬ (f ∈ l ∨ f ∈ frames ms ∨ f ∈ sp) := by
    intro hin
    exact hfree (by rw [hs]; exact List.mem_append_left _ ((hts f).mpr hin))
  have htable : ¬ IsTable m f := fun hin => ((h.table f).mp hin).elim ht fun hl => hno (Or.inl hl)
  refine ⟨htable, fun hin => hfree (by rw [hs]; exact List.mem_append_right _ hin), ?_⟩
  exact h.mem f htable fun hin => hno (Or.inr (Or.inl hin))

/-- A frame of the program is in use. -/
theorem frame_used (h : Load I m₁ ms l sp m) {f : Nat} (hf : f ∈ frames ms) :
    f ∉ Mem.supply m.pmm := by
  intro hin
  have hfree := ((mem_supply h.wf.pmm).mp hin).2
  rw [(h.used f).mpr (Or.inr (Or.inr (Or.inl hf)))] at hfree
  exact absurd hfree (by simp)

theorem noLarge (h : Load I m₁ ms l sp m) {v : Nat} (hno : NoLarge m₁ v) : NoLarge m v := by
  intro t ht hp hl
  have hnone : m.node (path v 3) = none := by
    rw [node_path_succ ht]
    exact next_of_large hl
  have hpte : present (Mem.pte m (v % 2 ^ 36)) := by
    rw [pte_mod, pte_of_directory hnone ht, if_pos hp]
    exact (splitEntry_present _ _).mpr hp
  by_cases hin : v % 2 ^ 36 ∈ pages ms
  · obtain ⟨x, hx, hpage⟩ := List.mem_map.mp hin
    obtain ⟨s, hs⟩ := h.small x hx
    rw [hpage, path_mod, hnone] at hs
    exact absurd hs (by simp)
  · rw [h.pte_other (Nat.mod_lt v (by omega)) hin, pte_mod] at hpte
    obtain ⟨s, hs⟩ := Dense.small_of_noLarge (Or.inr hpte) hno
    rw [h.node _ _ hs] at hnone
    exact absurd hnone (by simp)

/-- The tables stay in order. -/
theorem paged (h : Load I m₁ ms l sp m) (hm₁ : Paged m₁) : Paged m where
  wf := h.wf
  low := (h.low (low_node hm₁.low)).present
  high v hv := h.noLarge (hm₁.high v hv)

end Load

/-! ## The loops over the bytes -/

section PutBytes

variable {vaddr : Nat} {src : Nat → Mach → Nat × Mach}

/-- As long as no table is written to, the addresses lead where they did; and a byte without a place
stops the loop. -/
theorem putBytes_gap (hq : Quiet src) : ∀ {n o : Nat} {m : Mach},
    (∀ k, o ≤ k → k < o + n → vmmPhys ((vaddr + k) % 2 ^ 64) m ≠ 0 →
      ¬ IsTable m (vmmPhys ((vaddr + k) % 2 ^ 64) m / 4096)) →
    SameTables m (putBytes vaddr src n o m).2 ∧
      ((∃ k, o ≤ k ∧ k < o + n ∧ vmmPhys ((vaddr + k) % 2 ^ 64) m = 0) →
        (putBytes vaddr src n o m).1 = false)
  | 0, _, _, _ => ⟨⟨rfl, fun _ _ => rfl⟩, fun ⟨k, h1, h2, _⟩ => by omega⟩
  | n + 1, o, m, htable => by
    by_cases h0 : vmmPhys ((vaddr + o) % 2 ^ 64) m = 0
    · have hrun : putBytes vaddr src (n + 1) o m = (false, m) := if_pos h0
      rw [hrun]
      exact ⟨⟨rfl, fun _ _ => rfl⟩, fun _ => rfl⟩
    · obtain ⟨p, hp⟩ : ∃ p, vmmPhys ((vaddr + o) % 2 ^ 64) m = p := ⟨_, rfl⟩
      obtain ⟨b, hb⟩ := hq o m
      have hrun : putBytes vaddr src (n + 1) o m =
          putBytes vaddr src n (o + 1) (storeByte p (src o m).1 { m with strayed := b }) := by
        rw [← hb, ← hp]
        exact if_neg h0
      have hout : ¬ IsTable m (p / 4096) := hp ▸ htable o (Nat.le_refl _) (by omega) h0
      have hsame : SameTables m (storeByte p (src o m).1 { m with strayed := b }) :=
        sameTables_of_frame hout rfl fun f hf => pokeByte_frame _ _ hf
      obtain ⟨hrest, hgap⟩ := putBytes_gap hq (n := n) (o := o + 1)
        (m := storeByte p (src o m).1 { m with strayed := b })
        fun k h1 h2 hne hin => by
          rw [hsame.phys] at hne hin
          exact htable k (by omega) (by omega) hne ((hsame.isTable _).mp hin)
      rw [hrun]
      refine ⟨hsame.trans hrest, fun ⟨k, h1, h2, hk⟩ => hgap
        ⟨k, ?_, by omega, by rw [hsame.phys, hk]⟩⟩
      have hne : k ≠ o := fun he => h0 (he ▸ hk)
      omega

variable {I : Nat → Prop} {m₁ : Mach} {ms : List Mapping} {l : List Nat}

/-- **The bytes of a loop** are there when it is done, and no others were written. -/
theorem putBytes_filled (hw₁ : Wf m₁) {val : Nat → Nat} : ∀ {n o : Nat} {m : Mach},
    Load I m₁ ms l [] m → vaddr + o + n ≤ 2 ^ 48 →
    (∀ k, o ≤ k → k < o + n → (vaddr + k) / 4096 ∈ pages ms) →
    (∀ k, o ≤ k → k < o + n → ∀ m, Load I m₁ ms l [] m →
      Load I m₁ ms l [] (src k m).2 ∧ (src k m).2.mem = m.mem ∧ (src k m).1 = val k ∧ val k < 256) →
    Load I m₁ ms l [] (putBytes vaddr src n o m).2 ∧ (putBytes vaddr src n o m).1 = true ∧
      (∀ k, o ≤ k → k < o + n → byteAt (putBytes vaddr src n o m).2 (vmmPhys (vaddr + k) m) = val k)
        ∧
      ∀ q, (∀ k, o ≤ k → k < o + n → q ≠ vmmPhys (vaddr + k) m) →
        byteAt (putBytes vaddr src n o m).2 q = byteAt m q
  | 0, _, _, h, _, _, _ => ⟨h, rfl, fun k h1 h2 => by omega, fun _ _ => rfl⟩
  | n + 1, o, m, h, hn, hpages, hsrc => by
    have hva : vaddr + o < 2 ^ 48 := by omega
    have hpage := hpages o (Nat.le_refl _) (by omega)
    obtain ⟨f, hf, hf0, hphys⟩ := h.phys hva hpage
    obtain ⟨hread, hmem, hval, hlt⟩ := hsrc o (Nat.le_refl _) (by omega) m h
    have hoff : (vaddr + o) % 4096 < 4096 := Nat.mod_lt _ (by omega)
    have hne : vmmPhys (vaddr + o) m ≠ 0 := by
      rw [hphys]
      omega
    obtain ⟨m₂, hm₂⟩ : ∃ m₂, storeByte (vmmPhys (vaddr + o) m) (val o) (src o m).2 = m₂ := ⟨_, rfl⟩
    have hload₂ : Load I m₁ ms l [] m₂ := by
      rw [← hm₂, hphys]
      exact hread.byte hw₁ hf hoff
    have hbyte : ∀ q, byteAt m₂ q = if q = vmmPhys (vaddr + o) m then val o else byteAt m q := by
      intro q
      rw [← hm₂, byteAt_storeByte _ hlt]
      have hsame : byteAt (src o m).2 q = byteAt m q := by
        unfold byteAt
        rw [hmem]
      rw [hsame]
    have hmove : ∀ k, k < o + (n + 1) → vmmPhys (vaddr + k) m₂ = vmmPhys (vaddr + k) m :=
      fun k hk =>
      h.phys_same hload₂ (by omega)
    obtain ⟨hload, hok, hin, hout⟩ := putBytes_filled hw₁ (n := n) (o := o + 1) hload₂ (by omega)
      (fun k h1 h2 => hpages k (by omega) (by omega)) fun k h1 h2 => hsrc k (by omega) (by omega)
    rw [putBytes_step (by omega) hne, hval, hm₂]
    refine ⟨hload, hok, fun k h1 h2 => ?_, fun q hq => ?_⟩
    · by_cases hk : k = o
      · rw [hk, hout _ fun j h3 h4 he => ?_, hbyte, if_pos rfl]
        -- a later byte lies elsewhere
        rw [hmove j (by omega)] at he
        have hinj := h.phys_inj hva (by omega) hpage (hpages j (by omega) (by omega)) he
        omega
      · rw [← hmove k (by omega)]
        exact hin k (by omega) (by omega)
    · rw [hout q fun j h3 h4 => ?_, hbyte, if_neg (hq o (Nat.le_refl _) (by omega))]
      rw [hmove j (by omega)]
      exact hq j (by omega) (by omega)

end PutBytes

/-! ## The loop over the pages -/

/-- No page of the loop is stuck in a 2 MB page. -/
def Splits (w : Nat) : Nat → Nat → Mach → Prop
  | 0, _, _ => True
  | n + 1, va, m =>
    let (f, pmm) := pmmAllocFrame m.pmm
    let m := { m with pmm := pmm }
    f = 0 ∨ (¬ Stuck (va / 4096) m ∧ Splits w n (va + 4096) (vmmMap va f (5 + w) m))

/-- The frame that `pmm_alloc_frame` returns when the loop comes to page `u`. -/
def frameOf (w u : Nat) : Nat → Nat → Mach → Nat
  | 0, _, _ => 0
  | n + 1, va, m =>
    let (f, pmm) := pmmAllocFrame m.pmm
    if va / 4096 = u then f / 4096
    else frameOf w u n (va + 4096) (vmmMap va f (5 + w) { m with pmm := pmm })

section Pages

variable {I : Nat → Prop} {m₁ : Mach}

theorem splits_cons {w n v f : Nat} {rest : List Nat} {m : Mach} (hs : supply m.pmm = f :: rest)
    (hf : f ≠ 0) :
    Splits w (n + 1) (v * 4096) m ↔ ¬ Stuck v { m with pmm := m.pmm.take f } ∧
      Splits w n ((v + 1) * 4096)
        (vmmMap (v * 4096) (f * 4096) (5 + w) { m with pmm := m.pmm.take f }) := by
  have hne : ¬ f * frameSize = 0 := Nat.mul_ne_zero hf (by decide)
  rw [Splits, pmmAllocFrame_cons hs]
  dsimp only
  rw [Nat.mul_div_cancel v (by decide : 0 < 4096), show v * 4096 + 4096 = (v + 1) * 4096 by omega]
  exact or_iff_right hne

theorem splits_null {w n va : Nat} {m : Mach} (h : (pmmAllocFrame m.pmm).1 = 0) :
    Splits w (n + 1) va m := Or.inl h

/-- A page that could not be split off is a table allocation that failed. -/
theorem splits_of_fed (w : Nat) : ∀ {n v : Nat} {m : Mach}, Paged m →
    (mapPages w n (v * 4096) m).2.starved = false → Splits w n (v * 4096) m
  | 0, _, _, _, _ => trivial
  | n + 1, v, m, hm, hfed => by
    cases hs : supply m.pmm with
    | nil =>
      refine splits_null ?_
      rw [pmmAllocFrame_nil hs]
    | cons f rest =>
      by_cases hf : f = 0
      · refine splits_null ?_
        rw [pmmAllocFrame_cons hs, hf, Nat.zero_mul]
      · have htaken := hm.take f
        rw [mapPages_cons hs hf, show v * 4096 + 4096 = (v + 1) * 4096 by omega] at hfed
        have hfree : ¬ Stuck v { m with pmm := m.pmm.take f } := by
          intro hstuck
          have hsplit := ((splitLarge_spread htaken v).2.2 hstuck).2
          rw [mapPages_starved w n _ (vmmMap_starved_split _ _ _ hsplit)] at hfed
          exact absurd hfed (by simp)
        exact (splits_cons hs hf).mpr ⟨hfree, splits_of_fed w (htaken.map hfree _ _) hfed⟩

theorem frameOf_cons {w u n v f : Nat} {rest : List Nat} {m : Mach}
    (hs : supply m.pmm = f :: rest) :
    frameOf w u (n + 1) (v * 4096) m = if v = u then f else
      frameOf w u n ((v + 1) * 4096)
        (vmmMap (v * 4096) (f * 4096) (5 + w) { m with pmm := m.pmm.take f }) := by
  have hdiv : f * frameSize / 4096 = f := Nat.mul_div_cancel f (by decide)
  rw [frameOf, pmmAllocFrame_cons hs]
  dsimp only
  rw [Nat.mul_div_cancel v (by decide : 0 < 4096), hdiv, show v * 4096 + 4096 =
    (v + 1) * 4096 by omega]
  rfl

theorem wanted_page {new : List Mapping} {w v n : Nat} (h : made new = wanted w v n) {u : Nat} :
    u ∈ pages new ↔ v ≤ u ∧ u < v + n := by
  rw [← List.mem_reverse, ← made_pages, h, wanted, List.map_map, List.mem_map]
  constructor
  · intro h
    obtain ⟨x, hx, he⟩ := h
    rw [← he]
    exact List.mem_range'_1.mp hx
  · intro hu
    exact ⟨u, List.mem_range'_1.mpr hu, rfl⟩

/-- **The loop over the pages** returned normally: every page has its frame, and only tables were
written; or the last page is not mapped. -/
theorem mapPages_done (hm₁ : Paged m₁) (hnull : 0 ∉ supply m₁.pmm) (w : Nat) :
    ∀ {n v : Nat} {ms : List Mapping} {l : List Nat} {m : Mach}, Load I m₁ ms l [] m →
      v + n ≤ 2 ^ 27 →
    Splits w n (v * 4096) m → (mapPages w n (v * 4096) m).1 = true →
    (∃ new l', Load I m₁ (new ++ ms) (l ++ l') [] (mapPages w n (v * 4096) m).2 ∧
      made new = wanted w v n ∧ (∀ x ∈ new, x.frame = frameOf w x.page n (v * 4096) m) ∧
      ∀ g, ¬ IsTable (mapPages w n (v * 4096) m).2 g →
        (mapPages w n (v * 4096) m).2.mem g = m.mem g) ∨
    ∃ k new l' f mk, n = k + 1 ∧ Load I m₁ (new ++ ms) (l ++ l') [f] mk ∧ made new = wanted w v k ∧
      Spread mk (mapPages w n (v * 4096) m).2 ∧ ¬ present (pte mk (v + k))
  | 0, _, _, l, _, h, _, _, _ => by
    left
    refine ⟨[], [], ?_, rfl, fun x hx => absurd hx (by simp), fun _ _ => rfl⟩
    rw [List.append_nil]
    exact h
  | n + 1, v, ms, l, m, h, hn, hsplit, hok => by
    cases hs : supply m.pmm with
    | nil =>
      rw [mapPages_nil hs] at hok
      exact absurd hok (by simp)
    | cons f rest =>
      have hf : f ≠ 0 := by
        intro he
        exact h.null_free hnull (by rw [hs, he]; exact List.mem_cons_self)
      have htake : Load I m₁ ms l [f] { m with pmm := m.pmm.take f } := h.take hs hf
      obtain ⟨hstuck, hsplit⟩ := (splits_cons hs hf).mp hsplit
      rw [mapPages_cons hs hf, show v * 4096 + 4096 = (v + 1) * 4096 by omega] at hok ⊢
      obtain ⟨m₂, hm₂⟩ : ∃ m₂, vmmMap (v * 4096) (f * 4096) (5 + w) { m with pmm := m.pmm.take f } =
        m₂ :=
        ⟨_, rfl⟩
      rw [hm₂] at hok hsplit ⊢
      rcases vmmMap_low (htake.paged hm₁) (show v < 2 ^ 27 by omega) hstuck (htake.null_free hnull)
        (f * 4096) (5 + w) with ⟨l₁, t, mg, hgrow, ht, hrun⟩ | ⟨hspread, hempty, habsent⟩
      · rw [hm₂] at hrun
        obtain ⟨hload, -⟩ := htake.grown (show v < 2 ^ 27 by omega) hgrow ht (5 + w)
        rw [← hrun] at hload
        have hmem : ∀ g, ¬ IsTable m₂ g → m₂.mem g = m.mem g := by
          intro g hg
          rw [hrun] at hg ⊢
          have hg' : ¬ IsTable mg g := fun ⟨q, hq⟩ =>
            hg ⟨q, (node_leaf hgrow.wf.tree ht (pageIdx v 3) (leafEntry (f * 4096) (5 + w)) q).trans
              hq⟩
          have hgt : g ≠ t := fun he => hg' (he ▸ ⟨_, ht⟩)
          exact (poke_frame _ _ mg hgt).trans (hgrow.mem g hg')
        have hkeep : ∀ {ms' : List Mapping} {l' sp : List Nat} {m' : Mach},
            Load I m₁ (ms' ++ ⟨v, f, 5 + w⟩ :: ms) (l ++ l₁ ++ l') sp m' →
            Load I m₁ ((ms' ++ [⟨v, f, 5 + w⟩]) ++ ms) (l ++ (l₁ ++ l')) sp m' := by
          intro ms' l' sp m' hl
          rw [List.append_assoc, ← List.append_assoc l]
          exact hl
        have hmade : ∀ new : List Mapping, made (new ++ [⟨v, f, 5 + w⟩]) =
          (v, 5 + w) :: made new := by
          intro new
          rw [made_append]
          rfl
        rcases mapPages_done hm₁ hnull w hload (by omega) hsplit hok with
          ⟨new, l', hload', hnew, hframes, hrest⟩ | ⟨k, new, l', g, mk, hk, hload',
            hnew, hspread, habsent⟩
        · left
          refine ⟨new ++ [⟨v, f, 5 + w⟩], l₁ ++ l', hkeep hload', ?_, fun x hx => ?_,
            fun g hg => ?_⟩
          · rw [hmade, hnew, wanted_succ]
          · rw [frameOf_cons hs, hm₂]
            rcases List.mem_append.mp hx with hin | hone
            · have hpage := (wanted_page hnew).mp (List.mem_map.mpr ⟨x, hin, rfl⟩)
              rw [if_neg (by omega)]
              exact hframes x hin
            · rw [List.mem_singleton.mp hone]
              exact (if_pos rfl).symm
          · rw [hrest g hg]
            refine hmem g fun hin => hg ?_
            exact ((hload'.table g).mpr
              (((hload.table g).mp hin).imp_right (List.mem_append_left _)))
        · right
          refine ⟨k + 1, new ++ [⟨v, f, 5 + w⟩], l₁ ++ l', g,
            mk, by omega, hkeep hload', ?_, hspread, ?_⟩
          · rw [hmade, hnew, wanted_succ]
          · rw [show v + (k + 1) = v + 1 + k by omega]
            exact habsent
      · rw [hm₂] at hspread hempty
        cases n with
        | zero =>
          right
          refine ⟨0, [], [], f, _, rfl, ?_, rfl, hspread, habsent⟩
          rw [List.append_nil]
          exact htake
        | succ n =>
          rw [mapPages_nil hempty] at hok
          exact absurd hok (by simp)

end Pages

/-! ## A segment -/

section Segment

variable {p : Phdr} {img len : Nat}

/-- A segment whose last page is not mapped is not filled. -/
theorem fillBytes_gap (hpos : ¬ p.skipped) (hs : p.Sane) (hr : ¬ p.refused len)
    {I : Nat → Prop} {m₁ mk m : Mach}
    {new : List Mapping} {l sp : List Nat} {k : Nat} (hw₁ : Wf m₁) (hk : p.pageCount = k + 1)
    (h : Load I m₁ new l sp mk) (hmade : made new = wanted p.writeFlag (p.vaddr / 4096) k)
    (hspread : Spread mk m) (habsent : ¬ present (pte mk (p.vaddr / 4096 + k))) :
    (fillBytes img p m).1 = false := by
  obtain ⟨hmin, hmax, hfile, hfin⟩ := bounds_of_not_refused hs hr
  unfold userMax at hmax
  have hsize : p.memsz ≠ 0 := (not_or.mp hpos).2
  have hmod : ∀ o < p.memsz, (p.vaddr + o) % 2 ^ 64 = p.vaddr + o :=
    fun o ho => Nat.mod_eq_of_lt (by omega)
  -- a byte of a page that has its frame
  have htable : ∀ o < p.memsz, vmmPhys (p.vaddr + o) m ≠ 0 →
    ¬ IsTable m (vmmPhys (p.vaddr + o) m / 4096) := by
    intro o ho hne hin
    rw [vmmPhys_congr (hspread.pte _)] at hne hin
    obtain ⟨h1, h2⟩ := covered hs hr ho
    by_cases hlast : (p.vaddr + o) / 4096 = p.vaddr / 4096 + k
    · have hphys := vmmPhys_eq mk ((p.vaddr + o) / 4096)
        (Nat.mod_lt (p.vaddr + o) (show 0 < 4096 by omega))
      rw [page_split, hlast, if_neg habsent] at hphys
      exact hne hphys
    · have hpage : (p.vaddr + o) / 4096 ∈ pages new := (wanted_page hmade).mpr (by omega)
      obtain ⟨x, hx, -, -, hphys⟩ := h.phys_mapping (by omega) hpage
      have hframe : x.frame ∈ frames new := List.mem_map.mpr ⟨x, hx, rfl⟩
      rw [hphys, show (x.frame * 4096 + (p.vaddr + o) % 4096) / 4096 = x.frame by omega] at hin
      exact (hspread.fresh _ hin).elim (h.frame_not_table hw₁ hframe) (h.frame_used hframe)
  -- the first byte of the last page
  obtain ⟨o, ho, hpage⟩ : ∃ o < p.memsz, (p.vaddr + o) / 4096 = p.vaddr / 4096 + k := by
    unfold Phdr.pageCount Phdr.first at hk
    rw [hfin] at hk
    exact ⟨(p.vaddr / 4096 + k) * 4096 - p.vaddr, by omega, by omega⟩
  have hgap : vmmPhys (p.vaddr + o) m = 0 := by
    have hphys := vmmPhys_eq mk ((p.vaddr + o) / 4096)
      (Nat.mod_lt (p.vaddr + o) (show 0 < 4096 by omega))
    rw [page_split, hpage, if_neg habsent] at hphys
    rw [vmmPhys_congr (hspread.pte _), hphys]
  obtain ⟨hsame, hstop⟩ := @putBytes_gap p.vaddr _ (imgByte_quiet img p.off) p.filesz 0 m
    fun k _ hk' => by
      rw [hmod k (by omega)]
      exact htable k (by omega)
  have hstop2 := (@putBytes_gap p.vaddr _ zeroByte_quiet (p.memsz - p.filesz) p.filesz
    (putBytes p.vaddr (imgByte img p.off) p.filesz 0 m).2 fun k _ hk' => by
      rw [hmod k (by omega), hsame.phys, hsame.isTable]
      exact htable k (by omega)).2
  unfold fillBytes
  dsimp only
  by_cases hfirst : (putBytes p.vaddr (imgByte img p.off) p.filesz 0 m).1 = false
  · rw [if_pos hfirst]
  · rw [if_neg hfirst]
    refine hstop2 ⟨o, ?_, by omega, by rw [hmod o ho, hsame.phys, hgap]⟩
    by_contra hin
    exact hfirst (hstop ⟨o, Nat.zero_le _, by omega, by rw [hmod o ho, hgap]⟩)

/-- The byte that belongs at offset `o` of the segment. -/
def Phdr.byte (p : Phdr) (img : Nat) (m : Mach) (o : Nat) : Nat :=
  if o < p.filesz then byteAt m ((img + p.off + o) % 2 ^ 64) else 0

theorem byte_lt (p : Phdr) (img : Nat) (m : Mach) (o : Nat) : p.byte img m o < 256 := by
  unfold Phdr.byte
  split
  · exact Nat.mod_lt _ (by decide)
  · decide

/-- **The loops over the bytes** of a segment whose pages are mapped. -/
theorem fillBytes_filled (hs : p.Sane) (hr : ¬ p.refused len) {m₁ m : Mach}
    {new : List Mapping} {l : List Nat}
    (hw₁ : Wf m₁) (h : Load (fun _ => True) m₁ new l [] m)
    (hpages : ∀ o < p.memsz, (p.vaddr + o) / 4096 ∈ pages new)
    (himg : ∀ o < p.filesz, ∀ m', Load (fun _ => True) m₁ new l [] m' →
      byteAt m' ((img + p.off + o) % 2 ^ 64) = byteAt m₁ ((img + p.off + o) % 2 ^ 64)) :
    Load (fun _ => True) m₁ new l [] (fillBytes img p m).2 ∧
      (∀ o < p.memsz, byteAt (fillBytes img p m).2 (vmmPhys (p.vaddr + o) m) = p.byte img m₁ o) ∧
      ∀ q, (∀ o < p.memsz, q ≠ vmmPhys (p.vaddr + o) m) →
        byteAt (fillBytes img p m).2 q = byteAt m q := by
  obtain ⟨hmin, hmax, hfile, -⟩ := bounds_of_not_refused hs hr
  unfold userMax at hmax
  obtain ⟨hload1, hok1, hin1, hout1⟩ := @putBytes_filled p.vaddr (imgByte img p.off) _ _ _ _ hw₁
    (p.byte img m₁) p.filesz 0 _ h (by omega) (fun k _ hk => hpages k (by omega)) (by
      intro k _ hk m' hm'
      refine ⟨hm'.look trivial, rfl, ?_, byte_lt p img m₁ k⟩
      unfold Phdr.byte
      rw [if_pos (by omega)]
      exact himg k (by omega) m' hm')
  obtain ⟨m₂, hm₂⟩ : ∃ m₂, (putBytes p.vaddr (imgByte img p.off) p.filesz 0 m).2 = m₂ := ⟨_, rfl⟩
  rw [hm₂] at hload1 hin1 hout1
  obtain ⟨hload2, hok2, hin2, hout2⟩ := @putBytes_filled p.vaddr zeroByte _ _ _ _ hw₁
    (p.byte img m₁) (p.memsz - p.filesz) p.filesz _ hload1 (by omega)
    (fun k _ hk => hpages k (by omega)) (by
      intro k hk _ m' hm'
      refine ⟨hm', rfl, ?_, byte_lt p img m₁ k⟩
      unfold Phdr.byte
      rw [if_neg (by omega)]
      rfl)
  have hrun : fillBytes img p m = putBytes p.vaddr zeroByte (p.memsz - p.filesz) p.filesz m₂ := by
    unfold fillBytes
    dsimp only
    rw [hok1, hm₂]
    exact if_neg (by simp)
  have hmove : ∀ o < p.memsz, vmmPhys (p.vaddr + o) m₂ = vmmPhys (p.vaddr + o) m := fun o ho =>
    h.phys_same hload1 (by omega)
  rw [hrun]
  refine ⟨hload2, fun o ho => ?_, fun q hq => ?_⟩
  · by_cases hfo : o < p.filesz
    · rw [hout2 _ fun k h1 h2 he => ?_, hin1 o (Nat.zero_le _) (by omega)]
      rw [hmove k (by omega)] at he
      have hinj := h.phys_inj (by omega) (by omega) (hpages o ho) (hpages k (by omega)) he
      omega
    · rw [← hmove o ho]
      exact hin2 o (by omega) (by omega)
  · rw [hout2 q fun k h1 h2 => ?_, hout1 q fun k _ h2 => hq k (by omega)]
    rw [hmove k (by omega)]
    exact hq k (by omega)

/-- What the load of segment `p` from state `m` on has come to in `m'`: its pages are mapped, each
to the frame it was given, its bytes are there, and nothing else was written. -/
structure Filled (img : Nat) (p : Phdr) (m m' : Mach) (new : List Mapping) (l : List Nat) :
    Prop where
  load : Load (fun _ => True) m new l [] m'
  made : made new = p.wanted
  frame : ∀ x ∈ new, x.frame = frameOf p.writeFlag x.page p.pageCount p.first m
  bytes : ∀ o < p.memsz, byteAt m' (vmmPhys (p.vaddr + o) m') = p.byte img m o
  rest : ∀ f o, o < 4096 → ¬ IsTable m' f →
    (∀ k < p.memsz, f * 4096 + o ≠ vmmPhys (p.vaddr + k) m') →
    byteAt m' (f * 4096 + o) = byteAt m (f * 4096 + o)

/-- **One segment** that was loaded, from the state in which its header is met. -/
theorem fillSegment_filled (hskip : ¬ p.skipped) (hs : p.Sane) (hr : ¬ p.refused len)
    {m : Mach} (hm : Paged m)
    (hnull : 0 ∉ supply m.pmm)
    (himg : ∀ o < p.filesz, ¬ IsTable m ((img + p.off + o) % 2 ^ 64 / 4096) ∧
      (img + p.off + o) % 2 ^ 64 / 4096 ∉ supply m.pmm)
    (hsplit : Splits p.writeFlag p.pageCount p.first m) (hok : (fillSegment img p m).1 = true) :
    ∃ new l, Filled img p m (fillSegment img p m).2 new l := by
  have hcount := pageCount_le hs hr
  rw [fillSegment_eq] at hok ⊢
  by_cases hmap : (mapPages p.writeFlag p.pageCount p.first m).1 = false
  · rw [if_pos hmap] at hok
    exact absurd hok (by simp)
  · rw [if_neg hmap] at hok ⊢
    have hdone : (mapPages p.writeFlag p.pageCount p.first m).1 = true := by simpa using hmap
    have hcases := mapPages_done hm hnull p.writeFlag (Load.refl (I := fun _ => True) hm.wf)
      (show p.vaddr / 4096 + p.pageCount ≤ 2 ^ 27 by omega) hsplit hdone
    rw [← Phdr.first] at hcases
    have hbytes : ∀ {n : List Mapping} {l : List Nat} {m' : Mach},
      Load (fun _ => True) m n l [] m' →
        ∀ o < p.filesz, byteAt m' ((img + p.off + o) % 2 ^ 64) =
          byteAt m ((img + p.off + o) % 2 ^ 64) := by
      intro n l m' hload o ho
      have hkeep := (hload.untouched (himg o ho).2 (himg o ho).1).2.2
      unfold byteAt
      rw [hkeep]
    rcases hcases with ⟨new, l, hload, hmade, hframes, hmem⟩ | ⟨k, new, l, f, mk, hk,
      hload, hmade, hspread, habsent⟩
    · rw [List.append_nil, List.nil_append] at hload
      have hpages : ∀ o < p.memsz, (p.vaddr + o) / 4096 ∈ pages new := fun o ho =>
        (wanted_page hmade).mpr (covered hs hr ho)
      obtain ⟨hload', hin, hout⟩ := fillBytes_filled hs hr hm.wf hload hpages fun o ho m' hm' =>
        hbytes hm' o ho
      obtain ⟨-, hmax, -⟩ := bounds_of_not_refused hs hr
      unfold userMax at hmax
      have hmove : ∀ o < p.memsz, vmmPhys (p.vaddr + o) (fillBytes img p
          (mapPages p.writeFlag p.pageCount p.first m).2).2 =
          vmmPhys (p.vaddr + o) (mapPages p.writeFlag p.pageCount p.first m).2 := fun o ho =>
        hload.phys_same hload' (by omega)
      refine ⟨new, l, hload', hmade, hframes, fun o ho => ?_, fun g o ho hg hne => ?_⟩
      · rw [hmove o ho]
        exact hin o ho
      · rw [hout _ fun k hk => ?_]
        · refine byteAt_congr ho (hmem g fun hin => hg ?_)
          exact (hload'.table g).mpr ((hload.table g).mp hin)
        · rw [← hmove k hk]
          exact hne k hk
    · rw [List.append_nil] at hload
      rw [fillBytes_gap hskip hs hr hm.wf hk hload hmade hspread habsent] at hok
      exact absurd hok (by simp)

end Segment

end InaneOS.Mem
